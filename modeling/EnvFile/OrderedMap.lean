/-!
# Maps in insertion order

A finite map whose entries keep the order in which their keys were first inserted: a new key goes
to the end, and a key that is already there keeps its place and takes the new value.  The view of
a map is its list of entries; each operation comes with its effect on the keys and on look-up.
-/

namespace EnvFile

/-- A finite map whose entries stand in the order of first insertion. -/
structure OrderedMap (κ ν : Type) where
  /-- The keys with their values, in order. -/
  entries : List (κ × ν)
  /-- No key stands twice. -/
  nodup : (entries.map Prod.fst).Nodup

namespace OrderedMap

variable {κ ν : Type}

@[ext]
theorem ext {first second : OrderedMap κ ν} (same : first.entries = second.entries) :
    first = second := by
  cases first
  cases second
  simp_all

/-- The map without entries. -/
def empty : OrderedMap κ ν where
  entries := []
  nodup := by simp

instance : Inhabited (OrderedMap κ ν) := ⟨empty⟩

/-- The keys, in order. -/
def keys (map : OrderedMap κ ν) : List κ :=
  map.entries.map Prod.fst

/-- Number of entries. -/
def size (map : OrderedMap κ ν) : Nat :=
  map.entries.length

/-- Whether the map has no entry. -/
def isEmpty (map : OrderedMap κ ν) : Bool :=
  map.entries.isEmpty

/-- Change every value. -/
def mapValues (map : OrderedMap κ ν) (f : ν → ν) : OrderedMap κ ν where
  entries := map.entries.map fun entry => (entry.1, f entry.2)
  nodup := by
    rw [List.map_map]
    exact map.nodup

@[simp]
theorem keys_mapValues (map : OrderedMap κ ν) (f : ν → ν) : (map.mapValues f).keys = map.keys := by
  simp [keys, mapValues, Function.comp_def]

@[simp]
theorem keys_empty : (empty : OrderedMap κ ν).keys = [] := rfl

theorem nodup_keys (map : OrderedMap κ ν) : map.keys.Nodup :=
  map.nodup

section Decidable

variable [DecidableEq κ]

/-- Replace the value of a key in its place, or put the pair at the end. -/
def place : List (κ × ν) → κ → ν → List (κ × ν)
  | [], key, value => [(key, value)]
  | (other, old) :: rest, key, value =>
      if other = key then (key, value) :: rest else (other, old) :: place rest key value

/-- Change the value of one key. -/
def change (entries : List (κ × ν)) (key : κ) (f : ν → ν) : List (κ × ν) :=
  entries.map fun entry => if entry.1 = key then (entry.1, f entry.2) else entry

theorem map_fst_place (entries : List (κ × ν)) (key : κ) (value : ν) :
    (place entries key value).map Prod.fst =
      if key ∈ entries.map Prod.fst then entries.map Prod.fst
      else entries.map Prod.fst ++ [key] := by
  induction entries with
  | nil => simp [place]
  | cons entry rest ih =>
      obtain ⟨other, old⟩ := entry
      by_cases same : other = key
      · simp [place, same]
      · have differ : ¬ key = other := fun h => same h.symm
        simp only [place, same, ↓reduceIte, List.map_cons, ih, List.mem_cons, differ, false_or]
        split <;> simp

theorem map_fst_change (entries : List (κ × ν)) (key : κ) (f : ν → ν) :
    (change entries key f).map Prod.fst = entries.map Prod.fst := by
  simp only [change, List.map_map]
  apply List.map_congr_left
  intro entry _
  simp only [Function.comp]
  split <;> rfl

/-- The value of a key, if the key is there. -/
def find? (map : OrderedMap κ ν) (key : κ) : Option ν :=
  map.entries.lookup key

/-- Whether a key is there. -/
def contains (map : OrderedMap κ ν) (key : κ) : Bool :=
  (map.find? key).isSome

/-- Give a key a value, in the place of the key if it has one and at the end otherwise. -/
def insert (map : OrderedMap κ ν) (key : κ) (value : ν) : OrderedMap κ ν where
  entries := place map.entries key value
  nodup := by
    rw [map_fst_place]
    split
    · exact map.nodup
    · rename_i absent
      refine List.nodup_append.mpr ⟨map.nodup, by simp, ?_⟩
      intro other member key' member'
      rw [List.mem_singleton] at member'
      rintro rfl
      exact absent (member' ▸ member)

/-- Change the value of a key, if the key is there. -/
def modify (map : OrderedMap κ ν) (key : κ) (f : ν → ν) : OrderedMap κ ν where
  entries := change map.entries key f
  nodup := by
    rw [map_fst_change]
    exact map.nodup

/-- Insert pairs from left to right: a repeated key keeps its place and takes its last value. -/
def ofList (pairs : List (κ × ν)) : OrderedMap κ ν :=
  pairs.foldl (fun map pair => map.insert pair.1 pair.2) empty

@[simp]
theorem find?_empty (key : κ) : (empty : OrderedMap κ ν).find? key = none := rfl

theorem find?_eq_some_iff (map : OrderedMap κ ν) (key : κ) (value : ν) :
    map.find? key = some value ↔ (key, value) ∈ map.entries := by
  obtain ⟨entries, nodup⟩ := map
  simp only [find?]
  induction entries with
  | nil => simp
  | cons entry rest ih =>
      obtain ⟨other, old⟩ := entry
      simp only [List.map_cons, List.nodup_cons] at nodup
      by_cases same : key = other
      · subst same
        simp only [List.lookup_cons, beq_self_eq_true, Option.some.injEq, List.mem_cons,
          Prod.mk.injEq, true_and]
        constructor
        · exact fun h => .inl h.symm
        · rintro (h | member)
          · exact h.symm
          · exact absurd (List.mem_map_of_mem (f := Prod.fst) member) nodup.1
      · have no_match : (key == other) = false := by simp [same]
        simp only [List.lookup_cons, no_match, List.mem_cons, Prod.mk.injEq, same, false_and,
          false_or]
        exact ih nodup.2

theorem mem_keys_iff (map : OrderedMap κ ν) (key : κ) :
    key ∈ map.keys ↔ ∃ value, map.find? key = some value := by
  simp [keys, find?_eq_some_iff]

theorem find?_eq_none_iff (map : OrderedMap κ ν) (key : κ) :
    map.find? key = none ↔ key ∉ map.keys := by
  rw [mem_keys_iff]
  cases map.find? key <;> simp

theorem contains_iff (map : OrderedMap κ ν) (key : κ) :
    map.contains key = true ↔ key ∈ map.keys := by
  rw [mem_keys_iff, contains, Option.isSome_iff_exists]

theorem keys_insert (map : OrderedMap κ ν) (key : κ) (value : ν) :
    (map.insert key value).keys = if key ∈ map.keys then map.keys else map.keys ++ [key] :=
  map_fst_place map.entries key value

@[simp]
theorem keys_modify (map : OrderedMap κ ν) (key : κ) (f : ν → ν) :
    (map.modify key f).keys = map.keys :=
  map_fst_change map.entries key f

theorem lookup_place (entries : List (κ × ν)) (key other : κ) (value : ν) :
    (place entries key value).lookup other =
      if other = key then some value else entries.lookup other := by
  induction entries with
  | nil =>
      by_cases same : other = key
      · simp [place, same]
      · have no_match : (other == key) = false := by simpa using same
        simp [place, List.lookup_cons, same, no_match]
  | cons entry rest ih =>
      obtain ⟨first, old⟩ := entry
      by_cases here : first = key
      · subst here
        by_cases same : other = first
        · simp [place, same]
        · have no_match : (other == first) = false := by simpa using same
          simp [place, List.lookup_cons, same, no_match]
      · by_cases same : other = first
        · subst same
          simp [place, here]
        · have no_match : (other == first) = false := by simpa using same
          simp [place, here, List.lookup_cons, no_match, ih]

theorem find?_insert (map : OrderedMap κ ν) (key other : κ) (value : ν) :
    (map.insert key value).find? other = if other = key then some value else map.find? other :=
  lookup_place map.entries key other value

theorem lookup_change (entries : List (κ × ν)) (key other : κ) (f : ν → ν) :
    (change entries key f).lookup other =
      if other = key then (entries.lookup other).map f else entries.lookup other := by
  induction entries with
  | nil => simp [change]
  | cons entry rest ih =>
      obtain ⟨first, old⟩ := entry
      by_cases same : other = first
      · subst same
        by_cases here : other = key <;> simp [change, here]
      · have no_match : (other == first) = false := by simpa using same
        have skip : change ((first, old) :: rest) key f =
            (first, if first = key then f old else old) :: change rest key f := by
          simp only [change, List.map_cons]
          split <;> rfl
        rw [skip, List.lookup_cons, no_match]
        simpa [List.lookup_cons, no_match] using ih

theorem find?_modify (map : OrderedMap κ ν) (key other : κ) (f : ν → ν) :
    (map.modify key f).find? other =
      if other = key then (map.find? other).map f else map.find? other :=
  lookup_change map.entries key other f

theorem lookup_map (entries : List (κ × ν)) (f : ν → ν) (key : κ) :
    (entries.map fun entry => (entry.1, f entry.2)).lookup key = (entries.lookup key).map f := by
  induction entries with
  | nil => rfl
  | cons entry rest ih =>
      obtain ⟨first, old⟩ := entry
      by_cases same : key = first
      · simp [same]
      · have no_match : (key == first) = false := by simpa using same
        simp [List.lookup_cons, no_match, ih]

theorem find?_mapValues (map : OrderedMap κ ν) (f : ν → ν) (key : κ) :
    (map.mapValues f).find? key = (map.find? key).map f :=
  lookup_map map.entries f key

theorem entries_insert_of_find?_eq_none {map : OrderedMap κ ν} {key : κ}
    (absent : map.find? key = none) (value : ν) :
    (map.insert key value).entries = map.entries ++ [(key, value)] := by
  rw [find?_eq_none_iff] at absent
  change place map.entries key value = _
  change key ∉ map.entries.map Prod.fst at absent
  generalize map.entries = entries at absent
  induction entries with
  | nil => rfl
  | cons entry entries ih =>
      obtain ⟨other, old⟩ := entry
      rw [List.map_cons, List.mem_cons, not_or] at absent
      rw [place, if_neg (Ne.symm absent.1), ih absent.2]
      rfl

theorem insert_eq_self {map : OrderedMap κ ν} {key : κ} {value : ν}
    (found : map.find? key = some value) : map.insert key value = map := by
  apply ext
  change place map.entries key value = map.entries
  change map.entries.lookup key = some value at found
  generalize map.entries = entries at found
  induction entries with
  | nil => simp at found
  | cons entry entries ih =>
      obtain ⟨other, old⟩ := entry
      by_cases same : other = key
      · subst same
        obtain rfl : old = value := by simpa using found
        rw [place, if_pos rfl]
      · have no_match : (key == other) = false := by simpa using Ne.symm same
        rw [place, if_neg same, ih (by simpa [List.lookup_cons, no_match] using found)]

/-- The entries are known from the order of the keys and the value of each. -/
theorem entries_eq_map {α : Type} {map : OrderedMap κ ν} {items : List α} {key : α → κ}
    {value : α → ν} (keys_eq : map.keys = items.map key)
    (found : ∀ item ∈ items, map.find? (key item) = some (value item)) :
    map.entries = items.map fun item => (key item, value item) := by
  obtain ⟨entries, nodup⟩ := map
  simp only [find?_eq_some_iff] at found
  change entries.map Prod.fst = items.map key at keys_eq
  induction items generalizing entries with
  | nil => simpa using keys_eq
  | cons item items ih =>
      cases entries with
      | nil => simp at keys_eq
      | cons entry entries =>
          obtain ⟨first, rest⟩ := List.cons.inj keys_eq
          rw [List.map_cons, List.nodup_cons] at nodup
          have entry_eq : entry = (key item, value item) := by
            rcases List.mem_cons.mp (found item List.mem_cons_self) with same | member
            · exact same.symm
            · exact absurd (first ▸ List.mem_map_of_mem (f := Prod.fst) member) nodup.1
          have rest_eq := ih entries nodup.2 ?_ rest
          · change entry :: entries = _
            rw [List.map_cons, entry_eq, ← rest_eq]
          intro other listed
          have other_found := found other (List.mem_cons_of_mem item listed)
          rcases List.mem_cons.mp other_found with same | member
          · have again : key item ∈ entries.map Prod.fst := by
              rw [rest, ← show key other = key item by rw [← first, ← same]]
              exact List.mem_map_of_mem listed
            exact absurd (first ▸ again) nodup.1
          · exact member

end Decidable

end OrderedMap
end EnvFile
