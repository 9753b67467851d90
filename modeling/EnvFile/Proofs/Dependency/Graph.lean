import EnvFile.Definition
import EnvFile.Proofs.Value.Decoding
import EnvFile.Value.Occurrence
import Mathlib.Data.Finset.Card
import Mathlib.Logic.Relation

/-!
# The graph of references

A defined key refers to the defined keys that its value names, unless the value is verbatim.  As
only finitely many keys are defined, a key leads to a cycle exactly if some chain of references from
it never ends: what is inherited against the references holds of all other keys
(`Dictionary.induction_of_not_leadsToCycle`), and a set of keys that each refer to another one of
the set holds none but keys that lead to a cycle (`Dictionary.leadsToCycle_of_trapped`).
-/

namespace EnvFile

/-- The names that the value of a definition refers to; a verbatim value refers to nothing. -/
def Definition.names (definition : Definition) : List Text :=
  if definition.isVerbatim then [] else Value.names definition.value

/-- The references of the value of a definition with their places. -/
def Definition.references (definition : Definition) : List (Text × Position) :=
  if definition.isVerbatim then [] else Value.references definition.value definition.position

theorem Value.map_fst_references (value : Text) (origin : Position) :
    (references value origin).map Prod.fst = names value := by
  have by_token : ∀ (start : Nat) (position : Position) (tokens : List Token),
      ((occurrencesOf start position tokens).filterMap Occurrence.reference?).map Prod.fst =
        tokens.filterMap Token.reference? := by
    intro start position tokens
    induction tokens generalizing start position with
    | nil => rfl
    | cons token tokens ih =>
        have ih := ih (start + token.text.utf8Length) (position.after token.text)
        cases token with
        | escape c =>
            simp only [occurrencesOf, Token.meaning?]
            cases decodeEscape c <;> exact ih
        | braced name =>
            simp [occurrencesOf, Token.meaning?, Occurrence.reference?, Token.reference?, ih]
        | bare name =>
            simp [occurrencesOf, Token.meaning?, Occurrence.reference?, Token.reference?, ih]
        | _ => exact ih
  exact by_token 0 origin (lex value)

theorem Definition.map_fst_references (definition : Definition) :
    definition.references.map Prod.fst = definition.names := by
  unfold references names
  split
  · rfl
  · exact Value.map_fst_references _ _

/-- The definition that binds each key. -/
abbrev Dictionary := Text → Option Definition

theorem eraseDups_append_singleton (keys : List Text) (key : Text) :
    (keys ++ [key]).eraseDups =
      if key ∈ keys then keys.eraseDups else keys.eraseDups ++ [key] := by
  rw [List.eraseDups_append, List.removeAll]
  by_cases known : key ∈ keys
  · rw [if_pos known, List.filter_cons_of_neg (by simpa using known), List.filter_nil,
      List.eraseDups_nil, List.append_nil]
  · rw [if_neg known, List.filter_cons_of_pos (by simpa using known), List.filter_nil,
      List.eraseDups_cons, List.filter_nil, List.eraseDups_nil]

/-- The keys of definitions in the order in which they are defined first. -/
def definedKeys (definitions : List Definition) : List Text :=
  (definitions.map Definition.key).eraseDups

theorem definedKeys_of_nodup {definitions : List Definition}
    (nodup : (definitions.map Definition.key).Nodup) :
    definedKeys definitions = definitions.map Definition.key := by
  rw [definedKeys]
  generalize definitions.map Definition.key = keys at nodup ⊢
  induction keys with
  | nil => rfl
  | cons key keys ih =>
      rw [List.nodup_cons] at nodup
      have others : keys.filter (fun other => !other == key) = keys := by
        rw [List.filter_eq_self]
        intro other member
        simpa using fun same : other = key => nodup.1 (same ▸ member)
      rw [List.eraseDups_cons, others, ih nodup.2]

namespace Dictionary

/-- The last definition of each key if later definitions overwrite earlier ones, or else the first.
-/
def ofDefinitions (definitions : List Definition) (overwrite : Bool) : Dictionary := fun key =>
  if overwrite then definitions.reverse.find? fun definition => definition.key = key
  else definitions.find? fun definition => definition.key = key

theorem isSome_ofDefinitions_iff (definitions : List Definition) (overwrite : Bool) (key : Text) :
    (ofDefinitions definitions overwrite key).isSome ↔ key ∈ definedKeys definitions := by
  unfold ofDefinitions definedKeys
  rw [List.mem_eraseDups, List.mem_map]
  cases overwrite <;> simp [List.find?_isSome]

theorem mem_of_ofDefinitions_eq_some {definitions : List Definition} {overwrite : Bool} {key : Text}
    {definition : Definition} (found : ofDefinitions definitions overwrite key = some definition) :
    definition ∈ definitions := by
  unfold ofDefinitions at found
  split at found
  · exact List.mem_reverse.mp (List.mem_of_find?_eq_some found)
  · exact List.mem_of_find?_eq_some found

/-- If no key is defined twice, each definition wins. -/
theorem ofDefinitions_eq_some_iff {definitions : List Definition}
    (nodup : (definitions.map Definition.key).Nodup) (overwrite : Bool) (key : Text)
    (definition : Definition) :
    ofDefinitions definitions overwrite key = some definition ↔
      definition ∈ definitions ∧ definition.key = key := by
  have unique : ∀ first ∈ definitions, ∀ second ∈ definitions, first.key = second.key →
      first = second := fun first member second member' =>
    List.inj_on_of_nodup_map nodup member member'
  have found_iff : ∀ tried : List Definition, (∀ other, other ∈ tried ↔ other ∈ definitions) →
      (tried.find? (fun other => other.key = key) = some definition ↔
        definition ∈ definitions ∧ definition.key = key) := by
    intro tried same
    constructor
    · intro found
      refine ⟨(same definition).mp (List.mem_of_find?_eq_some found), ?_⟩
      simpa using List.find?_some found
    · rintro ⟨member, rfl⟩
      cases found : tried.find? (fun other => other.key = definition.key) with
      | none =>
          rw [List.find?_eq_none] at found
          simpa using found definition ((same definition).mpr member)
      | some other =>
          have other_member := (same other).mp (List.mem_of_find?_eq_some found)
          have same_key : other.key = definition.key := by simpa using List.find?_some found
          rw [unique other other_member definition member same_key]
  unfold ofDefinitions
  cases overwrite with
  | true => exact found_iff definitions.reverse fun _ => List.mem_reverse
  | false => exact found_iff definitions fun _ => Iff.rfl

/-- The references in the values of some keys, key by key and from left to right. -/
def scan (dictionary : Dictionary) (keys : List Text) : List (Text × Position) :=
  keys.flatMap fun key => ((dictionary key).map Definition.references).getD []

theorem mem_map_fst_scan {dictionary : Dictionary} {keys : List Text} {key name : Text}
    {definition : Definition} (member : key ∈ keys) (found : dictionary key = some definition)
    (mentioned : name ∈ definition.names) : name ∈ (dictionary.scan keys).map Prod.fst := by
  rw [← definition.map_fst_references, List.mem_map] at mentioned
  obtain ⟨reference, is_reference, rfl⟩ := mentioned
  apply List.mem_map_of_mem
  exact List.mem_flatMap.mpr ⟨key, member, by simpa [found] using is_reference⟩

/-- The value of a defined key refers to another defined key. -/
def Refers (dictionary : Dictionary) (key other : Text) : Prop :=
  (∃ definition, dictionary key = some definition ∧ other ∈ definition.names) ∧
    (dictionary other).isSome

/-- From the key one comes to a key that refers to itself, directly or through others. -/
def LeadsToCycle (dictionary : Dictionary) (key : Text) : Prop :=
  ∃ other, Relation.ReflTransGen dictionary.Refers key other ∧
    Relation.TransGen dictionary.Refers other other

/-- References that all go to keys of a higher rank make no cycle. -/
theorem not_leadsToCycle_of_rank {definitions : List Definition}
    (nodup : (definitions.map Definition.key).Nodup) (rank : Text → Nat)
    (rises : ∀ definition ∈ definitions, ∀ name ∈ definition.names,
      name ∈ definitions.map Definition.key → rank definition.key < rank name)
    (overwrite : Bool) (key : Text) :
    ¬ (ofDefinitions definitions overwrite).LeadsToCycle key := by
  rintro ⟨other, _, cycle⟩
  have step : ∀ key other, (ofDefinitions definitions overwrite).Refers key other →
      rank key < rank other := by
    rintro key other ⟨⟨definition, found, mentioned⟩, defined⟩
    obtain ⟨listed, rfl⟩ :=
      (ofDefinitions_eq_some_iff nodup overwrite key definition).mp found
    rw [isSome_ofDefinitions_iff, definedKeys_of_nodup nodup] at defined
    exact rises definition listed other mentioned defined
  have path : ∀ last, Relation.TransGen (ofDefinitions definitions overwrite).Refers other last →
      rank other < rank last := by
    intro last path
    induction path with
    | single refers => exact step _ _ refers
    | tail _ refers ih => exact ih.trans (step _ _ refers)
  exact absurd (path other cycle) (lt_irrefl _)

section Finite

variable {dictionary : Dictionary} {keys : List Text}

theorem LeadsToCycle.of_refers {key other : Text} (refers : dictionary.Refers key other)
    (leads : dictionary.LeadsToCycle other) : dictionary.LeadsToCycle key := by
  obtain ⟨target, path, cycle⟩ := leads
  exact ⟨target, .head refers path, cycle⟩

/-- A key that leads to a cycle refers to one that does. -/
theorem LeadsToCycle.exists_refers {key : Text} (leads : dictionary.LeadsToCycle key) :
    ∃ other, dictionary.Refers key other ∧ dictionary.LeadsToCycle other := by
  obtain ⟨target, path, cycle⟩ := leads
  rcases path.cases_head with rfl | ⟨other, refers, rest⟩
  · obtain ⟨other, refers, back⟩ := Relation.TransGen.head'_iff.mp cycle
    exact ⟨other, refers, key, back, cycle⟩
  · exact ⟨other, refers, target, rest, cycle⟩

theorem LeadsToCycle.isSome {key : Text} (leads : dictionary.LeadsToCycle key) :
    (dictionary key).isSome := by
  obtain ⟨other, ⟨⟨definition, found, _⟩, _⟩, _⟩ := leads.exists_refers
  simp [found]

open Classical in
/-- The defined keys to which one comes from a key. -/
noncomputable def reached (dictionary : Dictionary) (keys : List Text) (key : Text) :
    Finset Text :=
  keys.toFinset.filter (Relation.ReflTransGen dictionary.Refers key)

theorem card_reached_le (dictionary : Dictionary) (keys : List Text) (key : Text) :
    (dictionary.reached keys key).card ≤ keys.length := by
  classical
  exact (Finset.card_filter_le _ _).trans keys.toFinset_card_le

/-- Away from cycles, a reference comes to fewer keys than the key it stands in. -/
theorem card_reached_lt (finite : ∀ key, (dictionary key).isSome → key ∈ keys) {key other : Text}
    (acyclic : ¬ dictionary.LeadsToCycle key) (refers : dictionary.Refers key other) :
    (dictionary.reached keys other).card < (dictionary.reached keys key).card := by
  apply Finset.card_lt_card
  rw [Finset.ssubset_iff_of_subset]
  · have defined : (dictionary key).isSome := by
      obtain ⟨⟨definition, found, _⟩, _⟩ := refers
      simp [found]
    refine ⟨key, ?_, ?_⟩
    · simp [reached, finite key defined, Relation.ReflTransGen.refl]
    · intro member
      have back : Relation.ReflTransGen dictionary.Refers other key := by
        simpa [reached, finite key defined] using member
      exact acyclic ⟨key, .refl, .head' refers back⟩
  · intro target member
    simp only [reached, Finset.mem_filter] at member ⊢
    exact ⟨member.1, .head refers member.2⟩

/-- What a key inherits from the keys it refers to holds of every key that leads to no cycle. -/
theorem induction_of_not_leadsToCycle (finite : ∀ key, (dictionary key).isSome → key ∈ keys)
    {motive : Text → Prop}
    (step : ∀ key, ¬ dictionary.LeadsToCycle key →
      (∀ other, dictionary.Refers key other → motive other) → motive key)
    {key : Text} (acyclic : ¬ dictionary.LeadsToCycle key) : motive key := by
  induction size : (dictionary.reached keys key).card using Nat.strong_induction_on
    generalizing key with
  | h size' ih =>
      apply step key acyclic
      intro other refers
      have smaller := card_reached_lt finite acyclic refers
      exact ih _ (size ▸ smaller) (fun leads => acyclic (leads.of_refers refers)) rfl

/-- Keys that each refer to one of them lead to a cycle. -/
theorem leadsToCycle_of_trapped (finite : ∀ key, (dictionary key).isSome → key ∈ keys)
    (trapped : Text → Prop)
    (step : ∀ key, trapped key → ∃ other, dictionary.Refers key other ∧ trapped other)
    {key : Text} (start : trapped key) : dictionary.LeadsToCycle key := by
  by_contra acyclic
  refine induction_of_not_leadsToCycle finite (motive := fun key => ¬ trapped key) ?_ acyclic start
  intro key _ ih is_trapped
  obtain ⟨other, refers, other_trapped⟩ := step key is_trapped
  exact ih other refers other_trapped

end Finite

end Dictionary
end EnvFile
