import EnvFile.Proofs.Resolution.Winners

/-!
# What is looked up in the environment

The environment is asked while references are linked, and only then: for the keys that the winning
values refer to as they were written, and only for those that the source does not define
(`IsExternal`).  No text that is put together later is ever looked up.  So what a run comes to is
the same against two environments that agree on these keys (`run_congr`).
-/

namespace EnvFile

open Value

/-- A key that no definition defines, but that a winning value refers to and is not verbatim. -/
def IsExternal (definitions : List Definition) (overwrite : Bool) (key : Text) : Prop :=
  key ∉ definedKeys definitions ∧
    ∃ definition ∈ winners definitions overwrite, definition.isVerbatim = false ∧
      key ∈ names definition.value

theorem IsExternal.isName {definitions : List Definition} {overwrite : Bool} {key : Text}
    (external : IsExternal definitions overwrite key) : IsName key := by
  obtain ⟨_, _, _, _, member⟩ := external
  exact isName_of_mem_names member

namespace Resolution

variable {lookup other : Text → Option Text}

theorem follow_congr {state : Resolution} {key : Text} (position : Position)
    (same : state.bindings.contains key = false → lookup key = other key) :
    follow lookup state key position = follow other state key position := by
  unfold follow
  cases bound : state.bindings.contains key with
  | true => rfl
  | false => rw [same bound]

theorem followAll_congr {state : Resolution} {references : List (Text × Position)}
    (same : ∀ reference ∈ references, state.bindings.contains reference.1 = false →
      lookup reference.1 = other reference.1) :
    followAll lookup state references = followAll other state references := by
  induction references generalizing state with
  | nil => rfl
  | cons reference references ih =>
      have first := follow_congr reference.2 (same reference List.mem_cons_self)
      have rest : followAll lookup (follow lookup state reference.1 reference.2).1 references =
          followAll other (follow lookup state reference.1 reference.2).1 references := by
        refine ih fun later member unbound => same later (List.mem_cons_of_mem reference member) ?_
        rw [← Bool.not_eq_true, OrderedMap.contains_iff] at unbound ⊢
        exact fun bound =>
          unbound ((isPrefix_keys_follow lookup state reference.1 reference.2).subset bound)
      simp only [followAll, ← first, rest]

theorem linkKey_congr {state : Resolution} {key : Text}
    (same : ∀ binding, state.bindings.find? key = some binding → binding.isInterpreted = true →
      ∀ name ∈ names binding.value, state.bindings.contains name = false →
        lookup name = other name) :
    linkKey lookup state key = linkKey other state key := by
  rcases exists_isInterpreted_or state.bindings key with ⟨binding, found, interpreted⟩ | passed
  · have followed : followAll lookup state (references binding.value binding.position) =
        followAll other state (references binding.value binding.position) := by
      refine followAll_congr fun reference member => same binding found interpreted _ ?_
      rw [← map_fst_references binding.value binding.position]
      exact List.mem_map_of_mem member
    rw [linkKey_of_isInterpreted found interpreted, linkKey_of_isInterpreted found interpreted,
      followed]
  · rw [linkKey_of_not_isInterpreted passed, linkKey_of_not_isInterpreted passed]

/-- The value of a key that has not been linked is looked at as it was written. -/
theorem Linked.linkKey_congr {dictionary : Dictionary} {scanned : List (Text × Position)}
    {processed : List Text} {state : Resolution}
    (linked : Linked dictionary lookup scanned processed state) {key : Text}
    {definition : Definition} (found : dictionary key = some definition) (fresh : key ∉ processed)
    (same : ∀ name ∈ definition.names, dictionary name = none → lookup name = other name) :
    Resolution.linkKey lookup state key = Resolution.linkKey other state key := by
  refine Resolution.linkKey_congr fun binding bound interpreted name member unbound => ?_
  have written := linked.find?_of_some key definition found
  rw [if_neg fresh, bound] at written
  obtain rfl : binding = .ofDefinition definition := Option.some.inj written
  have undefined : dictionary name = none := by
    rw [← Option.not_isSome_iff_eq_none]
    intro named
    simp [(linked.contains_iff name).mpr (.inl named)] at unbound
  have not_verbatim : definition.isVerbatim = false := by
    simpa [Binding.isInterpreted, Binding.isLocal, Binding.ofDefinition, Binding.ofSource]
      using interpreted
  refine same name ?_ undefined
  rw [Definition.names, not_verbatim]
  exact member

theorem Linked.foldl_linkKey_congr {dictionary : Dictionary} {keys : List Text}
    {state : Resolution} (linked : Linked dictionary lookup [] [] state)
    (defined : ∀ key ∈ keys, (dictionary key).isSome) (nodup : keys.Nodup)
    (same : ∀ key definition, dictionary key = some definition →
      ∀ name ∈ definition.names, dictionary name = none → lookup name = other name) :
    keys.foldl (Resolution.linkKey lookup) state =
      keys.foldl (Resolution.linkKey other) state := by
  refine linked.foldl_linkKey_induction
    (motive := fun _ processed reached =>
      reached = processed.foldl (Resolution.linkKey other) state) ?_ defined nodup rfl
  intro scanned processed reached key definition linked found fresh reached_eq
  rw [List.foldl_append, ← reached_eq]
  exact linked.linkKey_congr found fresh (same key definition found)

theorem link_congr {definitions : List Definition} {overwrite : Bool}
    (same : ∀ key, IsExternal definitions overwrite key → lookup key = other key) :
    (defineAll {} definitions overwrite).link lookup =
      (defineAll {} definitions overwrite).link other := by
  suffices folded : (definedKeys definitions).foldl (linkKey lookup)
      (defineAll {} definitions overwrite) =
        (definedKeys definitions).foldl (linkKey other) (defineAll {} definitions overwrite) by
    rw [link, keys_defineAll, folded, link, keys_defineAll]
  refine (linked_defineAll definitions overwrite lookup).foldl_linkKey_congr
    (fun key => (Dictionary.isSome_ofDefinitions_iff definitions overwrite key).mpr)
    (nodup_definedKeys definitions) ?_
  intro key definition found name member undefined
  cases verbatim : definition.isVerbatim with
  | true => simp [Definition.names, verbatim] at member
  | false =>
      refine same name ⟨?_, definition, ?_, verbatim, ?_⟩
      · rw [← Dictionary.isSome_ofDefinitions_iff definitions overwrite, undefined]
        exact Bool.false_ne_true
      · rw [mem_winners_iff, Dictionary.key_eq_of_ofDefinitions_eq_some found, found]
      · simpa [Definition.names, verbatim] using member

/-- A run depends on the environment only through the external keys. -/
theorem run_congr {definitions : List Definition} {options : Options}
    (same : ∀ key, IsExternal definitions options.overwrite key → lookup key = other key) :
    run {} definitions options lookup = run {} definitions options other := by
  rw [run, run, link_congr same]

end Resolution
end EnvFile
