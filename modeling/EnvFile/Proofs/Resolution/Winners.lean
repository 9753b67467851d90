import EnvFile.Evaluator
import EnvFile.Proofs.Resolution.Linking
import EnvFile.Proofs.Resolution.Rewriting

/-!
# The definitions that win

Of the definitions of a key one wins: the last if later definitions overwrite earlier ones, or else
the first.  The others leave no trace: a source is resolved as if it held the winning definitions
alone, in the order in which their keys are defined first (`run_winners`).

What resolving does to a binding leaves its heading as it is: its key, whether it is verbatim, and
its place.  Nor does it bind a key in the name of the source.  So the values are those of the
defined keys, whatever else gets bound on the way (`headings_run`, `map_fst_values_run`).
-/

namespace EnvFile

theorem Dictionary.key_eq_of_ofDefinitions_eq_some {definitions : List Definition}
    {overwrite : Bool} {key : Text} {definition : Definition}
    (found : ofDefinitions definitions overwrite key = some definition) : definition.key = key := by
  unfold ofDefinitions at found
  split at found <;> simpa using List.find?_some found

theorem Dictionary.exists_of_ofDefinitions_false {definitions : List Definition} {key : Text}
    {definition : Definition} (found : ofDefinitions definitions false key = some definition) :
    ∃ front back, definitions = front ++ definition :: back ∧ key ∉ front.map Definition.key := by
  obtain ⟨_, front, back, split, others⟩ := List.find?_eq_some_iff_append.mp found
  exact ⟨front, back, split, by simpa using others⟩

theorem Dictionary.exists_of_ofDefinitions_true {definitions : List Definition} {key : Text}
    {definition : Definition} (found : ofDefinitions definitions true key = some definition) :
    ∃ front back, definitions = front ++ definition :: back ∧ key ∉ back.map Definition.key := by
  obtain ⟨_, front, back, split, others⟩ := List.find?_eq_some_iff_append.mp found
  rw [List.reverse_eq_append_iff, List.reverse_cons, List.append_assoc] at split
  exact ⟨back.reverse, front.reverse, split, by simpa using others⟩

/-- The winning definitions of a source: one for each defined key, in the order in which the keys
are defined first.  It is the last one of its key if later definitions overwrite earlier ones, or
else the first. -/
structure Winning (definitions : List Definition) (overwrite : Bool) (winning : List Definition) :
    Prop where
  keys_eq : winning.map Definition.key = definedKeys definitions
  first : overwrite = false → ∀ definition ∈ winning, ∃ front back,
    definitions = front ++ definition :: back ∧ definition.key ∉ front.map Definition.key
  last : overwrite = true → ∀ definition ∈ winning, ∃ front back,
    definitions = front ++ definition :: back ∧ definition.key ∉ back.map Definition.key

/-- The definitions that win, in the order in which their keys are defined first. -/
def winners (definitions : List Definition) (overwrite : Bool) : List Definition :=
  (definedKeys definitions).filterMap (Dictionary.ofDefinitions definitions overwrite)

section Winners

variable {definitions : List Definition} {overwrite : Bool}

theorem mem_winners_iff {definition : Definition} :
    definition ∈ winners definitions overwrite ↔
      Dictionary.ofDefinitions definitions overwrite definition.key = some definition := by
  rw [winners, List.mem_filterMap]
  constructor
  · rintro ⟨key, _, found⟩
    rwa [Dictionary.key_eq_of_ofDefinitions_eq_some found]
  · intro found
    refine ⟨definition.key, ?_, found⟩
    rw [← Dictionary.isSome_ofDefinitions_iff definitions overwrite, found]
    rfl

theorem map_key_winners : (winners definitions overwrite).map Definition.key =
    definedKeys definitions := by
  have all_defined : ∀ key ∈ definedKeys definitions,
      (Dictionary.ofDefinitions definitions overwrite key).map Definition.key = some key := by
    intro key defined
    rw [← Dictionary.isSome_ofDefinitions_iff definitions overwrite, Option.isSome_iff_exists]
      at defined
    obtain ⟨definition, found⟩ := defined
    rw [found, Option.map_some, Dictionary.key_eq_of_ofDefinitions_eq_some found]
  rw [winners, List.map_filterMap, List.filterMap_congr all_defined, List.filterMap_some]

theorem winning_winners (definitions : List Definition) (overwrite : Bool) :
    Winning definitions overwrite (winners definitions overwrite) where
  keys_eq := map_key_winners
  first := by
    rintro rfl definition member
    exact Dictionary.exists_of_ofDefinitions_false (mem_winners_iff.mp member)
  last := by
    rintro rfl definition member
    exact Dictionary.exists_of_ofDefinitions_true (mem_winners_iff.mp member)

theorem nodup_map_key_winners : ((winners definitions overwrite).map Definition.key).Nodup := by
  rw [map_key_winners]
  exact Resolution.nodup_definedKeys definitions

theorem winners_of_nodup (nodup : (definitions.map Definition.key).Nodup) :
    winners definitions overwrite = definitions := by
  rw [winners, definedKeys_of_nodup nodup, List.filterMap_map]
  have all_win : ∀ definition ∈ definitions,
      (Dictionary.ofDefinitions definitions overwrite ∘ Definition.key) definition =
        some definition := fun definition listed =>
    (Dictionary.ofDefinitions_eq_some_iff nodup overwrite _ _).mpr ⟨listed, rfl⟩
  rw [List.filterMap_congr all_win, List.filterMap_some]

end Winners

namespace Resolution

theorem entries_defineAll (definitions : List Definition) (overwrite : Bool) :
    (defineAll {} definitions overwrite).bindings.entries =
      (winners definitions overwrite).map fun definition =>
        (definition.key, Binding.ofDefinition definition) := by
  apply OrderedMap.entries_eq_map
  · rw [keys_defineAll, map_key_winners]
  · intro definition wins
    rw [find?_defineAll, mem_winners_iff.mp wins]
    rfl

theorem defineAll_winners (definitions : List Definition) (overwrite : Bool) :
    defineAll {} (winners definitions overwrite) overwrite =
      defineAll {} definitions overwrite := by
  have same_bindings : (defineAll {} (winners definitions overwrite) overwrite).bindings =
      (defineAll {} definitions overwrite).bindings := by
    apply OrderedMap.ext
    rw [entries_defineAll, entries_defineAll, winners_of_nodup nodup_map_key_winners]
  rw [defineAll_eq {} (winners definitions overwrite), same_bindings, ← defineAll_eq]

/-- Only the definitions that win matter. -/
theorem run_winners (definitions : List Definition) (options : Options)
    (lookup : Text → Option Text) :
    run {} (winners definitions options.overwrite) options lookup =
      run {} definitions options lookup := by
  rw [run, run, defineAll_winners]

end Resolution

/-- What resolving leaves of a binding by the source as it is: whether it is verbatim, and the place
of its raw value. -/
def Binding.heading? (binding : Binding) : Option (Bool × Position) :=
  if binding.isLocal then some (binding.verbatim, binding.position) else none

theorem Binding.heading?_decode (binding : Binding) :
    binding.decode.heading? = binding.heading? := by
  rw [decode_eq]
  rfl

namespace Bindings

/-- The keys that the source binds, in order, each with the heading of its binding. -/
def headings (bindings : Bindings) : List (Text × Bool × Position) :=
  bindings.entries.filterMap fun entry => entry.2.heading?.map (Prod.mk entry.1)

variable {bindings : Bindings}

theorem map_fst_headings (bindings : Bindings) :
    bindings.headings.map Prod.fst = bindings.locals.map Prod.fst := by
  rw [headings, locals, List.map_filterMap, ← List.filterMap_eq_filter, List.map_filterMap]
  apply List.filterMap_congr
  rintro ⟨key, binding⟩ _
  by_cases isLocal : binding.isLocal = true <;> simp [Binding.heading?, isLocal]

theorem headings_define_ofEnvironment {key : Text} (unbound : bindings.contains key = false)
    (value : Text) :
    (bindings.define key (.ofEnvironment value) false).headings = bindings.headings := by
  have absent : bindings.find? key = none := by simpa [OrderedMap.contains] using unbound
  have inserted : bindings.define key (.ofEnvironment value) false =
      bindings.insert key (.ofEnvironment value) := by simp [define, admits, unbound]
  rw [inserted, headings, OrderedMap.entries_insert_of_find?_eq_none absent, List.filterMap_append]
  exact List.append_nil _

theorem headings_modify {key : Text} {f : Binding → Binding}
    (kept : ∀ binding, bindings.find? key = some binding →
      (f binding).heading? = binding.heading?) :
    headings (bindings.modify key f) = bindings.headings := by
  simp only [headings, OrderedMap.modify, OrderedMap.change, List.filterMap_map]
  apply List.filterMap_congr
  rintro ⟨other, binding⟩ member
  by_cases same : other = key
  · subst same
    simp [kept binding ((bindings.find?_eq_some_iff other binding).mpr member)]
  · simp [same]

theorem headings_replace {key : Text} {binding : Binding}
    (found : bindings.find? key = some binding) (value : Text) (pending : Nat) :
    headings (bindings.modify key fun _ => binding.replace value pending) = bindings.headings := by
  apply headings_modify
  intro old found'
  obtain rfl : binding = old := Option.some.inj (found.symm.trans found')
  rfl

theorem headings_mapValues_decode (bindings : Bindings) :
    headings (bindings.mapValues .decode) = bindings.headings := by
  rw [headings, headings, OrderedMap.mapValues, List.filterMap_map]
  apply List.filterMap_congr
  rintro ⟨key, binding⟩ _
  exact congrArg (Option.map (Prod.mk key)) binding.heading?_decode

end Bindings

namespace Resolution

variable (lookup : Text → Option Text) (state : Resolution)

/-! Each step of resolving keeps the headings: it binds a key in the name of the environment, or it
changes the value of a binding and the number of references that wait in it. -/

theorem headings_follow (key : Text) (position : Position) :
    (follow lookup state key position).1.bindings.headings = state.bindings.headings := by
  unfold follow
  cases bound : state.bindings.contains key with
  | true => rfl
  | false =>
      cases lookup key with
      | none => rfl
      | some value => exact Bindings.headings_define_ofEnvironment bound value

theorem headings_followAll (references : List (Text × Position)) :
    (followAll lookup state references).1.bindings.headings = state.bindings.headings := by
  induction references generalizing state with
  | nil => rfl
  | cons reference references ih =>
      exact (ih _).trans (headings_follow lookup state reference.1 reference.2)

theorem headings_linkKey (key : Text) :
    (linkKey lookup state key).bindings.headings = state.bindings.headings := by
  rcases linkKey_cases lookup state key with same | ⟨binding, value, _, _, linked⟩
  · rw [same]
  · rw [linked, bindings_record, Bindings.headings_modify, headings_followAll]
    exact fun _ _ => rfl

theorem headings_link : (state.link lookup).bindings.headings = state.bindings.headings := by
  refine List.foldlRecOn
    (motive := fun reached : Resolution => reached.bindings.headings = state.bindings.headings)
    _ _ rfl ?_
  intro reached kept key _
  exact (headings_linkKey lookup reached key).trans kept

theorem Rewrites.headings_eq {before after : Resolution} {key : Text}
    (rewrites : Rewrites before key after) :
    after.bindings.headings = before.bindings.headings := by
  cases rewrites with
  | idle => rfl
  | replace found _ value pending => exact Bindings.headings_replace found value pending

theorem headings_settle : state.settle.bindings.headings = state.bindings.headings :=
  preserved_settle (fun bindings _ => bindings.headings = state.bindings.headings)
    (fun _ _ _ rewrites same => rewrites.headings_eq.trans same) state rfl

/-- In the end the source binds the defined keys, each with the heading of the definition that wins.
-/
theorem headings_run (definitions : List Definition) (options : Options)
    (lookup : Text → Option Text) :
    (run {} definitions options lookup).bindings.headings =
      (winners definitions options.overwrite).map fun definition =>
        (definition.key, definition.isVerbatim, definition.position) := by
  have resolved : (run {} definitions options lookup).bindings.headings =
      (defineAll {} definitions options.overwrite).bindings.headings := by
    unfold run decodeValues
    rw [Bindings.headings_mapValues_decode]
    split
    · rw [headings_settle, headings_link]
    · rfl
  rw [resolved, Bindings.headings, entries_defineAll, List.filterMap_map]
  exact congrFun List.filterMap_eq_map _

/-- The values are those of the defined keys, in the order in which they are defined first. -/
theorem map_fst_values_run (definitions : List Definition) (options : Options)
    (lookup : Text → Option Text) :
    (run {} definitions options lookup).values.map Prod.fst = definedKeys definitions := by
  rw [map_fst_values, ← Bindings.map_fst_headings, headings_run, List.map_map, ← map_key_winners]
  rfl

end Resolution
end EnvFile
