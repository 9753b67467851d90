import EnvFile.Proofs.Resolution.Winners

/-!
# Sources without references

If no value refers to anything, linking finds nothing to do and settling nothing to wait for, so it
makes no difference whether references are resolved (`run_of_names_eq_nil`), and of the values only
those of the definitions that win matter (`run_of_winners`).  They are then decoded, and that is all
(`values_decodeValues_defineAll`).
-/

namespace EnvFile

namespace OrderedMap

variable {κ ν : Type} [DecidableEq κ]

theorem modify_eq_self {map : OrderedMap κ ν} {key : κ} {f : ν → ν}
    (fixed : ∀ value, map.find? key = some value → f value = value) : map.modify key f = map := by
  apply ext
  have unchanged : ∀ entry ∈ map.entries,
      (if entry.1 = key then (entry.1, f entry.2) else entry) = id entry := by
    rintro ⟨other, value⟩ member
    by_cases same : other = key
    · subst same
      simp [fixed value ((map.find?_eq_some_iff other value).mpr member)]
    · simp [same]
  exact (List.map_congr_left unchanged).trans (List.map_id _)

end OrderedMap

namespace Resolution

open Value

theorem linkKey_eq_self (lookup : Text → Option Text) {state : Resolution} {key : Text}
    (unnamed : ∀ binding, state.bindings.find? key = some binding →
      references binding.value binding.position = [] ∧ binding.pending = 0 ∨
        binding.isInterpreted = false) :
    linkKey lookup state key = state := by
  rcases exists_isInterpreted_or state.bindings key with ⟨binding, found, interpreted⟩ | passed
  · obtain ⟨no_references, none_pending⟩ : references binding.value binding.position = [] ∧
        binding.pending = 0 := by
      simpa [interpreted] using unnamed binding found
    have fixed : state.bindings.modify key
        (fun old => { old with value := binding.value, pending := 0 }) = state.bindings := by
      apply OrderedMap.modify_eq_self
      intro old found'
      obtain rfl : binding = old := Option.some.inj (found.symm.trans found')
      rw [← none_pending]
    rw [linkKey_of_isInterpreted found interpreted]
    simp [no_references, followAll, record, fixed]
  · exact linkKey_of_not_isInterpreted passed

section Unnamed

variable {definitions : List Definition} {overwrite : Bool}

/-- Linking a source without references changes nothing. -/
theorem link_defineAll_of_names_eq_nil
    (unnamed : ∀ definition ∈ definitions, definition.names = []) (lookup : Text → Option Text) :
    (defineAll {} definitions overwrite).link lookup = defineAll {} definitions overwrite := by
  have unlinked : ∀ key, linkKey lookup (defineAll {} definitions overwrite) key =
      defineAll {} definitions overwrite := by
    intro key
    apply linkKey_eq_self
    intro binding found
    rw [find?_defineAll, Option.map_eq_some_iff] at found
    obtain ⟨definition, winner, rfl⟩ := found
    have none_named := unnamed definition (Dictionary.mem_of_ofDefinitions_eq_some winner)
    cases verbatim : definition.isVerbatim with
    | true => exact .inr (by simp [Binding.isInterpreted, Binding.ofDefinition, verbatim])
    | false =>
        have no_references : definition.references = [] := by
          rw [← List.map_eq_nil_iff (f := Prod.fst), definition.map_fst_references, none_named]
        exact .inl ⟨by simpa [Definition.references, verbatim, Binding.ofDefinition,
          Binding.ofSource] using no_references, rfl⟩
  have folded : ∀ keys : List Text,
      keys.foldl (linkKey lookup) (defineAll {} definitions overwrite) =
        defineAll {} definitions overwrite := by
    intro keys
    induction keys with
    | nil => rfl
    | cons key keys ih => rw [List.foldl_cons, unlinked, ih]
  unfold link
  dsimp only
  rw [folded, defineAll_eq]

/-- Without references it makes no difference whether they are resolved. -/
theorem run_of_names_eq_nil (unnamed : ∀ definition ∈ definitions, definition.names = [])
    (interpolate : Bool) (lookup : Text → Option Text) :
    run {} definitions { overwrite, interpolate } lookup =
      (defineAll {} definitions overwrite).decodeValues := by
  have settled : (defineAll {} definitions overwrite).settle =
      defineAll {} definitions overwrite := by
    rw [settle, if_pos]
    rw [defineAll_eq]
  cases interpolate with
  | false => rfl
  | true => simp [run, link_defineAll_of_names_eq_nil unnamed, settled]

/-- It makes no difference whether references are resolved if the definitions that win have none. -/
theorem run_of_winners (unreferenced : ∀ definition ∈ winners definitions overwrite,
      definition.isVerbatim = false → references definition.value definition.position = [])
    (interpolate : Bool) (lookup : Text → Option Text) :
    run {} definitions { overwrite, interpolate } lookup =
      (defineAll {} definitions overwrite).decodeValues := by
  have unnamed : ∀ definition ∈ winners definitions overwrite, definition.names = [] := by
    intro definition wins
    rw [← definition.map_fst_references, List.map_eq_nil_iff, Definition.references]
    cases verbatim : definition.isVerbatim with
    | true => rfl
    | false => exact unreferenced definition wins verbatim
  have same_run := run_winners definitions { overwrite, interpolate } lookup
  rw [← same_run, run_of_names_eq_nil unnamed, defineAll_winners]

end Unnamed

theorem value_decode_ofDefinition (definition : Definition) :
    (Binding.ofDefinition definition).decode.value =
      if definition.isVerbatim then definition.value else decode definition.value := by
  cases verbatim : definition.isVerbatim <;>
    simp [Binding.decode, Binding.isInterpreted, Binding.isLocal, Binding.ofDefinition,
      Binding.ofSource, verbatim]

/-- Where no references are resolved, the values are those of the definitions that win. -/
theorem values_decodeValues_defineAll (definitions : List Definition) (overwrite : Bool) :
    (defineAll {} definitions overwrite).decodeValues.values =
      (winners definitions overwrite).map fun definition =>
        (definition.key,
          if definition.isVerbatim then definition.value else decode definition.value) := by
  have all_local : ∀ definition : Definition,
      (Binding.ofDefinition definition).decode.isLocal = true := by
    intro definition
    unfold Binding.decode
    split <;> rfl
  simp only [values, Bindings.locals, decodeValues, OrderedMap.mapValues, entries_defineAll,
    List.map_map]
  rw [List.filter_eq_self.mpr]
  · rw [List.map_map]
    exact List.map_congr_left fun definition _ =>
      congrArg (Prod.mk definition.key) (value_decode_ofDefinition definition)
  · intro entry member
    obtain ⟨definition, _, rfl⟩ := List.mem_map.mp member
    exact all_local definition

end Resolution
end EnvFile
