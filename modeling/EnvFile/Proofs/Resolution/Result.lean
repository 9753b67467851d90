import EnvFile.Proofs.Resolution.Outcome

/-!
# The result of a run

What a run comes to if all values are stable, said in terms of the definitions alone: nothing of it
depends on the rounds that it took.
-/

namespace EnvFile
namespace Resolution

open Value

/-- What was found out about references to keys without a value: the keys and the places. -/
def undefinedReferences (state : Resolution) : List (Option Text × Position) :=
  (state.diagnostics.filter fun diagnostic => diagnostic.code = .undefinedReference).map
    fun diagnostic => (diagnostic.key?, diagnostic.position)

/-- A source was resolved as its definitions demand.  Keys that lead to no cycle have their meaning,
other keys that are referred to are looked up, and each reference to a key without a value, each key
that leads to a cycle and each key that has to wait is accounted for. -/
structure IsResult (dictionary : Dictionary) (lookup : Text → Option Text) (means : Text → Text)
    (keys : List Text) (resolved : Resolution) : Prop where
  find?_of_some : ∀ key definition, dictionary key = some definition →
    ¬ dictionary.LeadsToCycle key →
      (resolved.bindings.find? key).map (fun binding => (binding.origin, binding.value)) =
        some (.source, means key)
  find?_of_none : ∀ key, dictionary key = none →
    (resolved.bindings.find? key).map (fun binding => (binding.origin, binding.value)) =
      if key ∈ (dictionary.scan keys).map Prod.fst then
        (lookup key).map fun value => (.environment, value)
      else none
  undefinedReferences_eq : resolved.undefinedReferences =
    ((dictionary.scan keys).filter fun reference => !dictionary.isBound lookup reference.1).map
      fun reference => (some reference.1, reference.2)
  reportsCycles : ReportsCycles dictionary (dictionary.scan keys) resolved.diagnostics
    resolved.convergence.stalls
  initial_eq : resolved.convergence.initial = keys.countP (dictionary.awaits lookup)

namespace Settled

variable {dictionary : Dictionary} {lookup : Text → Option Text} {means : Text → Text}
  {scope : Text → Prop} {state last : Resolution}

theorem initial_settle (settled : Settled dictionary lookup means scope state last) :
    state.settle.convergence.initial = state.convergence.initial := by
  rcases settled.outcome with ⟨_, settle_eq⟩ | ⟨_, settle_eq⟩
  · rw [settle_eq, settled.advances.initial_eq]
  · obtain ⟨_, _, initial_eq, _⟩ := last.cutCycles_spec
    rw [settle_eq, initial_eq, settled.advances.initial_eq]

theorem exists_diagnostics_settle (settled : Settled dictionary lookup means scope state last) :
    ∃ circular, state.settle.diagnostics = state.diagnostics ++ circular ∧
      ∀ diagnostic ∈ circular, diagnostic.code = .circularReference := by
  rcases settled.outcome with ⟨_, settle_eq⟩ | ⟨_, settle_eq⟩
  · refine ⟨[], ?_, by simp⟩
    rw [settle_eq, settled.advances.diagnostics_eq, List.append_nil]
  · obtain ⟨_, diagnostics_eq, _, _⟩ := last.cutCycles_spec
    refine ⟨last.circularities, ?_, fun _ => code_eq_of_mem_circularities⟩
    rw [settle_eq, diagnostics_eq, settled.advances.diagnostics_eq]

theorem find?_settle_of_none (settled : Settled dictionary lookup means scope state last)
    {key : Text} (ready : state.bindings.blocks key = false) :
    state.settle.bindings.find? key = state.bindings.find? key := by
  have ready_last := settled.advances.extended.blocks_eq_false ready
  rw [settled.extends_settle key ready_last, settled.advances.extended key ready]

end Settled

namespace Run

variable {definitions : List Definition} {overwrite : Bool} {lookup : Text → Option Text}
  {scope : Text → Prop} {start last : Resolution}

/-- The references to keys without a value are found in the order of the source. -/
theorem undefinedReferences_settle (run : Run definitions overwrite lookup scope start last) :
    start.settle.undefinedReferences =
      ((Dictionary.scan (.ofDefinitions definitions overwrite) (definedKeys definitions)).filter
        fun reference =>
          !(Dictionary.ofDefinitions definitions overwrite).isBound lookup reference.1).map
        fun reference => (some reference.1, reference.2) := by
  obtain ⟨circular, diagnostics_eq, circular_code⟩ := run.settled.exists_diagnostics_settle
  have linked_eq : start.diagnostics = _ := run.linked.diagnostics_eq
  have kept : start.diagnostics.filter (fun diagnostic => diagnostic.code = .undefinedReference) =
      start.diagnostics := by
    rw [List.filter_eq_self]
    intro diagnostic member
    simpa using run.linked.code_eq_of_mem member
  have dropped :
      circular.filter (fun diagnostic => diagnostic.code = .undefinedReference) = [] := by
    rw [List.filter_eq_nil_iff]
    intro diagnostic member
    simp [circular_code diagnostic member]
  rw [undefinedReferences, diagnostics_eq, List.filter_append, kept, dropped, List.append_nil,
    linked_eq, List.map_map]
  rfl

end Run

/-- A run on stable values has the result that its definitions demand. -/
theorem isResult_run (definitions : List Definition) (overwrite : Bool)
    (lookup : Text → Option Text)
    (stable : ∀ key, DependsOnStable (.ofDefinitions definitions overwrite) key) :
    IsResult (.ofDefinitions definitions overwrite) lookup (expand definitions overwrite lookup)
      (definedKeys definitions)
      (run {} definitions { overwrite, interpolate := true } lookup) := by
  have covers := stableScope_of_dependsOnStable stable
  obtain ⟨start, last, spec⟩ := exists_run definitions overwrite lookup covers
  rw [spec.run_eq]
  constructor
  · intro key definition found acyclic
    obtain ⟨binding, bound, isLocal, value_eq⟩ := spec.settled.find?_settle covers
      (mem_map_key_of_isSome definitions overwrite) trivial (by simp [found]) acyclic
    have origin_eq : binding.origin = .source := by simpa [Binding.isLocal] using isLocal
    rw [find?_decodeValues, bound]
    simp [origin_eq, value_eq]
  · intro key undefined
    have linked_eq : start.bindings.find? key = _ := spec.linked.find?_of_none key undefined
    have ready : start.bindings.blocks key = false := by
      rw [Bindings.blocks, linked_eq]
      split
      · cases lookup key <;> rfl
      · rfl
    rw [find?_decodeValues, spec.settled.find?_settle_of_none ready, linked_eq]
    split
    · cases lookup key <;> rfl
    · rfl
  · exact spec.undefinedReferences_settle
  · exact spec.reportsCycles covers
  · have initial_eq : start.settle.convergence.initial = start.unresolved := by
      rw [spec.settled.initial_settle, spec.convergence_eq]
    exact initial_eq.trans spec.linked.unresolved_eq

end Resolution
end EnvFile
