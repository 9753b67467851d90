import EnvFile.Environment.Memory
import EnvFile.Proofs.Evaluation.Reporting
import EnvFile.Proofs.Resolution.Instability

/-!
# Reported cycles

If all values of a source are stable, its report names each key that is referred to and leads to a
cycle, once, at the first reference to it, and no other key.  A value that is not stable can make a
source without cycles be reported, as a name without braces grows into the name of a key that refers
back.
-/

namespace EnvFile
namespace Evaluator

open Resolution Value

variable {ε : Type} [Environment ε]

theorem exists_report_reportsCycles (evaluator : Evaluator) {source : Text}
    {definitions : List Definition} (scans : Source.definitions source = .ok definitions)
    (overwrite : Bool) (environment : ε)
    (stable : ∀ key, DependsOnStable (.ofDefinitions definitions overwrite) key) :
    ∃ report,
      (evaluator.evaluate source { overwrite, interpolate := true } environment).outcome =
        .ok report ∧
      ReportsCycles (.ofDefinitions definitions overwrite)
        (Dictionary.scan (.ofDefinitions definitions overwrite) (definedKeys definitions))
        report.diagnostics report.convergence.stalls := by
  obtain ⟨report, outcome_eq, _, diagnostics_eq, convergence_eq⟩ :=
    evaluator.exists_report scans { overwrite, interpolate := true } environment
  have covers := stableScope_of_dependsOnStable stable
  obtain ⟨start, last, spec⟩ :=
    exists_run definitions overwrite (Environment.get? environment) covers
  refine ⟨report, outcome_eq, ?_⟩
  rw [diagnostics_eq, convergence_eq, spec.run_eq]
  exact spec.reportsCycles covers

/-- Cycles are reported exactly if all values are stable, and no weaker condition on values will do:
each other value makes a cycle be reported in a source that has none and in which it is the only
value of its kind. -/
theorem reports_cycles_of_stable_values (evaluator : Evaluator) {source : Text}
    {definitions : List Definition} (scans : Source.definitions source = .ok definitions)
    (overwrite : Bool) (environment : ε) :
    ((∀ key, DependsOnStable (.ofDefinitions definitions overwrite) key) →
      ∃ report,
        (evaluator.evaluate source { overwrite, interpolate := true } environment).outcome =
          .ok report ∧
        ReportsCycles (.ofDefinitions definitions overwrite)
          (Dictionary.scan (.ofDefinitions definitions overwrite) (definedKeys definitions))
          report.diagnostics report.convergence.stalls) ∧
    ∀ value, ¬ IsStable value → ∃ spoilt lookup, Spoils value spoilt lookup := by
  constructor
  · exact evaluator.exists_report_reportsCycles scans overwrite environment
  · intro value unstable
    exact exists_spoils_of_not_isStable unstable

/-- A source with two keys that refer to each other and one that refers to them. -/
def cyclicSource : Text :=
  "A=${B}\nB=${A}${C}\nC=c\nD=$A\n".toList

/-- The definitions of `cyclicSource`. -/
def cyclicDefinitions : List Definition :=
  [{ key := ['A'], value := "${B}".toList, quote := none, position := ⟨0, 2⟩ },
    { key := ['B'], value := "${A}${C}".toList, quote := none, position := ⟨1, 2⟩ },
    { key := ['C'], value := ['c'], quote := none, position := ⟨2, 2⟩ },
    { key := ['D'], value := "$A".toList, quote := none, position := ⟨3, 2⟩ }]

/-- The cycle of a stable source is reported at the first reference to one of its keys. -/
theorem reports_cycle_of_cyclicSource :
    Source.definitions cyclicSource = .ok cyclicDefinitions ∧
      ∃ report,
        (evaluate {} cyclicSource { overwrite := false, interpolate := true }
          (MemoryEnvironment.ofList [])).outcome = .ok report ∧
        report.convergence.stalls = 1 ∧
        .ofProblem (.circularReference ['B']) ⟨0, 2⟩ ∈ report.diagnostics := by
  have scans : Source.definitions cyclicSource = .ok cyclicDefinitions := by decide +kernel
  have nodup : (cyclicDefinitions.map Definition.key).Nodup := by decide
  have stable : ∀ key, DependsOnStable (.ofDefinitions cyclicDefinitions false) key :=
    dependsOnStable_of_forall_isStable (by decide +kernel) false
  have refers : ∀ key other, (key, other) ∈ [(['A'], ['B']), (['B'], ['A'])] →
      (Dictionary.ofDefinitions cyclicDefinitions false).Refers key other := by
    have defined : ∀ pair ∈ [(['A'], ['B']), (['B'], ['A'])], ∃ definition ∈ cyclicDefinitions,
        definition.key = pair.1 ∧ pair.2 ∈ definition.names := by
      decide +kernel
    intro key other member
    obtain ⟨definition, listed, same, mentioned⟩ := defined (key, other) member
    refine ⟨⟨definition, (Dictionary.ofDefinitions_eq_some_iff nodup false key definition).mpr
      ⟨listed, same⟩, mentioned⟩, ?_⟩
    rcases List.mem_pair.mp member with same | same <;> obtain ⟨rfl, rfl⟩ := Prod.mk.inj same <;>
      decide +kernel
  have leads : (Dictionary.ofDefinitions cyclicDefinitions false).LeadsToCycle ['B'] :=
    ⟨['B'], .refl, .tail (.single (refers _ ['A'] (by decide))) (refers _ _ (by decide))⟩
  obtain ⟨report, outcome_eq, exactly⟩ :=
    (reports_cycles_of_stable_values {} scans false (MemoryEnvironment.ofList [])).1 stable
  refine ⟨scans, report, outcome_eq, (exactly.cyclic ⟨_, leads⟩).1, ?_⟩
  exact ((exactly.mem_iff _).mpr ⟨['B'], ⟨0, 2⟩, leads, by decide +kernel, rfl⟩).1

/-- A source without cycles in which a name without braces grows into the name of another key. -/
def entanglingSource : Text :=
  "A=$B${X}\nX=x\nB=${C}\nC=c\nBx=${A}\n".toList

/-- The definitions of `entanglingSource`. -/
def entanglingDefinitions : List Definition :=
  [{ key := ['A'], value := "$B${X}".toList, quote := none, position := ⟨0, 2⟩ },
    { key := ['X'], value := ['x'], quote := none, position := ⟨1, 2⟩ },
    { key := ['B'], value := "${C}".toList, quote := none, position := ⟨2, 2⟩ },
    { key := ['C'], value := ['c'], quote := none, position := ⟨3, 2⟩ },
    { key := ['B', 'x'], value := "${A}".toList, quote := none, position := ⟨4, 3⟩ }]

/-- A cycle is reported in a source that has none. -/
theorem reports_cycle_of_entanglingSource :
    Source.definitions entanglingSource = .ok entanglingDefinitions ∧
      (∀ key, ¬ (Dictionary.ofDefinitions entanglingDefinitions false).LeadsToCycle key) ∧
      ∃ report,
        (evaluate {} entanglingSource { overwrite := false, interpolate := true }
          (MemoryEnvironment.ofList [])).outcome = .ok report ∧
        report.convergence.stalls = 1 ∧
        report.diagnostics = [.ofProblem (.circularReference ['A']) ⟨4, 3⟩] := by
  have nodup : (entanglingDefinitions.map Definition.key).Nodup := by decide
  refine ⟨by decide +kernel, ?_, ?_⟩
  · exact Dictionary.not_leadsToCycle_of_rank nodup
      (fun key => if key = ['B', 'x'] then 0 else if key = ['A'] then 1 else
        if key = ['B'] then 2 else 3) (by decide +kernel) _
  · have reported : ((evaluate {} entanglingSource { overwrite := false, interpolate := true }
        (MemoryEnvironment.ofList [])).outcome.toOption.map fun report =>
          (report.convergence.stalls, report.diagnostics)) =
          some (1, [.ofProblem (.circularReference ['A']) ⟨4, 3⟩]) := by
      decide +kernel
    obtain ⟨report, outcome_eq, shown⟩ := exists_ok_of_map_toOption reported
    exact ⟨report, outcome_eq, Prod.mk.inj shown⟩

end Evaluator
end EnvFile
