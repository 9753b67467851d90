import EnvFile.Environment.Memory
import EnvFile.Proofs.Evaluation.Reporting
import EnvFile.Proofs.Resolution.Instability

/-!
# Published expansions

A report shows the expansion of every key that leads to no cycle and depends on stable values only,
whatever the order of the definitions and the number of rounds.  No other value is safe: each value
that is not stable makes the resolution of some source without cycles go wrong.  The smallest such
source lets a name without braces grow by the text that is spliced in behind it.
-/

namespace EnvFile

open Value

namespace Evaluator

variable {ε : Type} [Environment ε]

theorem exists_report_get?_eq_expand (evaluator : Evaluator) {source : Text}
    {definitions : List Definition} (scans : Source.definitions source = .ok definitions)
    (overwrite : Bool) (environment : ε) :
    ∃ report,
      (evaluator.evaluate source { overwrite, interpolate := true } environment).outcome =
        .ok report ∧
      ∀ key ∈ definedKeys definitions,
        ¬ (Dictionary.ofDefinitions definitions overwrite).LeadsToCycle key →
        Resolution.DependsOnStable (.ofDefinitions definitions overwrite) key →
        report.get? key =
          some (expand definitions overwrite (Environment.get? environment) key) := by
  obtain ⟨report, outcome_eq, entries_eq, _, _⟩ :=
    evaluator.exists_report scans { overwrite, interpolate := true } environment
  refine ⟨report, outcome_eq, ?_⟩
  intro key defined acyclic stable
  have resolved : (key, expand definitions overwrite (Environment.get? environment) key) ∈ _ :=
    Resolution.mem_values_run stable.stableScope .refl defined acyclic
  exact Report.get?_eq_some_of_mem entries_eq (Resolution.nodup_values _) resolved

/-- Keys that depend on stable values get their expansions, and no weaker condition on values will
do: each other value spoils a source without cycles in which it is the only value of its kind. -/
theorem publishes_expansions_of_stable_values (evaluator : Evaluator) {source : Text}
    {definitions : List Definition} (scans : Source.definitions source = .ok definitions)
    (overwrite : Bool) (environment : ε) :
    (∃ report,
      (evaluator.evaluate source { overwrite, interpolate := true } environment).outcome =
        .ok report ∧
      ∀ key ∈ definedKeys definitions,
        ¬ (Dictionary.ofDefinitions definitions overwrite).LeadsToCycle key →
        Resolution.DependsOnStable (.ofDefinitions definitions overwrite) key →
        report.get? key =
          some (expand definitions overwrite (Environment.get? environment) key)) ∧
    (Dictionary.ofDefinitions definitions overwrite).IsExpansion (Environment.get? environment)
      (expand definitions overwrite (Environment.get? environment)) ∧
    ∀ value, ¬ IsStable value → ∃ spoilt lookup, Resolution.Spoils value spoilt lookup := by
  refine ⟨evaluator.exists_report_get?_eq_expand scans overwrite environment, ?_, ?_⟩
  · exact isExpansion_expand definitions overwrite (Environment.get? environment)
  · intro value unstable
    exact Resolution.exists_spoils_of_not_isStable unstable

/-- A source whose references have braces throughout. -/
def bracedSource : Text :=
  "A=${B}${X}\nX=x\nB=${C}\nC=c\n".toList

/-- The definitions of `bracedSource`. -/
def bracedDefinitions : List Definition :=
  [{ key := ['A'], value := "${B}${X}".toList, quote := none, position := ⟨0, 2⟩ },
    { key := ['X'], value := ['x'], quote := none, position := ⟨1, 2⟩ },
    { key := ['B'], value := "${C}".toList, quote := none, position := ⟨2, 2⟩ },
    { key := ['C'], value := ['c'], quote := none, position := ⟨3, 2⟩ }]

/-- A key of a source with braces gets its expansion. -/
theorem publishes_expansion_of_bracedSource :
    Source.definitions bracedSource = .ok bracedDefinitions ∧
      ∃ report,
        (evaluate {} bracedSource { overwrite := false, interpolate := true }
          (MemoryEnvironment.ofList [])).outcome = .ok report ∧
        report.get? ['A'] = some ['c', 'x'] := by
  have scans : Source.definitions bracedSource = .ok bracedDefinitions := by decide +kernel
  have nodup : (bracedDefinitions.map Definition.key).Nodup := by decide
  have acyclic : ¬ (Dictionary.ofDefinitions bracedDefinitions false).LeadsToCycle ['A'] :=
    Dictionary.not_leadsToCycle_of_rank nodup
      (fun key => if key = ['A'] then 0 else if key = ['B'] then 1 else 2) (by decide +kernel) _ _
  have stable : Resolution.DependsOnStable (.ofDefinitions bracedDefinitions false) ['A'] :=
    Resolution.dependsOnStable_of_forall_isStable (by decide +kernel) false _
  obtain ⟨⟨report, outcome_eq, published⟩, _, _⟩ :=
    publishes_expansions_of_stable_values {} scans false (MemoryEnvironment.ofList [])
  refine ⟨scans, report, outcome_eq, ?_⟩
  rw [published ['A'] (by decide) acyclic stable]
  decide +kernel

/-- A source in which the text behind a name without braces becomes part of the name. -/
def joiningSource : Text :=
  "A=$B${X}\nX=x\nB=${C}\nC=c\n".toList

/-- The definitions of `joiningSource`. -/
def joiningDefinitions : List Definition :=
  [{ key := ['A'], value := "$B${X}".toList, quote := none, position := ⟨0, 2⟩ },
    { key := ['X'], value := ['x'], quote := none, position := ⟨1, 2⟩ },
    { key := ['B'], value := "${C}".toList, quote := none, position := ⟨2, 2⟩ },
    { key := ['C'], value := ['c'], quote := none, position := ⟨3, 2⟩ }]

/-- A key that leads to no cycle is published with another value than its expansion. -/
theorem not_publishes_expansion_of_joiningSource :
    Source.definitions joiningSource = .ok joiningDefinitions ∧
      ¬ (Dictionary.ofDefinitions joiningDefinitions false).LeadsToCycle ['A'] ∧
      expand joiningDefinitions false (Environment.get? (MemoryEnvironment.ofList [])) ['A'] =
        ['c', 'x'] ∧
      ∃ report,
        (evaluate {} joiningSource { overwrite := false, interpolate := true }
          (MemoryEnvironment.ofList [])).outcome = .ok report ∧
        report.get? ['A'] = some [] := by
  have nodup : (joiningDefinitions.map Definition.key).Nodup := by decide
  refine ⟨by decide +kernel, ?_, by decide +kernel, ?_⟩
  · exact Dictionary.not_leadsToCycle_of_rank nodup
      (fun key => if key = ['A'] then 0 else if key = ['B'] then 1 else 2) (by decide +kernel) _ _
  · have published : ((evaluate {} joiningSource { overwrite := false, interpolate := true }
        (MemoryEnvironment.ofList [])).outcome.toOption.map fun report => report.get? ['A']) =
          some (some []) := by
      decide +kernel
    exact exists_ok_of_map_toOption published

end Evaluator
end EnvFile
