import EnvFile.Environment.Memory
import EnvFile.Proofs.Evaluation.Reporting
import EnvFile.Proofs.Resolution.Literal

/-!
# Evaluating sources without references

A source is evaluated with references resolved or without.  If no winning value has a reference,
both come to the same: the longer way finds nothing to link and nothing to settle, and leaves stray
dollars, open braces and backslashes as they are.  The entries then show the values as they were
written, with their escapes decoded once (`interpolates_nothing`).
-/

namespace EnvFile

/-- An entry shows what a definition says: a verbatim value as it is, and any other value with its
known escapes decoded once. -/
structure Entry.Shows (entry : Entry) (definition : Definition) : Prop where
  key_eq : entry.key = definition.key
  value_eq_of_verbatim : definition.isVerbatim = true → entry.value = definition.value
  decodes : definition.isVerbatim = false → Value.Decodes definition.value entry.value

/-- A report about a source in which nothing had to be resolved. -/
structure Report.IsPlain (report : Report) (winning : List Definition) : Prop where
  shows : List.Forall₂ Entry.Shows report.entries winning
  diagnostics_eq : report.diagnostics = []
  convergence_eq : report.convergence = {}

namespace Evaluator

/-- A report on values that were only decoded is plain. -/
theorem isPlain_of_values {report : Report} {definitions : List Definition} {overwrite : Bool}
    (entries_eq : report.entries.map (fun entry => (entry.key, entry.value)) =
      (Resolution.defineAll {} definitions overwrite).decodeValues.values)
    (diagnostics_eq : report.diagnostics =
      (Resolution.defineAll {} definitions overwrite).decodeValues.diagnostics)
    (convergence_eq : report.convergence =
      (Resolution.defineAll {} definitions overwrite).decodeValues.convergence) :
    report.IsPlain (winners definitions overwrite) := by
  constructor
  · rw [Resolution.values_decodeValues_defineAll, ← List.forall₂_eq_eq_eq,
      List.forall₂_map_left_iff, List.forall₂_map_right_iff] at entries_eq
    refine entries_eq.imp fun entry definition same => ?_
    obtain ⟨key_eq, value_eq⟩ := Prod.mk.inj same
    refine ⟨key_eq, fun verbatim => ?_, fun interpreted => ?_⟩
    · rwa [if_pos verbatim] at value_eq
    · rw [interpreted] at value_eq
      exact Value.decodes_iff.mpr value_eq
  · rw [diagnostics_eq, Resolution.defineAll_eq]
    rfl
  · rw [convergence_eq, Resolution.defineAll_eq]
    rfl

/-- A source whose winning values have no references is evaluated alike with references resolved and
without, whatever the environment is and whatever came before, and the report is plain. -/
theorem interpolates_nothing {ε : Type} [Environment ε] (evaluator : Evaluator) {source : Text}
    {definitions : List Definition} (scans : Source.definitions source = .ok definitions)
    (overwrite : Bool)
    (unreferenced : ∀ definition ∈ winners definitions overwrite, definition.isVerbatim = false →
      Value.references definition.value definition.position = [])
    (environment : ε) :
    evaluator.evaluate source { overwrite, interpolate := true } environment =
        evaluator.evaluate source { overwrite, interpolate := false } environment ∧
      ∃ report,
        (evaluator.evaluate source { overwrite, interpolate := true } environment).outcome =
          .ok report ∧
        report.IsPlain (winners definitions overwrite) := by
  have run_eq := Resolution.run_of_winners unreferenced
  constructor
  · rw [evaluate, evaluate]
    simp only [scans, Resolution.reset_eq, run_eq]
  · obtain ⟨report, outcome_eq, entries_eq, diagnostics_eq, convergence_eq⟩ :=
      evaluator.exists_report scans { overwrite, interpolate := true } environment
    rw [run_eq] at entries_eq diagnostics_eq convergence_eq
    exact ⟨report, outcome_eq, isPlain_of_values entries_eq diagnostics_eq convergence_eq⟩

/-- A source with dollars that start no reference, escapes that are known and not known, a verbatim
value that looks like a reference, and a reference in a definition that is overwritten. -/
def straySource : Text :=
  "A=$B\nV='$\x7bA\x7d\\t'\nA=a$ $1 \\n\\q$\x7bX\\\n".toList

/-- The definitions of `straySource`. -/
def strayDefinitions : List Definition :=
  [{ key := ['A'], value := "$B".toList, quote := none, position := ⟨0, 2⟩ },
    { key := ['V'], value := "$\x7bA\x7d\\t".toList, quote := some .single, position := ⟨1, 3⟩ },
    { key := ['A'], value := "a$ $1 \\n\\q$\x7bX\\".toList, quote := none, position := ⟨2, 2⟩ }]

/-- An environment in which `A` is set. -/
def presetEnvironment : MemoryEnvironment :=
  .ofList [(['A'], ['0'])]

/-- Nothing is interpolated in stray dollars. -/
theorem interpolates_nothing_straySource :
    Source.definitions straySource = .ok strayDefinitions ∧
      evaluate {} straySource { overwrite := true, interpolate := true } presetEnvironment =
        evaluate {} straySource { overwrite := true, interpolate := false } presetEnvironment ∧
      ∃ report,
        (evaluate {} straySource { overwrite := true, interpolate := true }
          presetEnvironment).outcome = .ok report ∧
        report.IsPlain (winners strayDefinitions true) := by
  have scans : Source.definitions straySource = .ok strayDefinitions := by decide +kernel
  have unreferenced : ∀ definition ∈ winners strayDefinitions true,
      definition.isVerbatim = false →
        Value.references definition.value definition.position = [] := by
    decide +kernel
  exact ⟨scans, interpolates_nothing {} scans true unreferenced presetEnvironment⟩

end Evaluator
end EnvFile
