import EnvFile.Environment.Memory
import EnvFile.Proofs.Evaluation.Reporting
import EnvFile.Proofs.Resolution.Literal
import EnvFile.Proofs.Source.Rendering

/-!
# Round trips

Texts that are rendered under distinct keys come back as they were: evaluating the rendered source
publishes them in order, character by character, into an environment that holds none of the keys.
-/

namespace EnvFile

open Value

namespace MemoryEnvironment

theorem set_of_contains_eq_false {environment : MemoryEnvironment} {key : Text}
    (absent : Environment.contains environment key = false) (value : Text) (overwrite : Bool) :
    Environment.set environment key value overwrite =
      { environment := { vars := environment.vars.insert key value }, applied := true,
        events := [] } := by
  rw [Environment.set, absent, Bool.and_false]
  rfl

/-- Values of keys that are not set are all stored, in order. -/
theorem publish_of_absent (overwrite : Bool) {values : List (Text × Text)}
    {environment : MemoryEnvironment} (nodup : (values.map Prod.fst).Nodup)
    (absent : ∀ pair ∈ values, Environment.contains environment pair.1 = false) :
    (publish overwrite values environment).entries =
        values.map (fun pair => { key := pair.1, value := pair.2, applied := true }) ∧
      (publish overwrite values environment).environment.vars.entries =
        environment.vars.entries ++ values := by
  induction values generalizing environment with
  | nil => exact ⟨rfl, (List.append_nil _).symm⟩
  | cons pair values ih =>
      obtain ⟨key, value⟩ := pair
      rw [List.map_cons, List.nodup_cons] at nodup
      have key_absent := absent (key, value) List.mem_cons_self
      have written := set_of_contains_eq_false key_absent value overwrite
      have still_absent : ∀ pair ∈ values, Environment.contains
          ({ vars := environment.vars.insert key value } : MemoryEnvironment) pair.1 = false := by
        intro pair member
        have differ : pair.1 ≠ key := by
          intro same
          have listed : pair.1 ∈ values.map Prod.fst := List.mem_map_of_mem member
          exact nodup.1 (same ▸ listed)
        have old_absent : (environment.vars.find? pair.1).isSome = false :=
          absent pair (List.mem_cons_of_mem _ member)
        change ((environment.vars.insert key value).find? pair.1).isSome = false
        rw [OrderedMap.find?_insert, if_neg differ, old_absent]
      obtain ⟨entries_eq, stored_eq⟩ := ih nodup.2 still_absent
      have missing : environment.vars.find? key = none := by
        simpa [Environment.contains, OrderedMap.contains] using key_absent
      simp only [publish, written, entries_eq, stored_eq]
      rw [OrderedMap.entries_insert_of_find?_eq_none missing, List.append_assoc]
      exact ⟨rfl, rfl⟩

end MemoryEnvironment

namespace Source

theorem map_key_renderedDefinitions (position : Position) (pairs : List (Text × Text)) :
    (renderedDefinitions position pairs).map Definition.key = pairs.map Prod.fst :=
  map_renderedDefinitions _ _ (fun _ _ _ => rfl) position pairs

theorem names_renderedDefinition (key text : Text) (position : Position) :
    (renderedDefinition key text position).names = [] :=
  (isInert_encode text).names_eq_nil

theorem names_of_mem_renderedDefinitions {position : Position} {pairs : List (Text × Text)}
    {definition : Definition} (member : definition ∈ renderedDefinitions position pairs) :
    definition.names = [] := by
  have all_nil := map_renderedDefinitions Definition.names (fun _ => []) names_renderedDefinition
    position pairs
  have listed : definition.names ∈ (renderedDefinitions position pairs).map Definition.names :=
    List.mem_map_of_mem member
  rw [all_nil] at listed
  obtain ⟨_, _, same⟩ := List.mem_map.mp listed
  exact same.symm

theorem run_renderedDefinitions {pairs : List (Text × Text)} (nodup : (pairs.map Prod.fst).Nodup)
    (options : Options) (lookup : Text → Option Text) :
    (Resolution.run {} (renderedDefinitions {} pairs) options lookup).values = pairs ∧
      (Resolution.run {} (renderedDefinitions {} pairs) options lookup).diagnostics = [] := by
  obtain ⟨overwrite, interpolate⟩ := options
  have distinct : ((renderedDefinitions {} pairs).map Definition.key).Nodup := by
    rwa [map_key_renderedDefinitions]
  rw [Resolution.run_of_names_eq_nil fun _ => names_of_mem_renderedDefinitions]
  constructor
  · rw [Resolution.values_decodeValues_defineAll, winners_of_nodup distinct]
    refine (map_renderedDefinitions _ id ?_ {} pairs).trans (List.map_id pairs)
    intro key text position
    exact congrArg (Prod.mk key) (decode_encode text)
  · rw [Resolution.decodeValues, Resolution.defineAll_eq]

end Source

namespace Evaluator

/-- Rendered texts are published as they are, in order. -/
theorem evaluate_render (evaluator : Evaluator) {pairs : List (Text × Text)}
    (nodup : (pairs.map Prod.fst).Nodup) (named : ∀ pair ∈ pairs, IsName pair.1)
    (options : Options) {environment : MemoryEnvironment}
    (absent : ∀ pair ∈ pairs, Environment.contains environment pair.1 = false) :
    (∃ report, (evaluator.evaluate (Source.render pairs) options environment).outcome = .ok report ∧
      report.diagnostics = [] ∧
      report.entries =
        pairs.map fun pair => { key := pair.1, value := pair.2, applied := true }) ∧
    ∀ pair ∈ pairs, Environment.get?
      (evaluator.evaluate (Source.render pairs) options environment).environment pair.1 =
        some pair.2 := by
  obtain ⟨values_eq, diagnostics_eq⟩ :=
    Source.run_renderedDefinitions nodup options (Environment.get? environment)
  obtain ⟨entries_eq, stored_eq⟩ :=
    MemoryEnvironment.publish_of_absent options.overwrite nodup absent
  rw [evaluate]
  simp only [Source.definitions_render named, Resolution.reset_eq, values_eq, diagnostics_eq]
  constructor
  · exact ⟨_, rfl, rfl, entries_eq⟩
  · intro pair member
    change OrderedMap.find? _ pair.1 = some pair.2
    rw [OrderedMap.find?_eq_some_iff, stored_eq]
    exact List.mem_append_right _ member

/-- Texts that look like definitions, comments, escapes and references, under awkward keys. -/
def awkwardPairs : List (Text × Text) :=
  [("export".toList, "A=1\r\n# \\\"$A\\".toList), ("_.a".toList, "${export}'\r\x00".toList)]

/-- Awkward texts come back. -/
theorem evaluate_render_awkwardPairs :
    ∃ report,
      (evaluate {} (Source.render awkwardPairs) {}
        (MemoryEnvironment.ofList [(['A'], ['0'])])).outcome = .ok report ∧
      report.entries =
        awkwardPairs.map fun pair => { key := pair.1, value := pair.2, applied := true } := by
  have nodup : (awkwardPairs.map Prod.fst).Nodup := by decide
  have named : ∀ pair ∈ awkwardPairs, IsName pair.1 := by
    intro pair member
    rcases List.mem_pair.mp member with rfl | rfl
    · refine ⟨'e', "xport".toList, rfl, rfl, ?_⟩
      simp [isNameChar, isWordChar]
    · refine ⟨'_', ".a".toList, rfl, rfl, ?_⟩
      simp [isNameChar, isWordChar]
  have absent : ∀ pair ∈ awkwardPairs,
      Environment.contains (MemoryEnvironment.ofList [(['A'], ['0'])]) pair.1 = false := by
    decide
  obtain ⟨⟨report, outcome_eq, _, entries_eq⟩, _⟩ :=
    evaluate_render {} nodup named {} absent
  exact ⟨report, outcome_eq, entries_eq⟩

end Evaluator
end EnvFile
