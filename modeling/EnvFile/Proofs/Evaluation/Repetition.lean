import EnvFile.Proofs.Evaluation.Publication
import EnvFile.Proofs.Resolution.Externals

/-!
# Evaluating a source again

What comes of a source depends on the environment only through its external keys (`Agree`), but for
what is applied (`Alike`).  Publishing leaves the external keys alone, and what was published asks
nothing of the environment a second time (`IsPublished`).  So a source that is evaluated again into
the environment that it left behind comes to the same values and leaves the environment as it is
(`Evaluator.depends_on_externals_only`).
-/

namespace EnvFile

open Value

/-- A map that is all there is to an environment, and in which names are looked up. -/
structure Environment.IsWholeMap {ε ν : Type} [Environment ε] (vars : ε → OrderedMap Text ν)
    (accepts : Text → Prop) (stored : Text → ν) (content : ν → Text) : Prop
    extends IsMap vars accepts stored where
  get?_eq : ∀ (environment : ε) (key : Text), IsName key →
    get? environment key = ((vars environment).find? key).map content
  injective : Function.Injective vars

theorem MemoryEnvironment.isWholeMap :
    Environment.IsWholeMap MemoryEnvironment.vars (fun _ => True) id id where
  toIsMap := isMap
  get?_eq environment key _ := (congrFun Option.map_id (environment.vars.find? key)).symm
  injective := by
    rintro ⟨first⟩ ⟨second⟩ same
    exact congrArg MemoryEnvironment.mk same

theorem ProcessEnvironment.isWholeMap :
    Environment.IsWholeMap ProcessEnvironment.vars (fun value => '\x00' ∉ value) .text
      ProcessValue.content where
  toIsMap := isMap
  get?_eq environment key named := by
    have plain : '=' ∉ key := notMem_of_isName named (by decide)
    exact congrArg (Option.map ProcessValue.content) (find?_of_notMem environment key plain)
  injective := by
    rintro ⟨first⟩ ⟨second⟩ same
    exact congrArg ProcessEnvironment.mk same

section Published

variable {ε ν : Type} [Environment ε] {vars : ε → OrderedMap Text ν} {overwrite : Bool}
  {accepts : Text → Prop} {stored : Text → ν} {content : ν → Text}

/-- Values ask nothing of a map: those that are accepted have their keys in it, and the map has the
values themselves if they were to overwrite others. -/
def IsPublished (overwrite : Bool) (accepts : Text → Prop) (stored : Text → ν)
    (map : OrderedMap Text ν) (values : List (Text × Text)) : Prop :=
  ∀ pair ∈ values, accepts pair.2 →
    pair.1 ∈ map.keys ∧ (overwrite = true → map.find? pair.1 = some (stored pair.2))

theorem IsPublication.isPublished {before after : OrderedMap Text ν} {entries : List Entry}
    (publication : IsPublication overwrite accepts stored before after entries) :
    IsPublished overwrite accepts stored after
      (entries.map fun entry => (entry.key, entry.value)) := by
  intro pair member accepted
  obtain ⟨entry, listed, rfl⟩ := List.mem_map.mp member
  cases applied : entry.applied with
  | true =>
      have found := publication.find?_of_applied entry listed applied
      exact ⟨(after.mem_keys_iff entry.key).mpr ⟨_, found⟩, fun _ => found⟩
  | false =>
      have denied : ¬ (overwrite = true ∨ entry.key ∉ before.keys) := by
        intro free
        simp [(publication.applied_iff entry listed).mpr ⟨free, accepted⟩] at applied
      obtain ⟨keeps, bound⟩ := not_or.mp denied
      refine ⟨?_, fun overwrites => absurd overwrites keeps⟩
      rw [publication.keys_eq]
      exact List.mem_append_left _ (not_not.mp bound)

theorem publish_of_isPublished (whole : Environment.IsWholeMap vars accepts stored content)
    {environment : ε} {values : List (Text × Text)} (named : ∀ pair ∈ values, IsName pair.1)
    (published : IsPublished overwrite accepts stored (vars environment) values) :
    (publish overwrite values environment).environment = environment := by
  induction values with
  | nil => rfl
  | cons pair values ih =>
      obtain ⟨key, value⟩ := pair
      have kept : (Environment.set environment key value overwrite).environment = environment := by
        obtain ⟨applied_iff, vars_eq⟩ := Environment.set_of_isMap whole.toIsMap
          (named (key, value) List.mem_cons_self) environment value overwrite
        apply whole.injective
        rw [vars_eq, Entry.writeTo]
        split
        · rename_i applied
          obtain ⟨free, accepted⟩ := applied_iff.mp applied
          obtain ⟨bound, found⟩ := published (key, value) List.mem_cons_self accepted
          exact OrderedMap.insert_eq_self (found (free.resolve_right (not_not.mpr bound)))
        · rfl
      rw [publish]
      simp only [kept]
      exact ih (fun pair member => named pair (List.mem_cons_of_mem _ member))
        fun pair member => published pair (List.mem_cons_of_mem _ member)

end Published

/-- Outcomes that differ at most in what was applied. -/
inductive Alike : Except Failure Report → Except Failure Report → Prop
  /-- The same failure twice. -/
  | failed (failure : Failure) : Alike (.error failure) (.error failure)
  /-- Reports of the same keys and values, with the same diagnostics and the same course. -/
  | reported {first second : Report}
      (entries_eq : first.entries.map (fun entry => (entry.key, entry.value)) =
        second.entries.map fun entry => (entry.key, entry.value))
      (diagnostics_eq : first.diagnostics = second.diagnostics)
      (convergence_eq : first.convergence = second.convergence) :
      Alike (.ok first) (.ok second)

/-- Two environments hold the same under the external keys of a source. -/
def Agree {ε δ : Type} [Environment ε] [Environment δ] (source : Text) (overwrite : Bool)
    (first : ε) (second : δ) : Prop :=
  ∀ definitions, Source.definitions source = .ok definitions →
    ∀ key, IsExternal definitions overwrite key →
      Environment.get? first key = Environment.get? second key

namespace Evaluator

variable {ε δ ν : Type} [Environment ε] [Environment δ] {vars : ε → OrderedMap Text ν}
  {accepts : Text → Prop} {stored : Text → ν} {content : ν → Text}

theorem alike_evaluate (evaluator other : Evaluator) {source : Text} {options : Options}
    {first : ε} {second : δ} (agree : Agree source options.overwrite first second) :
    Alike (evaluator.evaluate source options first).outcome
      (other.evaluate source options second).outcome := by
  cases scans : Source.definitions source with
  | error diagnostics =>
      simp only [evaluate, scans, Resolution.reset_eq]
      exact .failed _
  | ok definitions =>
      obtain ⟨report, outcome_eq, entries_eq, diagnostics_eq, convergence_eq⟩ :=
        evaluator.exists_report scans options first
      obtain ⟨again, outcome_eq', entries_eq', diagnostics_eq', convergence_eq'⟩ :=
        other.exists_report scans options second
      have same := Resolution.run_congr (agree definitions scans)
      rw [outcome_eq, outcome_eq']
      refine .reported ?_ ?_ ?_
      · rw [entries_eq, entries_eq', same]
      · rw [diagnostics_eq, diagnostics_eq', same]
      · rw [convergence_eq, convergence_eq', same]

theorem agree_evaluate (whole : Environment.IsWholeMap vars accepts stored content)
    (evaluator : Evaluator) (source : Text) (options : Options) (environment : ε) :
    Agree source options.overwrite environment
      (evaluator.evaluate source options environment).environment := by
  intro definitions scans key external
  obtain ⟨report, _, accounts, publication⟩ :=
    evaluator.exists_report_isPublication whole.toIsMap scans options environment
  have named := external.isName
  rw [whole.get?_eq _ key named, whole.get?_eq _ key named, publication.find?_of_untouched key]
  rintro entry listed - rfl
  exact external.1 (accounts.keys_eq ▸ List.mem_map_of_mem listed)

theorem environment_evaluate_of_ok (evaluator : Evaluator) {source : Text}
    {definitions : List Definition} (scans : Source.definitions source = .ok definitions)
    (options : Options) (environment : ε) :
    (evaluator.evaluate source options environment).environment =
      (publish options.overwrite
        (Resolution.run {} definitions options (Environment.get? environment)).values
        environment).environment := by
  simp only [evaluate, scans, Resolution.reset_eq]

theorem environment_evaluate_evaluate
    (whole : Environment.IsWholeMap vars accepts stored content) (evaluator other : Evaluator)
    (source : Text) (options : Options) (environment : ε) :
    (other.evaluate source options
      (evaluator.evaluate source options environment).environment).environment =
        (evaluator.evaluate source options environment).environment := by
  have agree := agree_evaluate whole evaluator source options environment
  cases scans : Source.definitions source with
  | error diagnostics => simp only [evaluate, scans]
  | ok definitions =>
      obtain ⟨report, outcome_eq, _, publication⟩ :=
        evaluator.exists_report_isPublication whole.toIsMap scans options environment
      obtain ⟨same, outcome_eq', entries_eq, _⟩ :=
        evaluator.exists_report scans options environment
      obtain rfl : report = same := Except.ok.inj (outcome_eq.symm.trans outcome_eq')
      rw [other.environment_evaluate_of_ok scans, ← Resolution.run_congr (agree definitions scans)]
      exact publish_of_isPublished whole (isName_of_mem_values scans options _)
        (entries_eq ▸ publication.isPublished)

theorem alike_evaluate_evaluate (whole : Environment.IsWholeMap vars accepts stored content)
    (evaluator other : Evaluator) (source : Text) (options : Options) (environment : ε) :
    Alike (evaluator.evaluate source options environment).outcome
      (other.evaluate source options
        (evaluator.evaluate source options environment).environment).outcome :=
  alike_evaluate evaluator other (agree_evaluate whole evaluator source options environment)

/-- What comes of a source depends on the environment only through its external keys, so evaluating
it again changes nothing. -/
theorem depends_on_externals_only (source : Text) (options : Options) :
    (∀ {ε δ : Type} [Environment ε] [Environment δ] (evaluator other : Evaluator) (first : ε)
      (second : δ), Agree source options.overwrite first second →
        Alike (evaluator.evaluate source options first).outcome
          (other.evaluate source options second).outcome) ∧
    (∀ (evaluator other : Evaluator) (environment : MemoryEnvironment),
      let once := evaluator.evaluate source options environment
      let twice := other.evaluate source options once.environment
      Alike once.outcome twice.outcome ∧ twice.environment = once.environment) ∧
    ∀ (evaluator other : Evaluator) (environment : ProcessEnvironment),
      let once := evaluator.evaluate source options environment
      let twice := other.evaluate source options once.environment
      Alike once.outcome twice.outcome ∧ twice.environment = once.environment := by
  refine ⟨fun evaluator other _ _ agree => alike_evaluate evaluator other agree, ?_, ?_⟩
  · intro evaluator other environment
    have whole := MemoryEnvironment.isWholeMap
    exact ⟨alike_evaluate_evaluate whole evaluator other source options environment,
      environment_evaluate_evaluate whole evaluator other source options environment⟩
  · intro evaluator other environment
    have whole := ProcessEnvironment.isWholeMap
    exact ⟨alike_evaluate_evaluate whole evaluator other source options environment,
      environment_evaluate_evaluate whole evaluator other source options environment⟩

/-- A source that refers to a variable and to a key of its own. -/
def externalSource : Text :=
  "D=$H/$S\nS=s\nN=\x00\n".toList

/-- The definitions of `externalSource`. -/
def externalDefinitions : List Definition :=
  [{ key := ['D'], value := "$H/$S".toList, quote := none, position := ⟨0, 2⟩ },
    { key := ['S'], value := ['s'], quote := none, position := ⟨1, 2⟩ },
    { key := ['N'], value := ['\x00'], quote := none, position := ⟨2, 2⟩ }]

/-- An environment in memory that holds `H` and `S`. -/
def firstEnvironment : MemoryEnvironment :=
  .ofList [(['H'], ['h']), (['S'], ['t'])]

/-- The environment of a process that holds the same `H`, but no `S`. -/
def secondEnvironment : ProcessEnvironment :=
  .ofList [(['X'], [255]), (['H'], [104])]

/-- The environments differ in `S`, which the source defines, and nothing comes of it. -/
theorem depends_on_externals_only_externalSource :
    Environment.get? firstEnvironment ['S'] ≠ Environment.get? secondEnvironment ['S'] ∧
      Alike (evaluate {} externalSource {} firstEnvironment).outcome
        (evaluate {} externalSource {} secondEnvironment).outcome ∧
      let once := evaluate {} externalSource {} secondEnvironment
      (evaluate once.evaluator externalSource {} once.environment).environment =
        once.environment := by
  have scans : Source.definitions externalSource = .ok externalDefinitions := by decide +kernel
  have checked : ∀ definition ∈ winners externalDefinitions false,
      ∀ key ∈ names definition.value, key ∉ definedKeys externalDefinitions →
        Environment.get? firstEnvironment key = Environment.get? secondEnvironment key := by
    decide +kernel
  have agree : Agree externalSource false firstEnvironment secondEnvironment := by
    rintro definitions scans' key ⟨undefined, definition, wins, -, member⟩
    obtain rfl : externalDefinitions = definitions := Except.ok.inj (scans.symm.trans scans')
    exact checked definition wins key member undefined
  obtain ⟨alike, _, process⟩ := depends_on_externals_only externalSource {}
  exact ⟨by decide +kernel, alike {} {} _ _ agree, (process {} _ _).2⟩

end Evaluator
end EnvFile
