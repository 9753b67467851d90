import EnvFile.Environment.Memory
import EnvFile.Environment.Process
import EnvFile.Proofs.Evaluation.Reporting
import EnvFile.Proofs.Resolution.Winners
import EnvFile.Proofs.Source.Grammar

/-!
# What publishing changes

As far as names go, an environment in memory and the environment of a process are maps that differ
in the values they accept (`Environment.IsMap`).  Setting a variable of a map changes it or leaves
the map as it is; setting variables one after another, each once, changes those that are applied and
nothing else (`isPublication_publish`).  An evaluated source publishes the keys that it defines,
each resolved from the definition that wins, and no key that it only refers to
(`Evaluator.publishes_defined_keys_only`).
-/

namespace EnvFile

open Value

/-- An environment shows a map as far as names go: a name is set if the map has it, and setting it
inserts what is stored for the value if the value is accepted. -/
structure Environment.IsMap {ε ν : Type} [Environment ε] (vars : ε → OrderedMap Text ν)
    (accepts : Text → Prop) (stored : Text → ν) : Prop where
  contains_iff : ∀ (environment : ε) (key : Text), IsName key →
    (contains environment key = true ↔ key ∈ (vars environment).keys)
  exists_insert? : ∀ (environment : ε) (key value : Text), IsName key → accepts value →
    ∃ after, insert? environment key value = some after ∧
      vars after = (vars environment).insert key (stored value)
  insert?_eq_none : ∀ (environment : ε) (key value : Text), IsName key → ¬ accepts value →
    insert? environment key value = none

theorem MemoryEnvironment.isMap :
    Environment.IsMap MemoryEnvironment.vars (fun _ => True) id where
  contains_iff environment key _ := environment.vars.contains_iff key
  exists_insert? _ _ _ _ _ := ⟨_, rfl, rfl⟩
  insert?_eq_none _ _ _ _ refused := absurd trivial refused

namespace ProcessEnvironment

theorem notMem_of_isName {key : Text} (named : IsName key) {c : Char}
    (outside : isNameChar c = false) : c ∉ key := by
  intro member
  simp [isNameChar_of_mem named member] at outside

theorem storable_iff {key : Text} (named : IsName key) (value : Text) :
    storable key value = true ↔ '\x00' ∉ value := by
  have not_empty : key ≠ [] := by
    obtain ⟨head, tail, rfl, _, _⟩ := named
    exact List.cons_ne_nil head tail
  have no_equals : '=' ∉ key := notMem_of_isName named (by decide)
  have no_nul : '\x00' ∉ key := notMem_of_isName named (by decide)
  simp [storable, not_empty, no_equals, no_nul]

theorem isMap :
    Environment.IsMap ProcessEnvironment.vars (fun value => '\x00' ∉ value) .text where
  contains_iff environment key named := by
    have plain : '=' ∉ key := notMem_of_isName named (by decide)
    rw [← environment.vars.contains_iff key]
    simp only [Environment.contains, find?_of_notMem environment key plain, OrderedMap.contains]
  exists_insert? environment key value named accepted := by
    have stores := (storable_iff named value).mpr accepted
    exact ⟨_, if_pos stores, rfl⟩
  insert?_eq_none environment key value named refused := by
    have refuses : ¬ storable key value = true := fun stores =>
      refused ((storable_iff named value).mp stores)
    exact if_neg refuses

end ProcessEnvironment

/-- A map behind the wish to set the variable of an entry: it changes if the entry is applied. -/
def Entry.writeTo {ν : Type} (entry : Entry) (stored : Text → ν) (map : OrderedMap Text ν) :
    OrderedMap Text ν :=
  if entry.applied then map.insert entry.key (stored entry.value) else map

namespace Entry

variable {ν : Type} {entry : Entry} {stored : Text → ν} {map : OrderedMap Text ν}

theorem find?_writeTo_self (applied : entry.applied = true) :
    (entry.writeTo stored map).find? entry.key = some (stored entry.value) := by
  rw [writeTo, if_pos applied, OrderedMap.find?_insert, if_pos rfl]

theorem find?_writeTo_of_ne {key : Text} (differ : entry.applied = true → entry.key ≠ key) :
    (entry.writeTo stored map).find? key = map.find? key := by
  unfold writeTo
  split
  · rename_i applied
    rw [OrderedMap.find?_insert, if_neg (Ne.symm (differ applied))]
  · rfl

theorem contains_writeTo_of_ne {key : Text} (differ : entry.key ≠ key) :
    (entry.writeTo stored map).contains key = map.contains key := by
  rw [OrderedMap.contains, OrderedMap.contains, find?_writeTo_of_ne fun _ => differ]

theorem keys_writeTo :
    (entry.writeTo stored map).keys = map.keys ++
      if entry.applied && !map.contains entry.key then [entry.key] else [] := by
  cases applied : entry.applied with
  | false => simp [writeTo, applied]
  | true =>
      by_cases old : entry.key ∈ map.keys
      · simp [writeTo, applied, OrderedMap.keys_insert, old, (map.contains_iff entry.key).mpr old]
      · have unbound : map.contains entry.key = false := by
          simpa using fun bound => old ((map.contains_iff entry.key).mp bound)
        simp [writeTo, applied, OrderedMap.keys_insert, old, unbound]

end Entry

/-- A variable is applied if it may be set and its value is accepted; the map changes if it is. -/
theorem Environment.set_of_isMap {ε ν : Type} [Environment ε] {vars : ε → OrderedMap Text ν}
    {accepts : Text → Prop} {stored : Text → ν} (isMap : IsMap vars accepts stored) {key : Text}
    (named : IsName key) (environment : ε) (value : Text) (overwrite : Bool) :
    ((set environment key value overwrite).applied = true ↔
      (overwrite = true ∨ key ∉ (vars environment).keys) ∧ accepts value) ∧
    vars (set environment key value overwrite).environment =
      Entry.writeTo { key, value, applied := (set environment key value overwrite).applied } stored
        (vars environment) := by
  unfold Entry.writeTo
  have contains_iff := isMap.contains_iff environment key named
  by_cases kept : overwrite = false ∧ contains environment key = true
  · obtain ⟨rfl, bound⟩ := kept
    simp [set, bound, contains_iff.mp bound]
  · have free : overwrite = true ∨ key ∉ (vars environment).keys := by
      rw [← contains_iff]
      cases overwrite <;> simp_all
    have set_eq : set environment key value overwrite = insert environment key value := by
      rw [set, if_neg (by simpa using kept)]
    rw [set_eq, insert]
    by_cases accepted : accepts value
    · obtain ⟨after, insert_eq, vars_eq⟩ :=
        isMap.exists_insert? environment key value named accepted
      simp [insert_eq, vars_eq, free, accepted]
    · simp [isMap.insert?_eq_none environment key value named accepted, accepted]

/-- What setting the variables of some entries one after another comes to in a map.  An entry is
applied if its key may be set and its value is accepted; the keys of the applied entries are set to
their values, and every other key is as before.  New keys go to the end, in the order of the
entries. -/
structure IsPublication {ν : Type} (overwrite : Bool) (accepts : Text → Prop) (stored : Text → ν)
    (before after : OrderedMap Text ν) (entries : List Entry) : Prop where
  applied_iff : ∀ entry ∈ entries, entry.applied = true ↔
    (overwrite = true ∨ entry.key ∉ before.keys) ∧ accepts entry.value
  find?_of_applied : ∀ entry ∈ entries, entry.applied = true →
    after.find? entry.key = some (stored entry.value)
  find?_of_untouched : ∀ key, (∀ entry ∈ entries, entry.applied = true → entry.key ≠ key) →
    after.find? key = before.find? key
  keys_eq : after.keys = before.keys ++
    (entries.filter fun entry => entry.applied && !before.contains entry.key).map Entry.key

section Publication

variable {ν : Type} {overwrite : Bool} {accepts : Text → Prop} {stored : Text → ν}

theorem IsPublication.nil (before : OrderedMap Text ν) :
    IsPublication overwrite accepts stored before before [] where
  applied_iff := by simp
  find?_of_applied := by simp
  find?_of_untouched _ _ := rfl
  keys_eq := (List.append_nil _).symm

/-- One more variable, set before the others, of which none has its key. -/
theorem IsPublication.cons {before after : OrderedMap Text ν} {entry : Entry}
    {entries : List Entry}
    (applied_iff : entry.applied = true ↔
      (overwrite = true ∨ entry.key ∉ before.keys) ∧ accepts entry.value)
    (fresh : entry.key ∉ entries.map Entry.key)
    (rest : IsPublication overwrite accepts stored (entry.writeTo stored before) after entries) :
    IsPublication overwrite accepts stored before after (entry :: entries) := by
  have later_ne : ∀ later ∈ entries, entry.key ≠ later.key := fun later listed same =>
    fresh (same ▸ List.mem_map_of_mem listed)
  constructor
  · intro later listed
    rcases List.mem_cons.mp listed with rfl | listed
    · exact applied_iff
    · rw [rest.applied_iff later listed, ← OrderedMap.contains_iff,
        Entry.contains_writeTo_of_ne (later_ne later listed), OrderedMap.contains_iff]
  · intro later listed applied
    rcases List.mem_cons.mp listed with rfl | listed
    · rw [rest.find?_of_untouched _ fun other listed _ => Ne.symm (later_ne other listed),
        Entry.find?_writeTo_self applied]
    · exact rest.find?_of_applied later listed applied
  · intro key untouched
    rw [rest.find?_of_untouched key fun later listed =>
        untouched later (List.mem_cons_of_mem entry listed),
      Entry.find?_writeTo_of_ne (untouched entry List.mem_cons_self)]
  · -- The keys of the other entries are new behind this one if they were new before it.
    have same_new : (entries.filter fun later =>
          later.applied && !(entry.writeTo stored before).contains later.key) =
        entries.filter fun later => later.applied && !before.contains later.key :=
      List.filter_congr fun later listed => by
        rw [Entry.contains_writeTo_of_ne (later_ne later listed)]
    rw [rest.keys_eq, same_new, List.filter_cons, Entry.keys_writeTo, List.append_assoc]
    split <;> rfl

theorem map_key_publish {ε : Type} [Environment ε] (overwrite : Bool) (values : List (Text × Text))
    (environment : ε) :
    (publish overwrite values environment).entries.map Entry.key = values.map Prod.fst := by
  have entries_eq := map_entries_publish overwrite values environment
  have keys_eq := congrArg (List.map Prod.fst) entries_eq
  rwa [List.map_map] at keys_eq

/-- Publishing values under distinct names changes what it applies and nothing else. -/
theorem isPublication_publish {ε : Type} [Environment ε] {vars : ε → OrderedMap Text ν}
    (isMap : Environment.IsMap vars accepts stored) {values : List (Text × Text)}
    (nodup : (values.map Prod.fst).Nodup) (named : ∀ pair ∈ values, IsName pair.1)
    (environment : ε) :
    IsPublication overwrite accepts stored (vars environment)
      (vars (publish overwrite values environment).environment)
      (publish overwrite values environment).entries := by
  induction values generalizing environment with
  | nil => exact .nil _
  | cons pair values ih =>
      obtain ⟨key, value⟩ := pair
      rw [List.map_cons, List.nodup_cons] at nodup
      have name := named (key, value) List.mem_cons_self
      obtain ⟨applied_iff, vars_eq⟩ :=
        Environment.set_of_isMap isMap name environment value overwrite
      have rest := ih nodup.2 (fun pair member => named pair (List.mem_cons_of_mem _ member))
        (Environment.set environment key value overwrite).environment
      rw [vars_eq] at rest
      refine .cons applied_iff ?_ rest
      rw [map_key_publish]
      exact nodup.1

end Publication

/-- A report accounts for the definitions of a source.  It has one entry for each defined key, in
the order of the first definitions.  The winning definitions bind the keys, and the values and all
that is reported come from resolving them alone. -/
structure Report.AccountsFor (report : Report) (definitions : List Definition) (options : Options)
    (lookup : Text → Option Text) : Prop where
  nodup : (report.entries.map Entry.key).Nodup
  keys_eq : report.entries.map Entry.key = definedKeys definitions
  exists_winning : ∃ winning, Winning definitions options.overwrite winning ∧
    (Resolution.defineAll {} definitions options.overwrite).bindings.entries =
      winning.map (fun definition => (definition.key, .ofDefinition definition)) ∧
    report.entries.map (fun entry => (entry.key, entry.value)) =
      (Resolution.run {} winning options lookup).values ∧
    report.diagnostics = (Resolution.run {} winning options lookup).diagnostics ∧
    report.convergence = (Resolution.run {} winning options lookup).convergence

namespace Evaluator

theorem isName_of_mem_values {source : Text} {definitions : List Definition}
    (scans : Source.definitions source = .ok definitions) (options : Options)
    (lookup : Text → Option Text) :
    ∀ pair ∈ (Resolution.run {} definitions options lookup).values, IsName pair.1 := by
  intro pair member
  have listed : pair.1 ∈ definedKeys definitions :=
    Resolution.map_fst_values_run definitions options lookup ▸ List.mem_map_of_mem member
  obtain ⟨definition, defined, same⟩ := List.mem_map.mp (List.mem_eraseDups.mp listed)
  exact same ▸ (Source.isWellFormed_of_mem scans defined).isName_key

/-- Evaluating a source into a map. -/
theorem exists_report_isPublication {ε ν : Type} [Environment ε] {vars : ε → OrderedMap Text ν}
    {accepts : Text → Prop} {stored : Text → ν} (isMap : Environment.IsMap vars accepts stored)
    (evaluator : Evaluator) {source : Text} {definitions : List Definition}
    (scans : Source.definitions source = .ok definitions) (options : Options) (environment : ε) :
    ∃ report, (evaluator.evaluate source options environment).outcome = .ok report ∧
      report.AccountsFor definitions options (Environment.get? environment) ∧
      IsPublication options.overwrite accepts stored (vars environment)
        (vars (evaluator.evaluate source options environment).environment) report.entries := by
  have keys_eq := Resolution.map_fst_values_run definitions options (Environment.get? environment)
  have nodup := Resolution.nodup_definedKeys definitions
  have named := isName_of_mem_values scans options (Environment.get? environment)
  rw [evaluate]
  simp only [scans, Resolution.reset_eq]
  refine ⟨_, rfl, ⟨?_, ?_, winners definitions options.overwrite, ?_, ?_, ?_, ?_, ?_⟩, ?_⟩
  · rwa [map_key_publish, keys_eq]
  · rw [map_key_publish, keys_eq]
  · exact winning_winners definitions options.overwrite
  · exact Resolution.entries_defineAll definitions options.overwrite
  · rw [map_entries_publish, Resolution.run_winners]
  · rw [Resolution.run_winners]
    rfl
  · rw [Resolution.run_winners]
  · exact isPublication_publish isMap (keys_eq ▸ nodup) named environment

/-- A source publishes what it defines and changes nothing else, in an environment in memory and in
the environment of a process, which refuses the values that hold NUL. -/
theorem publishes_defined_keys_only (evaluator : Evaluator) {source : Text}
    {definitions : List Definition} (scans : Source.definitions source = .ok definitions)
    (options : Options) :
    (∀ environment : MemoryEnvironment, ∃ report,
      (evaluator.evaluate source options environment).outcome = .ok report ∧
      report.AccountsFor definitions options (Environment.get? environment) ∧
      IsPublication options.overwrite (fun _ => True) id environment.vars
        (evaluator.evaluate source options environment).environment.vars report.entries) ∧
    ∀ environment : ProcessEnvironment, ∃ report,
      (evaluator.evaluate source options environment).outcome = .ok report ∧
      report.AccountsFor definitions options (Environment.get? environment) ∧
      IsPublication options.overwrite (fun value => '\x00' ∉ value) .text environment.vars
        (evaluator.evaluate source options environment).environment.vars report.entries :=
  ⟨evaluator.exists_report_isPublication MemoryEnvironment.isMap scans options,
    evaluator.exists_report_isPublication ProcessEnvironment.isMap scans options⟩

/-- A source that refers to a variable, defines one that is set and one with NUL in its value, and
defines a key twice. -/
def republishingSource : Text :=
  "A=$H\nB=\x00\nC=c\nA=a\n".toList

/-- The definitions of `republishingSource`. -/
def republishingDefinitions : List Definition :=
  [{ key := ['A'], value := "$H".toList, quote := none, position := ⟨0, 2⟩ },
    { key := ['B'], value := ['\x00'], quote := none, position := ⟨1, 2⟩ },
    { key := ['C'], value := ['c'], quote := none, position := ⟨2, 2⟩ },
    { key := ['A'], value := ['a'], quote := none, position := ⟨3, 2⟩ }]

/-- The environment of a process in which `H` and `C` are set. -/
def inheritedEnvironment : ProcessEnvironment :=
  .ofList [(['H'], [104]), (['C'], [111])]

/-- A variable that a source only refers to stays as it is. -/
theorem publishes_republishingSource :
    Source.definitions republishingSource = .ok republishingDefinitions ∧
      ∃ report,
        (evaluate {} republishingSource {} inheritedEnvironment).outcome = .ok report ∧
        report.entries.map Entry.key = [['A'], ['B'], ['C']] ∧
        (evaluate {} republishingSource {} inheritedEnvironment).environment.vars.find? ['H'] =
          inheritedEnvironment.vars.find? ['H'] := by
  have scans : Source.definitions republishingSource = .ok republishingDefinitions := by
    decide +kernel
  obtain ⟨_, process⟩ := publishes_defined_keys_only {} scans {}
  obtain ⟨report, outcome_eq, accounts, publication⟩ := process inheritedEnvironment
  have keys_eq : report.entries.map Entry.key = [['A'], ['B'], ['C']] :=
    accounts.keys_eq.trans (by decide)
  refine ⟨scans, report, outcome_eq, keys_eq, publication.find?_of_untouched ['H'] ?_⟩
  intro entry listed _ same
  have defined : ['H'] ∈ report.entries.map Entry.key := same ▸ List.mem_map_of_mem listed
  rw [keys_eq] at defined
  exact absurd defined (by decide)

end Evaluator
end EnvFile
