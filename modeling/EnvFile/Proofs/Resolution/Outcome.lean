import EnvFile.Evaluator
import EnvFile.Proofs.Resolution.Settling

/-!
# What resolving comes to

A linked source satisfies the invariants of settling, so the outcome of a whole run can be read off:
the values of the keys that lead to no cycle (`mem_values_run`), and the reports of cycles when all
values are stable (`Run.reportsCycles`).
-/

namespace EnvFile
namespace Resolution

open Value

namespace Linked

variable {dictionary : Dictionary} {lookup : Text → Option Text} {processed : List Text}
  {state : Resolution}

theorem blocks_eq_awaits {scanned : List (Text × Position)}
    (linked : Linked dictionary lookup scanned processed state)
    (all : ∀ key, (dictionary key).isSome ↔ key ∈ processed) (key : Text) :
    state.bindings.blocks key = dictionary.awaits lookup key := by
  cases found : dictionary key with
  | none =>
      rw [Bindings.blocks, linked.find?_of_none key found, Dictionary.awaits, found]
      split
      · cases lookup key <;> rfl
      · rfl
  | some definition =>
      have member : key ∈ processed := (all key).mp (by simp [found])
      have bound := linked.find?_of_some key definition found
      rw [if_pos member] at bound
      rw [Bindings.blocks, bound, Dictionary.awaits, found, Bool.eq_iff_iff]
      simp [Binding.isComplete, Dictionary.linkedBinding, List.countP_eq_zero]

theorem counted {scanned : List (Text × Position)}
    (linked : Linked dictionary lookup scanned processed state)
    (all : ∀ key, (dictionary key).isSome ↔ key ∈ processed) (nodup : processed.Nodup) :
    Counted state := by
  have blocks_eq := linked.blocks_eq_awaits all
  constructor
  · rw [linked.unresolved_eq, List.countP_eq_length_filter, List.countP_eq_length_filter]
    apply List.Perm.length_eq
    rw [List.perm_ext_iff_of_nodup (nodup.filter _) ((OrderedMap.nodup_keys _).filter _)]
    intro key
    rw [List.mem_filter, List.mem_filter, blocks_eq key]
    apply and_congr_left
    intro waits
    have defined : (dictionary key).isSome := by
      cases found : dictionary key with
      | none => simp [Dictionary.awaits, found] at waits
      | some definition => rfl
    obtain ⟨definition, found⟩ := Option.isSome_iff_exists.mp defined
    refine iff_of_true ((all key).mp defined) ?_
    exact (OrderedMap.mem_keys_iff _ _).mpr ⟨_, linked.find?_of_some key definition found⟩
  · intro key binding bound incomplete
    cases found : dictionary key with
    | none =>
        have none_waits := blocks_eq key
        rw [Bindings.blocks, bound, Dictionary.awaits, found] at none_waits
        simp [incomplete] at none_waits
    | some definition =>
        rw [linked.find?_of_some key definition found, Option.some.injEq] at bound
        subst bound
        split <;> rfl

theorem unset_of_countP_eq_zero {definition : Definition}
    (unbound : definition.names.countP (dictionary.isBound lookup) = 0) {name : Text}
    (member : name ∈ definition.names) : dictionary name = none ∧ lookup name = none := by
  simpa [Dictionary.isBound] using List.countP_eq_zero.mp unbound name member

private theorem not_leadsToCycle_of_unbound {key : Text} {definition : Definition}
    (defined : dictionary key = some definition)
    (unbound : definition.names.countP (dictionary.isBound lookup) = 0) :
    ¬ dictionary.LeadsToCycle key := by
  intro leads
  obtain ⟨other, ⟨⟨definition', defined', member⟩, other_defined⟩, _⟩ := leads.exists_refers
  obtain rfl : definition = definition' := by simpa [defined] using defined'
  simp [(unset_of_countP_eq_zero unbound member).1] at other_defined

private theorem spliced_of_verbatim {means : Text → Text} {key : Text} {definition : Definition}
    (expansion : dictionary.IsExpansion lookup means) (defined : dictionary key = some definition)
    (verbatim : definition.isVerbatim = true) (acyclic : ¬ dictionary.LeadsToCycle key) :
    IsInert (dictionary.linkedBinding lookup definition).spliced ∧
      decode (dictionary.linkedBinding lookup definition).spliced = means key := by
  have no_names : definition.names = [] := by simp [Definition.names, verbatim]
  have spliced_eq : (dictionary.linkedBinding lookup definition).spliced =
      protect definition.value := by
    rw [Dictionary.linkedBinding_of_names_eq_nil _ _ no_names]
    simp [Binding.spliced, Binding.ofDefinition, Binding.ofSource, verbatim]
  have meaning := expansion key acyclic
  rw [defined] at meaning
  simp only [verbatim, ↓reduceIte] at meaning
  rw [spliced_eq, decode_protect, meaning]
  exact ⟨isInert_protect _, rfl⟩

/-- A stable value whose references have no value means what is left of it. -/
private theorem spliced_of_unbound {means : Text → Text} {key : Text} {definition : Definition}
    (expansion : dictionary.IsExpansion lookup means) (defined : dictionary key = some definition)
    (interpreted : definition.isVerbatim = false) (stable : IsStable definition.value)
    (unbound : definition.names.countP (dictionary.isBound lookup) = 0)
    (acyclic : ¬ dictionary.LeadsToCycle key) :
    IsInert (dictionary.linkedBinding lookup definition).spliced ∧
      decode (dictionary.linkedBinding lookup definition).spliced = means key := by
  have names_eq := names_eq_of_interpreted interpreted
  have meaning := expansion key acyclic
  rw [defined] at meaning
  simp only [interpreted, Bool.false_eq_true, ↓reduceIte] at meaning
  have spliced_eq : (dictionary.linkedBinding lookup definition).spliced =
      shield (dictionary.linkedBinding lookup definition).value := by
    simp [Dictionary.linkedBinding, Binding.spliced, Binding.ofDefinition, interpreted]
  rw [spliced_eq, decode_shield, meaning]
  by_cases erased : definition.names = []
  · have value_eq : (dictionary.linkedBinding lookup definition).value = definition.value := by
      rw [Dictionary.linkedBinding_of_names_eq_nil _ _ erased]
      rfl
    rw [value_eq]
    refine ⟨isInert_shield stable.not_endsOpen, ?_⟩
    rw [fill_of_names_eq_nil (names_eq ▸ erased)]
  · have value_eq : (dictionary.linkedBinding lookup definition).value =
        (Bindings.splice .empty .keep definition.value).text := by
      simp [Dictionary.linkedBinding, erased, unbound]
    have inert : Bindings.InertFor .empty definition.value := fun _ _ _ => isInert_nil
    have ready : ∀ name ∈ names definition.value, Bindings.blocks .empty name = false :=
      fun _ _ => rfl
    rw [value_eq, Bindings.decode_splice ready]
    refine ⟨isInert_shield (Bindings.isSealed_splice stable inert ready).not_endsOpen, ?_⟩
    apply fill_congr
    intro name member
    obtain ⟨undefined, unset⟩ := unset_of_countP_eq_zero unbound (names_eq ▸ member)
    have name_meaning := expansion name fun leads => by simpa [undefined] using leads.isSome
    rw [name_meaning, undefined, unset]
    exact decode_nil

private theorem stage_of_complete {means : Text → Text} {key : Text} {definition : Definition}
    (expansion : dictionary.IsExpansion lookup means) (defined : dictionary key = some definition)
    (stable : definition.isVerbatim = false → IsStable definition.value)
    (unbound : definition.names.countP (dictionary.isBound lookup) = 0) :
    IsInert (dictionary.linkedBinding lookup definition).spliced ∧
      decode (dictionary.linkedBinding lookup definition).spliced = means key ∧
      ¬ dictionary.LeadsToCycle key := by
  have acyclic := not_leadsToCycle_of_unbound defined unbound
  rw [← and_assoc]
  refine ⟨?_, acyclic⟩
  cases verbatim : definition.isVerbatim with
  | true => exact spliced_of_verbatim expansion defined verbatim acyclic
  | false => exact spliced_of_unbound expansion defined verbatim (stable verbatim) unbound acyclic

/-- In a linked source no key of a stable scope has come further than it should. -/
theorem progress {means : Text → Text} {scope : Text → Prop}
    (linked : Linked dictionary lookup (dictionary.scan processed) processed state)
    (all : ∀ key, (dictionary key).isSome ↔ key ∈ processed)
    (covers : StableScope dictionary scope) (expansion : dictionary.IsExpansion lookup means) :
    Progress dictionary lookup means scope state.bindings := by
  constructor
  · intro key definition _ defined name member undefined
    have processed_key : key ∈ processed := (all key).mp (by simp [defined])
    have scanned := Dictionary.mem_map_fst_scan processed_key defined member
    rw [linked.find?_of_none name undefined, if_pos scanned]
  · intro key definition in_scope defined
    have processed_key : key ∈ processed := (all key).mp (by simp [defined])
    have bound := linked.find?_of_some key definition defined
    rw [if_pos processed_key] at bound
    refine ⟨_, bound, rfl, rfl, rfl, ?_, ?_⟩
    · intro complete
      have unbound : definition.names.countP (dictionary.isBound lookup) = 0 := by
        simpa [Binding.isComplete, Dictionary.linkedBinding] using complete
      exact stage_of_complete expansion defined (covers.stable key definition in_scope defined)
        unbound
    · intro incomplete
      have some_bound : definition.names.countP (dictionary.isBound lookup) ≠ 0 := by
        simpa [Binding.isComplete, Dictionary.linkedBinding] using incomplete
      have interpreted : definition.isVerbatim = false := by
        cases verbatim : definition.isVerbatim with
        | true => simp [Definition.names, verbatim] at some_bound
        | false => rfl
      refine ⟨interpreted, state.bindings, .refl _, ?_, .inl ?_⟩
      · rw [← names_eq_of_interpreted interpreted]
        apply List.countP_mono_left
        intro name _ waits
        rw [linked.blocks_eq_awaits all] at waits
        rw [Dictionary.isBound, Bool.or_eq_true]
        cases found : dictionary name with
        | none => simp [Dictionary.awaits, found] at waits
        | some definition => exact .inl rfl
      · simp [Dictionary.linkedBinding, some_bound, Binding.ofDefinition, Binding.ofSource]

end Linked

/-! ## Reports of cycles -/

/-- The reports of circular references are exact: each is about a key that leads to a cycle and
stands at the first reference to it, no key is reported twice, and settling stalls once if there is
a cycle and never otherwise. -/
structure ReportsCycles (dictionary : Dictionary) (references : List (Text × Position))
    (diagnostics : List Diagnostic) (stalls : Nat) : Prop where
  mem_iff : ∀ diagnostic, diagnostic ∈ diagnostics ∧ diagnostic.code = .circularReference ↔
    ∃ key position, dictionary.LeadsToCycle key ∧ references.lookup key = some position ∧
      diagnostic = .ofProblem (.circularReference key) position
  nodup : ((diagnostics.filter fun diagnostic =>
    diagnostic.code = .circularReference).map Diagnostic.key?).Nodup
  acyclic : (∀ key, ¬ dictionary.LeadsToCycle key) →
    stalls = 0 ∧ ∀ diagnostic ∈ diagnostics, diagnostic.code ≠ .circularReference
  cyclic : (∃ key, dictionary.LeadsToCycle key) →
    stalls = 1 ∧ ∃ diagnostic ∈ diagnostics, diagnostic.code = .circularReference

theorem nodup_circularities (state : Resolution) :
    (state.circularities.map Diagnostic.key?).Nodup := by
  have keys_eq : state.circularities.map Diagnostic.key? =
      ((state.mentions.entries.filter fun mention => state.isStuck mention.1).map Prod.fst).map
        some := by
    rw [circularities, List.map_map, List.map_map]
    rfl
  rw [keys_eq]
  apply List.Nodup.map (Option.some_injective _)
  exact state.mentions.nodup.sublist (List.filter_sublist.map _)

theorem code_eq_of_mem_circularities {state : Resolution} {diagnostic : Diagnostic}
    (member : diagnostic ∈ state.circularities) : diagnostic.code = .circularReference := by
  obtain ⟨mention, _, rfl⟩ := List.mem_map.mp member
  rfl

theorem Linked.code_eq_of_mem {dictionary : Dictionary} {lookup : Text → Option Text}
    {scanned : List (Text × Position)} {processed : List Text} {state : Resolution}
    (linked : Linked dictionary lookup scanned processed state) {diagnostic : Diagnostic}
    (member : diagnostic ∈ state.diagnostics) : diagnostic.code = .undefinedReference := by
  rw [linked.diagnostics_eq] at member
  obtain ⟨reference, _, rfl⟩ := List.mem_map.mp member
  rfl

theorem lookup_filter {references : List (Text × Position)} {kept : Text → Bool} {key : Text}
    (keeps : kept key = true) :
    (references.filter fun reference => kept reference.1).lookup key = references.lookup key := by
  induction references with
  | nil => rfl
  | cons reference references ih =>
      obtain ⟨name, position⟩ := reference
      by_cases same : key = name
      · subst same
        simp [keeps]
      · have no_match : (key == name) = false := by simpa using same
        by_cases kept_name : kept name = true
        · rw [List.filter_cons_of_pos (by simpa using kept_name), List.lookup_cons, no_match,
            List.lookup_cons, no_match]
          exact ih
        · rw [List.filter_cons_of_neg (by simpa using kept_name), List.lookup_cons, no_match]
          exact ih

theorem exists_lookup_scan {dictionary : Dictionary} {keys : List Text}
    (finite : ∀ key, (dictionary key).isSome → key ∈ keys)
    (cyclic : ∃ key, dictionary.LeadsToCycle key) :
    ∃ key position, dictionary.LeadsToCycle key ∧
      (dictionary.scan keys).lookup key = some position := by
  obtain ⟨key, leads⟩ := cyclic
  obtain ⟨other, ⟨⟨definition, found, member⟩, _⟩, other_leads⟩ := leads.exists_refers
  obtain ⟨reference, scanned, rfl⟩ := List.mem_map.mp
    (Dictionary.mem_map_fst_scan (finite key (by simp [found])) found member)
  cases place : (dictionary.scan keys).lookup reference.1 with
  | some position => exact ⟨reference.1, position, other_leads, place⟩
  | none =>
      rw [List.lookup_eq_none_iff] at place
      simpa using place reference scanned

/-! ## A whole run -/

theorem nodup_values (state : Resolution) : (state.values.map Prod.fst).Nodup := by
  rw [map_fst_values]
  exact state.bindings.nodup.sublist (List.filter_sublist.map _)

theorem mem_values_decodeValues {state : Resolution} {key : Text} {binding : Binding}
    (found : state.bindings.find? key = some binding) (isLocal : binding.isLocal = true) :
    (key, binding.decode.value) ∈ state.decodeValues.values := by
  have decoded : state.decodeValues.bindings.find? key = some binding.decode := by
    rw [decodeValues, OrderedMap.find?_mapValues, found]
    rfl
  have isLocal' : binding.decode.isLocal = true := by
    unfold Binding.decode
    split <;> exact isLocal
  rw [OrderedMap.find?_eq_some_iff] at decoded
  apply List.mem_map.mpr
  exact ⟨(key, binding.decode), List.mem_filter.mpr ⟨decoded, isLocal'⟩, rfl⟩

/-- How a run with interpolation comes to its end: it links the source, settles, and decodes. -/
structure Run (definitions : List Definition) (overwrite : Bool) (lookup : Text → Option Text)
    (scope : Text → Prop) (start last : Resolution) : Prop where
  linked : Linked (.ofDefinitions definitions overwrite) lookup
    (Dictionary.scan (.ofDefinitions definitions overwrite) (definedKeys definitions))
    (definedKeys definitions) { start with convergence := {} }
  keys : definedKeys definitions <+: start.bindings.keys
  convergence_eq : start.convergence = { initial := start.unresolved }
  settled : Settled (.ofDefinitions definitions overwrite) lookup
    (expand definitions overwrite lookup) scope start last
  run_eq : run {} definitions { overwrite, interpolate := true } lookup = start.settle.decodeValues

theorem exists_run (definitions : List Definition) (overwrite : Bool)
    (lookup : Text → Option Text) {scope : Text → Prop}
    (covers : StableScope (.ofDefinitions definitions overwrite) scope) :
    ∃ start last, Run definitions overwrite lookup scope start last := by
  obtain ⟨linked, spec, link_eq⟩ := exists_linked_link definitions overwrite lookup
  have all := Dictionary.isSome_ofDefinitions_iff definitions overwrite
  have counted := spec.counted all (nodup_definedKeys definitions)
  have expansion := isExpansion_expand definitions overwrite lookup
  let start : Resolution := { linked with convergence := { initial := linked.unresolved } }
  have progress : Progress _ lookup _ scope start.bindings := spec.progress all covers expansion
  have counted : Counted start := ⟨counted.unresolved_eq, counted.isLocal⟩
  obtain ⟨last, settled⟩ := exists_settled progress covers expansion counted
  refine ⟨start, last, ?_, ?_, rfl, settled, ?_⟩
  · have same : ({ start with convergence := {} } : Resolution) = linked := by
      rw [← spec.convergence_eq]
    rw [same]
    exact spec
  · have start_eq : (defineAll {} definitions overwrite).link lookup = start := link_eq
    rw [← keys_defineAll definitions overwrite, ← start_eq]
    exact isPrefix_keys_link _ lookup
  · rw [run]
    simp only [↓reduceIte, link_eq]
    rfl

section Run

variable {definitions : List Definition} {overwrite : Bool} {lookup : Text → Option Text}
  {scope : Text → Prop} {start last : Resolution}

theorem Run.counted (run : Run definitions overwrite lookup scope start last) : Counted start := by
  have counted := run.linked.counted (Dictionary.isSome_ofDefinitions_iff definitions overwrite)
    (nodup_definedKeys definitions)
  exact ⟨counted.unresolved_eq, counted.isLocal⟩

theorem Run.find?_of_mem (run : Run definitions overwrite lookup scope start last)
    (nodup : (definitions.map Definition.key).Nodup) {definition : Definition}
    (member : definition ∈ definitions) :
    start.bindings.find? definition.key = some
      ((Dictionary.ofDefinitions definitions overwrite).linkedBinding lookup definition) := by
  have found := (Dictionary.ofDefinitions_eq_some_iff nodup overwrite definition.key definition).mpr
    ⟨member, rfl⟩
  have bound : start.bindings.find? definition.key = _ :=
    run.linked.find?_of_some definition.key definition found
  rw [bound, if_pos]
  rw [definedKeys_of_nodup nodup]
  exact List.mem_map_of_mem member

/-- A key that the source does not define is bound by the environment if a value refers to it. -/
theorem Run.find?_of_notMem (run : Run definitions overwrite lookup scope start last)
    (nodup : (definitions.map Definition.key).Nodup) {definition : Definition}
    (member : definition ∈ definitions) {name : Text} (mentioned : name ∈ definition.names)
    (undefined : name ∉ definitions.map Definition.key) :
    start.bindings.find? name = (lookup name).map .ofEnvironment := by
  have none_found : Dictionary.ofDefinitions definitions overwrite name = none := by
    rw [← Option.not_isSome_iff_eq_none]
    exact fun defined => undefined (mem_map_key_of_isSome definitions overwrite name defined)
  have found := (Dictionary.ofDefinitions_eq_some_iff nodup overwrite definition.key definition).mpr
    ⟨member, rfl⟩
  have scanned : name ∈ ((Dictionary.ofDefinitions definitions overwrite).scan
      (definedKeys definitions)).map Prod.fst := by
    refine Dictionary.mem_map_fst_scan ?_ found mentioned
    rw [definedKeys_of_nodup nodup]
    exact List.mem_map_of_mem member
  have bound : start.bindings.find? name = _ := run.linked.find?_of_none name none_found
  rw [bound, if_pos scanned]

/-- A key that is defined and referred to is mentioned where it is referred to first. -/
theorem Run.exists_mention (run : Run definitions overwrite lookup scope start last) {key : Text}
    (defined : (Dictionary.ofDefinitions definitions overwrite key).isSome)
    (scanned : key ∈ (Dictionary.scan (.ofDefinitions definitions overwrite)
      (definedKeys definitions)).map Prod.fst) :
    ∃ position, (key, position) ∈ start.mentions.entries := by
  have bound : (Dictionary.ofDefinitions definitions overwrite).isBound lookup key = true := by
    rw [Dictionary.isBound, defined, Bool.true_or]
  have mentions_eq : start.mentions = .ofReferences _ := run.linked.mentions_eq
  have place_eq := Mentions.find?_ofReferences
    ((Dictionary.scan (.ofDefinitions definitions overwrite) (definedKeys definitions)).filter
      fun reference => (Dictionary.ofDefinitions definitions overwrite).isBound lookup reference.1)
    key
  rw [lookup_filter bound, ← mentions_eq] at place_eq
  cases place : (Dictionary.scan (.ofDefinitions definitions overwrite)
      (definedKeys definitions)).lookup key with
  | some position =>
      rw [place, OrderedMap.find?_eq_some_iff] at place_eq
      exact ⟨position, place_eq⟩
  | none =>
      obtain ⟨reference, member, rfl⟩ := List.mem_map.mp scanned
      rw [List.lookup_eq_none_iff] at place
      simpa using place reference member

/-- A key that leads to no cycle ends with its expansion, if the values it depends on are stable. -/
theorem mem_values_run (covers : StableScope (.ofDefinitions definitions overwrite) scope)
    {key : Text} (in_scope : scope key) (defined : key ∈ definedKeys definitions)
    (acyclic : ¬ (Dictionary.ofDefinitions definitions overwrite).LeadsToCycle key) :
    (key, expand definitions overwrite lookup key) ∈
      (run {} definitions { overwrite, interpolate := true } lookup).values := by
  obtain ⟨start, last, spec⟩ := exists_run definitions overwrite lookup covers
  rw [← Dictionary.isSome_ofDefinitions_iff definitions overwrite] at defined
  obtain ⟨binding, found, isLocal, value_eq⟩ := spec.settled.find?_settle covers
    (mem_map_key_of_isSome definitions overwrite) in_scope defined acyclic
  rw [spec.run_eq, ← value_eq]
  exact mem_values_decodeValues found isLocal

theorem Run.code_ne_circularReference (run : Run definitions overwrite lookup scope start last) :
    ∀ diagnostic ∈ start.diagnostics, diagnostic.code ≠ .circularReference := by
  intro diagnostic member same
  have code := run.linked.code_eq_of_mem member
  rw [same] at code
  exact absurd code (by decide)

theorem Run.stalls_last (run : Run definitions overwrite lookup scope start last) :
    last.convergence.stalls = 0 := by
  rw [run.settled.advances.stalls_eq, run.convergence_eq]

namespace Run

variable (run : Run definitions overwrite lookup (fun _ => True) start last)
  (covers : StableScope (.ofDefinitions definitions overwrite) fun _ => True)

include run covers

theorem blocks_iff (key : Text) :
    last.bindings.blocks key = true ↔
      (Dictionary.ofDefinitions definitions overwrite).LeadsToCycle key := by
  cases found : Dictionary.ofDefinitions definitions overwrite key with
  | none =>
      have all := Dictionary.isSome_ofDefinitions_iff definitions overwrite
      refine iff_of_false (fun waits => ?_) (fun leads => by simpa [found] using leads.isSome)
      have waited := run.settled.advances.extended.blocks_of_blocks waits
      have awaits := run.linked.blocks_eq_awaits all key
      rw [Dictionary.awaits, found] at awaits
      rw [show start.bindings.blocks key = false from awaits] at waited
      exact absurd waited (by decide)
  | some definition =>
      exact run.settled.blocks_iff covers (mem_map_key_of_isSome definitions overwrite) trivial
        (by simp [found])

/-- A key that waits at the end of the rounds is reported at the first reference to it. -/
theorem mem_circularities_iff (diagnostic : Diagnostic) :
    diagnostic ∈ last.circularities ↔
      ∃ key position, (Dictionary.ofDefinitions definitions overwrite).LeadsToCycle key ∧
        (Dictionary.scan (.ofDefinitions definitions overwrite)
          (definedKeys definitions)).lookup key = some position ∧
        diagnostic = .ofProblem (.circularReference key) position := by
  have mentions_eq : last.mentions = .ofReferences _ :=
    run.settled.advances.mentions_eq.trans run.linked.mentions_eq
  have place_iff : ∀ key position,
      (Dictionary.ofDefinitions definitions overwrite).LeadsToCycle key →
      ((key, position) ∈ last.mentions.entries ↔
        (Dictionary.scan (.ofDefinitions definitions overwrite)
          (definedKeys definitions)).lookup key = some position) := by
    intro key position leads
    have bound : (Dictionary.ofDefinitions definitions overwrite).isBound lookup key = true := by
      rw [Dictionary.isBound, leads.isSome, Bool.true_or]
    rw [← OrderedMap.find?_eq_some_iff, mentions_eq, Mentions.find?_ofReferences,
      lookup_filter bound]
  constructor
  · intro member
    obtain ⟨⟨key, position⟩, kept, rfl⟩ := List.mem_map.mp member
    obtain ⟨mentioned, stuck⟩ := List.mem_filter.mp kept
    have leads := (run.blocks_iff covers key).mp stuck
    exact ⟨key, position, leads, (place_iff key position leads).mp mentioned, rfl⟩
  · rintro ⟨key, position, leads, place, rfl⟩
    apply List.mem_map.mpr
    have mentioned := (place_iff key position leads).mpr place
    refine ⟨(key, position), List.mem_filter.mpr ⟨mentioned, ?_⟩, rfl⟩
    exact (run.blocks_iff covers key).mpr leads

/-- If no key waits in the end, there is no cycle to report. -/
theorem reportsCycles_of_unresolved_eq_zero (none_left : last.unresolved = 0) :
    ReportsCycles (.ofDefinitions definitions overwrite)
      (Dictionary.scan (.ofDefinitions definitions overwrite) (definedKeys definitions))
      last.diagnostics last.convergence.stalls := by
  have undefined_code := run.code_ne_circularReference
  have acyclic : ∀ key, ¬ (Dictionary.ofDefinitions definitions overwrite).LeadsToCycle key := by
    intro key leads
    have waits := (run.blocks_iff covers key).mpr leads
    have ready := run.settled.counted.blocks_eq_false_of_unresolved_eq_zero none_left key
    rw [waits] at ready
    exact absurd ready (by decide)
  rw [run.settled.advances.diagnostics_eq, run.stalls_last]
  constructor
  · intro diagnostic
    refine iff_of_false (fun both => undefined_code diagnostic both.1 both.2) ?_
    rintro ⟨key, position, leads, _, _⟩
    exact acyclic key leads
  · rw [List.filter_eq_nil_iff.mpr fun diagnostic member => by
      simpa using undefined_code diagnostic member]
    exact List.nodup_nil
  · intro _
    exact ⟨rfl, undefined_code⟩
  · rintro ⟨key, leads⟩
    exact absurd leads (acyclic key)

/-- If keys wait in the end, exactly those are reported that are referred to and lead to a cycle. -/
theorem reportsCycles_of_unresolved_ne_zero (some_left : last.unresolved ≠ 0) :
    ReportsCycles (.ofDefinitions definitions overwrite)
      (Dictionary.scan (.ofDefinitions definitions overwrite) (definedKeys definitions))
      last.cutCycles.diagnostics last.cutCycles.convergence.stalls := by
  have undefined_code := run.code_ne_circularReference
  have circular_iff := run.mem_circularities_iff covers
  have cyclic : ∃ key, (Dictionary.ofDefinitions definitions overwrite).LeadsToCycle key := by
    obtain ⟨key, waits⟩ := run.settled.counted.exists_blocks_of_unresolved_ne_zero some_left
    exact ⟨key, (run.blocks_iff covers key).mp waits⟩
  obtain ⟨_, diagnostics_eq, _, stalls_eq⟩ := last.cutCycles_spec
  rw [diagnostics_eq, stalls_eq, run.settled.advances.diagnostics_eq, run.stalls_last]
  constructor
  · intro diagnostic
    rw [← circular_iff, List.mem_append]
    constructor
    · rintro ⟨member | member, code⟩
      · exact absurd code (undefined_code diagnostic member)
      · exact member
    · intro member
      exact ⟨.inr member, code_eq_of_mem_circularities member⟩
  · have kept : ((start.diagnostics ++ last.circularities).filter fun diagnostic =>
        diagnostic.code = .circularReference) = last.circularities := by
      rw [List.filter_append, List.filter_eq_nil_iff.mpr fun diagnostic member => by
        simpa using undefined_code diagnostic member, List.nil_append, List.filter_eq_self]
      intro diagnostic member
      simpa using code_eq_of_mem_circularities member
    rw [kept]
    exact last.nodup_circularities
  · intro acyclic
    obtain ⟨key, leads⟩ := cyclic
    exact absurd leads (acyclic key)
  · intro _
    have finite := fun key =>
      (Dictionary.isSome_ofDefinitions_iff definitions overwrite key).mp
    obtain ⟨key, position, leads, place⟩ := exists_lookup_scan finite cyclic
    have member := (circular_iff _).mpr ⟨key, position, leads, place, rfl⟩
    exact ⟨rfl, _, List.mem_append_right _ member, code_eq_of_mem_circularities member⟩

/-- If all values are stable, the reports of circular references are exact. -/
theorem reportsCycles :
    ReportsCycles (.ofDefinitions definitions overwrite)
      (Dictionary.scan (.ofDefinitions definitions overwrite) (definedKeys definitions))
      start.settle.diagnostics start.settle.convergence.stalls := by
  rcases run.settled.outcome with ⟨none_left, settle_eq⟩ | ⟨some_left, settle_eq⟩
  · rw [settle_eq]
    exact run.reportsCycles_of_unresolved_eq_zero covers none_left
  · rw [settle_eq]
    exact run.reportsCycles_of_unresolved_ne_zero covers some_left

end Run

end Run

end Resolution
end EnvFile
