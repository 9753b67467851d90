import EnvFile.Proofs.Resolution.Outcome
import EnvFile.Proofs.Resolution.Winners

/-!
# Definitions in order

If each value refers only to what stands above it, the first round visits every key when all that
its value refers to is complete.  So the round completes one key after another, each with what its
references mean by then (`Stands.visit`), and behind it nothing waits (`settlesAtOnce`).  Verbatim
values and values of the environment are complete from the start and may stand anywhere.
-/

namespace EnvFile

open Value

/-- No key is defined twice, and a value refers to another one that is not verbatim only if that
stands above it. -/
structure IsOrdered (definitions : List Definition) : Prop where
  nodup : (definitions.map Definition.key).Nodup
  upward : ∀ here there : Fin definitions.length,
    definitions[there].key ∈ definitions[here].names →
      definitions[there].isVerbatim = false → there < here

instance (definitions : List Definition) : Decidable (IsOrdered definitions) :=
  decidable_of_iff
    ((definitions.map Definition.key).Nodup ∧
      ∀ here there : Fin definitions.length,
        definitions[there].key ∈ definitions[here].names →
          definitions[there].isVerbatim = false → there < here)
    ⟨fun both => ⟨both.1, both.2⟩, fun ordered => ⟨ordered.nodup, ordered.upward⟩⟩

/-- What a value refers to stands above it, unless it is verbatim. -/
theorem IsOrdered.mem_front {definitions front back : List Definition} {definition : Definition}
    (ordered : IsOrdered definitions) (split : definitions = front ++ definition :: back)
    {target : Definition} (listed : target ∈ definitions)
    (mentioned : target.key ∈ definition.names) (interpreted : target.isVerbatim = false) :
    target ∈ front := by
  subst split
  obtain ⟨index, bound, rfl⟩ := List.mem_iff_getElem.mp listed
  have above : index < front.length := by
    have within : front.length < (front ++ definition :: back).length := by simp
    have here_eq : (front ++ definition :: back)[front.length] = definition := by simp
    exact ordered.upward ⟨front.length, within⟩ ⟨index, bound⟩ (by simpa using mentioned)
      interpreted
  rw [List.getElem_append_left above]
  exact List.getElem_mem above

namespace Resolution

/-- A key is complete, and its value means what the references in it stand for. -/
structure Stands (bindings : Bindings) (definition : Definition) (binding : Binding) : Prop where
  found : bindings.find? definition.key = some binding
  complete : binding.isComplete = true
  isLocal : binding.isLocal = true
  verbatim_eq : binding.verbatim = definition.isVerbatim
  decoded_eq : binding.decoded = false
  ready : ∀ name ∈ definition.names, bindings.blocks name = false
  meaning_eq : binding.meaning =
    if definition.isVerbatim then definition.value
    else fill (fun name => decode (bindings.standIn name)) definition.value

variable {bindings earlier later : Bindings} {definition : Definition} {binding : Binding}

theorem Stands.blocks_eq_false (stands : Stands bindings definition binding) :
    bindings.blocks definition.key = false := by
  simp [Bindings.blocks, stands.found, stands.complete]

theorem fill_standIn_of_extends (extended : earlier.Extends later) {value : Text}
    (ready : ∀ name ∈ names value, earlier.blocks name = false) :
    fill (fun name => decode (earlier.standIn name)) value =
      fill (fun name => decode (later.standIn name)) value := by
  apply fill_congr
  intro name member
  rw [extended.standIn_eq (ready name member)]

theorem Stands.extends (stands : Stands earlier definition binding)
    (extended : earlier.Extends later) : Stands later definition binding where
  found := (extended _ stands.blocks_eq_false).trans stands.found
  complete := stands.complete
  isLocal := stands.isLocal
  verbatim_eq := stands.verbatim_eq
  decoded_eq := stands.decoded_eq
  ready := fun name member => extended.blocks_eq_false (stands.ready name member)
  meaning_eq := by
    rw [stands.meaning_eq]
    cases verbatim : definition.isVerbatim with
    | true => rfl
    | false =>
        have ready := stands.ready
        rw [names_eq_of_interpreted verbatim] at ready
        simp only [Bool.false_eq_true, ↓reduceIte]
        exact fill_standIn_of_extends extended ready

theorem meaning_of_text_splice (interpreted : binding.verbatim = false)
    (value_eq : binding.value = (earlier.splice .keep definition.value).text)
    (ready : ∀ name ∈ names definition.value, earlier.blocks name = false) :
    binding.meaning = fill (fun name => decode (earlier.standIn name)) definition.value := by
  rw [Binding.meaning, interpreted, value_eq, ← Bindings.decode_splice ready]
  rfl

/-- A visit completes a key whose references are all ready. -/
theorem stands_visit {state : Resolution} (counted : Counted state)
    (found : state.bindings.find? definition.key = some binding)
    (incomplete : binding.isComplete = false)
    (verbatim_eq : binding.verbatim = definition.isVerbatim) (decoded_eq : binding.decoded = false)
    (interpreted : definition.isVerbatim = false) (value_eq : binding.value = definition.value)
    (ready : ∀ name ∈ definition.names, state.bindings.blocks name = false) :
    Stands (state.visit definition.key).bindings definition (state.visited binding) := by
  have extended := extends_visit state definition.key
  have ready_names := ready
  rw [names_eq_of_interpreted interpreted] at ready_names
  have none_left : (state.bindings.splice .keep binding.value).pending = 0 := by
    rw [value_eq, Bindings.pending_splice_keep, List.countP_eq_zero]
    exact fun name member => by simp [ready_names name member]
  have isLocal : binding.isLocal = true := counted.isLocal _ binding found incomplete
  have not_verbatim : (state.visited binding).verbatim = false := verbatim_eq.trans interpreted
  have spliced_eq : (state.visited binding).value =
      (state.bindings.splice .keep definition.value).text := by
    rw [← value_eq]
    rfl
  exact {
    found := counted.find?_visit found incomplete
    complete := by simp [visited, Binding.replace, Binding.isComplete, none_left]
    isLocal := isLocal
    verbatim_eq := verbatim_eq
    decoded_eq := decoded_eq
    ready := fun name member => extended.blocks_eq_false (ready name member)
    meaning_eq := by
      rw [meaning_of_text_splice not_verbatim spliced_eq ready_names, interpreted]
      simp only [Bool.false_eq_true, ↓reduceIte]
      exact fill_standIn_of_extends extended ready_names }

/-! ## The first round -/

theorem Counted.visitAll_eq_foldl {state : Resolution} (counted : Counted state)
    (keys : List Text) : state.visitAll keys = keys.foldl Resolution.visit state := by
  induction keys generalizing state with
  | nil => rfl
  | cons key keys ih =>
      rw [List.foldl_cons, ← ih (counted.visit key), Resolution.visitAll]
      by_cases none_left : state.unresolved = 0
      · have idle : state.visit key = state :=
          visit_of_blocks_eq_false (counted.blocks_eq_false_of_unresolved_eq_zero none_left key)
        rw [if_pos none_left, idle]
        cases keys with
        | nil => rfl
        | cons other keys => rw [Resolution.visitAll, if_pos none_left]
      · rw [if_neg none_left]

/-- The state behind visits to the keys of some definitions: these stand, and all other keys are
bound as at the start. -/
structure Passed (start : Resolution) (front : List Definition) (state : Resolution) : Prop where
  counted : Counted state
  extended : start.bindings.Extends state.bindings
  stands : ∀ definition ∈ front, ∃ binding, Stands state.bindings definition binding
  untouched : ∀ key, key ∉ front.map Definition.key →
    state.bindings.find? key = start.bindings.find? key

section Run

variable {definitions : List Definition} {overwrite : Bool} {lookup : Text → Option Text}
  {scope : Text → Prop} {start last : Resolution}

/-- A defined key that does not wait at the start stands. -/
theorem Run.stands_of_complete (run : Run definitions overwrite lookup scope start last)
    (nodup : (definitions.map Definition.key).Nodup) (listed : definition ∈ definitions)
    (complete : start.bindings.blocks definition.key = false) :
    ∃ binding, Stands start.bindings definition binding := by
  have found := run.find?_of_mem nodup listed
  have unbound : definition.names.countP
      ((Dictionary.ofDefinitions definitions overwrite).isBound lookup) = 0 := by
    simpa [Bindings.blocks, found, Binding.isComplete, Dictionary.linkedBinding] using complete
  have absent : ∀ name ∈ definition.names, start.bindings.find? name = none := by
    intro name member
    obtain ⟨undefined, unset⟩ := Linked.unset_of_countP_eq_zero unbound member
    have bound : start.bindings.find? name = _ := run.linked.find?_of_none name undefined
    rw [bound, unset]
    simp
  refine ⟨_, found, ?_, rfl, rfl, rfl, ?_, ?_⟩
  · simp [Binding.isComplete, Dictionary.linkedBinding, unbound]
  · intro name member
    simp [Bindings.blocks, absent name member]
  by_cases unnamed : definition.names = []
  · rw [Dictionary.linkedBinding_of_names_eq_nil _ _ unnamed]
    cases verbatim : definition.isVerbatim with
    | true => simp [Binding.meaning, Binding.ofDefinition, Binding.ofSource, verbatim]
    | false =>
        rw [names_eq_of_interpreted verbatim] at unnamed
        simp [Binding.meaning, Binding.ofDefinition, Binding.ofSource, verbatim,
          fill_of_names_eq_nil unnamed]
  · have interpreted : definition.isVerbatim = false := by
      by_contra verbatim
      exact unnamed (by simp [Definition.names, verbatim])
    have value_eq : ((Dictionary.ofDefinitions definitions overwrite).linkedBinding lookup
        definition).value = (Bindings.splice .empty .keep definition.value).text := by
      simp [Dictionary.linkedBinding, unbound, unnamed]
    rw [meaning_of_text_splice interpreted value_eq fun _ _ => rfl, interpreted]
    simp only [Bool.false_eq_true, ↓reduceIte]
    apply fill_congr
    intro name member
    have here : start.bindings.standIn name = [] := by
      simp [Bindings.standIn, absent name (names_eq_of_interpreted interpreted ▸ member)]
    rw [here]
    rfl

/-- What the value of a key refers to is ready behind visits to all keys above. -/
theorem Run.ready_of_passed (run : Run definitions overwrite lookup scope start last)
    (ordered : IsOrdered definitions) {front back : List Definition} {state : Resolution}
    (split : definitions = front ++ definition :: back) (passed : Passed start front state) :
    ∀ name ∈ definition.names, state.bindings.blocks name = false := by
  intro name member
  have listed : definition ∈ definitions := by simp [split]
  by_cases defined : name ∈ definitions.map Definition.key
  · obtain ⟨target, target_listed, rfl⟩ := List.mem_map.mp defined
    cases verbatim : target.isVerbatim with
    | true =>
        apply passed.extended.blocks_eq_false
        have unnamed : target.names = [] := by simp [Definition.names, verbatim]
        rw [Bindings.blocks, run.find?_of_mem ordered.nodup target_listed,
          Dictionary.linkedBinding_of_names_eq_nil _ _ unnamed]
        rfl
    | false =>
        obtain ⟨binding, stands⟩ :=
          passed.stands target (ordered.mem_front split target_listed member verbatim)
        exact stands.blocks_eq_false
  · apply passed.extended.blocks_eq_false
    rw [Bindings.blocks, run.find?_of_notMem ordered.nodup listed member defined]
    cases lookup name <;> rfl

/-- The next key from the top stands once it is visited. -/
theorem Run.stands_visit_of_passed (run : Run definitions overwrite lookup scope start last)
    (ordered : IsOrdered definitions) {front back : List Definition} {state : Resolution}
    (split : definitions = front ++ definition :: back)
    (new_key : definition.key ∉ front.map Definition.key) (passed : Passed start front state) :
    ∃ binding, Stands (state.visit definition.key).bindings definition binding := by
  have listed : definition ∈ definitions := by simp [split]
  cases waits : start.bindings.blocks definition.key with
  | false =>
      obtain ⟨binding, stands⟩ := run.stands_of_complete ordered.nodup listed waits
      exact ⟨binding, stands.extends (passed.extended.trans (extends_visit state definition.key))⟩
  | true =>
      have start_found := run.find?_of_mem ordered.nodup listed
      have bound : definition.names.countP
          ((Dictionary.ofDefinitions definitions overwrite).isBound lookup) ≠ 0 := by
        simpa [Bindings.blocks, start_found, Binding.isComplete, Dictionary.linkedBinding]
          using waits
      have interpreted : definition.isVerbatim = false := by
        by_contra verbatim
        exact bound (by simp [Definition.names, verbatim])
      refine ⟨_, stands_visit passed.counted
        ((passed.untouched _ new_key).trans start_found) ?_ rfl rfl interpreted ?_
        (run.ready_of_passed ordered split passed)⟩
      · simpa [Binding.isComplete, Dictionary.linkedBinding] using bound
      · exact if_neg fun both => bound both.1

theorem Run.passed_visit (run : Run definitions overwrite lookup scope start last)
    (ordered : IsOrdered definitions) {front back : List Definition} {state : Resolution}
    (split : definitions = front ++ definition :: back) (passed : Passed start front state) :
    Passed start (front ++ [definition]) (state.visit definition.key) := by
  have extended := extends_visit state definition.key
  have new_key : definition.key ∉ front.map Definition.key := by
    have nodup := ordered.nodup
    rw [split, List.map_append, List.map_cons] at nodup
    exact fun member => (List.disjoint_of_nodup_append nodup) member List.mem_cons_self
  refine ⟨passed.counted.visit _, passed.extended.trans extended, ?_, ?_⟩
  · intro other member
    rcases List.mem_append.mp member with member | member
    · obtain ⟨binding, stands⟩ := passed.stands other member
      exact ⟨binding, stands.extends extended⟩
    · obtain rfl := List.mem_singleton.mp member
      exact run.stands_visit_of_passed ordered split new_key passed
  · intro key absent
    rw [List.map_append, List.mem_append, not_or] at absent
    have differ : key ≠ definition.key := fun same => absent.2 (by simp [same])
    rw [find?_visit_of_ne differ, passed.untouched key absent.1]

theorem Run.passed (run : Run definitions overwrite lookup scope start last)
    (ordered : IsOrdered definitions) (front back : List Definition)
    (split : definitions = front ++ back) :
    Passed start front ((front.map Definition.key).foldl visit start) := by
  induction front using List.reverseRecOn generalizing back with
  | nil => exact ⟨run.counted, .refl _, by simp, fun _ _ => rfl⟩
  | append_singleton front definition ih =>
      rw [List.append_assoc, List.singleton_append] at split
      rw [List.map_append, List.foldl_append]
      exact run.passed_visit ordered split (ih (definition :: back) split)

theorem Run.blocks_eq_false_of_stands (run : Run definitions overwrite lookup scope start last)
    (extended : start.bindings.Extends later)
    (stands : ∀ definition ∈ definitions, ∃ binding, Stands later definition binding)
    (name : Text) : later.blocks name = false := by
  by_contra waits
  rw [Bool.not_eq_false] at waits
  have awaits : start.bindings.blocks name = _ :=
    run.linked.blocks_eq_awaits (Dictionary.isSome_ofDefinitions_iff definitions overwrite) name
  rw [extended.blocks_of_blocks waits, Dictionary.awaits] at awaits
  cases found : Dictionary.ofDefinitions definitions overwrite name with
  | none => simp [found] at awaits
  | some definition =>
      obtain ⟨binding, stands⟩ := stands definition (Dictionary.mem_of_ofDefinitions_eq_some found)
      have ready := stands.blocks_eq_false
      rw [Dictionary.key_eq_of_ofDefinitions_eq_some found, waits] at ready
      exact absurd ready (by decide)

/-- Behind the first round all defined keys stand. -/
theorem Run.stands_round (run : Run definitions overwrite lookup scope start last)
    (ordered : IsOrdered definitions) :
    ∀ definition ∈ definitions, ∃ binding, Stands start.round.bindings definition binding := by
  obtain ⟨others, keys_eq⟩ := run.keys
  rw [definedKeys_of_nodup ordered.nodup] at keys_eq
  have passed := run.passed ordered definitions [] (by simp)
  have round_eq : start.round.bindings =
      (((definitions.map Definition.key).foldl visit start).visitAll others).bindings := by
    rw [passed.counted.visitAll_eq_foldl, ← List.foldl_append, keys_eq,
      ← run.counted.visitAll_eq_foldl]
    rfl
  intro definition listed
  obtain ⟨binding, stands⟩ := passed.stands definition listed
  rw [round_eq]
  exact ⟨binding, stands.extends (advances_visitAll _ others).extended⟩

/-- Settling takes one round, or none if no key waits at the start. -/
theorem Run.settle_of_isOrdered (run : Run definitions overwrite lookup scope start last)
    (ordered : IsOrdered definitions) :
    (∀ definition ∈ definitions, ∃ binding, Stands start.settle.bindings definition binding) ∧
      Advances start start.settle ∧
      start.settle.convergence.rounds = if start.unresolved = 0 then [] else [0] := by
  by_cases none_left : start.unresolved = 0
  · rw [settle, if_pos none_left, if_pos none_left, run.convergence_eq]
    have ready := run.counted.blocks_eq_false_of_unresolved_eq_zero none_left
    exact ⟨fun definition listed => run.stands_of_complete ordered.nodup listed (ready _),
      .refl start, rfl⟩
  · have stands := run.stands_round ordered
    have advances := advances_round start
    have round_left : start.round.unresolved = 0 := by
      rw [run.counted.round.unresolved_eq, List.countP_eq_zero]
      intro name _
      simp [run.blocks_eq_false_of_stands advances.extended stands name]
    have settle_eq : start.settle = start.round := by
      have moved : start.round.unresolved ≠ start.unresolved := by omega
      rw [settle, if_neg none_left, dif_neg moved, settle, if_pos round_left]
    have rounds_eq : start.round.convergence.rounds = [0] := by
      change (start.visitAll start.bindings.keys).convergence.rounds ++ [start.round.unresolved] = _
      rw [convergence_visitAll, run.convergence_eq, round_left]
      rfl
    rw [settle_eq, if_neg none_left]
    exact ⟨stands, advances, rounds_eq⟩

/-- What a key stands for in the end: its value if the source defines it, or else the value that the
environment has for it, if any. -/
def endValue (resolved : Resolution) (lookup : Text → Option Text) (name : Text) : Text :=
  (resolved.values.lookup name).getD ((lookup name).getD [])

/-- A source is resolved in one round, or in none if no value refers to a key that is defined or
set.  No cycle is met, and each value that is not verbatim is put together from its tokens: decoded
escapes, the values that references stand for in the end, and all else as it is written. -/
structure SettlesAtOnce (definitions : List Definition) (lookup : Text → Option Text)
    (resolved : Resolution) : Prop where
  rounds_eq : resolved.convergence.rounds =
    if definitions.any fun definition => definition.names.any fun name =>
      name ∈ definitions.map Definition.key || (lookup name).isSome then [0] else []
  stalls_eq : resolved.convergence.stalls = 0
  uncircular : ∀ diagnostic ∈ resolved.diagnostics, diagnostic.code ≠ .circularReference
  keys_eq : resolved.values.map Prod.fst = definitions.map Definition.key
  mem_values : ∀ definition ∈ definitions,
    (definition.key,
      if definition.isVerbatim then definition.value
      else fill (resolved.endValue lookup) definition.value) ∈ resolved.values

theorem lookup_values_eq_some {resolved : Resolution} {key value : Text}
    (member : (key, value) ∈ resolved.values) : resolved.values.lookup key = some value := by
  obtain ⟨front, back, split⟩ := List.append_of_mem member
  refine List.lookup_eq_some_iff.mpr ⟨front, back, split, fun entry entry_listed => ?_⟩
  have nodup := nodup_values resolved
  rw [split, List.map_append, List.map_cons] at nodup
  have apart := List.disjoint_of_nodup_append nodup (List.mem_map_of_mem entry_listed)
  simpa using fun same : key = entry.1 => apart (by simp [same])

theorem Stands.value_decode (stands : Stands bindings definition binding) :
    binding.decode.value = binding.meaning := by
  have interpreted_eq : binding.isInterpreted = !binding.verbatim := by
    simp [Binding.isInterpreted, stands.isLocal]
  cases verbatim : binding.verbatim with
  | true =>
      rw [Binding.decode_eq_self (.inl (by simp [interpreted_eq, verbatim])), Binding.meaning,
        if_pos verbatim]
  | false =>
      rw [Binding.decode_of_isInterpreted (by simp [interpreted_eq, verbatim]) stands.decoded_eq,
        Binding.meaning, verbatim]
      rfl

/-- What a reference stands for in the end is what its key stands for when settling is done. -/
theorem Run.endValue_eq (run : Run definitions overwrite lookup scope start last)
    (nodup : (definitions.map Definition.key).Nodup) {settled : Resolution}
    (extended : start.bindings.Extends settled.bindings)
    (stands : ∀ definition ∈ definitions, ∃ binding, Stands settled.bindings definition binding)
    (keys_eq : settled.decodeValues.values.map Prod.fst = definitions.map Definition.key)
    (listed : definition ∈ definitions) {name : Text} (member : name ∈ definition.names) :
    settled.decodeValues.endValue lookup name = decode (settled.bindings.standIn name) := by
  by_cases defined : name ∈ definitions.map Definition.key
  · obtain ⟨target, target_listed, rfl⟩ := List.mem_map.mp defined
    obtain ⟨binding, stands⟩ := stands target target_listed
    have shown := lookup_values_eq_some (mem_values_decodeValues stands.found stands.isLocal)
    rw [endValue, shown, stands.value_decode, Bindings.standIn, stands.found]
    exact binding.isClosed_spliced.2.symm
  · have bound := run.find?_of_notMem nodup listed member defined
    have ready : start.bindings.blocks name = false := by
      rw [Bindings.blocks, bound]
      cases lookup name <;> rfl
    have not_shown : settled.decodeValues.values.lookup name = none := by
      rw [List.lookup_eq_none_iff]
      intro entry entry_listed
      have in_keys : entry.1 ∈ definitions.map Definition.key :=
        keys_eq ▸ List.mem_map_of_mem entry_listed
      simpa using fun same : name = entry.1 => defined (same ▸ in_keys)
    rw [endValue, not_shown, Bindings.standIn, extended name ready, bound]
    cases lookup name with
    | none => exact decode_nil.symm
    | some value => exact (decode_protect value).symm

/-- When all defined keys stand, the values that are shown are filled with one another. -/
theorem Run.mem_values_of_stands (run : Run definitions overwrite lookup scope start last)
    (nodup : (definitions.map Definition.key).Nodup) {settled : Resolution}
    (extended : start.bindings.Extends settled.bindings)
    (stands : ∀ definition ∈ definitions, ∃ binding, Stands settled.bindings definition binding)
    (keys_eq : settled.decodeValues.values.map Prod.fst = definitions.map Definition.key)
    (listed : definition ∈ definitions) :
    (definition.key,
      if definition.isVerbatim then definition.value
      else fill (settled.decodeValues.endValue lookup) definition.value) ∈
        settled.decodeValues.values := by
  obtain ⟨binding, here⟩ := stands definition listed
  have shown := mem_values_decodeValues here.found here.isLocal
  rw [here.value_decode, here.meaning_eq] at shown
  cases verbatim : definition.isVerbatim with
  | true => simpa [verbatim] using shown
  | false =>
      have filled : fill (settled.decodeValues.endValue lookup) definition.value =
          fill (fun name => decode (settled.bindings.standIn name)) definition.value := by
        apply fill_congr
        intro name member
        exact run.endValue_eq nodup extended stands keys_eq listed
          (names_eq_of_interpreted verbatim ▸ member)
      rw [verbatim, ← filled] at shown
      exact shown

/-- Some key waits at the start exactly if a value refers to a key that is defined or set. -/
theorem Run.unresolved_eq_zero_iff (run : Run definitions overwrite lookup scope start last)
    (nodup : (definitions.map Definition.key).Nodup) :
    start.unresolved = 0 ↔
      (definitions.any fun definition => definition.names.any fun name =>
        name ∈ definitions.map Definition.key || (lookup name).isSome) = false := by
  have isBound_eq : (Dictionary.ofDefinitions definitions overwrite).isBound lookup = fun name =>
      decide (name ∈ definitions.map Definition.key) || (lookup name).isSome := by
    funext name
    rw [Dictionary.isBound, Bool.eq_iff_iff, Bool.or_eq_true, Bool.or_eq_true, decide_eq_true_iff,
      Dictionary.isSome_ofDefinitions_iff, definedKeys_of_nodup nodup]
  have unresolved_eq : start.unresolved = _ := run.linked.unresolved_eq
  rw [unresolved_eq, List.countP_eq_zero, definedKeys_of_nodup nodup, List.forall_mem_map,
    List.any_eq_false]
  apply forall₂_congr
  intro definition listed
  have found := (Dictionary.ofDefinitions_eq_some_iff nodup overwrite definition.key definition).mpr
    ⟨listed, rfl⟩
  rw [Dictionary.awaits, found, Option.any_some, isBound_eq]

end Run

/-- Definitions in order are settled at once. -/
theorem settlesAtOnce {definitions : List Definition} (ordered : IsOrdered definitions)
    (overwrite : Bool) (lookup : Text → Option Text) :
    SettlesAtOnce definitions lookup
      (run {} definitions { overwrite, interpolate := true } lookup) := by
  obtain ⟨start, last, spec⟩ := exists_run definitions overwrite lookup (stableScope_empty _)
  obtain ⟨stands, advances, rounds_eq⟩ := spec.settle_of_isOrdered ordered
  have keys_eq :
      (run {} definitions { overwrite, interpolate := true } lookup).values.map Prod.fst =
        definitions.map Definition.key := by
    rw [map_fst_values_run, definedKeys_of_nodup ordered.nodup]
  rw [spec.run_eq] at keys_eq ⊢
  constructor
  · change start.settle.convergence.rounds = _
    rw [rounds_eq]
    by_cases none_left : start.unresolved = 0
    · rw [if_pos none_left, (spec.unresolved_eq_zero_iff ordered.nodup).mp none_left]
      rfl
    · have some_refers := mt (spec.unresolved_eq_zero_iff ordered.nodup).mpr none_left
      rw [Bool.not_eq_false] at some_refers
      rw [if_neg none_left, if_pos some_refers]
  · change start.settle.convergence.stalls = 0
    rw [advances.stalls_eq, spec.convergence_eq]
  · change ∀ diagnostic ∈ start.settle.diagnostics, _
    rw [advances.diagnostics_eq]
    exact spec.code_ne_circularReference
  · exact keys_eq
  · intro definition listed
    exact spec.mem_values_of_stands ordered.nodup advances.extended stands keys_eq listed

/-- Definitions in order: a value that refers to the key above it, to a verbatim value below, to the
environment and to nothing. -/
def ladder : List Definition :=
  [{ key := ['A'], value := "${E}\\t".toList, quote := none, position := {} },
    { key := ['B'], value := "$A${V}x${U}\\".toList, quote := some .double, position := {} },
    { key := ['V'], value := "${B}\\n".toList, quote := some .single, position := {} }]

/-- An environment in which one variable is set. -/
def dollarsOnly (name : Text) : Option Text :=
  if name = ['E'] then some "$$".toList else none

theorem settlesAtOnce_ladder :
    IsOrdered ladder ∧
      SettlesAtOnce ladder dollarsOnly
        (run {} ladder { overwrite := false, interpolate := true } dollarsOnly) ∧
      (run {} ladder { overwrite := false, interpolate := true } dollarsOnly).values =
        [(['A'], "$$\t".toList), (['B'], "$$\t${B}\\nx\\".toList), (['V'], "${B}\\n".toList)] := by
  have ordered : IsOrdered ladder := by decide +kernel
  exact ⟨ordered, settlesAtOnce ordered false dollarsOnly, by decide +kernel⟩

/-- A verbatim value that would mean something else if it were not verbatim. -/
def verbatimLadder : List Definition :=
  [{ key := ['A'], value := ['x'], quote := none, position := ⟨0, 2⟩ },
    { key := ['B'], value := "${A}\\t".toList, quote := some .single, position := ⟨1, 3⟩ }]

/-- A verbatim value is not put together from its tokens. -/
theorem not_fills_verbatimLadder :
    IsOrdered verbatimLadder ∧
      (run {} verbatimLadder {} dollarsOnly).values =
        [(['A'], ['x']), (['B'], "${A}\\t".toList)] ∧
      fill ((run {} verbatimLadder {} dollarsOnly).endValue dollarsOnly) "${A}\\t".toList =
        "x\t".toList := by
  decide +kernel

end Resolution
end EnvFile
