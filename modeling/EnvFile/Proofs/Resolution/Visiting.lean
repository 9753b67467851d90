import EnvFile.Proofs.Dependency.Expansion
import EnvFile.Proofs.Resolution.Linking
import EnvFile.Proofs.Resolution.Rewriting

/-!
# Visiting keys

A visit replaces the value of one key that waits and leaves all else as it is.  This file follows
the number of keys that wait (`Counted`) and states what holds of the bindings at all times
(`Progress`): the value of a waiting key can still be spliced as it was written, and a complete key
has the meaning that it ought to have and leads to no cycle.  A visit preserves both.
-/

namespace EnvFile
namespace Resolution

open Value

section Visit

variable {state : Resolution} {key : Text}

theorem visit_of_blocks_eq_false (ready : state.bindings.blocks key = false) :
    state.visit key = state := by
  unfold visit
  cases found : state.bindings.find? key with
  | none => rfl
  | some binding =>
      have complete : binding.isComplete = true := by
        simpa [Bindings.blocks, found] using ready
      simp [Binding.isWaiting, complete]

/-- The binding of a waiting key after a visit. -/
def visited (state : Resolution) (binding : Binding) : Binding :=
  binding.replace (state.bindings.splice .keep binding.value).text
    (state.bindings.splice .keep binding.value).pending

theorem visit_of_isWaiting {binding : Binding} (found : state.bindings.find? key = some binding)
    (waits : binding.isWaiting = true) :
    state.visit key =
      { state with
        bindings := state.bindings.modify key fun _ => state.visited binding
        unresolved :=
          if (state.visited binding).isComplete then state.unresolved - 1
          else state.unresolved } := by
  unfold visit
  simp only [found, waits, ↓reduceIte]
  rfl

theorem find?_visit_of_ne {other : Text} (differ : other ≠ key) :
    (state.visit key).bindings.find? other = state.bindings.find? other :=
  (rewrites_visit state key).find?_of_ne differ

theorem extends_visit (state : Resolution) (key : Text) :
    state.bindings.Extends (state.visit key).bindings :=
  (rewrites_visit state key).extended

end Visit

/-- The number of waiting keys is right, and the source defines each of them. -/
structure Counted (state : Resolution) : Prop where
  unresolved_eq : state.unresolved = state.bindings.keys.countP state.bindings.blocks
  isLocal : ∀ key binding, state.bindings.find? key = some binding →
    binding.isComplete = false → binding.isLocal = true

/-- Changing a predicate at one key changes the number of keys by one at most. -/
private theorem countP_add_toNat {keys : List Text} (nodup : keys.Nodup) {old new : Text → Bool}
    {key : Text} (member : key ∈ keys) (same : ∀ other, other ≠ key → new other = old other) :
    keys.countP new + (old key).toNat = keys.countP old + (new key).toNat := by
  induction keys with
  | nil => simp at member
  | cons first keys ih =>
      rw [List.nodup_cons] at nodup
      rw [List.countP_cons, List.countP_cons]
      by_cases here : first = key
      · subst here
        have rest_same : keys.countP new = keys.countP old := by
          apply List.countP_congr
          intro other other_member
          rw [same other fun equal => nodup.1 (equal ▸ other_member)]
        rw [rest_same]
        cases old first <;> cases new first <;> simp
      · have ih := ih nodup.2 (List.mem_of_ne_of_mem (fun equal => here equal.symm) member)
        rw [same first here]
        omega

namespace Counted

variable {state : Resolution} {key : Text}

theorem isWaiting_iff (counted : Counted state) {binding : Binding}
    (found : state.bindings.find? key = some binding) :
    binding.isWaiting = true ↔ state.bindings.blocks key = true := by
  have blocks_eq : state.bindings.blocks key = !binding.isComplete := by
    simp [Bindings.blocks, found]
  rw [blocks_eq, Binding.isWaiting, Bool.and_eq_true, and_iff_right_iff_imp, Bool.not_eq_true']
  exact counted.isLocal key binding found

theorem exists_find?_of_blocks (counted : Counted state)
    (waits : state.bindings.blocks key = true) :
    ∃ binding, state.bindings.find? key = some binding ∧ binding.isWaiting = true := by
  cases found : state.bindings.find? key with
  | none => simp [Bindings.blocks, found] at waits
  | some binding => exact ⟨binding, rfl, (counted.isWaiting_iff found).mpr waits⟩

theorem blocks_eq_false_of_unresolved_eq_zero (counted : Counted state)
    (none_left : state.unresolved = 0) (name : Text) : state.bindings.blocks name = false := by
  rw [counted.unresolved_eq, List.countP_eq_zero] at none_left
  by_contra waits
  rw [Bool.not_eq_false] at waits
  obtain ⟨binding, found, _⟩ := counted.exists_find?_of_blocks waits
  exact none_left name ((OrderedMap.mem_keys_iff _ _).mpr ⟨binding, found⟩) waits

theorem exists_blocks_of_unresolved_ne_zero (counted : Counted state)
    (some_left : state.unresolved ≠ 0) : ∃ name, state.bindings.blocks name = true := by
  rw [counted.unresolved_eq, ne_eq, List.countP_eq_zero] at some_left
  push Not at some_left
  obtain ⟨name, _, waits⟩ := some_left
  exact ⟨name, waits⟩

theorem find?_visit (counted : Counted state) {binding : Binding}
    (found : state.bindings.find? key = some binding) (incomplete : binding.isComplete = false) :
    (state.visit key).bindings.find? key = some (state.visited binding) := by
  have waits : state.bindings.blocks key = true := by simp [Bindings.blocks, found, incomplete]
  rw [visit_of_isWaiting found ((counted.isWaiting_iff found).mpr waits), OrderedMap.find?_modify,
    if_pos rfl, found]
  rfl

private theorem find?_visit_self (counted : Counted state)
    (waits : state.bindings.blocks key = true) :
    ∃ binding, state.bindings.find? key = some binding ∧
      (state.visit key).bindings.find? key = some (state.visited binding) ∧
      (state.visit key).unresolved =
        if (state.visited binding).isComplete then state.unresolved - 1 else state.unresolved := by
  obtain ⟨binding, found, is_waiting⟩ := counted.exists_find?_of_blocks waits
  have incomplete : binding.isComplete = false := by simpa [Bindings.blocks, found] using waits
  refine ⟨binding, found, counted.find?_visit found incomplete, ?_⟩
  rw [visit_of_isWaiting found is_waiting]

/-- If a binding starts or stops to wait, the number of waiting keys changes by one. -/
theorem modify (counted : Counted state) {binding : Binding}
    (found : state.bindings.find? key = some binding) (change : Binding → Binding)
    (isLocal : (change binding).isComplete = false → (change binding).isLocal = true)
    (unresolved : Nat)
    (balance : unresolved + (!binding.isComplete).toNat =
      state.unresolved + (!(change binding).isComplete).toNat) :
    Counted { state with bindings := state.bindings.modify key change, unresolved } := by
  have found' : (state.bindings.modify key change).find? key = some (change binding) := by
    rw [OrderedMap.find?_modify, if_pos rfl, found]
    rfl
  have others : ∀ other, other ≠ key →
      (state.bindings.modify key change).find? other = state.bindings.find? other := by
    intro other differ
    rw [OrderedMap.find?_modify, if_neg differ]
  constructor
  · change unresolved = (state.bindings.modify key change).keys.countP
      (Bindings.blocks (state.bindings.modify key change))
    have member : key ∈ state.bindings.keys :=
      (OrderedMap.mem_keys_iff _ _).mpr ⟨binding, found⟩
    have others_block : ∀ other, other ≠ key →
        Bindings.blocks (state.bindings.modify key change) other = state.bindings.blocks other := by
      intro other differ
      rw [Bindings.blocks, others other differ, Bindings.blocks]
    have count := countP_add_toNat (OrderedMap.nodup_keys _) member others_block
    have blocks_before : state.bindings.blocks key = !binding.isComplete := by
      simp [Bindings.blocks, found]
    have blocks_after : Bindings.blocks (state.bindings.modify key change) key =
        !(change binding).isComplete := by
      simp [Bindings.blocks, found']
    rw [blocks_before, blocks_after, ← counted.unresolved_eq] at count
    rw [OrderedMap.keys_modify]
    omega
  · intro other other_binding other_found incomplete
    by_cases same : other = key
    · subst same
      obtain rfl : change binding = other_binding := Option.some.inj (found'.symm.trans other_found)
      exact isLocal incomplete
    · exact counted.isLocal other other_binding ((others other same).symm.trans other_found)
        incomplete

theorem unresolved_pos (counted : Counted state) (waits : state.bindings.blocks key = true) :
    0 < state.unresolved := by
  rw [Nat.pos_iff_ne_zero]
  intro none_left
  simp [counted.blocks_eq_false_of_unresolved_eq_zero none_left] at waits

theorem replace (counted : Counted state) {binding : Binding}
    (found : state.bindings.find? key = some binding) (waits : binding.isWaiting = true)
    (value : Text) (pending : Nat) :
    Counted { state with
      bindings := state.bindings.modify key fun _ => binding.replace value pending
      unresolved :=
        if (binding.replace value pending).isComplete then state.unresolved - 1
        else state.unresolved } := by
  obtain ⟨isLocal, incomplete⟩ : binding.isLocal = true ∧ binding.isComplete = false := by
    simpa [Binding.isWaiting] using waits
  have positive := counted.unresolved_pos ((counted.isWaiting_iff found).mp waits)
  refine counted.modify found (fun _ => binding.replace value pending) (fun _ => isLocal) _ ?_
  rw [incomplete]
  cases (binding.replace value pending).isComplete with
  | true =>
      simp only [↓reduceIte, Bool.not_false, Bool.not_true, Bool.toNat_true, Bool.toNat_false]
      omega
  | false => rfl

theorem rewrites (counted : Counted state) {after : Resolution}
    (rewrites : Rewrites state key after) : Counted after := by
  cases rewrites with
  | idle => exact counted
  | replace found waits value pending => exact counted.replace found waits value pending

theorem visit (counted : Counted state) (key : Text) : Counted (state.visit key) :=
  counted.rewrites (rewrites_visit state key)

theorem blocks_visit_of_unresolved_eq (counted : Counted state)
    (same : (state.visit key).unresolved = state.unresolved) {name : Text}
    (waits : state.bindings.blocks name = true) :
    (state.visit key).bindings.blocks name = true := by
  by_cases here : name = key
  · subst here
    obtain ⟨binding, found, found', unresolved'⟩ := counted.find?_visit_self waits
    have positive := counted.unresolved_pos waits
    cases complete : (state.visited binding).isComplete with
    | true =>
        rw [same, complete, if_pos rfl] at unresolved'
        omega
    | false => simp [Bindings.blocks, found', complete]
  · rw [Bindings.blocks, find?_visit_of_ne here]
    exact waits

end Counted

/-- The keys are closed under references, and their values are stable unless they are verbatim. -/
structure StableScope (dictionary : Dictionary) (scope : Text → Prop) : Prop where
  closed : ∀ key other, scope key → dictionary.Refers key other → scope other
  stable : ∀ key definition, scope key → dictionary key = some definition →
    definition.isVerbatim = false → IsStable definition.value

/-- All values that a key comes to through references are stable, unless they are verbatim. -/
def DependsOnStable (dictionary : Dictionary) (key : Text) : Prop :=
  ∀ other definition, Relation.ReflTransGen dictionary.Refers key other →
    dictionary other = some definition → definition.isVerbatim = false →
      IsStable definition.value

theorem DependsOnStable.stableScope {dictionary : Dictionary} {key : Text}
    (stable : DependsOnStable dictionary key) :
    StableScope dictionary (Relation.ReflTransGen dictionary.Refers key) where
  closed := fun _ _ path refers => path.tail refers
  stable := stable

theorem dependsOnStable_of_forall_isStable {definitions : List Definition}
    (stable : ∀ definition ∈ definitions, definition.isVerbatim = false → IsStable definition.value)
    (overwrite : Bool) (key : Text) :
    DependsOnStable (.ofDefinitions definitions overwrite) key := by
  intro other definition _ found interpreted
  exact stable definition (Dictionary.mem_of_ofDefinitions_eq_some found) interpreted

/-- If all values that are not verbatim are stable, all keys are a scope. -/
theorem stableScope_of_dependsOnStable {dictionary : Dictionary}
    (stable : ∀ key, DependsOnStable dictionary key) : StableScope dictionary fun _ => True where
  closed := fun _ _ _ _ => trivial
  stable := fun key definition _ => stable key key definition .refl

theorem stableScope_empty (dictionary : Dictionary) : StableScope dictionary fun _ => False where
  closed := fun _ _ none_in _ => none_in
  stable := fun _ _ none_in _ => none_in.elim

/-- A waiting value is the one that was written or what came of it when it was spliced last. -/
def StillWaits (bindings : Bindings) (definition : Definition) (binding : Binding) : Prop :=
  definition.isVerbatim = false ∧ ∃ earlier : Bindings, earlier.Extends bindings ∧
    (names definition.value).countP earlier.blocks ≤ binding.pending ∧
    (binding.value = definition.value ∨
      (∃ name ∈ names definition.value, earlier.blocks name = true) ∧
        earlier.InertFor definition.value ∧
        binding.value = (earlier.splice .keep definition.value).text)

/-- How far a key has come: it waits, or what takes its place has the meaning of the key. -/
structure Stage (dictionary : Dictionary) (means : Text → Text) (bindings : Bindings) (key : Text)
    (definition : Definition) (binding : Binding) : Prop where
  isLocal : binding.isLocal = true
  verbatim_eq : binding.verbatim = definition.isVerbatim
  decoded_eq : binding.decoded = false
  complete : binding.isComplete = true →
    IsInert binding.spliced ∧ decode binding.spliced = means key ∧ ¬ dictionary.LeadsToCycle key
  waiting : binding.isComplete = false → StillWaits bindings definition binding

/-- How far all keys of a scope have come. -/
structure Progress (dictionary : Dictionary) (lookup : Text → Option Text) (means : Text → Text)
    (scope : Text → Prop) (bindings : Bindings) : Prop where
  undefined : ∀ key definition, scope key → dictionary key = some definition →
    ∀ name ∈ definition.names, dictionary name = none →
      bindings.find? name = (lookup name).map .ofEnvironment
  defined : ∀ key definition, scope key → dictionary key = some definition →
    ∃ binding, bindings.find? key = some binding ∧
      Stage dictionary means bindings key definition binding

section Progress

variable {dictionary : Dictionary} {lookup : Text → Option Text} {means : Text → Text}
  {scope : Text → Prop} {bindings later : Bindings} {key : Text} {definition : Definition}
  {binding : Binding}

theorem StillWaits.mono (waits : StillWaits bindings definition binding)
    (extended : bindings.Extends later) : StillWaits later definition binding := by
  obtain ⟨interpreted, earlier, earlier_extends, rest⟩ := waits
  exact ⟨interpreted, earlier, earlier_extends.trans extended, rest⟩

theorem Stage.mono (stage : Stage dictionary means bindings key definition binding)
    (extended : bindings.Extends later) : Stage dictionary means later key definition binding :=
  { stage with waiting := fun incomplete => (stage.waiting incomplete).mono extended }

theorem StillWaits.splice (waits : StillWaits bindings definition binding)
    (stable : IsStable definition.value) :
    (bindings.splice .keep binding.value).text = (bindings.splice .keep definition.value).text ∧
      min binding.pending (bindings.splice .keep binding.value).pending =
        (names definition.value).countP bindings.blocks := by
  obtain ⟨_, earlier, extended, count_le, written | ⟨waits, inert, spliced⟩⟩ := waits
  · have fewer : (names definition.value).countP bindings.blocks ≤
        (names definition.value).countP earlier.blocks :=
      List.countP_mono_left fun name _ => extended.blocks_of_blocks
    rw [written, Bindings.pending_splice_keep]
    exact ⟨rfl, min_eq_right (fewer.trans count_le)⟩
  · have fewer : (names definition.value).countP bindings.blocks ≤
        (names definition.value).countP earlier.blocks :=
      List.countP_mono_left fun name _ => extended.blocks_of_blocks
    rw [spliced, Bindings.text_splice_splice extended stable inert waits,
      Bindings.pending_splice_splice extended stable inert waits]
    exact ⟨rfl, min_eq_right (fewer.trans count_le)⟩

/-- A reference that does not wait is replaced by what its key means. -/
theorem Progress.ready (progress : Progress dictionary lookup means scope bindings)
    (covers : StableScope dictionary scope) (expansion : dictionary.IsExpansion lookup means)
    (in_scope : scope key) (defined : dictionary key = some definition) {name : Text}
    (member : name ∈ definition.names) (ready : bindings.blocks name = false) :
    IsInert (bindings.standIn name) ∧ decode (bindings.standIn name) = means name ∧
      ¬ dictionary.LeadsToCycle name := by
  cases target : dictionary name with
  | none =>
      have found := progress.undefined key definition in_scope defined name member target
      have acyclic : ¬ dictionary.LeadsToCycle name := by
        intro leads
        simpa [target] using leads.isSome
      have meaning := expansion name acyclic
      rw [target] at meaning
      rw [Bindings.standIn, found, meaning]
      cases lookup name with
      | none => exact ⟨isInert_nil, decode_nil, acyclic⟩
      | some value => exact ⟨isInert_protect value, decode_protect value, acyclic⟩
  | some other =>
      have refers : dictionary.Refers key name :=
        ⟨⟨definition, defined, member⟩, by simp [target]⟩
      obtain ⟨binding, found, stage⟩ :=
        progress.defined name other (covers.closed key name in_scope refers) target
      have complete : binding.isComplete = true := by
        simpa [Bindings.blocks, found] using ready
      rw [Bindings.standIn, found]
      exact stage.complete complete

theorem names_eq_of_interpreted (interpreted : definition.isVerbatim = false) :
    definition.names = names definition.value := by
  simp [Definition.names, interpreted]

theorem Progress.inertFor (progress : Progress dictionary lookup means scope bindings)
    (covers : StableScope dictionary scope) (expansion : dictionary.IsExpansion lookup means)
    (in_scope : scope key) (defined : dictionary key = some definition)
    (interpreted : definition.isVerbatim = false) : bindings.InertFor definition.value := by
  intro name member ready
  rw [← names_eq_of_interpreted interpreted] at member
  exact (progress.ready covers expansion in_scope defined member ready).1

/-- A value without waiting references is spliced to a sealed text with the meaning of its key. -/
theorem Progress.splice_of_ready (progress : Progress dictionary lookup means scope bindings)
    (covers : StableScope dictionary scope) (expansion : dictionary.IsExpansion lookup means)
    (in_scope : scope key) (defined : dictionary key = some definition)
    (interpreted : definition.isVerbatim = false)
    (ready : ∀ name ∈ names definition.value, bindings.blocks name = false) :
    IsSealed (bindings.splice .keep definition.value).text ∧
      decode (bindings.splice .keep definition.value).text = means key ∧
      ¬ dictionary.LeadsToCycle key := by
  have inert := progress.inertFor covers expansion in_scope defined interpreted
  have stable := covers.stable key definition in_scope defined interpreted
  have names_eq := names_eq_of_interpreted interpreted
  have acyclic : ¬ dictionary.LeadsToCycle key := by
    intro leads
    obtain ⟨other, ⟨⟨definition', defined', member⟩, _⟩, other_leads⟩ := leads.exists_refers
    obtain rfl : definition = definition' := by simpa [defined] using defined'
    have other_ready := ready other (names_eq ▸ member)
    exact (progress.ready covers expansion in_scope defined member other_ready).2.2 other_leads
  refine ⟨Bindings.isSealed_splice stable inert ready, ?_, acyclic⟩
  have meaning := expansion key acyclic
  rw [defined] at meaning
  simp only [interpreted, Bool.false_eq_true, ↓reduceIte] at meaning
  rw [meaning, Bindings.decode_splice ready]
  apply fill_congr
  intro name member
  exact (progress.ready covers expansion in_scope defined (names_eq ▸ member)
    (ready name member)).2.1

/-- A visit takes a key that waits further. -/
theorem Progress.stage_visited {state : Resolution}
    (progress : Progress dictionary lookup means scope state.bindings)
    (covers : StableScope dictionary scope) (expansion : dictionary.IsExpansion lookup means)
    (in_scope : scope key) (defined : dictionary key = some definition)
    (stage : Stage dictionary means state.bindings key definition binding)
    (incomplete : binding.isComplete = false) (extended : state.bindings.Extends later) :
    Stage dictionary means later key definition (state.visited binding) := by
  have still := stage.waiting incomplete
  have stable := covers.stable key definition in_scope defined still.1
  obtain ⟨text_eq, pending_eq⟩ := still.splice stable
  have value_eq : (state.visited binding).value =
      (state.bindings.splice .keep definition.value).text := text_eq
  have pending_eq : (state.visited binding).pending =
      (names definition.value).countP state.bindings.blocks := pending_eq
  refine ⟨stage.isLocal, stage.verbatim_eq, stage.decoded_eq, ?_, ?_⟩
  · intro complete
    have none_left : (state.visited binding).pending = 0 := by
      simpa [Binding.isComplete] using complete
    rw [pending_eq, List.countP_eq_zero] at none_left
    have ready : ∀ name ∈ names definition.value, state.bindings.blocks name = false :=
      fun name member => by simpa using none_left name member
    obtain ⟨sealed, decoded, acyclic⟩ :=
      progress.splice_of_ready covers expansion in_scope defined still.1 ready
    have spliced_eq : (state.visited binding).spliced =
        shield (state.bindings.splice .keep definition.value).text := by
      have interpreted : (state.visited binding).verbatim = false :=
        stage.verbatim_eq.trans still.1
      rw [Binding.spliced, interpreted, value_eq]
      rfl
    rw [spliced_eq, decode_shield]
    exact ⟨isInert_shield sealed.not_endsOpen, decoded, acyclic⟩
  · intro incomplete
    have some_left : (state.visited binding).pending ≠ 0 := by
      simpa [Binding.isComplete] using incomplete
    rw [pending_eq, ne_eq, List.countP_eq_zero] at some_left
    push Not at some_left
    exact ⟨still.1, state.bindings, extended, pending_eq.ge, .inr ⟨some_left,
      progress.inertFor covers expansion in_scope defined still.1, value_eq⟩⟩

/-- A visit takes the visited key further and no other key back. -/
theorem Progress.visit {state : Resolution}
    (progress : Progress dictionary lookup means scope state.bindings)
    (covers : StableScope dictionary scope) (expansion : dictionary.IsExpansion lookup means)
    (counted : Counted state) (key : Text) :
    Progress dictionary lookup means scope (state.visit key).bindings := by
  have extended := extends_visit state key
  constructor
  · intro other definition in_scope defined name member undefined
    have found := progress.undefined other definition in_scope defined name member undefined
    have ready : state.bindings.blocks name = false := by
      rw [Bindings.blocks, found]
      cases lookup name <;> rfl
    rw [extended name ready, found]
  · intro other definition in_scope defined
    obtain ⟨binding, found, stage⟩ := progress.defined other definition in_scope defined
    by_cases here : other = key
    · subst here
      cases waits : state.bindings.blocks other with
      | false =>
          rw [visit_of_blocks_eq_false waits]
          exact ⟨binding, found, stage⟩
      | true =>
          have incomplete : binding.isComplete = false := by
            simpa [Bindings.blocks, found] using waits
          have found' : (state.visit other).bindings.find? other =
              some (state.visited binding) := by
            rw [visit_of_isWaiting found ((counted.isWaiting_iff found).mpr waits),
              OrderedMap.find?_modify, if_pos rfl, found]
            rfl
          exact ⟨state.visited binding, found',
            progress.stage_visited covers expansion in_scope defined stage incomplete extended⟩
    · exact ⟨binding, (find?_visit_of_ne here).trans found, stage.mono extended⟩

end Progress

end Resolution
end EnvFile
