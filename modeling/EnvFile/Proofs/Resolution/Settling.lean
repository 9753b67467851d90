import EnvFile.Proofs.Resolution.Visiting

/-!
# Rounds and cycles

A round visits the keys one after another.  One that completes nothing leaves each waiting key with
a reference to a waiting key (`Progress.exists_refers_of_stalled`), and as there are finitely many
keys these lead to a cycle.  So settling ends either with no key waiting or at a stall where exactly
those keys wait that lead to a cycle, and what was complete by then stays as it is
(`exists_settled`).
-/

namespace EnvFile
namespace Resolution

open Value

/-- Ready keys stay as they are, and nothing is bound, noted or reported on the way. -/
structure Advances (before after : Resolution) : Prop where
  extended : before.bindings.Extends after.bindings
  keys_eq : after.bindings.keys = before.bindings.keys
  mentions_eq : after.mentions = before.mentions
  diagnostics_eq : after.diagnostics = before.diagnostics
  initial_eq : after.convergence.initial = before.convergence.initial
  stalls_eq : after.convergence.stalls = before.convergence.stalls

theorem Advances.refl (state : Resolution) : Advances state state :=
  ⟨.refl _, rfl, rfl, rfl, rfl, rfl⟩

theorem Advances.trans {first second third : Resolution} (front : Advances first second)
    (back : Advances second third) : Advances first third where
  extended := front.extended.trans back.extended
  keys_eq := back.keys_eq.trans front.keys_eq
  mentions_eq := back.mentions_eq.trans front.mentions_eq
  diagnostics_eq := back.diagnostics_eq.trans front.diagnostics_eq
  initial_eq := back.initial_eq.trans front.initial_eq
  stalls_eq := back.stalls_eq.trans front.stalls_eq

theorem Rewrites.advances {before after : Resolution} {key : Text}
    (rewrites : Rewrites before key after) : Advances before after := by
  refine ⟨rewrites.extended, rewrites.keys_eq, ?_, ?_, ?_, ?_⟩ <;> rw [rewrites.eq]

theorem advances_visitAll (state : Resolution) (keys : List Text) :
    Advances state (state.visitAll keys) := by
  induction keys generalizing state with
  | nil => exact .refl state
  | cons key keys ih =>
      unfold visitAll
      split
      · exact .refl state
      · exact (rewrites_visit state key).advances.trans (ih _)

theorem advances_round (state : Resolution) : Advances state state.round := by
  have visits := advances_visitAll state state.bindings.keys
  exact ⟨visits.extended, visits.keys_eq, visits.mentions_eq, visits.diagnostics_eq,
    visits.initial_eq, visits.stalls_eq⟩

theorem Counted.visitAll {state : Resolution} (counted : Counted state) (keys : List Text) :
    Counted (state.visitAll keys) := by
  induction keys generalizing state with
  | nil => exact counted
  | cons key keys ih =>
      unfold Resolution.visitAll
      split
      · exact counted
      · exact ih (counted.visit key)

theorem visitAll_induction {invariant : Bindings → Prop}
    (step : ∀ (state : Resolution) (key : Text), Counted state → invariant state.bindings →
      invariant (state.visit key).bindings)
    {state : Resolution} (counted : Counted state) (start : invariant state.bindings)
    (keys : List Text) : invariant (state.visitAll keys).bindings := by
  induction keys generalizing state with
  | nil => exact start
  | cons key keys ih =>
      unfold visitAll
      split
      · exact start
      · exact ih (counted.visit key) (step state key counted start)

theorem Counted.round {state : Resolution} (counted : Counted state) : Counted state.round :=
  ⟨(counted.visitAll _).unresolved_eq, (counted.visitAll _).isLocal⟩

section Progress

variable {dictionary : Dictionary} {lookup : Text → Option Text} {means : Text → Text}
  {scope : Text → Prop} {state : Resolution}

/-- A key that a visit does not complete refers to a key that waits. -/
theorem Progress.exists_refers_of_visit
    (progress : Progress dictionary lookup means scope state.bindings)
    (covers : StableScope dictionary scope) (counted : Counted state) {key : Text}
    {definition : Definition} (in_scope : scope key) (defined : dictionary key = some definition)
    (waits : (state.visit key).bindings.blocks key = true) :
    ∃ other, dictionary.Refers key other ∧ state.bindings.blocks other = true := by
  have waited := (extends_visit state key).blocks_of_blocks waits
  obtain ⟨binding, found, stage⟩ := progress.defined key definition in_scope defined
  have incomplete : binding.isComplete = false := by
    simpa [Bindings.blocks, found] using waited
  have still := stage.waiting incomplete
  have stable := covers.stable key definition in_scope defined still.1
  have found' := counted.find?_visit found incomplete
  have pending_eq : (state.visited binding).pending =
      (names definition.value).countP state.bindings.blocks := (still.splice stable).2
  have some_left : (state.visited binding).pending ≠ 0 := by
    simpa [Bindings.blocks, found', Binding.isComplete] using waits
  rw [pending_eq, ne_eq, List.countP_eq_zero] at some_left
  push Not at some_left
  obtain ⟨name, member, name_waits⟩ := some_left
  have mentioned : name ∈ definition.names := by rwa [names_eq_of_interpreted still.1]
  refine ⟨name, ⟨⟨definition, defined, mentioned⟩, ?_⟩, name_waits⟩
  -- a key that the source does not define is complete
  by_contra undefined
  rw [Option.not_isSome_iff_eq_none] at undefined
  have found := progress.undefined key definition in_scope defined name mentioned undefined
  rw [Bindings.blocks, found] at name_waits
  cases bound : lookup name <;>
    simp [bound, Binding.isComplete, Binding.ofEnvironment] at name_waits

/-- If visits complete nothing, each visited key that waits refers to a key that waits. -/
theorem Progress.exists_refers_of_stalled
    (progress : Progress dictionary lookup means scope state.bindings)
    (covers : StableScope dictionary scope) (expansion : dictionary.IsExpansion lookup means)
    (counted : Counted state) (keys : List Text)
    (stalled : (state.visitAll keys).unresolved = state.unresolved) :
    (∀ name, state.bindings.blocks name = true →
        (state.visitAll keys).bindings.blocks name = true) ∧
      ∀ key ∈ keys, scope key → (dictionary key).isSome →
        (state.visitAll keys).bindings.blocks key = true →
          ∃ other, dictionary.Refers key other ∧
            (state.visitAll keys).bindings.blocks other = true := by
  induction keys generalizing state with
  | nil => exact ⟨fun name waits => waits, by simp⟩
  | cons key keys ih =>
      unfold Resolution.visitAll at stalled ⊢
      by_cases none_left : state.unresolved = 0
      · rw [if_pos none_left]
        refine ⟨fun name waits => waits, ?_⟩
        intro other _ _ _ waits
        simp [counted.blocks_eq_false_of_unresolved_eq_zero none_left other] at waits
      · rw [if_neg none_left] at stalled ⊢
        have visit_le := state.unresolved_visit_le key
        have rest_le := (state.visit key).unresolved_visitAll_le keys
        have same : (state.visit key).unresolved = state.unresolved := by omega
        have same' : ((state.visit key).visitAll keys).unresolved =
            (state.visit key).unresolved := by omega
        obtain ⟨rest_kept, rest_refers⟩ :=
          ih (progress.visit covers expansion counted key) (counted.visit key) same'
        have kept : ∀ name, state.bindings.blocks name = true →
            ((state.visit key).visitAll keys).bindings.blocks name = true := fun name waits =>
          rest_kept name (counted.blocks_visit_of_unresolved_eq same waits)
        refine ⟨kept, ?_⟩
        intro other member in_scope defined waits
        rcases List.mem_cons.mp member with rfl | member
        · obtain ⟨definition, defined⟩ := Option.isSome_iff_exists.mp defined
          have rest := (advances_visitAll (state.visit other) keys).extended
          obtain ⟨target, refers, target_waits⟩ := progress.exists_refers_of_visit covers counted
            in_scope defined (rest.blocks_of_blocks waits)
          exact ⟨target, refers, kept target target_waits⟩
        · exact rest_refers other member in_scope defined waits

end Progress

theorem advances_foldl_force (state : Resolution) (keys : List Text) :
    Advances state (keys.foldl force state) := by
  induction keys generalizing state with
  | nil => exact .refl state
  | cons key keys ih => exact (rewrites_force state key).advances.trans (ih _)

theorem cutCycles_spec (state : Resolution) :
    state.bindings.Extends state.cutCycles.bindings ∧
      state.cutCycles.diagnostics = state.diagnostics ++ state.circularities ∧
      state.cutCycles.convergence.initial = state.convergence.initial ∧
      state.cutCycles.convergence.stalls = state.convergence.stalls + 1 := by
  let reported :=
    { state with
      diagnostics := state.diagnostics ++ state.circularities
      convergence := { state.convergence with stalls := state.convergence.stalls + 1 } }
  have forced := advances_foldl_force reported reported.bindings.keys
  exact ⟨forced.extended, forced.diagnostics_eq, forced.initial_eq, forced.stalls_eq⟩

/-- Settling ends with no key waiting or behind a round that completed nothing, and what each visit
preserves holds there. -/
theorem exists_last {invariant : Bindings → Prop}
    (step : ∀ (state : Resolution) (key : Text), Counted state → invariant state.bindings →
      invariant (state.visit key).bindings)
    {state : Resolution} (counted : Counted state) (start : invariant state.bindings) :
    ∃ last, Advances state last ∧ Counted last ∧ invariant last.bindings ∧
      (last.unresolved = 0 ∧ state.settle = last ∨
        last.unresolved ≠ 0 ∧ state.settle = last.cutCycles ∧
          ∃ before, Counted before ∧ invariant before.bindings ∧ before.round = last ∧
            last.unresolved = before.unresolved) := by
  induction state using settle.induct with
  | case1 state none_left =>
      refine ⟨state, .refl state, counted, start, .inl ⟨none_left, ?_⟩⟩
      rw [settle, if_pos none_left]
  | case2 state some_left stalled =>
      refine ⟨state.round, advances_round state, counted.round,
        visitAll_induction step counted start _, .inr ⟨?_, ?_, state, counted, start, rfl, stalled⟩⟩
      · rw [stalled]
        exact some_left
      · rw [settle, if_neg some_left, dif_pos stalled]
  | case3 state some_left moved ih =>
      obtain ⟨last, advances, rest⟩ := ih counted.round (visitAll_induction step counted start _)
      have settle_eq : state.settle = state.round.settle := by
        rw [settle, if_neg some_left, dif_neg moved]
      rw [← settle_eq] at rest
      exact ⟨last, (advances_round state).trans advances, rest⟩

section Settle

variable {dictionary : Dictionary} {lookup : Text → Option Text} {means : Text → Text}
  {scope : Text → Prop} {keys : List Text} {state : Resolution}

/-- The state that settling comes to, or cuts the cycles of. -/
structure Settled (dictionary : Dictionary) (lookup : Text → Option Text) (means : Text → Text)
    (scope : Text → Prop) (state last : Resolution) : Prop where
  advances : Advances state last
  counted : Counted last
  progress : Progress dictionary lookup means scope last.bindings
  stuck : ∀ key, scope key → (dictionary key).isSome → last.bindings.blocks key = true →
    ∃ other, dictionary.Refers key other ∧ last.bindings.blocks other = true
  outcome : last.unresolved = 0 ∧ state.settle = last ∨
    last.unresolved ≠ 0 ∧ state.settle = last.cutCycles

theorem exists_settled (progress : Progress dictionary lookup means scope state.bindings)
    (covers : StableScope dictionary scope) (expansion : dictionary.IsExpansion lookup means)
    (counted : Counted state) :
    ∃ last, Settled dictionary lookup means scope state last := by
  obtain ⟨last, advances, last_counted, last_progress, outcome⟩ :=
    exists_last (fun state key counted progress =>
      Progress.visit progress covers expansion counted key) counted progress
  rcases outcome with ⟨none_left, settle_eq⟩ | ⟨some_left, settle_eq, before, stalled⟩
  · refine ⟨last, advances, last_counted, last_progress, ?_, .inl ⟨none_left, settle_eq⟩⟩
    intro key _ _ waits
    simp [last_counted.blocks_eq_false_of_unresolved_eq_zero none_left key] at waits
  · obtain ⟨before_counted, before_progress, rfl, same⟩ := stalled
    refine ⟨_, advances, last_counted, last_progress, ?_, .inr ⟨some_left, settle_eq⟩⟩
    intro key in_scope defined waits
    obtain ⟨definition, found⟩ := Option.isSome_iff_exists.mp defined
    obtain ⟨binding, bound, _⟩ := before_progress.defined key definition in_scope found
    have member : key ∈ before.bindings.keys :=
      (OrderedMap.mem_keys_iff _ _).mpr ⟨binding, bound⟩
    exact (before_progress.exists_refers_of_stalled covers expansion before_counted _ same).2 key
      member in_scope defined waits

namespace Settled

variable {last : Resolution}

/-- What is ready in the end of the rounds stays as it is. -/
theorem extends_settle (settled : Settled dictionary lookup means scope state last) :
    last.bindings.Extends state.settle.bindings := by
  rcases settled.outcome with ⟨_, settle_eq⟩ | ⟨_, settle_eq⟩
  · rw [settle_eq]
    exact .refl _
  · rw [settle_eq]
    exact last.cutCycles_spec.1

/-- Exactly the keys that lead to a cycle wait in the end of the rounds. -/
theorem blocks_iff (settled : Settled dictionary lookup means scope state last)
    (covers : StableScope dictionary scope)
    (finite : ∀ key, (dictionary key).isSome → key ∈ keys) {key : Text} (in_scope : scope key)
    (defined : (dictionary key).isSome) :
    last.bindings.blocks key = true ↔ dictionary.LeadsToCycle key := by
  constructor
  · intro waits
    refine Dictionary.leadsToCycle_of_trapped finite (fun key =>
      scope key ∧ (dictionary key).isSome ∧ last.bindings.blocks key = true) ?_
      ⟨in_scope, defined, waits⟩
    rintro key ⟨in_scope, defined, waits⟩
    obtain ⟨other, refers, other_waits⟩ := settled.stuck key in_scope defined waits
    exact ⟨other, refers, covers.closed key other in_scope refers, refers.2, other_waits⟩
  · intro leads
    obtain ⟨definition, found⟩ := Option.isSome_iff_exists.mp defined
    obtain ⟨binding, bound, stage⟩ := settled.progress.defined key definition in_scope found
    by_contra ready
    have complete : binding.isComplete = true := by
      simpa [Bindings.blocks, bound] using ready
    exact (stage.complete complete).2.2 leads

/-- A key that leads to no cycle has its meaning in the end. -/
theorem find?_settle (settled : Settled dictionary lookup means scope state last)
    (covers : StableScope dictionary scope)
    (finite : ∀ key, (dictionary key).isSome → key ∈ keys) {key : Text} (in_scope : scope key)
    (defined : (dictionary key).isSome) (acyclic : ¬ dictionary.LeadsToCycle key) :
    ∃ binding, state.settle.bindings.find? key = some binding ∧ binding.isLocal = true ∧
      binding.decode.value = means key := by
  have ready : last.bindings.blocks key = false := by
    rw [← Bool.not_eq_true]
    exact mt (settled.blocks_iff covers finite in_scope defined).mp acyclic
  obtain ⟨definition, found⟩ := Option.isSome_iff_exists.mp defined
  obtain ⟨binding, bound, stage⟩ := settled.progress.defined key definition in_scope found
  have complete : binding.isComplete = true := by
    simpa [Bindings.blocks, bound] using ready
  refine ⟨binding, (settled.extends_settle key ready).trans bound, stage.isLocal, ?_⟩
  have meaning := (stage.complete complete).2.1
  rw [← meaning, Binding.spliced, Binding.decode, Binding.isInterpreted, stage.isLocal,
    stage.decoded_eq]
  cases binding.verbatim with
  | true => simp [decode_protect]
  | false => simp [decode_shield]

end Settled

end Settle

end Resolution
end EnvFile
