import EnvFile.Proofs.Resolution.Settling

/-!
# Operations in any order

The number of waiting keys is kept beside the bindings, and settling relies on it: it ends when the
number is zero.  Here the operations on a state come in any order, except that definitions are added
and linked only while no key is counted (`Reachable`).  The number is right behind every operation
and no verbatim value waits (`Accounted`), so that settling never counts a key off where none is
counted, and no key is counted once the cycles are cut (`Settles`).
-/

namespace EnvFile
namespace Resolution

/-- A step of resolving what is linked. -/
inductive Step
  /-- Go round after round until no key waits. -/
  | settle
  /-- Report what is stuck and complete it. -/
  | cutCycles
  /-- Decode the escapes of all values. -/
  | decodeValues
  deriving DecidableEq

/-- The state behind a step. -/
def Step.perform (state : Resolution) : Step → Resolution
  | settle => state.settle
  | cutCycles => state.cutCycles
  | decodeValues => state.decodeValues

/-- What can be done with a state. -/
inductive Operation
  /-- Bind the key of a definition. -/
  | define (definition : Definition) (overwrite : Bool)
  /-- Count the references of all values. -/
  | link (lookup : Text → Option Text)
  /-- Resolve what is linked. -/
  | step (taken : Step)
  /-- Forget everything. -/
  | reset

namespace Operation

/-- Whether an operation may be used: nothing is added or counted anew while keys are counted. -/
def IsPermitted (state : Resolution) : Operation → Prop
  | define _ _ => state.unresolved = 0
  | link _ => state.unresolved = 0
  | step _ => True
  | reset => True

/-- The state behind an operation. -/
def perform (state : Resolution) : Operation → Resolution
  | define definition overwrite => state.define definition overwrite
  | link lookup => state.link lookup
  | step taken => taken.perform state
  | reset => state.reset

end Operation

/-- The states that operations lead to from the state without bindings. -/
inductive Reachable : Resolution → Prop
  | start : Reachable {}
  | next {state : Resolution} (reachable : Reachable state) (operation : Operation)
      (permitted : operation.IsPermitted state) : Reachable (operation.perform state)

theorem Reachable.defineAll {state : Resolution} (reachable : Reachable state)
    (none_counted : state.unresolved = 0) (definitions : List Definition) (overwrite : Bool) :
    Reachable (state.defineAll definitions overwrite) := by
  induction definitions generalizing state with
  | nil => exact reachable
  | cons definition definitions ih =>
      exact ih (.next reachable (.define definition overwrite) none_counted) none_counted

theorem reachable_link (definitions : List Definition) (overwrite : Bool)
    (lookup : Text → Option Text) :
    Reachable ((defineAll {} definitions overwrite).link lookup) := by
  have none_counted : (defineAll {} definitions overwrite).unresolved = 0 :=
    congrArg unresolved (defineAll_eq {} definitions overwrite)
  exact .next (Reachable.start.defineAll rfl definitions overwrite) (.link lookup) none_counted

/-- Bind the keys of definitions, one after another.  Each overwrites the old binding of its key or
gives way to it, as it says. -/
def defineEach (definitions : List (Definition × Bool)) : Resolution :=
  definitions.foldl (fun state item => state.define item.1 item.2) {}

theorem defineAll_eq_defineEach (definitions : List Definition) (overwrite : Bool) :
    defineAll {} definitions overwrite =
      defineEach (definitions.map fun definition => (definition, overwrite)) := by
  rw [defineEach, List.foldl_map]
  rfl

theorem reachable_defineEach (definitions : List (Definition × Bool)) :
    Reachable (defineEach definitions) ∧ (defineEach definitions).unresolved = 0 ∧
      (defineEach definitions).convergence = {} := by
  induction definitions using List.reverseRecOn with
  | nil => exact ⟨.start, rfl, rfl⟩
  | append_singleton definitions item ih =>
      obtain ⟨reachable, none_counted, fresh⟩ := ih
      have defined : defineEach (definitions ++ [item]) =
          (defineEach definitions).define item.1 item.2 := by
        simp [defineEach]
      rw [defined]
      exact ⟨.next reachable (.define item.1 item.2) none_counted, none_counted, fresh⟩

/-- Whether a visit completes a key and so takes it off the count. -/
def completes (state : Resolution) (key : Text) : Bool :=
  (state.bindings.find? key).any fun binding =>
    binding.isWaiting && (state.visited binding).isComplete

/-- A round takes a key off the count only where one is counted. -/
def CountsDown (state : Resolution) : Prop :=
  ∀ front key back, state.bindings.keys = front ++ key :: back →
    (state.visitAll front).completes key = true → 0 < (state.visitAll front).unresolved

/-- Going round after round until no key is counted.  Each round has to count down, and cutting the
cycles must leave no key counted. -/
inductive Settles : Resolution → Resolution → Prop
  /-- No key is counted. -/
  | done {state : Resolution} (none_left : state.unresolved = 0) : Settles state state
  /-- A round completes keys. -/
  | round {state last : Resolution} (some_left : state.unresolved ≠ 0)
      (counts_down : state.CountsDown) (moved : state.round.unresolved ≠ state.unresolved)
      (rest : Settles state.round last) : Settles state last
  /-- A round completes no key, and the cycles are cut. -/
  | stall {state last : Resolution} (some_left : state.unresolved ≠ 0)
      (counts_down : state.CountsDown) (stalled : state.round.unresolved = state.unresolved)
      (cleared : state.round.cutCycles.unresolved = 0)
      (rest : Settles state.round.cutCycles last) : Settles state last

/-! ## The number of waiting keys -/

/-- The number of waiting keys is right, and no verbatim value waits. -/
structure Accounted (state : Resolution) : Prop extends Counted state where
  isComplete_of_verbatim : ∀ key binding, state.bindings.find? key = some binding →
    binding.verbatim = true → binding.isComplete = true

theorem Accounted.of_eq {state other : Resolution} (accounted : Accounted state)
    (bindings_eq : other.bindings = state.bindings)
    (unresolved_eq : other.unresolved = state.unresolved) : Accounted other where
  unresolved_eq := by rw [unresolved_eq, bindings_eq, accounted.unresolved_eq]
  isLocal := by rw [bindings_eq]; exact accounted.isLocal
  isComplete_of_verbatim := by rw [bindings_eq]; exact accounted.isComplete_of_verbatim

theorem accounted_of_isComplete {state : Resolution} (none_counted : state.unresolved = 0)
    (complete : ∀ key binding, state.bindings.find? key = some binding →
      binding.isComplete = true) : Accounted state where
  unresolved_eq := by
    rw [none_counted, eq_comm, List.countP_eq_zero]
    intro key _
    cases found : state.bindings.find? key with
    | none => simp [Bindings.blocks, found]
    | some binding => simp [Bindings.blocks, found, complete key binding found]
  isLocal key binding found incomplete := by simp [complete key binding found] at incomplete
  isComplete_of_verbatim key binding found _ := complete key binding found

theorem accounted_empty : Accounted {} :=
  accounted_of_isComplete rfl fun _ _ found => nomatch found

namespace Accounted

variable {state : Resolution}

theorem isComplete_of_unresolved_eq_zero (accounted : Accounted state)
    (none_counted : state.unresolved = 0) {key : Text} {binding : Binding}
    (found : state.bindings.find? key = some binding) : binding.isComplete = true := by
  have ready := accounted.blocks_eq_false_of_unresolved_eq_zero none_counted key
  simpa [Bindings.blocks, found] using ready

theorem isComplete_of_isInterpreted (accounted : Accounted state) {key : Text} {binding : Binding}
    (found : state.bindings.find? key = some binding)
    (uninterpreted : binding.isInterpreted = false) : binding.isComplete = true := by
  cases verbatim : binding.verbatim with
  | true => exact accounted.isComplete_of_verbatim key binding found verbatim
  | false =>
      have external : binding.isLocal = false := by
        simpa [Binding.isInterpreted, verbatim] using uninterpreted
      by_contra waits
      rw [Bool.not_eq_true] at waits
      simp [accounted.isLocal key binding found waits] at external

private theorem isComplete_of_verbatim_modify (accounted : Accounted state) {key : Text}
    {binding : Binding} (found : state.bindings.find? key = some binding)
    (change : Binding → Binding)
    (ready : (change binding).verbatim = true → (change binding).isComplete = true) :
    ∀ other other_binding, (state.bindings.modify key change).find? other = some other_binding →
      other_binding.verbatim = true → other_binding.isComplete = true := by
  intro other other_binding other_found verbatim
  rw [OrderedMap.find?_modify] at other_found
  by_cases same : other = key
  · subst same
    rw [if_pos rfl, found] at other_found
    obtain rfl : change binding = other_binding := Option.some.inj other_found
    exact ready verbatim
  · rw [if_neg same] at other_found
    exact accounted.isComplete_of_verbatim other other_binding other_found verbatim

theorem rewrites (accounted : Accounted state) {after : Resolution} {key : Text}
    (rewrites : Rewrites state key after) : Accounted after := by
  refine ⟨accounted.toCounted.rewrites rewrites, ?_⟩
  cases rewrites with
  | idle => exact accounted.isComplete_of_verbatim
  | replace found waits value pending =>
      rename_i binding
      refine accounted.isComplete_of_verbatim_modify found _ fun verbatim => ?_
      -- the value waited before, so it is not verbatim
      have complete := accounted.isComplete_of_verbatim key binding found verbatim
      simp [Binding.isWaiting, complete] at waits

/-- The account, as far as it depends on the bindings and the number. -/
private abbrev Balance (bindings : Bindings) (unresolved : Nat) : Prop :=
  Accounted { bindings, unresolved }

private theorem balance_rewrites (before after : Resolution) (key : Text)
    (rewrites : Rewrites before key after)
    (balance : Balance before.bindings before.unresolved) :
    Balance after.bindings after.unresolved := by
  have accounted : Accounted before := balance.of_eq rfl rfl
  exact (accounted.rewrites rewrites).of_eq rfl rfl

theorem visitAll (accounted : Accounted state) (keys : List Text) :
    Accounted (state.visitAll keys) :=
  (preserved_visitAll Balance balance_rewrites keys state (accounted.of_eq rfl rfl)).of_eq rfl rfl

theorem round (accounted : Accounted state) : Accounted state.round :=
  (accounted.visitAll state.bindings.keys).of_eq rfl rfl

theorem cutCycles (accounted : Accounted state) : Accounted state.cutCycles :=
  (preserved_cutCycles Balance balance_rewrites state (accounted.of_eq rfl rfl)).of_eq rfl rfl

theorem settle (accounted : Accounted state) : Accounted state.settle :=
  (preserved_settle Balance balance_rewrites state (accounted.of_eq rfl rfl)).of_eq rfl rfl

theorem countsDown (accounted : Accounted state) : state.CountsDown := by
  intro front key back _ completes
  rw [Resolution.completes, Option.any_eq_true] at completes
  obtain ⟨binding, found, ends⟩ := completes
  rw [Bool.and_eq_true] at ends
  have visited := accounted.visitAll front
  exact visited.unresolved_pos ((visited.isWaiting_iff found).mp ends.1)

theorem blocks_force (accounted : Accounted state) (key : Text) :
    (state.force key).bindings.blocks key = false := by
  cases found : state.bindings.find? key with
  | none => simp [force, found, Bindings.blocks]
  | some binding =>
      cases waits : binding.isWaiting with
      | true =>
          have complete := isComplete_replace_zero binding
            (state.bindings.splice .erase binding.value).text
          simp [force, found, waits, Bindings.blocks, OrderedMap.find?_modify, complete]
      | false =>
          have ready : state.bindings.blocks key = false := by
            rw [← Bool.not_eq_true, ← accounted.isWaiting_iff found, waits]
            exact Bool.false_ne_true
          simpa [force, found, waits] using ready

private theorem blocks_foldl_force (accounted : Accounted state) (keys : List Text) :
    ∀ key ∈ keys, (keys.foldl force state).bindings.blocks key = false := by
  induction keys generalizing state with
  | nil => simp
  | cons first keys ih =>
      intro key member
      rcases List.mem_cons.mp member with rfl | member
      · exact (advances_foldl_force _ keys).extended.blocks_eq_false (accounted.blocks_force key)
      · exact ih (accounted.rewrites (rewrites_force state first)) key member

theorem unresolved_cutCycles (accounted : Accounted state) : state.cutCycles.unresolved = 0 := by
  let reported :=
    { state with
      diagnostics := state.diagnostics ++ state.circularities
      convergence := { state.convergence with stalls := state.convergence.stalls + 1 } }
  have ready := (accounted.of_eq rfl rfl : Accounted reported).blocks_foldl_force
    reported.bindings.keys
  have keys_eq := (advances_foldl_force reported reported.bindings.keys).keys_eq
  rw [accounted.cutCycles.unresolved_eq, List.countP_eq_zero]
  intro key member
  rw [Bool.not_eq_true]
  exact ready key (keys_eq ▸ member)

theorem settles (accounted : Accounted state) : Settles state state.settle := by
  induction state using settle.induct with
  | case1 state none_left =>
      rw [Resolution.settle, if_pos none_left]
      exact .done none_left
  | case2 state some_left stalled =>
      have cleared := accounted.round.unresolved_cutCycles
      rw [Resolution.settle, if_neg some_left, dif_pos stalled]
      exact .stall some_left accounted.countsDown stalled cleared (.done cleared)
  | case3 state some_left moved ih =>
      rw [Resolution.settle, if_neg some_left, dif_neg moved]
      exact .round some_left accounted.countsDown moved (ih accounted.round)

end Accounted

section Link

variable (lookup : Text → Option Text) (state : Resolution)

theorem find?_follow (name : Text) (position : Position) (key : Text) :
    (follow lookup state name position).1.bindings.find? key = state.bindings.find? key ∨
      state.bindings.find? key = none ∧ ∃ value,
        (follow lookup state name position).1.bindings.find? key = some (.ofEnvironment value) := by
  unfold follow
  cases bound : state.bindings.contains name with
  | true => exact .inl rfl
  | false =>
      cases lookup name with
      | none => exact .inl rfl
      | some value =>
          have found := state.bindings.find?_define name key (.ofEnvironment value) false
          by_cases same : key = name
          · subst same
            have admitted : state.bindings.admits key false = true := by
              simp [Bindings.admits, bound]
            rw [if_pos ⟨rfl, admitted⟩] at found
            exact .inr ⟨by simpa [OrderedMap.contains] using bound, value, found⟩
          · rw [if_neg fun both => same both.1] at found
            exact .inl found

theorem find?_followAll (references : List (Text × Position)) (key : Text) :
    (followAll lookup state references).1.bindings.find? key = state.bindings.find? key ∨
      state.bindings.find? key = none ∧ ∃ value,
        (followAll lookup state references).1.bindings.find? key =
          some (.ofEnvironment value) := by
  induction references generalizing state with
  | nil => exact .inl rfl
  | cons reference references ih =>
      have first := find?_follow lookup state reference.1 reference.2 key
      rcases ih (follow lookup state reference.1 reference.2).1 with rest | ⟨unbound, value, rest⟩
      · rw [← rest] at first
        exact first
      · rcases first with same | ⟨_, _, bound⟩
        · exact .inr ⟨same.symm.trans unbound, value, rest⟩
        · simp [bound] at unbound

theorem counts_follow (key : Text) (position : Position) :
    (follow lookup state key position).1.unresolved = state.unresolved ∧
      (follow lookup state key position).1.convergence = state.convergence := by
  unfold follow
  split
  · exact ⟨rfl, rfl⟩
  · split <;> exact ⟨rfl, rfl⟩

theorem counts_followAll (references : List (Text × Position)) :
    (followAll lookup state references).1.unresolved = state.unresolved ∧
      (followAll lookup state references).1.convergence = state.convergence := by
  induction references generalizing state with
  | nil => exact ⟨rfl, rfl⟩
  | cons reference references ih =>
      have first := counts_follow lookup state reference.1 reference.2
      have rest := ih (follow lookup state reference.1 reference.2).1
      exact ⟨rest.1.trans first.1, rest.2.trans first.2⟩

theorem blocks_followAll (references : List (Text × Position)) (key : Text) :
    (followAll lookup state references).1.bindings.blocks key = state.bindings.blocks key := by
  unfold Bindings.blocks
  rcases find?_followAll lookup state references key with same | ⟨unbound, value, bound⟩
  · rw [same]
  · rw [unbound, bound]
    rfl

end Link

namespace Accounted

variable {state : Resolution}

/-- What the environment binds does not wait. -/
theorem followAll (accounted : Accounted state) (lookup : Text → Option Text)
    (references : List (Text × Position)) :
    Accounted (Resolution.followAll lookup state references).1 := by
  have found_before : ∀ key binding,
      (Resolution.followAll lookup state references).1.bindings.find? key = some binding →
        state.bindings.find? key = some binding ∨ binding.isComplete = true := by
    intro key binding found
    rcases find?_followAll lookup state references key with same | ⟨_, value, bound⟩
    · exact .inl (same.symm.trans found)
    · obtain rfl : Binding.ofEnvironment value = binding := Option.some.inj (bound.symm.trans found)
      exact .inr rfl
  refine ⟨⟨?_, ?_⟩, ?_⟩
  · obtain ⟨imported, keys_eq⟩ := isPrefix_keys_followAll lookup state references
    have nodup := OrderedMap.nodup_keys (Resolution.followAll lookup state references).1.bindings
    rw [← keys_eq, List.nodup_append] at nodup
    have none_imported : imported.countP state.bindings.blocks = 0 := by
      rw [List.countP_eq_zero]
      intro key member waits
      obtain ⟨binding, found, _⟩ := accounted.exists_find?_of_blocks waits
      exact nodup.2.2 key ((OrderedMap.mem_keys_iff _ _).mpr ⟨binding, found⟩) key member rfl
    rw [(counts_followAll lookup state references).1, ← keys_eq,
      funext (blocks_followAll lookup state references), List.countP_append, none_imported,
      accounted.unresolved_eq, Nat.add_zero]
  · intro key binding found incomplete
    rcases found_before key binding found with found | complete
    · exact accounted.isLocal key binding found incomplete
    · simp [complete] at incomplete
  · intro key binding found verbatim
    rcases found_before key binding found with found | complete
    · exact accounted.isComplete_of_verbatim key binding found verbatim
    · exact complete

/-- Linking a key that does not wait yet counts it if one of its references has a target. -/
theorem linkKey (accounted : Accounted state) (lookup : Text → Option Text) {key : Text}
    (ready : state.bindings.blocks key = false) : Accounted (linkKey lookup state key) := by
  rcases linkKey_cases lookup state key with same | ⟨binding, value, found, interpreted, linked⟩
  · rwa [same]
  · rw [linked]
    generalize Value.references binding.value binding.position = references
    have followed := accounted.followAll lookup references
    have found' : (Resolution.followAll lookup state references).1.bindings.find? key =
        some binding := by
      rcases find?_followAll lookup state references key with same | ⟨unbound, _⟩
      · exact same.trans found
      · simp [found] at unbound
    obtain ⟨isLocal, verbatim⟩ : binding.isLocal = true ∧ binding.verbatim = false := by
      simpa [Binding.isInterpreted] using interpreted
    have complete : binding.isComplete = true := by
      simpa [Bindings.blocks, found] using ready
    refine ⟨followed.modify found' _ (fun _ => isLocal) _ ?_,
      followed.isComplete_of_verbatim_modify found' _ fun changed => ?_⟩
    · rw [complete]
      cases (Resolution.followAll lookup state references).2 <;> simp [Binding.isComplete]
    · simp [verbatim] at changed

end Accounted

theorem blocks_linkKey_of_ne (lookup : Text → Option Text) (state : Resolution) {key other : Text}
    (differ : other ≠ key) :
    (linkKey lookup state key).bindings.blocks other = state.bindings.blocks other := by
  rcases linkKey_cases lookup state key with same | ⟨binding, value, _, _, linked⟩
  · rw [same]
  · rw [linked, ← blocks_followAll lookup state
      (Value.references binding.value binding.position) other]
    simp only [bindings_record, Bindings.blocks, OrderedMap.find?_modify, if_neg differ]

namespace Accounted

variable {state : Resolution}

/-- Linking counts exactly the keys that it makes wait, if none was counted before. -/
theorem link (accounted : Accounted state) (none_counted : state.unresolved = 0)
    (lookup : Text → Option Text) : Accounted (state.link lookup) := by
  have linked : ∀ (keys : List Text) (state : Resolution), Accounted state → keys.Nodup →
      (∀ key ∈ keys, state.bindings.blocks key = false) →
        Accounted (keys.foldl (Resolution.linkKey lookup) state) := by
    intro keys
    induction keys with
    | nil => exact fun _ accounted _ _ => accounted
    | cons key keys ih =>
        intro state accounted nodup ready
        rw [List.nodup_cons] at nodup
        refine ih _ (accounted.linkKey lookup (ready key List.mem_cons_self)) nodup.2 ?_
        intro other member
        have differ : other ≠ key := fun same => nodup.1 (same ▸ member)
        rw [blocks_linkKey_of_ne lookup state differ]
        exact ready other (List.mem_cons_of_mem key member)
  have ready := accounted.blocks_eq_false_of_unresolved_eq_zero none_counted
  exact (linked state.bindings.keys state accounted (OrderedMap.nodup_keys _)
    fun key _ => ready key).of_eq rfl rfl

theorem define (accounted : Accounted state) (none_counted : state.unresolved = 0)
    (definition : Definition) (overwrite : Bool) :
    Accounted (state.define definition overwrite) := by
  refine accounted_of_isComplete none_counted fun key binding found => ?_
  rw [bindings_define, Bindings.find?_define] at found
  split at found
  · obtain rfl : Binding.ofDefinition definition = binding := Option.some.inj found
    rfl
  · exact accounted.isComplete_of_unresolved_eq_zero none_counted found

theorem decodeValues (accounted : Accounted state) : Accounted state.decodeValues := by
  have blocks_eq : state.decodeValues.bindings.blocks = state.bindings.blocks := by
    funext key
    rw [Bindings.blocks, find?_decodeValues, Bindings.blocks]
    cases state.bindings.find? key <;> simp
  have keys_eq : state.decodeValues.bindings.keys = state.bindings.keys :=
    OrderedMap.keys_mapValues _ _
  refine ⟨⟨?_, ?_⟩, ?_⟩
  · rw [keys_eq, blocks_eq]
    exact accounted.unresolved_eq
  all_goals
    intro key binding found
    rw [find?_decodeValues, Option.map_eq_some_iff] at found
    obtain ⟨old, found, rfl⟩ := found
  · rw [Binding.isComplete_decode, Binding.isLocal_decode]
    exact accounted.isLocal key old found
  · rw [Binding.isComplete_decode, Binding.verbatim_decode]
    exact accounted.isComplete_of_verbatim key old found

theorem perform (accounted : Accounted state) (operation : Operation)
    (permitted : operation.IsPermitted state) : Accounted (operation.perform state) := by
  cases operation with
  | define definition overwrite => exact accounted.define permitted definition overwrite
  | link lookup => exact accounted.link permitted lookup
  | step taken =>
      cases taken with
      | settle => exact accounted.settle
      | cutCycles => exact accounted.cutCycles
      | decodeValues => exact accounted.decodeValues
  | reset => exact accounted_empty

end Accounted

theorem Reachable.accounted {state : Resolution} (reachable : Reachable state) :
    Accounted state := by
  induction reachable with
  | start => exact accounted_empty
  | next _ operation permitted ih => exact ih.perform operation permitted

/-- In every reachable state the number of waiting keys is that of the keys that the source binds
and that have references waiting, and neither a key that the environment binds nor a verbatim value
waits.  Settling it counts a key off only where one is counted and comes to an end, and no key is
counted once its cycles are cut. -/
theorem counts_waiting_keys {state : Resolution} (reachable : Reachable state) :
    state.unresolved =
        state.bindings.locals.countP (fun entry => decide (0 < entry.2.pending)) ∧
      (∀ key binding, state.bindings.find? key = some binding →
        binding.origin = .environment ∨ binding.verbatim = true → binding.pending = 0) ∧
      Settles state state.settle ∧ state.cutCycles.unresolved = 0 := by
  have accounted := reachable.accounted
  refine ⟨?_, ?_, accounted.settles, accounted.unresolved_cutCycles⟩
  · rw [accounted.unresolved_eq, OrderedMap.keys, List.countP_map, Bindings.locals,
      List.countP_filter]
    apply List.countP_congr
    rintro ⟨key, binding⟩ member
    have found := (state.bindings.find?_eq_some_iff key binding).mpr member
    rw [Function.comp, ← accounted.isWaiting_iff found]
    simp [Binding.isWaiting, Binding.isComplete, Nat.pos_iff_ne_zero, and_comm]
  · intro key binding found unwaiting
    have uninterpreted : binding.isInterpreted = false := by
      rcases unwaiting with external | verbatim
      · simp [Binding.isInterpreted, Binding.isLocal, external]
      · simp [Binding.isInterpreted, verbatim]
    simpa [Binding.isComplete] using accounted.isComplete_of_isInterpreted found uninterpreted

/-- The definition of `A` in `A=$E${A}`. -/
def selfReferring : Definition :=
  { key := ['A'], value := "$E$\x7bA\x7d".toList, quote := none, position := ⟨0, 2⟩ }

/-- The definition of `E` in `E=$A`. -/
def backReferring : Definition :=
  { key := ['E'], value := "$A".toList, quote := none, position := ⟨0, 2⟩ }

/-- A state that was settled by cutting a cycle, in which a key that the environment bound is then
defined and linked. -/
def relinkedState : Resolution :=
  (((define {} selfReferring false).link fun _ => some ['e']).settle.define backReferring true).link
    fun _ => none

/-- One key waits once the new definition is linked. -/
theorem counts_waiting_keys_relinkedState :
    Reachable relinkedState ∧
      relinkedState.bindings.locals.countP (fun entry => decide (0 < entry.2.pending)) = 1 ∧
      Settles relinkedState relinkedState.settle := by
  have linked := reachable_link [selfReferring] false fun _ => some ['e']
  have settled := Reachable.next linked (.step .settle) trivial
  have none_counted :
      ((define {} selfReferring false).link fun _ => some ['e']).settle.unresolved = 0 := by
    decide +kernel
  have redefined := Reachable.next settled (.define backReferring true) none_counted
  have relinked : Reachable relinkedState := .next redefined (.link fun _ => none) none_counted
  obtain ⟨counted, _, settles, _⟩ := counts_waiting_keys relinked
  have one_counted : relinkedState.unresolved = 1 := by decide +kernel
  exact ⟨relinked, counted.symm.trans one_counted, settles⟩

end Resolution
end EnvFile
