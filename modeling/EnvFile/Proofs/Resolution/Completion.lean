import EnvFile.Proofs.Resolution.Operations

/-!
# What steps leave of a binding

The steps behind linking may come in any order and any number.  They bind no key and forget none,
and they make no reference wait again.  A complete binding only ever changes by decoding, and that
once: what the steps make of it is known from whether decoding is among them (`Matures`).  Bindings
by the environment and verbatim ones do not change at all.
-/

namespace EnvFile

/-- What a binding becomes if its escapes are decoded on the way or not: no reference waits again,
and a complete binding changes only by decoding. -/
structure Binding.Matures (decodes : Bool) (before after : Binding) : Prop where
  pending_le : after.pending ≤ before.pending
  of_isComplete : before.isComplete = true →
    after = if decodes then before.decode else before

namespace Binding.Matures

variable {first second third : Binding} {front back : Bool}

theorem refl (binding : Binding) : Matures false binding binding where
  pending_le := Nat.le_refl _
  of_isComplete _ := rfl

theorem decode (binding : Binding) : Matures true binding binding.decode where
  pending_le := by rw [decode_eq]
  of_isComplete _ := rfl

theorem replace (binding : Binding) (waits : binding.isWaiting = true) (value : Text)
    (pending : Nat) :
    Matures false binding (binding.replace value pending) where
  pending_le := Nat.min_le_left _ _
  of_isComplete complete := by simp [isWaiting, complete] at waits

theorem trans (early : Matures front first second) (late : Matures back second third) :
    Matures (front || back) first third where
  pending_le := late.pending_le.trans early.pending_le
  of_isComplete complete := by
    have second_eq := early.of_isComplete complete
    have second_complete : second.isComplete = true := by
      rw [second_eq]
      cases front <;> simpa using complete
    rw [late.of_isComplete second_complete, second_eq]
    cases front <;> cases back <;> simp [decode_decode]

end Binding.Matures

/-- The same keys are bound in the same order, and what has become of each binding. -/
structure Bindings.Matures (decodes : Bool) (before after : Bindings) : Prop where
  keys_eq : after.keys = before.keys
  exists_find? : ∀ key old, before.find? key = some old →
    ∃ new, after.find? key = some new ∧ old.Matures decodes new

namespace Bindings.Matures

variable {first second third : Bindings} {front back : Bool}

theorem refl (bindings : Bindings) : Matures false bindings bindings where
  keys_eq := rfl
  exists_find? _ old found := ⟨old, found, .refl old⟩

theorem trans (early : Matures front first second) (late : Matures back second third) :
    Matures (front || back) first third where
  keys_eq := late.keys_eq.trans early.keys_eq
  exists_find? key old found := by
    obtain ⟨middle, found, matures⟩ := early.exists_find? key old found
    obtain ⟨new, found, later⟩ := late.exists_find? key middle found
    exact ⟨new, found, matures.trans later⟩

end Bindings.Matures

namespace Resolution

theorem Rewrites.matures {before after : Resolution} {key : Text}
    (rewrites : Rewrites before key after) : before.bindings.Matures false after.bindings where
  keys_eq := rewrites.keys_eq
  exists_find? other old found := by
    by_cases same : other = key
    · subst same
      cases rewrites with
      | idle => exact ⟨old, found, .refl old⟩
      | replace waiting waits value pending =>
          rename_i binding
          obtain rfl : binding = old := Option.some.inj (waiting.symm.trans found)
          refine ⟨binding.replace value pending, ?_, .replace binding waits value pending⟩
          rw [OrderedMap.find?_modify, if_pos rfl, found]
          rfl
    · exact ⟨old, (rewrites.find?_of_ne same).trans found, .refl old⟩

theorem matures_perform (state : Resolution) (step : Step) :
    state.bindings.Matures (decide (.decodeValues = step)) (step.perform state).bindings := by
  have advance : ∀ before after : Resolution, ∀ key, Rewrites before key after →
      state.bindings.Matures false before.bindings → state.bindings.Matures false after.bindings :=
    fun _ _ _ rewrites earlier => earlier.trans rewrites.matures
  cases step with
  | settle =>
      exact preserved_settle (fun bindings _ => state.bindings.Matures false bindings) advance state
        (.refl _)
  | cutCycles =>
      exact preserved_cutCycles (fun bindings _ => state.bindings.Matures false bindings) advance
        state (.refl _)
  | decodeValues =>
      refine ⟨OrderedMap.keys_mapValues _ _, fun key old found => ⟨old.decode, ?_, .decode old⟩⟩
      exact (find?_decodeValues state key).trans (congrArg (Option.map Binding.decode) found)

/-- The state behind steps, taken one after another. -/
def performAll (state : Resolution) (steps : List Step) : Resolution :=
  steps.foldl Step.perform state

theorem matures_performAll (state : Resolution) (steps : List Step) :
    state.bindings.Matures (decide (.decodeValues ∈ steps)) (state.performAll steps).bindings := by
  induction steps generalizing state with
  | nil => exact .refl _
  | cons step steps ih =>
      have matures := (matures_perform state step).trans (ih (step.perform state))
      have either : (decide (.decodeValues = step) || decide (.decodeValues ∈ steps)) =
          decide (.decodeValues ∈ step :: steps) := by simp
      rwa [either] at matures

theorem decodeValues_decodeValues (state : Resolution) :
    state.decodeValues.decodeValues = state.decodeValues := by
  simp [decodeValues, OrderedMap.mapValues, Binding.decode_decode]

/-- What any steps from a reachable state leave of the binding of a key. -/
structure LeavesOf (steps : List Step) (before after : Binding) : Prop where
  pending_le : after.pending ≤ before.pending
  eq_of_notMem : before.isComplete = true → .decodeValues ∉ steps → after = before
  eq_decoded_of_mem : before.isComplete = true → .decodeValues ∈ steps →
    before.isInterpreted = true → before.decoded = false →
      after = { before with value := Value.decode before.value, decoded := true }
  eq_of_decoded : before.isComplete = true → before.decoded = true → after = before
  eq_of_environment : before.origin = .environment → after = before
  eq_of_verbatim : before.verbatim = true → after = before

/-- Completed work is never done again: in definitions that have been linked (`reachable_link`), and
in every other reachable state, whatever steps are taken. -/
theorem keeps_completed_work {state : Resolution} (reachable : Reachable state)
    (steps : List Step) :
    (state.performAll steps).bindings.keys = state.bindings.keys ∧
      (∀ key before, state.bindings.find? key = some before →
        ∃ after, (state.performAll steps).bindings.find? key = some after ∧
          LeavesOf steps before after) ∧
      state.decodeValues.decodeValues = state.decodeValues := by
  have matured := state.matures_performAll steps
  refine ⟨matured.keys_eq, ?_, decodeValues_decodeValues state⟩
  intro key before found
  obtain ⟨after, found', matures⟩ := matured.exists_find? key before found
  -- what is not interpreted is complete, and there is nothing to decode in it
  have kept : before.isInterpreted = false → after = before := by
    intro uninterpreted
    have complete := reachable.accounted.isComplete_of_isInterpreted found uninterpreted
    rw [matures.of_isComplete complete, Binding.decode_eq_self (.inl uninterpreted), ite_self]
  refine ⟨after, found', matures.pending_le, ?_, ?_, ?_, ?_, ?_⟩
  · intro complete absent
    simpa [absent] using matures.of_isComplete complete
  · intro complete member interpreted encoded
    rw [matures.of_isComplete complete, if_pos (decide_eq_true member),
      Binding.decode_of_isInterpreted interpreted encoded]
  · intro complete decoded
    rw [matures.of_isComplete complete, Binding.decode_eq_self (.inr decoded), ite_self]
  · exact fun external => kept (by simp [Binding.isInterpreted, Binding.isLocal, external])
  · exact fun verbatim => kept (by simp [Binding.isInterpreted, verbatim])

/-- The definition of `A` in `A=${C}`. -/
def waitingDefinition : Definition :=
  { key := ['A'], value := "$\x7bC\x7d".toList, quote := none, position := ⟨0, 2⟩ }

/-- The definition of `C` in `C=\\\\n`, which decoded twice would be a new line. -/
def doublyEscaped : Definition :=
  { key := ['C'], value := ['\\', '\\', 'n'], quote := none, position := ⟨1, 2⟩ }

/-- A state with a key that waits and one whose value is to be decoded. -/
def encodedState : Resolution :=
  (defineAll {} [waitingDefinition, doublyEscaped] false).link fun _ => none

/-- A value that was decoded before the references are resolved is not decoded again behind them. -/
theorem keeps_completed_work_encodedState :
    Reachable encodedState ∧ encodedState.unresolved = 1 ∧
      ∃ after, (encodedState.performAll [.decodeValues, .settle, .decodeValues]).bindings.find?
          ['C'] = some after ∧ after.value = ['\\', 'n'] ∧ after.decoded = true := by
  have linked : Reachable encodedState := reachable_link _ false _
  have found : encodedState.bindings.find? ['C'] = some (.ofDefinition doublyEscaped) := by
    decide +kernel
  obtain ⟨_, leaves, _⟩ := keeps_completed_work linked [.decodeValues, .settle, .decodeValues]
  obtain ⟨after, found', left⟩ := leaves ['C'] _ found
  have after_eq := left.eq_decoded_of_mem rfl (by decide) rfl rfl
  refine ⟨linked, by decide +kernel, after, found', ?_, ?_⟩
  · rw [after_eq]
    change Value.decode ['\\', '\\', 'n'] = ['\\', 'n']
    decide +kernel
  · rw [after_eq]

end Resolution
end EnvFile
