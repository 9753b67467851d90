import EnvFile.Proofs.Resolution.Rereading
import EnvFile.Resolution.Settling

/-!
# Rewriting the values of waiting keys

Settling takes steps of two kinds: it visits a key, or it erases what the value of a key waits for.
A step of either kind leaves the state as it is or gives one waiting key another value, and counts
the key off if that completes it (`Rewrites`).  What is shown of such a step holds of both kinds,
and what every step preserves is preserved by rounds, by cutting cycles and by settling, however
many rounds it takes (`preserved_settle`).
-/

namespace EnvFile
namespace Resolution

/-- The state behind a step that may give the value of a waiting key another text. -/
inductive Rewrites (before : Resolution) (key : Text) : Resolution → Prop
  /-- The key does not wait. -/
  | idle : Rewrites before key before
  /-- The key takes another value, in which fewer or as many references wait. -/
  | replace {binding : Binding} (found : before.bindings.find? key = some binding)
      (waits : binding.isWaiting = true) (value : Text) (pending : Nat) :
      Rewrites before key
        { before with
          bindings := before.bindings.modify key fun _ => binding.replace value pending
          unresolved :=
            if (binding.replace value pending).isComplete then before.unresolved - 1
            else before.unresolved }

theorem rewrites_visit (state : Resolution) (key : Text) :
    Rewrites state key (state.visit key) := by
  unfold visit
  cases found : state.bindings.find? key with
  | none => exact .idle
  | some binding =>
      cases waits : binding.isWaiting with
      | false => simpa [waits] using Rewrites.idle
      | true => simpa [waits] using Rewrites.replace found waits _ _

theorem isComplete_replace_zero (binding : Binding) (value : Text) :
    (binding.replace value 0).isComplete = true := by
  simp [Binding.replace, Binding.isComplete]

theorem rewrites_force (state : Resolution) (key : Text) :
    Rewrites state key (state.force key) := by
  unfold force
  cases found : state.bindings.find? key with
  | none => exact .idle
  | some binding =>
      cases waits : binding.isWaiting with
      | false => simpa [waits] using Rewrites.idle
      | true =>
          have replaced := Rewrites.replace found waits
            (state.bindings.splice .erase binding.value).text 0
          simpa [waits, isComplete_replace_zero] using replaced

namespace Rewrites

variable {before after : Resolution} {key : Text}

theorem eq (rewrites : Rewrites before key after) :
    after = { before with bindings := after.bindings, unresolved := after.unresolved } := by
  cases rewrites <;> rfl

theorem keys_eq (rewrites : Rewrites before key after) :
    after.bindings.keys = before.bindings.keys := by
  cases rewrites with
  | idle => rfl
  | replace => exact OrderedMap.keys_modify _ _ _

theorem find?_of_ne (rewrites : Rewrites before key after) {other : Text} (differ : other ≠ key) :
    after.bindings.find? other = before.bindings.find? other := by
  cases rewrites with
  | idle => rfl
  | replace => exact (OrderedMap.find?_modify _ _ _ _).trans (if_neg differ)

theorem extended (rewrites : Rewrites before key after) :
    before.bindings.Extends after.bindings := by
  intro name ready
  cases rewrites with
  | idle => rfl
  | replace found waits value pending =>
      rename_i binding
      have differ : name ≠ key := by
        rintro rfl
        have complete : binding.isComplete = true := by
          simpa [Bindings.blocks, found] using ready
        simp [Binding.isWaiting, complete] at waits
      exact (OrderedMap.find?_modify _ _ _ _).trans (if_neg differ)

end Rewrites

theorem convergence_visitAll (state : Resolution) (keys : List Text) :
    (state.visitAll keys).convergence = state.convergence := by
  induction keys generalizing state with
  | nil => rfl
  | cons key keys ih =>
      rw [visitAll]
      split
      · rfl
      · rw [ih, (rewrites_visit state key).eq]

theorem convergence_foldl_force (state : Resolution) (keys : List Text) :
    (keys.foldl force state).convergence = state.convergence := by
  induction keys generalizing state with
  | nil => rfl
  | cons key keys ih => rw [List.foldl_cons, ih, (rewrites_force state key).eq]

section Induction

variable (invariant : Bindings → Nat → Prop)
  (rewritten : ∀ (before after : Resolution) (key : Text), Rewrites before key after →
    invariant before.bindings before.unresolved → invariant after.bindings after.unresolved)

include rewritten

theorem preserved_visitAll (keys : List Text) (state : Resolution)
    (start : invariant state.bindings state.unresolved) :
    invariant (state.visitAll keys).bindings (state.visitAll keys).unresolved := by
  induction keys generalizing state with
  | nil => exact start
  | cons key keys ih =>
      unfold visitAll
      split
      · exact start
      · exact ih _ (rewritten _ _ key (rewrites_visit state key) start)

theorem preserved_cutCycles (state : Resolution)
    (start : invariant state.bindings state.unresolved) :
    invariant state.cutCycles.bindings state.cutCycles.unresolved := by
  have all_forced : ∀ (keys : List Text) (state : Resolution),
      invariant state.bindings state.unresolved →
        invariant (keys.foldl force state).bindings (keys.foldl force state).unresolved := by
    intro keys
    induction keys with
    | nil => exact fun _ start => start
    | cons key keys ih =>
        exact fun state start => ih _ (rewritten _ _ key (rewrites_force state key) start)
  exact all_forced state.bindings.keys _ start

/-- What every step preserves of the bindings and the number of waiting keys is preserved by
settling. -/
theorem preserved_settle (state : Resolution)
    (start : invariant state.bindings state.unresolved) :
    invariant state.settle.bindings state.settle.unresolved := by
  have visited : ∀ state : Resolution, invariant state.bindings state.unresolved →
      invariant state.round.bindings state.round.unresolved := fun state start =>
    preserved_visitAll invariant rewritten state.bindings.keys state start
  induction state using settle.induct with
  | case1 state none_left => rwa [settle, if_pos none_left]
  | case2 state some_left stalled =>
      rw [settle, if_neg some_left, dif_pos stalled]
      exact preserved_cutCycles invariant rewritten _ (visited state start)
  | case3 state some_left moved ih =>
      rw [settle, if_neg some_left, dif_neg moved]
      exact ih (visited state start)

end Induction

end Resolution
end EnvFile
