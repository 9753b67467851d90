import EnvFile.Resolution.Basic

/-!
# Settling

Keys that wait are visited round after round, each taking the values that are complete by then.
The number of waiting keys falls with every round until none is left or a round completes nothing.
In the latter case keys wait for each other; they are reported, and what they wait for is erased.
-/

namespace EnvFile
namespace Resolution

/-- Splice what is complete into the value of a key that waits. -/
def visit (state : Resolution) (key : Text) : Resolution :=
  match state.bindings.find? key with
  | none => state
  | some binding =>
      if binding.isWaiting then
        let spliced := state.bindings.splice .keep binding.value
        let next := binding.replace spliced.text spliced.pending
        { state with
          bindings := state.bindings.modify key fun _ => next
          unresolved := if next.isComplete then state.unresolved - 1 else state.unresolved }
      else state

/-- Visit keys until none waits. -/
def visitAll : Resolution → List Text → Resolution
  | state, [] => state
  | state, key :: rest =>
      if state.unresolved = 0 then state else visitAll (state.visit key) rest

/-- Visit all keys in order and note how many still wait. -/
def round (state : Resolution) : Resolution :=
  let visited := state.visitAll state.bindings.keys
  { visited with
    convergence :=
      { visited.convergence with
        rounds := visited.convergence.rounds ++ [visited.unresolved] } }

/-- Whether a key is bound and not complete. -/
def isStuck (state : Resolution) (key : Text) : Bool :=
  (state.bindings.find? key).any fun binding => !binding.isComplete

/-- Erase the references that still wait in the value of a key. -/
def force (state : Resolution) (key : Text) : Resolution :=
  match state.bindings.find? key with
  | none => state
  | some binding =>
      if binding.isWaiting then
        let forced := state.bindings.splice .erase binding.value
        { state with
          bindings := state.bindings.modify key fun _ => binding.replace forced.text 0
          unresolved := state.unresolved - 1 }
      else state

/-- The diagnostics about the keys that are mentioned and stuck, in the order of mention. -/
def circularities (state : Resolution) : List Diagnostic :=
  (state.mentions.entries.filter fun mention => state.isStuck mention.1).map
    fun mention => .ofProblem (.circularReference mention.1) mention.2

/-- Report the keys that are stuck, then complete all waiting keys in order. -/
def cutCycles (state : Resolution) : Resolution :=
  let reported :=
    { state with
      diagnostics := state.diagnostics ++ state.circularities
      convergence := { state.convergence with stalls := state.convergence.stalls + 1 } }
  reported.bindings.keys.foldl force reported

theorem unresolved_visit_le (state : Resolution) (key : Text) :
    (state.visit key).unresolved ≤ state.unresolved := by
  unfold visit
  split
  · exact Nat.le_refl _
  · split
    · dsimp only
      split
      · exact Nat.sub_le _ _
      · exact Nat.le_refl _
    · exact Nat.le_refl _

theorem unresolved_visitAll_le (state : Resolution) (keys : List Text) :
    (state.visitAll keys).unresolved ≤ state.unresolved := by
  induction keys generalizing state with
  | nil => exact Nat.le_refl _
  | cons key rest ih =>
      unfold visitAll
      split
      · exact Nat.le_refl _
      · exact Nat.le_trans (ih _) (state.unresolved_visit_le key)

theorem unresolved_round_le (state : Resolution) :
    state.round.unresolved ≤ state.unresolved :=
  state.unresolved_visitAll_le _

/-- Go round after round until no key waits; cut the cycles after a round that completed nothing. -/
def settle (state : Resolution) : Resolution :=
  if state.unresolved = 0 then state
  else if _ : state.round.unresolved = state.unresolved then state.round.cutCycles
  else settle state.round
termination_by state.unresolved
decreasing_by exact Nat.lt_of_le_of_ne state.unresolved_round_le (by assumption)

end Resolution
end EnvFile
