import EnvFile.Resolution.Basic
import EnvFile.Value.Occurrence

/-!
# Linking

Linking finds the target of every reference.  A key that the source does not define is bound to the
value that the environment has for it; a reference to a key that is set nowhere is reported, each
time it occurs, and stands for nothing.
-/

namespace EnvFile
namespace Resolution

/-- Note a reference to a key that is bound. -/
def mention (state : Resolution) (key : Text) (position : Position) : Resolution :=
  { state with mentions := state.mentions.note key position }

/-- Follow a reference: the state behind it, and whether it has a target.  A key that is not bound
yet is looked up in the environment. -/
def follow (lookup : Text → Option Text) (state : Resolution) (key : Text) (position : Position) :
    Resolution × Bool :=
  if state.bindings.contains key then (state.mention key position, true)
  else
    match lookup key with
    | some value =>
        let bound := { state with
          bindings := state.bindings.define key (.ofEnvironment value) false }
        (bound.mention key position, true)
    | none => (state.report (.undefinedReference key) position, false)

/-- Follow references from left to right: the state behind them and how many have a target. -/
def followAll (lookup : Text → Option Text) :
    Resolution → List (Text × Position) → Resolution × Nat
  | state, [] => (state, 0)
  | state, (key, position) :: rest =>
      let (next, found) := follow lookup state key position
      let (last, count) := followAll lookup next rest
      (last, if found then count + 1 else count)

/-- Count the references of the value of a key.  If none of them has a target, they are erased at
once. -/
def linkKey (lookup : Text → Option Text) (state : Resolution) (key : Text) : Resolution :=
  match state.bindings.find? key with
  | none => state
  | some binding =>
      if binding.isInterpreted then
        let references := Value.references binding.value binding.position
        let (linked, pending) := followAll lookup state references
        let value :=
          if pending = 0 ∧ references ≠ [] then
            (linked.bindings.splice .keep binding.value).text
          else binding.value
        { linked with
          bindings := linked.bindings.modify key fun old => { old with value, pending }
          unresolved := if pending = 0 then linked.unresolved else linked.unresolved + 1 }
      else state

/-- Count the references of all values, in the order of the keys. -/
def link (state : Resolution) (lookup : Text → Option Text) : Resolution :=
  let linked := state.bindings.keys.foldl (linkKey lookup) state
  { linked with convergence := { linked.convergence with initial := linked.unresolved } }

end Resolution
end EnvFile
