import EnvFile.Diagnostic
import EnvFile.Resolution.Splice

/-!
# The state of resolving

References between definitions are resolved in steps on a state.

1. `define` binds the defined keys.
2. `link` counts the references of each value, looks up in the environment what the source does not
   define, and reports what is defined nowhere.
3. `settle` splices complete values into waiting ones, round after round.  A round that completes
   nothing shows that keys wait for each other: `cutCycles` reports them and erases the references
   that wait.
4. `decodeValues` decodes the escapes of all values, once.

This file holds the state, the first step and the last one.  The state notes where each key is
referred to for the first time: a report about the key points there.
-/

namespace EnvFile

/-- The keys that are referred to with the place of the first reference, in order of first
reference. -/
abbrev Mentions := OrderedMap Text Position

namespace Mentions

/-- Whether a key was not mentioned before. -/
def isFresh (mentions : Mentions) (key : Text) : Bool :=
  !mentions.contains key

/-- Note a reference to a key; the first place stays. -/
def note (mentions : Mentions) (key : Text) (position : Position) : Mentions :=
  if mentions.isFresh key then mentions.insert key position else mentions

theorem find?_note (mentions : Mentions) (key other : Text) (position : Position) :
    (mentions.note key position).find? other =
      if other = key ∧ mentions.isFresh key = true then some position
      else mentions.find? other := by
  unfold note
  by_cases fresh : mentions.isFresh key = true
  · simp [fresh, OrderedMap.find?_insert]
  · simp [fresh]

theorem keys_note (mentions : Mentions) (key : Text) (position : Position) :
    (mentions.note key position).keys =
      if key ∈ mentions.keys then mentions.keys else mentions.keys ++ [key] := by
  unfold note isFresh
  by_cases known : key ∈ mentions.keys
  · simp [known, (mentions.contains_iff key).mpr known]
  · have unknown : mentions.contains key = false := by
      rw [← Bool.not_eq_true, mentions.contains_iff key]
      exact known
    simp [known, unknown, OrderedMap.keys_insert]

end Mentions

/-- How resolving went. -/
structure Convergence where
  /-- Number of waiting keys at the start. -/
  initial : Nat := 0
  /-- Number of waiting keys after each round. -/
  rounds : List Nat := []
  /-- Number of rounds that completed nothing. -/
  stalls : Nat := 0
  deriving DecidableEq, Repr

/-- The state of resolving. -/
structure Resolution where
  /-- The bound keys. -/
  bindings : Bindings := .empty
  /-- The keys referred to. -/
  mentions : Mentions := .empty
  /-- What was found wrong. -/
  diagnostics : Diagnostics := []
  /-- Number of keys that wait. -/
  unresolved : Nat := 0
  /-- How resolving goes. -/
  convergence : Convergence := {}

namespace Resolution

/-- Empty both tables and set every count back. -/
def reset (state : Resolution) : Resolution :=
  { state with
    bindings := .empty
    mentions := .empty
    diagnostics := []
    unresolved := 0
    convergence := {} }

theorem reset_eq (state : Resolution) : state.reset = {} := rfl

/-- Bind the key of a definition; an old binding gives way only to overwriting. -/
def define (state : Resolution) (definition : Definition) (overwrite : Bool) : Resolution :=
  { state with
    bindings :=
      state.bindings.define definition.key (.ofDefinition definition) overwrite }

/-- Bind the keys of definitions, one after another. -/
def defineAll (state : Resolution) (definitions : List Definition) (overwrite : Bool) :
    Resolution :=
  definitions.foldl (fun state definition => state.define definition overwrite) state

/-- Add a diagnostic. -/
def report (state : Resolution) (problem : Problem) (position : Position) : Resolution :=
  { state with diagnostics := state.diagnostics ++ [.ofProblem problem position] }

/-- Decode the escapes of all values that have not been decoded yet. -/
def decodeValues (state : Resolution) : Resolution :=
  { state with bindings := state.bindings.mapValues .decode }

theorem find?_decodeValues (state : Resolution) (key : Text) :
    state.decodeValues.bindings.find? key = (state.bindings.find? key).map Binding.decode :=
  OrderedMap.find?_mapValues _ _ _

/-- The keys that the source defines with their values, in order. -/
def values (state : Resolution) : List (Text × Text) :=
  state.bindings.locals.map fun entry => (entry.1, entry.2.value)

theorem map_fst_values (state : Resolution) :
    state.values.map Prod.fst = state.bindings.locals.map Prod.fst := by
  rw [values, List.map_map]
  rfl

end Resolution
end EnvFile
