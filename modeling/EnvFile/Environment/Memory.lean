import EnvFile.Diagnostic
import EnvFile.OrderedMap

/-!
# Environments

An environment holds variables.  It can be asked for a variable and told to store one, which it
may refuse.  The plainest one is a map in memory, with its names in insertion order; it stores
everything.
-/

namespace EnvFile

/-- A store of variables. -/
class Environment (ε : Type) where
  /-- The value of a variable, if it is set. -/
  get? : ε → Text → Option Text
  /-- Whether a variable is set. -/
  contains : ε → Text → Bool
  /-- The environment with a variable set to a value, unless it refuses to store them. -/
  insert? : ε → Text → Text → Option ε

/-- What came of the wish to set a variable. -/
structure Write (ε : Type) where
  /-- The environment afterwards. -/
  environment : ε
  /-- Whether the value was stored. -/
  applied : Bool
  /-- What the log is told. -/
  events : List LogEvent

namespace Environment

variable {ε : Type} [Environment ε]

/-- Set a variable whether it was set before or not; a refusal is logged. -/
def insert (environment : ε) (key value : Text) : Write ε :=
  match insert? environment key value with
  | some stored => { environment := stored, applied := true, events := [] }
  | none => { environment, applied := false, events := [.refused key] }

/-- Set a variable; one that is set already changes only by overwriting. -/
def set (environment : ε) (key value : Text) (overwrite : Bool) : Write ε :=
  if !overwrite && contains environment key then
    { environment, applied := false, events := [] }
  else insert environment key value

end Environment

/-- An environment that is a map. -/
structure MemoryEnvironment where
  /-- The variables in the order in which they were set first. -/
  vars : OrderedMap Text Text

namespace MemoryEnvironment

/-- The environment that holds pairs; of a repeated name the first place and the last value. -/
def ofList (pairs : List (Text × Text)) : MemoryEnvironment :=
  { vars := .ofList pairs }

instance : Environment MemoryEnvironment where
  get? environment key := environment.vars.find? key
  contains environment key := environment.vars.contains key
  insert? environment key value := some { vars := environment.vars.insert key value }

theorem get?_insert (environment : MemoryEnvironment) (key other value : Text) :
    Environment.get? (Environment.insert environment key value).environment other =
      if other = key then some value else Environment.get? environment other :=
  OrderedMap.find?_insert environment.vars key other value

end MemoryEnvironment
end EnvFile
