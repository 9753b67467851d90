import EnvFile.Environment.Memory
import EnvFile.Resolution.Basic

/-!
# Reports

A report lists the keys that a source defines with their values, what was recovered from, and how
resolving went.  The values are published into an environment one after another, each as an entry
that says whether the environment took it.
-/

namespace EnvFile

/-- A key that the source defines. -/
structure Entry where
  /-- The key. -/
  key : Text
  /-- Its value in the end. -/
  value : Text
  /-- Whether the value was stored in the environment. -/
  applied : Bool
  deriving DecidableEq, Repr

/-- What evaluation came to. -/
structure Report where
  /-- The defined keys, in the order of first definition. -/
  entries : List Entry
  /-- What was recovered from, in report order. -/
  diagnostics : List Diagnostic
  /-- How resolving went. -/
  convergence : Convergence
  deriving DecidableEq, Repr

namespace Report

/-- The value of a key that the source defines. -/
def get? (report : Report) (key : Text) : Option Text :=
  (report.entries.find? fun entry => entry.key = key).map Entry.value

/-- Whether there was nothing to recover from. -/
def isClean (report : Report) : Bool :=
  report.diagnostics.isEmpty

end Report

/-- What publishing came to. -/
structure Publication (ε : Type) where
  /-- The environment afterwards. -/
  environment : ε
  /-- What was published. -/
  entries : List Entry
  /-- What the log is told. -/
  events : List LogEvent

/-- Set variables one after another. -/
def publish {ε : Type} [Environment ε] (overwrite : Bool) :
    List (Text × Text) → ε → Publication ε
  | [], environment => { environment, entries := [], events := [] }
  | (key, value) :: rest, environment =>
      let write := Environment.set environment key value overwrite
      let later := publish overwrite rest write.environment
      { environment := later.environment
        entries := { key, value, applied := write.applied } :: later.entries
        events := write.events ++ later.events }

end EnvFile
