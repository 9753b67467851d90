import EnvFile.Problem

/-!
# Diagnostics

A diagnostic is a message about a place in a source, most often a problem with its particulars.
Diagnostics are collected in report order and then handed out.  Each one that is handed out is told
to a log, and so is every variable that an environment refuses to store.
-/

namespace EnvFile

/-- A message about a place in a source. -/
structure Diagnostic where
  /-- The kind of problem. -/
  code : Code
  /-- The wording. -/
  message : String
  /-- The key it is about. -/
  key? : Option Text
  /-- The place it is about. -/
  position : Position
  /-- What to do about it. -/
  hint? : Option String
  deriving DecidableEq, Repr

namespace Diagnostic

/-- A kind of problem at a place, without particulars. -/
def ofCode (code : Code) (position : Position) : Diagnostic :=
  { code, message := code.summary, key? := none, position, hint? := none }

/-- A problem at a place. -/
def ofProblem (problem : Problem) (position : Position) : Diagnostic :=
  { code := problem.code
    message := problem.message
    key? := problem.key?
    position
    hint? := problem.hint? }

/-- The message with its place. -/
def located (diagnostic : Diagnostic) : String :=
  diagnostic.message ++ " at " ++ diagnostic.position.render

/-- Number, message and place, and the hint on a line of its own. -/
def render (diagnostic : Diagnostic) : String :=
  diagnostic.code.number ++ ": " ++ diagnostic.located ++
    match diagnostic.hint? with
    | some hint => "\n  hint: " ++ hint
    | none => ""

end Diagnostic

/-- What a log is told. -/
inductive LogEvent
  /-- A diagnostic was handed out. -/
  | reported (diagnostic : Diagnostic)
  /-- An environment refused to store a variable. -/
  | refused (key : Text)
  deriving DecidableEq, Repr

namespace LogEvent

/-- How grave an event is. -/
def severity : LogEvent → Severity
  | reported diagnostic => diagnostic.code.severity
  | refused _ => .warning

/-- The wording of an event. -/
def message : LogEvent → String
  | reported diagnostic => diagnostic.located
  | refused _ => "cannot register variable containing NUL or '='"

/-- The kind of problem that an event tells of. -/
def code? : LogEvent → Option Code
  | reported diagnostic => some diagnostic.code
  | refused _ => none

/-- The key that an event is about. -/
def key? : LogEvent → Option Text
  | reported diagnostic => diagnostic.key?
  | refused key => some key

end LogEvent

/-- Diagnostics that were collected and not handed out yet, in report order. -/
abbrev Diagnostics := List Diagnostic

namespace Diagnostics

/-- Whether one of the diagnostics makes the source unusable. -/
def hasFatal (diagnostics : Diagnostics) : Bool :=
  diagnostics.any fun diagnostic => diagnostic.code.isFatal

/-- A batch of diagnostics with the events that hand it out. -/
structure Flushed where
  /-- The diagnostics, in report order. -/
  batch : List Diagnostic
  /-- One event for each. -/
  events : List LogEvent
  /-- What is left to hand out. -/
  rest : Diagnostics

/-- Hand out all diagnostics; none are left. -/
def flush (diagnostics : Diagnostics) : Flushed :=
  { batch := diagnostics, events := diagnostics.map .reported, rest := [] }

end Diagnostics
end EnvFile
