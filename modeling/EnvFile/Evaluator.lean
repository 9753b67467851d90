import EnvFile.ByteStream
import EnvFile.Report
import EnvFile.Resolution.Linking
import EnvFile.Resolution.Settling
import EnvFile.Source.Reading

/-!
# Evaluators

A source is read, its references are resolved, and the values of the keys that it defines are
published into an environment.  A source with malformed definitions is not evaluated at all.
-/

namespace EnvFile

/-- How a source is evaluated. -/
structure Options where
  /-- Whether variables that are set give way, and earlier definitions of a key to later ones. -/
  overwrite : Bool := false
  /-- Whether references are resolved. -/
  interpolate : Bool := true
  deriving DecidableEq, Repr

namespace Resolution

/-- Resolve definitions against an environment, from a state without bindings. -/
def run (state : Resolution) (definitions : List Definition) (options : Options)
    (lookup : Text → Option Text) : Resolution :=
  let defined := state.defineAll definitions options.overwrite
  let resolved := if options.interpolate then (defined.link lookup).settle else defined
  resolved.decodeValues

end Resolution

/-- An evaluator keeps its tables from one source to the next and clears them first. -/
structure Evaluator where
  /-- The state of resolving. -/
  resolution : Resolution := {}

/-- What came of a source. -/
structure Evaluation (ε : Type) where
  /-- The evaluator afterwards. -/
  evaluator : Evaluator
  /-- The environment afterwards. -/
  environment : ε
  /-- The report, or why there is none. -/
  outcome : Except Failure Report
  /-- What the log is told. -/
  events : List LogEvent

namespace Evaluator

variable {ε : Type} [Environment ε]

/-- Evaluate a source and publish its values into an environment. -/
def evaluate (evaluator : Evaluator) (source : Text) (options : Options) (environment : ε) :
    Evaluation ε :=
  let cleared := evaluator.resolution.reset
  match Source.definitions source with
  | .error diagnostics =>
      let flushed := Diagnostics.flush (cleared.diagnostics ++ diagnostics)
      { evaluator := { resolution := { cleared with diagnostics := flushed.rest } }
        environment
        outcome := .error (.malformed flushed.batch)
        events := flushed.events }
  | .ok definitions =>
      let resolved := cleared.run definitions options (Environment.get? environment)
      let published := publish options.overwrite resolved.values environment
      let flushed := resolved.diagnostics.flush
      { evaluator := { resolution := { resolved with diagnostics := flushed.rest } }
        environment := published.environment
        outcome := .ok
          { entries := published.entries
            diagnostics := flushed.batch
            convergence := resolved.convergence }
        events := published.events ++ flushed.events }

/-- Read a stream to its end and evaluate its text.  Nothing happens if it cannot be read. -/
def evaluateStream (evaluator : Evaluator) (stream : ByteStream) (options : Options)
    (environment : ε) : Evaluation ε :=
  match stream.readText with
  | .ok source => evaluator.evaluate source options environment
  | .error fault => { evaluator, environment, outcome := .error (.broken fault), events := [] }

end Evaluator
end EnvFile
