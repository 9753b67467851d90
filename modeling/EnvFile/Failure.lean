import EnvFile.Diagnostic

/-!
# Failures

Why a source was not evaluated at all.  Nothing is published then.
-/

namespace EnvFile

/-- Why a file or a stream could not be read. -/
inductive ReadFault
  /-- There is nothing at the path. -/
  | notFound
  /-- The path goes through something that is not a directory. -/
  | notDirectory
  /-- The path leads to a directory. -/
  | isDirectory
  /-- The bytes encode no text. -/
  | notText
  /-- Anything else, in the words of the device. -/
  | other (message : String)
  deriving DecidableEq, Repr

namespace ReadFault

/-- The wording of a fault. -/
def message : ReadFault → String
  | notFound => "No such file or directory (os error 2)"
  | notDirectory => "Not a directory (os error 20)"
  | isDirectory => "Is a directory (os error 21)"
  | notText => "stream did not contain valid UTF-8"
  | other message => message

end ReadFault

/-- Why a source was not evaluated. -/
inductive Failure
  /-- The source has malformed definitions. -/
  | malformed (diagnostics : List Diagnostic)
  /-- The file could not be read. -/
  | unreadable (path : Text) (fault : ReadFault)
  /-- The stream broke. -/
  | broken (fault : ReadFault)
  deriving DecidableEq, Repr

namespace Failure

/-- What is wrong with the source. -/
def diagnostics : Failure → List Diagnostic
  | malformed diagnostics => diagnostics
  | _ => []

/-- The wording of a failure. -/
def message : Failure → String
  | malformed diagnostics =>
      toString diagnostics.length ++ " syntax error(s), first: " ++
        match diagnostics with
        | [] => ""
        | diagnostic :: _ => diagnostic.located
  | unreadable path fault => "failed to read " ++ String.ofList path ++ ": " ++ fault.message
  | broken fault => "IO error: " ++ fault.message

end Failure
end EnvFile
