import EnvFile.Definition

/-!
# Problems

What can be wrong with a source, and how it is worded.  Malformed definitions are fatal; references
that cannot be resolved are recovered from.
-/

namespace EnvFile

/-- The kinds of problems. -/
inductive Code
  /-- A key that does not start a name. -/
  | invalidKey
  /-- A key without an equals sign. -/
  | missingEquals
  /-- A quoted value that is never closed. -/
  | unterminatedQuote
  /-- Text between a quoted value and the end of its line. -/
  | trailingText
  /-- A reference to a key that is defined nowhere. -/
  | undefinedReference
  /-- A key that depends on itself. -/
  | circularReference
  deriving DecidableEq, Repr

/-- How grave a problem is. -/
inductive Severity
  /-- The source cannot be used. -/
  | error
  /-- Values are published nevertheless. -/
  | warning
  deriving DecidableEq, Repr

namespace Severity

/-- The name under which a severity is shown. -/
def name : Severity → String
  | error => "error"
  | warning => "warning"

end Severity

namespace Code

/-- The number under which a kind of problem is documented. -/
def number : Code → String
  | invalidKey => "E0101"
  | missingEquals => "E0102"
  | unterminatedQuote => "E0103"
  | trailingText => "E0104"
  | undefinedReference => "E0201"
  | circularReference => "E0202"

/-- The family that a kind of problem belongs to. -/
def category : Code → String
  | undefinedReference => "undefined variable"
  | circularReference => "circular reference"
  | _ => "syntax error"

/-- What a problem of the kind is, without its particulars. -/
def summary : Code → String
  | invalidKey => "invalid key"
  | missingEquals => "expected '=' after key"
  | unterminatedQuote => "unterminated quoted value"
  | trailingText => "unexpected text after quoted value"
  | undefinedReference => "reference to undefined variable"
  | circularReference => "variable is part of a circular reference"

/-- Malformed definitions make a source unusable; unresolved references do not. -/
def isFatal : Code → Bool
  | undefinedReference | circularReference => false
  | _ => true

/-- Fatal problems are errors, the others warnings. -/
def severity (code : Code) : Severity :=
  if code.isFatal then .error else .warning

end Code

/-- A problem with its particulars. -/
inductive Problem
  /-- What stands in the place of a key does not start like one. -/
  | invalidKey (found : Text)
  /-- The key is not followed by an equals sign. -/
  | missingEquals (key : Text)
  /-- The value of the key is opened by a quote and never closed. -/
  | unterminatedQuote (key : Text) (quote : Quote)
  /-- Text follows the quoted value of the key. -/
  | trailingText (key : Text)
  /-- The key is referred to and neither defined nor set. -/
  | undefinedReference (key : Text)
  /-- The key is referred to and waits for itself. -/
  | circularReference (key : Text)
  deriving DecidableEq, Repr

namespace Problem

/-- The kind of a problem. -/
def code : Problem → Code
  | invalidKey _ => .invalidKey
  | missingEquals _ => .missingEquals
  | unterminatedQuote _ _ => .unterminatedQuote
  | trailingText _ => .trailingText
  | undefinedReference _ => .undefinedReference
  | circularReference _ => .circularReference

/-- The wording of a problem. -/
def message : Problem → String
  | invalidKey found => "invalid key '" ++ String.ofList found ++ "'"
  | missingEquals key => "expected '=' after '" ++ String.ofList key ++ "'"
  | unterminatedQuote key _ => "unterminated quoted value for '" ++ String.ofList key ++ "'"
  | trailingText key => "unexpected text after quoted value of '" ++ String.ofList key ++ "'"
  | undefinedReference key => "undefined variable '" ++ String.ofList key ++ "'"
  | circularReference key => "circular reference to '" ++ String.ofList key ++ "'"

/-- The key that a problem is about. -/
def key? : Problem → Option Text
  | invalidKey _ => none
  | missingEquals key => some key
  | unterminatedQuote key _ => some key
  | trailingText key => some key
  | undefinedReference key => some key
  | circularReference key => some key

/-- What to do about a problem, or what was done. -/
def hint? : Problem → Option String
  | invalidKey _ =>
      some "keys start with a letter or '_' and contain letters, digits, '_' or '.'"
  | missingEquals _ => none
  | unterminatedQuote _ quote => some ("add a closing " ++ String.singleton quote.mark)
  | trailingText _ => some "start a comment with '#' or quote the whole value"
  | undefinedReference _ =>
      some "define it in the file or export it before loading; it expands to an empty string"
  | circularReference _ => some "unresolvable references were replaced by an empty string"

end Problem

end EnvFile
