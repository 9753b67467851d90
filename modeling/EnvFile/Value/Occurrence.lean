import EnvFile.Position
import EnvFile.Value.Escape

/-!
# Occurrences in a value

The references and known escapes of a value, each with its range in bytes and its place in the
file.
-/

namespace EnvFile
namespace Value

/-- What an occurrence stands for. -/
inductive Meaning
  /-- A reference to a key. -/
  | reference (name : Text)
  /-- An escape and the character it stands for. -/
  | escape (decoded : Char)
  deriving DecidableEq, Repr

/-- A reference or a known escape found in a value.  Its byte offsets are natural numbers and have
no bound; words of 32 bits hold them only as long as the value has fewer than `2 ^ 32` bytes. -/
structure Occurrence where
  /-- What it stands for. -/
  meaning : Meaning
  /-- How it is written. -/
  text : Text
  /-- Number of bytes of the value in front of it. -/
  start : Nat
  /-- Number of bytes of the value up to its end. -/
  stop : Nat
  /-- Place of its first character in the file. -/
  position : Position
  deriving DecidableEq, Repr

/-- What a token stands for, if it is more than text. -/
def Token.meaning? : Token → Option Meaning
  | .braced name => some (.reference name)
  | .bare name => some (.reference name)
  | .escape c => (decodeEscape c).map .escape
  | _ => none

/-- The occurrences among tokens that start at a byte offset and a place in the file. -/
def occurrencesOf (start : Nat) (position : Position) : List Token → List Occurrence
  | [] => []
  | token :: rest =>
      let stop := start + token.text.utf8Length
      let later := occurrencesOf stop (position.after token.text) rest
      match token.meaning? with
      | some meaning => { meaning, text := token.text, start, stop, position } :: later
      | none => later

theorem occurrencesOf_append (start : Nat) (position : Position) (front back : List Token) :
    occurrencesOf start position (front ++ back) =
      occurrencesOf start position front ++
        occurrencesOf (start + Text.utf8Length (front.flatMap Token.text))
          (position.after (front.flatMap Token.text)) back := by
  induction front generalizing start position with
  | nil => simp [occurrencesOf]
  | cons token rest ih =>
      simp only [List.cons_append, occurrencesOf, ih, List.flatMap_cons, Text.utf8Length_append,
        Position.after_append, Nat.add_assoc]
      cases token.meaning? <;> rfl

/-- The occurrences of a value whose first character stands at `origin`, from left to right. -/
def occurrences (value : Text) (origin : Position) : List Occurrence :=
  occurrencesOf 0 origin (lex value)

/-- The name that an occurrence refers to, with its place. -/
def Occurrence.reference? (occurrence : Occurrence) : Option (Text × Position) :=
  match occurrence.meaning with
  | .reference name => some (name, occurrence.position)
  | .escape _ => none

/-- The names that a value refers to, each time with the place, from left to right. -/
def references (value : Text) (origin : Position) : List (Text × Position) :=
  (occurrences value origin).filterMap Occurrence.reference?

end Value
end EnvFile
