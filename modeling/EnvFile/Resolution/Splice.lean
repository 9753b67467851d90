import EnvFile.Binding

/-!
# Splicing

One pass over a value replaces its references by the values they refer to, as far as these are
complete.  All other text is shielded on the way, so that its dollars start no references when the
value is read again; only the dollar of an unclosed name stays as it is.
-/

namespace EnvFile

/-- What becomes of a reference whose target still waits. -/
inductive Unready
  /-- It is left for a later pass. -/
  | keep
  /-- It is replaced by nothing. -/
  | erase
  deriving DecidableEq, Repr

/-- A text that references were spliced into. -/
structure Splice where
  /-- The text. -/
  text : Text
  /-- Number of references that were left in it. -/
  pending : Nat
  deriving DecidableEq, Repr

/-- Put spliced texts together. -/
def Splice.join : List Splice → Splice
  | [] => { text := [], pending := 0 }
  | part :: rest =>
      { text := part.text ++ (join rest).text, pending := part.pending + (join rest).pending }

theorem Splice.text_join (parts : List Splice) :
    (Splice.join parts).text = parts.flatMap Splice.text := by
  induction parts with
  | nil => rfl
  | cons part rest ih => rw [Splice.join, List.flatMap_cons, ih]

namespace Bindings

/-- What stands for one token.  A reference to a key that is not bound stands for nothing. -/
def spliceToken (bindings : Bindings) (unready : Unready) (token : Value.Token) : Splice :=
  match token.reference? with
  | none => { text := token.shield, pending := 0 }
  | some name =>
      match bindings.find? name with
      | none => { text := [], pending := 0 }
      | some target =>
          if target.isComplete then { text := target.spliced, pending := 0 }
          else
            match unready with
            | .keep => { text := token.text, pending := 1 }
            | .erase => { text := [], pending := 0 }

/-- Splice what the bindings hold into a value. -/
def splice (bindings : Bindings) (unready : Unready) (value : Text) : Splice :=
  .join ((Value.lex value).map (bindings.spliceToken unready))

end Bindings
end EnvFile
