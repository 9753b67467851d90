import EnvFile.Position

/-!
# Cursors

A cursor stands somewhere in a source: it knows its position and the text that is still to be
read.  Every movement passes over a piece of that text, so position and remaining text never fall
out of step (`Cursor.Reaches`).
-/

namespace EnvFile

/-- A place in a source together with the text that follows it. -/
structure Cursor where
  /-- The place. -/
  position : Position
  /-- What is still to be read. -/
  rest : Text

namespace Cursor

/-- The start of a source; a byte order mark in front is not part of it. -/
def start : Text → Cursor
  | '\uFEFF' :: text => { position := {}, rest := text }
  | text => { position := {}, rest := text }

/-- Pass over a number of characters. -/
def advance (cursor : Cursor) (count : Nat) : Cursor where
  position := cursor.position.after (cursor.rest.take count)
  rest := cursor.rest.drop count

/-- Pass over the characters in front that are in a class. -/
def skipWhile (cursor : Cursor) (skipped : Char → Bool) : Cursor where
  position := cursor.position.after (cursor.rest.takeWhile skipped)
  rest := cursor.rest.dropWhile skipped

/-- Pass over the blanks in front. -/
def skipBlanks (cursor : Cursor) : Cursor :=
  cursor.skipWhile isBlank

/-- Pass over what is left of the line and the newline that ends it. -/
def skipLine (cursor : Cursor) : Cursor :=
  (cursor.skipWhile (· != '\n')).advance 1

/-- One cursor reaches another by passing over a text. -/
def Reaches (here there : Cursor) : Prop :=
  ∃ passed, here.rest = passed ++ there.rest ∧ there.position = here.position.after passed

theorem Reaches.refl (cursor : Cursor) : cursor.Reaches cursor :=
  ⟨[], rfl, rfl⟩

theorem Reaches.trans {first second third : Cursor} (front : first.Reaches second)
    (back : second.Reaches third) : first.Reaches third := by
  obtain ⟨passed, rest_eq, position_eq⟩ := front
  obtain ⟨passed', rest_eq', position_eq'⟩ := back
  refine ⟨passed ++ passed', ?_, ?_⟩
  · rw [rest_eq, rest_eq', List.append_assoc]
  · rw [position_eq', position_eq, Position.after_append]

theorem Reaches.length_le {here there : Cursor} (reaches : here.Reaches there) :
    there.rest.length ≤ here.rest.length := by
  obtain ⟨passed, rest_eq, _⟩ := reaches
  simp [rest_eq]

theorem reaches_advance (cursor : Cursor) (count : Nat) : cursor.Reaches (cursor.advance count) :=
  ⟨cursor.rest.take count, (List.take_append_drop count cursor.rest).symm, rfl⟩

theorem reaches_skipWhile (cursor : Cursor) (skipped : Char → Bool) :
    cursor.Reaches (cursor.skipWhile skipped) :=
  ⟨cursor.rest.takeWhile skipped, List.takeWhile_append_dropWhile.symm, rfl⟩

theorem reaches_skipBlanks (cursor : Cursor) : cursor.Reaches cursor.skipBlanks :=
  cursor.reaches_skipWhile isBlank

theorem reaches_skipLine (cursor : Cursor) : cursor.Reaches cursor.skipLine :=
  (cursor.reaches_skipWhile _).trans (reaches_advance _ 1)

theorem length_skipLine_lt {cursor : Cursor} (nonempty : cursor.rest ≠ []) :
    cursor.skipLine.rest.length < cursor.rest.length := by
  have tail_le := (cursor.reaches_skipWhile (· != '\n')).length_le
  have positive := List.length_pos_iff.mpr nonempty
  simp only [skipLine, advance, List.length_drop]
  omega

end Cursor
end EnvFile
