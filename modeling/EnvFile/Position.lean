import EnvFile.Text

/-!
# Positions in a source

A position counts lines and columns from zero; a column is a number of characters, not of bytes.
Walking over a text moves a position (`Position.after`), and a position inside a value becomes one
of the file by way of the value's own position (`Position.shift`).
-/

namespace EnvFile

/-- A place in a text, counted from zero. -/
structure Position where
  /-- Number of newlines in front. -/
  line : Nat := 0
  /-- Number of characters in front on the same line. -/
  column : Nat := 0
  deriving DecidableEq, Repr, Inhabited

namespace Position

/-- The position behind one character. -/
def step (position : Position) (c : Char) : Position :=
  if c = '\n' then { line := position.line + 1, column := 0 }
  else { position with column := position.column + 1 }

/-- The position behind a text that starts at `position`. -/
def after (position : Position) (text : Text) : Position :=
  text.foldl step position

/-- The place in the file of a position that is relative to a text starting at `origin`. -/
def shift (origin relative : Position) : Position :=
  if relative.line = 0 then
    { line := origin.line, column := origin.column + relative.column }
  else
    { line := origin.line + relative.line, column := relative.column }

/-- Positions are ordered by line, then by column. -/
instance : LT Position where
  lt first second :=
    first.line < second.line ∨ first.line = second.line ∧ first.column < second.column

instance (first second : Position) : Decidable (first < second) :=
  inferInstanceAs
    (Decidable (first.line < second.line ∨
      first.line = second.line ∧ first.column < second.column))

instance : Ord Position where
  compare first second :=
    (compare first.line second.line).then (compare first.column second.column)

/-- A position as editors show it: line and column counted from one. -/
def render (position : Position) : String :=
  toString (position.line + 1) ++ ":" ++ toString (position.column + 1)

@[simp]
theorem after_nil (position : Position) : position.after [] = position := rfl

@[simp]
theorem after_cons (position : Position) (head : Char) (tail : Text) :
    position.after (head :: tail) = (position.step head).after tail := rfl

theorem after_append (position : Position) (front back : Text) :
    position.after (front ++ back) = (position.after front).after back := by
  simp [after]

theorem lt_def (first second : Position) :
    first < second ↔
      first.line < second.line ∨ first.line = second.line ∧ first.column < second.column :=
  Iff.rfl

theorem compare_eq_lt_iff (first second : Position) :
    compare first second = .lt ↔ first < second := by
  show (compare first.line second.line).then (compare first.column second.column) = .lt ↔ _
  rw [lt_def, Ordering.then_eq_lt, Nat.compare_eq_lt, Nat.compare_eq_eq, Nat.compare_eq_lt]

end Position
end EnvFile
