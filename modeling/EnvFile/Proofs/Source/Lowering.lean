import EnvFile.Source.Reading

/-!
# Reading further down

Readers never look at the position of their cursor; they only count on from it.  From a place a
number of lines further down each of them reads the same, every position that many lines further
down (`Source.readLines_down`).
-/

namespace EnvFile

/-- The position a number of lines further down, in the same column. -/
def Position.down (position : Position) (lines : Nat) : Position :=
  { position with line := position.line + lines }

/-- The definition a number of lines further down. -/
def Definition.down (definition : Definition) (lines : Nat) : Definition :=
  { definition with position := definition.position.down lines }

/-- The diagnostic for a place a number of lines further down. -/
def Diagnostic.down (diagnostic : Diagnostic) (lines : Nat) : Diagnostic :=
  { diagnostic with position := diagnostic.position.down lines }

/-- The cursor in front of the same text a number of lines further down. -/
def Cursor.down (cursor : Cursor) (lines : Nat) : Cursor :=
  { cursor with position := cursor.position.down lines }

theorem Position.after_down (position : Position) (lines : Nat) (text : Text) :
    (position.down lines).after text = (position.after text).down lines := by
  induction text generalizing position with
  | nil => rfl
  | cons head tail ih =>
      have step_down : (position.down lines).step head = (position.step head).down lines := by
        by_cases newline : head = '\n'
        · simp [step, down, newline, Nat.add_right_comm]
        · simp [step, down, newline]
      rw [after_cons, after_cons, step_down, ih]

namespace Cursor

variable (cursor : Cursor) (lines : Nat)

@[simp]
theorem rest_down : (cursor.down lines).rest = cursor.rest := rfl

theorem advance_down (count : Nat) :
    (cursor.down lines).advance count = (cursor.advance count).down lines := by
  simp only [advance, down, Position.after_down]

theorem skipWhile_down (skipped : Char → Bool) :
    (cursor.down lines).skipWhile skipped = (cursor.skipWhile skipped).down lines := by
  simp only [skipWhile, down, Position.after_down]

theorem skipBlanks_down : (cursor.down lines).skipBlanks = cursor.skipBlanks.down lines :=
  cursor.skipWhile_down lines isBlank

theorem skipLine_down : (cursor.down lines).skipLine = cursor.skipLine.down lines := by
  rw [skipLine, skipWhile_down, advance_down, skipLine]

end Cursor

namespace Source

variable {α β : Type}

/-- What was read, or what was wrong, a number of lines further down. -/
def lower (moved : α → α) (lines : Nat) (result : Except Diagnostic α) : Except Diagnostic α :=
  (result.map moved).mapError fun diagnostic => diagnostic.down lines

/-- The content of a line a number of lines further down. -/
abbrev lowerLine (lines : Nat) : Except Diagnostic Definition → Except Diagnostic Definition :=
  lower (fun definition => definition.down lines) lines

/-- The same step a number of lines further down. -/
def Step.down (step : Step α) (moved : α → α) (lines : Nat) : Step α where
  result := lower moved lines step.result
  stop := step.stop.down lines

theorem Step.andThen_down {step : Step α} {next : α → Cursor → Step β} {moved : α → α}
    {moved' : β → β} {lines : Nat}
    (next_down : ∀ value cursor,
      next (moved value) (cursor.down lines) = (next value cursor).down moved' lines) :
    (step.down moved lines).andThen next = (step.andThen next).down moved' lines := by
  obtain ⟨result, stop⟩ := step
  cases result with
  | error diagnostic => rfl
  | ok value => exact next_down value stop

section Down

variable (cursor : Cursor) (lines : Nat)

theorem readKey_down : readKey (cursor.down lines) = (readKey cursor).down id lines := by
  unfold readKey
  rw [Cursor.rest_down, Cursor.skipWhile_down, Cursor.skipWhile_down]
  split <;> rfl

theorem readExportedKey_down :
    readExportedKey (cursor.down lines) = (readExportedKey cursor).down id lines := by
  rw [readExportedKey, readKey_down]
  apply Step.andThen_down
  intro key stop
  rw [Cursor.rest_down, Cursor.skipBlanks_down, Cursor.rest_down, readKey_down, id]
  split
  · split <;> rfl
  · rfl

theorem readEquals_down (key : Text) :
    readEquals key (cursor.down lines) = (readEquals key cursor).down id lines := by
  unfold readEquals
  dsimp only
  rw [Cursor.skipBlanks_down, Cursor.rest_down, Cursor.advance_down, Cursor.skipBlanks_down]
  split <;> rfl

theorem readQuoted_down (key : Text) (quote : Quote) :
    readQuoted key quote (cursor.down lines) =
      (readQuoted key quote cursor).down (fun definition => definition.down lines) lines := by
  unfold readQuoted
  dsimp only
  rw [Cursor.advance_down, Cursor.rest_down]
  split
  · rw [Cursor.rest_down, Cursor.advance_down]
    rfl
  · rw [Cursor.advance_down, Cursor.skipBlanks_down, Cursor.rest_down]
    split <;> rfl

theorem readValue_down (key : Text) :
    readValue key (cursor.down lines) =
      (readValue key cursor).down (fun definition => definition.down lines) lines := by
  unfold readValue
  rw [Cursor.rest_down]
  split
  · exact readQuoted_down cursor lines key _
  · rw [readUnquoted, Cursor.skipWhile_down]
    rfl

theorem readDefinition_down :
    readDefinition (cursor.down lines) =
      (readDefinition cursor).down (fun definition => definition.down lines) lines := by
  rw [readDefinition, readExportedKey_down]
  apply Step.andThen_down
  intro key stop
  rw [readEquals_down]
  apply Step.andThen_down
  intro _ stop
  exact readValue_down stop lines key

theorem readLine_down :
    readLine (cursor.down lines) =
      ((readLine cursor).1.map (lowerLine lines), (readLine cursor).2.down lines) := by
  unfold readLine
  dsimp only
  rw [Cursor.skipBlanks_down, Cursor.rest_down]
  split
  · rw [Cursor.skipLine_down]
    rfl
  · rw [readDefinition_down]
    simp only [Step.down, Cursor.skipLine_down, Option.map_some]

/-- From a place further down the same lines are read. -/
theorem readLines_down :
    readLines (cursor.down lines) = (readLines cursor).map (lowerLine lines) := by
  fun_induction readLines cursor with
  | case1 cursor nonempty ih =>
      have nonempty' : (cursor.down lines).rest ≠ [] := nonempty
      rw [readLines, dif_pos nonempty', readLine_down, ih, List.map_append]
      cases (readLine cursor).1 <;> rfl
  | case2 cursor empty =>
      have empty' : ¬ (cursor.down lines).rest ≠ [] := empty
      rw [readLines, dif_neg empty']
      rfl

end Down
end Source

end EnvFile
