import EnvFile.Position

/-!
# Shifted positions

A position in a value is counted from the start of the value and then shifted to the place where
the value starts.  Shifts compose (`shift_shift`) and keep the order of positions
(`shift_lt_shift_iff`), and it makes no difference whether a walk over a text is shifted at its
start or at its end (`after_shift`).  Each character of a walk leads to a later position
(`lt_after_iff`) and adds at most one to a coordinate (`coordinates_after_le`).
-/

namespace EnvFile
namespace Position

theorem shift_first (origin : Position) (column : Nat) :
    origin.shift ⟨0, column⟩ = ⟨origin.line, origin.column + column⟩ := rfl

theorem shift_later (origin : Position) (line column : Nat) :
    origin.shift ⟨line + 1, column⟩ = ⟨origin.line + (line + 1), column⟩ := rfl

theorem shift_zero (origin : Position) : origin.shift {} = origin := rfl

theorem zero_shift (relative : Position) : ({} : Position).shift relative = relative := by
  rcases relative with ⟨_ | line, column⟩
  · rw [shift_first, Nat.zero_add]
  · rw [shift_later, Nat.zero_add]

theorem line_shift (origin relative : Position) :
    (origin.shift relative).line = origin.line + relative.line := by
  rcases relative with ⟨_ | line, column⟩ <;> rfl

/-- Shifting by a shifted position is shifting twice. -/
theorem shift_shift (origin relative further : Position) :
    (origin.shift relative).shift further = origin.shift (relative.shift further) := by
  rcases further with ⟨_ | line, column⟩
  · rcases relative with ⟨_ | line', column'⟩
    · rw [shift_first, shift_first, shift_first, shift_first, Nat.add_assoc]
    · rfl
  · rw [shift_later, shift_later, line_shift, Nat.add_assoc, ← Nat.add_assoc relative.line,
      shift_later]

theorem step_shift (origin relative : Position) (c : Char) :
    (origin.shift relative).step c = origin.shift (relative.step c) := by
  by_cases newline : c = '\n'
  · simp only [step, newline, ↓reduceIte, line_shift, shift_later, Nat.add_assoc]
  · rcases relative with ⟨_ | line, column⟩
    · simp only [step, newline, ↓reduceIte, shift_first, Nat.add_assoc]
    · simp only [step, newline, ↓reduceIte, shift_later]

/-- A walk from a shifted position is a shifted walk. -/
theorem after_shift (origin relative : Position) (text : Text) :
    (origin.shift relative).after text = origin.shift (relative.after text) := by
  induction text generalizing relative with
  | nil => rfl
  | cons head tail ih => rw [after_cons, step_shift, ih, after_cons]

theorem shift_after (origin : Position) (text : Text) :
    origin.shift (({} : Position).after text) = origin.after text := by
  rw [← after_shift, shift_zero]

/-- No coordinate grows by more than the number of characters that are walked over. -/
theorem coordinates_after_le (origin : Position) (text : Text) :
    (origin.after text).line ≤ origin.line + text.length ∧
      (origin.after text).column ≤ origin.column + text.length := by
  induction text generalizing origin with
  | nil => exact ⟨Nat.le_refl _, Nat.le_refl _⟩
  | cons head tail ih =>
      have first : (origin.step head).line ≤ origin.line + 1 ∧
          (origin.step head).column ≤ origin.column + 1 := by
        rw [step]
        split <;> simp
      have later := ih (origin.step head)
      rw [after_cons, List.length_cons]
      omega

theorem not_lt_self (position : Position) : ¬ position < position := by
  rw [lt_def]
  omega

theorem lt_trans {first second third : Position} (front : first < second)
    (back : second < third) : first < third := by
  rw [lt_def] at front back ⊢
  omega

/-- Shifting keeps positions in their order. -/
theorem shift_lt_shift_iff (origin first second : Position) :
    origin.shift first < origin.shift second ↔ first < second := by
  rcases first with ⟨_ | line, column⟩ <;> rcases second with ⟨_ | line', column'⟩ <;>
    simp only [shift_first, shift_later, lt_def, true_and] <;> omega

theorem lt_step (position : Position) (c : Char) : position < position.step c := by
  rw [step]
  split
  · exact .inl (Nat.lt_succ_self position.line)
  · exact .inr ⟨rfl, Nat.lt_succ_self position.column⟩

/-- A walk leads to a later position if there is anything to walk over. -/
theorem lt_after_iff (origin : Position) (text : Text) :
    origin < origin.after text ↔ text ≠ [] := by
  constructor
  · rintro later rfl
    exact not_lt_self origin later
  · intro nonempty
    obtain ⟨head, tail, rfl⟩ := List.exists_cons_of_ne_nil nonempty
    clear nonempty
    induction tail generalizing origin head with
    | nil => exact origin.lt_step head
    | cons next tail ih => exact lt_trans (origin.lt_step head) (ih (origin.step head) next)

theorem not_after_lt (origin : Position) (text : Text) : ¬ origin.after text < origin := by
  intro earlier
  cases text with
  | nil => exact not_lt_self origin earlier
  | cons head tail =>
      have later := (origin.lt_after_iff (head :: tail)).mpr (List.cons_ne_nil head tail)
      exact not_lt_self origin (lt_trans later earlier)

end Position
end EnvFile
