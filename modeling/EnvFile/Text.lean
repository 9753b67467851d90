/-!
# Text

Sources, keys and values are lists of Unicode scalars.  This file holds the character classes of
the file format, all of them ASCII, the trimming of blanks, and the size and the order of texts.
-/

namespace EnvFile

/-- A text is the list of its Unicode scalars. -/
abbrev Text := List Char

/-- Blanks are the space, the tab and the carriage return; a newline is not one. -/
def isBlank (c : Char) : Bool :=
  c == ' ' || c == '\t' || c == '\r'

/-- A key or a referenced name starts with an ASCII letter or an underscore. -/
def isNameStart (c : Char) : Bool :=
  c.isAlpha || c == '_'

/-- Characters of a name referenced without braces: ASCII letters, digits and underscores. -/
def isWordChar (c : Char) : Bool :=
  c.isAlphanum || c == '_'

/-- Characters of a key, or of a name referenced in braces: word characters and dots. -/
def isNameChar (c : Char) : Bool :=
  isWordChar c || c == '.'

namespace Text

/-- Number of bytes that a text takes in UTF-8. -/
def utf8Length : Text → Nat
  | [] => 0
  | head :: tail => head.utf8Size + utf8Length tail

/-- Whether a text comes before another or equals it, scalar by scalar.  The bytes of the texts in
UTF-8 are in the same order. -/
def precedes : Text → Text → Bool
  | [], _ => true
  | _ :: _, [] => false
  | first :: rest, other :: others =>
      first.toNat < other.toNat || first == other && precedes rest others

/-- Drop the blanks at the end of a text. -/
def trimEnd : Text → Text
  | [] => []
  | head :: tail =>
      let kept := trimEnd tail
      if kept = [] ∧ isBlank head then [] else head :: kept

@[simp]
theorem utf8Length_nil : utf8Length [] = 0 := rfl

@[simp]
theorem utf8Length_cons (head : Char) (tail : Text) :
    utf8Length (head :: tail) = head.utf8Size + utf8Length tail := rfl

@[simp]
theorem utf8Length_append (front back : Text) :
    utf8Length (front ++ back) = utf8Length front + utf8Length back := by
  induction front with
  | nil => simp
  | cons head tail ih => rw [List.cons_append, utf8Length_cons, utf8Length_cons, ih, Nat.add_assoc]

theorem utf8Length_pos_iff {text : Text} : 0 < utf8Length text ↔ text ≠ [] := by
  cases text with
  | nil => simp
  | cons head tail =>
      have head_pos := head.utf8Size_pos
      simp only [utf8Length_cons, ne_eq, List.cons_ne_nil, not_false_eq_true, iff_true]
      omega

theorem exists_trimEnd_append (text : Text) :
    ∃ blanks : Text, text = trimEnd text ++ blanks ∧ ∀ c ∈ blanks, isBlank c = true := by
  induction text with
  | nil => exact ⟨[], rfl, by simp⟩
  | cons head tail ih =>
      obtain ⟨blanks, split, all_blank⟩ := ih
      by_cases drop : trimEnd tail = [] ∧ isBlank head = true
      · refine ⟨head :: tail, by simp [trimEnd, drop], ?_⟩
        rw [drop.1, List.nil_append] at split
        intro c member
        rcases List.mem_cons.mp member with rfl | member
        · exact drop.2
        · exact all_blank c (split ▸ member)
      · refine ⟨blanks, ?_, all_blank⟩
        simp only [trimEnd, drop, ↓reduceIte, List.cons_append]
        rw [← split]

end Text
end EnvFile
