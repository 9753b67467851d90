import EnvFile.Proofs.Position.Shifting
import EnvFile.Proofs.Value.Lexing

/-!
# Places of occurrences

The occurrences of a value may be looked for as if the value stood alone: their places in the file
are the places that are found then, shifted to where the value starts
(`occurrences_eq_map_shift`).  Places tell occurrences apart and put them in the order in which they
are written (`position_lt_iff_start_lt`).  Both rest on the algebra of positions, which is summed up
in `translatesPlaces_shift`.
-/

namespace EnvFile
namespace Value

/-- The occurrence moved to where the value starts in the file. -/
def Occurrence.shift (origin : Position) (occurrence : Occurrence) : Occurrence :=
  { occurrence with position := origin.shift occurrence.position }

theorem occurrencesOf_shift (start : Nat) (origin position : Position) (tokens : List Token) :
    occurrencesOf start (origin.shift position) tokens =
      (occurrencesOf start position tokens).map (Occurrence.shift origin) := by
  induction tokens generalizing start position with
  | nil => rfl
  | cons token tokens ih =>
      rw [occurrencesOf_cons, occurrencesOf_cons, List.map_append, Position.after_shift, ih]
      cases token.meaning? <;> rfl

/-- Occurrences are found in the value alone and then shifted to where the value starts. -/
theorem occurrences_eq_map_shift (value : Text) (origin : Position) :
    occurrences value origin = (occurrences value {}).map (Occurrence.shift origin) := by
  rw [occurrences, occurrences, ← occurrencesOf_shift, Position.shift_zero]

theorem exists_front_of_mem {value : Text} {origin : Position} {occurrence : Occurrence}
    (member : occurrence ∈ occurrences value origin) :
    ∃ front : Text, front <+: value ∧ occurrence.start = front.utf8Length ∧
      occurrence.position = origin.after front := by
  obtain ⟨front, token, back, meaning, lex_eq, _, rfl⟩ := mem_occurrencesOf_iff.mp member
  have whole := flatMap_text_lex value
  rw [lex_eq, List.flatMap_append] at whole
  exact ⟨front.flatMap Token.text, ⟨_, whole⟩, Nat.zero_add _, rfl⟩

/-- Of two occurrences of a value the one with less of the value in front has the earlier place. -/
theorem position_lt_iff_start_lt {value : Text} {origin : Position} {first second : Occurrence}
    (is_first : first ∈ occurrences value origin)
    (is_second : second ∈ occurrences value origin) :
    first.position < second.position ↔ first.start < second.start := by
  obtain ⟨front, inValue, start_eq, position_eq⟩ := exists_front_of_mem is_first
  obtain ⟨front', inValue', start_eq', position_eq'⟩ := exists_front_of_mem is_second
  rw [start_eq, position_eq, start_eq', position_eq']
  rcases List.prefix_or_prefix_of_prefix inValue inValue' with ⟨between, rfl⟩ | ⟨between, rfl⟩
  · rw [Position.after_append, Position.lt_after_iff, Text.utf8Length_append,
      Nat.lt_add_right_iff_pos, Text.utf8Length_pos_iff]
  · rw [Position.after_append, Text.utf8Length_append]
    exact iff_of_false (Position.not_after_lt _ between) (Nat.not_lt.mpr (Nat.le_add_right _ _))

theorem pairwise_position_occurrences (value : Text) (origin : Position) :
    (occurrences value origin).Pairwise fun first later => first.position < later.position := by
  have apart := pairwise_occurrencesOf 0 origin (lex value)
  refine List.Pairwise.imp_of_mem (fun is_first is_later stops => ?_) apart
  have starts := Nat.lt_of_lt_of_le (start_lt_stop_of_mem is_first) stops
  exact (position_lt_iff_start_lt is_first is_later).mpr starts

/-- Positions that are counted from the start of a text are translated by shifting them to the place
where the text starts. -/
structure TranslatesPlaces (origin : Position) : Prop where
  /-- A walk over two texts is a walk over the second behind a walk over the first. -/
  after_append : ∀ front back : Text,
    origin.after (front ++ back) = (origin.after front).after back
  /-- A shifted walk from the start of a file is a walk from the origin. -/
  shift_after : ∀ text : Text, origin.shift (({} : Position).after text) = origin.after text
  /-- Shifts compose. -/
  shift_shift : ∀ relative further : Position,
    (origin.shift relative).shift further = origin.shift (relative.shift further)
  /-- The start of a file is shifted to the origin. -/
  shift_zero : origin.shift {} = origin
  /-- A shift to the start of a file changes nothing. -/
  zero_shift : ({} : Position).shift origin = origin
  /-- A walk over any text that is not empty leads to a later position. -/
  lt_after_iff : ∀ text : Text, origin < origin.after text ↔ text ≠ []
  /-- The comparison of positions finds the later one. -/
  compare_after_iff : ∀ text : Text, compare origin (origin.after text) = .lt ↔ text ≠ []
  /-- Shifting keeps the order of positions. -/
  shift_lt_shift_iff : ∀ first second : Position,
    origin.shift first < origin.shift second ↔ first < second
  /-- A walk adds at most its length to each coordinate. -/
  coordinates_after_le : ∀ text : Text,
    (origin.after text).line ≤ origin.line + text.length ∧
      (origin.after text).column ≤ origin.column + text.length
  /-- Occurrences are found in the value alone, and their places are shifted. -/
  occurrences_eq : ∀ value : Text,
    occurrences value origin = (occurrences value {}).map (Occurrence.shift origin)

/-- Relative positions are translated correctly, wherever the text starts. -/
theorem translatesPlaces_shift (origin : Position) : TranslatesPlaces origin where
  after_append := origin.after_append
  shift_after := origin.shift_after
  shift_shift := origin.shift_shift
  shift_zero := origin.shift_zero
  zero_shift := origin.zero_shift
  lt_after_iff := origin.lt_after_iff
  compare_after_iff text := by
    rw [Position.compare_eq_lt_iff, Position.lt_after_iff]
  shift_lt_shift_iff := origin.shift_lt_shift_iff
  coordinates_after_le := origin.coordinates_after_le
  occurrences_eq value := occurrences_eq_map_shift value origin

/-- On the first line of a value the columns are shifted, and on the next one they are not. -/
example : (occurrences "a ${X}\n  $Y".toList ⟨4, 8⟩).map Occurrence.position =
    [⟨4, 10⟩, ⟨5, 2⟩] := by decide +kernel

end Value
end EnvFile
