import EnvFile.Proofs.Position.Shifting
import EnvFile.Proofs.Source.Grammar
import EnvFile.Proofs.Value.Lexing

/-!
# Coordinates

The value of a definition need not be a piece of the source, as carriage returns before newlines
are dropped from it.  It collapses from such a piece (`Collapses`), and whatever stands in it on one
line stands in the piece as well, at the same line and column (`Collapses.exists_front`).  So the
positions of occurrences, which are counted along the value and shifted to its place, are positions
in the source (`Source.occurrences_stand_in_source`).
-/

namespace EnvFile

open Value

/-- A value comes from a raw text by dropping carriage returns in front of newlines. -/
inductive Collapses : Text → Text → Prop
  | nil : Collapses [] []
  | keep (c : Char) {raw value : Text} : Collapses raw value → Collapses (c :: raw) (c :: value)
  | drop {raw value : Text} :
      Collapses raw value → Collapses ('\r' :: '\n' :: raw) ('\n' :: value)

namespace Collapses

theorem refl (text : Text) : Collapses text text := by
  induction text with
  | nil => exact .nil
  | cons head tail ih => exact .keep head ih

theorem isPrefix {raw value text : Text} (collapses : Collapses raw value)
    (inValue : text <+: value) (on_line : '\n' ∉ text) : text <+: raw := by
  induction collapses generalizing text with
  | nil => exact inValue
  | keep c _ ih =>
      cases text with
      | nil => exact List.nil_prefix
      | cons head tail =>
          obtain ⟨rfl, inRest⟩ := List.cons_prefix_cons.mp inValue
          exact List.cons_prefix_cons.mpr ⟨rfl, ih inRest (List.not_mem_of_not_mem_cons on_line)⟩
  | drop _ _ =>
      cases text with
      | nil => exact List.nil_prefix
      | cons head tail =>
          obtain ⟨rfl, _⟩ := List.cons_prefix_cons.mp inValue
          exact absurd List.mem_cons_self on_line

/-- What stands on one line of the value stands in the raw text at the same place. -/
theorem exists_front {raw value front text : Text} (collapses : Collapses raw value)
    (inValue : front ++ text <+: value) (nonempty : text ≠ []) (on_line : '\n' ∉ text) :
    ∃ passed, passed ++ text <+: raw ∧
      ∀ position : Position, position.after passed = position.after front := by
  induction collapses generalizing front with
  | nil =>
      obtain ⟨_, rfl⟩ := List.append_eq_nil_iff.mp (List.prefix_nil.mp inValue)
      exact absurd rfl nonempty
  | keep c rest ih =>
      cases front with
      | nil => exact ⟨[], (rest.keep c).isPrefix inValue on_line, fun _ => rfl⟩
      | cons head front =>
          obtain ⟨rfl, inRest⟩ := List.cons_prefix_cons.mp inValue
          obtain ⟨passed, inRaw, same⟩ := ih inRest
          exact ⟨head :: passed, List.cons_prefix_cons.mpr ⟨rfl, inRaw⟩,
            fun position => same (position.step head)⟩
  | drop rest ih =>
      cases front with
      | nil =>
          -- The text would have to start with the newline.
          cases text with
          | nil => exact absurd rfl nonempty
          | cons head tail =>
              obtain ⟨rfl, _⟩ := List.cons_prefix_cons.mp inValue
              exact absurd List.mem_cons_self on_line
      | cons head front =>
          obtain ⟨rfl, inRest⟩ := List.cons_prefix_cons.mp inValue
          obtain ⟨passed, inRaw, same⟩ := ih inRest
          refine ⟨'\r' :: '\n' :: passed, ?_, fun position => ?_⟩
          · exact List.cons_prefix_cons.mpr ⟨rfl, List.cons_prefix_cons.mpr ⟨rfl, inRaw⟩⟩
          · rw [Position.after_cons, Position.after_cons, Position.after_cons, same]
            rfl

end Collapses

theorem Quote.collapses_content (quote : Quote) (body : Text) :
    Collapses body (quote.content body) := by
  fun_induction quote.content body with
  | case1 => exact .nil
  | case2 c rest _ ih => exact .keep '\\' (.keep c ih)
  | case3 c rest _ ih => exact .keep '\\' ih
  | case4 rest ih => exact .drop ih
  | case5 head tail _ _ ih => exact .keep head ih

theorem StandsIn.exists_collapses {quote : Option Quote} {value text : Text}
    (stands : StandsIn quote value text) : ∃ raw, raw <+: text ∧ Collapses raw value := by
  cases stands with
  | unquoted _ _ =>
      exact ⟨_, (Unquoted.isPrefix_value _).trans (List.takeWhile_prefix _), .refl _⟩
  | quoted closed =>
      obtain ⟨behind, split⟩ := Quote.append_of_body? closed
      exact ⟨_, ⟨_, split.symm⟩, Quote.collapses_content _ _⟩

namespace Value

theorem newline_notMem_of_isNameChar {name : Text} (inside : ∀ c ∈ name, isNameChar c = true) :
    '\n' ∉ name := fun member => absurd (inside '\n' member) (by decide)

/-- References and known escapes are written on one line. -/
theorem newline_notMem_of_mem_lex {value : Text} {token : Token} (member : token ∈ lex value)
    (means : token.meaning?.isSome = true) : token.text ≠ [] ∧ '\n' ∉ token.text := by
  obtain ⟨rest, leads⟩ := exists_leads_of_mem_lex member
  cases token with
  | braced name =>
      have inside := newline_notMem_of_isNameChar fun c => isNameChar_of_mem (c := c) leads
      simp [Token.text, inside]
  | bare name =>
      have inside := newline_notMem_of_isNameChar fun c member =>
        isNameChar_of_isWordChar (isWordChar_of_mem leads.1 member)
      simp [Token.text, inside]
  | escape c =>
      have not_newline : c ≠ '\n' := by
        rintro rfl
        exact absurd means (by decide)
      simp [Token.text, Ne.symm not_newline]
  | plain run => simp [Token.meaning?] at means
  | dollar => simp [Token.meaning?] at means
  | backslash => simp [Token.meaning?] at means
  | unclosed name => simp [Token.meaning?] at means

theorem exists_front_of_mem_occurrences {value : Text} {origin : Position}
    {occurrence : Occurrence} (member : occurrence ∈ occurrences value origin) :
    ∃ front, front ++ occurrence.text <+: value ∧ occurrence.text ≠ [] ∧
      '\n' ∉ occurrence.text ∧ occurrence.position = origin.after front := by
  obtain ⟨front, token, back, meaning, lex_eq, means, rfl⟩ := mem_occurrencesOf_iff.mp member
  have in_lex : token ∈ lex value := by simp [lex_eq]
  have whole := flatMap_text_lex value
  rw [lex_eq, List.flatMap_append, List.flatMap_cons, ← List.append_assoc] at whole
  obtain ⟨nonempty, on_line⟩ := newline_notMem_of_mem_lex in_lex (by simp [means])
  exact ⟨front.flatMap Token.text, ⟨_, whole⟩, nonempty, on_line, rfl⟩

end Value

namespace Source

theorem position_start (source : Text) : (Cursor.start source).position = {} := by
  unfold Cursor.start
  split <;> rfl

/-- Each occurrence in the value of a definition stands in the source, at the position that is
reported for it: the place in the value, shifted to where the value starts.  A byte order mark in
front is not part of the source. -/
theorem occurrences_stand_in_source {source : Text} {definitions : List Definition}
    (scans : Source.definitions source = .ok definitions) {definition : Definition}
    (member : definition ∈ definitions) {occurrence : Occurrence}
    (occurs : occurrence ∈ occurrences definition.value definition.position) :
    (∃ front, front ++ occurrence.text <+: definition.value ∧
      occurrence.position = definition.position.shift (({} : Position).after front)) ∧
    ∃ index, ({} : Position).after ((Cursor.start source).rest.take index) = occurrence.position ∧
      occurrence.text <+: (Cursor.start source).rest.drop index := by
  obtain ⟨_, there, reaches, there_eq, stands⟩ :=
    exists_standsIn_of_mem_readLines (mem_readLines_of_mem scans member)
  obtain ⟨opening, rest_eq, position_eq⟩ := reaches
  obtain ⟨raw, inRest, collapses⟩ := stands.exists_collapses
  obtain ⟨front, inValue, nonempty, on_line, occurs_at⟩ := exists_front_of_mem_occurrences occurs
  obtain ⟨passed, inRaw, same⟩ := collapses.exists_front inValue nonempty on_line
  obtain ⟨behind, split⟩ := inRaw.trans inRest
  have source_eq : (Cursor.start source).rest =
      (opening ++ passed) ++ (occurrence.text ++ behind) := by
    rw [rest_eq, ← split, List.append_assoc, List.append_assoc]
  refine ⟨⟨front, inValue, by rw [Position.shift_after, occurs_at]⟩,
    (opening ++ passed).length, ?_, ?_⟩
  · rw [source_eq, List.take_left, Position.after_append, same, occurs_at, ← there_eq, position_eq,
      position_start]
  · rw [source_eq, List.drop_left]
    exact List.prefix_append _ _

/-- A source with a byte order mark and a comment in front of a value over several lines, which end
with carriage returns. -/
def returningSource : Text :=
  "\uFEFF# ü\r\nA = \"é\r\n\\\r\\n ${B}\" # c\r\n".toList

/-- The definition of `returningSource`. -/
def returningDefinition : Definition :=
  { key := ['A'], value := "é\n\\\r\\n ${B}".toList, quote := some .double, position := ⟨1, 5⟩ }

/-- The reference behind two line ends stands where it is reported. -/
theorem occurrence_stands_in_returningSource :
    Source.definitions returningSource = .ok [returningDefinition] ∧
      ∃ index,
        ({} : Position).after ((Cursor.start returningSource).rest.take index) = ⟨2, 5⟩ ∧
        "${B}".toList <+: (Cursor.start returningSource).rest.drop index := by
  have scans : Source.definitions returningSource = .ok [returningDefinition] := by decide +kernel
  have occurs : (⟨.reference ['B'], "${B}".toList, 8, 12, ⟨2, 5⟩⟩ : Occurrence) ∈
      occurrences returningDefinition.value returningDefinition.position := by decide +kernel
  exact ⟨scans, (occurrences_stand_in_source scans List.mem_cons_self occurs).2⟩

end Source
end EnvFile
