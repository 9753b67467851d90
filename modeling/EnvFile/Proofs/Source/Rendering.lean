import EnvFile.Proofs.Source.Canonical
import EnvFile.Proofs.Value.Seal

/-!
# Rendering

Any text can be written between double marks.  Dollars, backslashes and double marks get a backslash
in front, and a carriage return is written as an escape, as one in front of a newline would be lost.
What is written so makes a canonical line (`isPaired_encode`, `return_notMem_encode`), refers to
nothing and decodes to the text (`isInert_encode`, `decode_encode`).
-/

namespace EnvFile

namespace Value

/-- A double mark with a backslash in front, or a carriage return as an escape. -/
def escapeMark (c : Char) : Text :=
  if c = '"' then ['\\', '"'] else if c = '\r' then ['\\', 'r'] else [c]

/-- A text as it is written between double marks. -/
def encode (text : Text) : Text :=
  (protect text).flatMap escapeMark

theorem encode_nil : encode [] = [] := rfl

/-- A character is written as an escape that stands for it, or as it is. -/
theorem encode_cons (c : Char) (text : Text) :
    (∃ written, decodeEscape written = some c ∧
      encode (c :: text) = '\\' :: written :: encode text) ∨
    isPlain c = true ∧ c ≠ '"' ∧ c ≠ '\r' ∧ encode (c :: text) = c :: encode text := by
  have split : encode (c :: text) =
      ((if isPlain c then [c] else ['\\', c]).flatMap escapeMark) ++ encode text := by
    simp [encode, protect]
  by_cases plain : isPlain c = true
  · rw [if_pos plain, List.flatMap_singleton, escapeMark] at split
    by_cases mark : c = '"'
    · subst mark
      exact .inl ⟨'"', rfl, split⟩
    · by_cases carriage : c = '\r'
      · subst carriage
        exact .inl ⟨'r', rfl, split⟩
      · rw [if_neg mark, if_neg carriage] at split
        exact .inr ⟨plain, mark, carriage, split⟩
  · have special : c = '$' ∨ c = '\\' := by
      simp only [isPlain, Bool.and_eq_true, bne_iff_ne, not_and_or, not_not] at plain
      exact plain
    rw [if_neg plain] at split
    rcases special with rfl | rfl
    · exact .inl ⟨'$', rfl, split⟩
    · exact .inl ⟨'\\', rfl, split⟩

theorem ne_backslash_of_isPlain {c : Char} (plain : isPlain c = true) : c ≠ '\\' := by
  rintro rfl
  exact absurd plain (by decide)

theorem decode_encode (text : Text) : decode (encode text) = text := by
  induction text with
  | nil => rw [encode_nil, decode_nil]
  | cons c text ih =>
      rcases encode_cons c text with ⟨written, stands, encode_eq⟩ | ⟨plain, _, _, encode_eq⟩
      · rw [encode_eq, decode_escape, ih]
        simp [Token.decode, stands]
      · rw [encode_eq, decode_cons (ne_backslash_of_isPlain plain), ih]

theorem isInert_encode (text : Text) : IsInert (encode text) := by
  induction text with
  | nil => exact isInert_nil
  | cons c text ih =>
      rcases encode_cons c text with ⟨written, _, encode_eq⟩ | ⟨plain, _, _, encode_eq⟩
      · rw [encode_eq]
        exact (isInert_escape written).append ih
      · rw [encode_eq]
        have alone : ∀ d ∈ [c], isPlain d = true := by simpa using plain
        exact (isInert_of_plain alone).append ih

theorem isPaired_encode (text : Text) : Quote.IsPaired (encode text) := by
  induction text with
  | nil => exact .nil
  | cons c text ih =>
      rcases encode_cons c text with ⟨written, _, encode_eq⟩ | ⟨plain, not_mark, _, encode_eq⟩
      · rw [encode_eq]
        exact .pair written ih
      · rw [encode_eq]
        exact .single (ne_backslash_of_isPlain plain) not_mark ih

theorem return_notMem_encode (text : Text) : '\r' ∉ encode text := by
  induction text with
  | nil => simp [encode_nil]
  | cons c text ih =>
      rcases encode_cons c text with ⟨written, stands, encode_eq⟩ | ⟨_, _, solid, encode_eq⟩
      · have not_return : written ≠ '\r' := by
          rintro rfl
          simp [decodeEscape] at stands
        simp [encode_eq, ih, Ne.symm not_return]
      · simp [encode_eq, ih, Ne.symm solid]

end Value

namespace Source

open Value

/-- A text given to a key, on a line of its own. -/
def renderLine (key text : Text) : Text :=
  key ++ '=' :: '"' :: (encode text ++ ['"', '\n'])

/-- Texts given to keys, line by line. -/
def render (pairs : List (Text × Text)) : Text :=
  pairs.flatMap fun pair => renderLine pair.1 pair.2

/-- The definition that a rendered line holds, if it starts at the position. -/
def renderedDefinition (key text : Text) (position : Position) : Definition :=
  { key
    value := encode text
    quote := some .double
    position := position.after (key ++ ['=', '"']) }

/-- The definitions that rendered lines hold, from a position on. -/
def renderedDefinitions : Position → List (Text × Text) → List Definition
  | _, [] => []
  | position, (key, text) :: pairs =>
      renderedDefinition key text position ::
        renderedDefinitions (position.after (renderLine key text)) pairs

theorem render_renderedDefinition (key text : Text) (position : Position) :
    (renderedDefinition key text position).render = renderLine key text := by
  simp [renderedDefinition, renderLine, Definition.render, Definition.opening, Definition.marks,
    Quote.mark]

theorem renderAll_renderedDefinition (pairs : List (Text × Text)) :
    renderAll (pairs.map fun pair => renderedDefinition pair.1 pair.2 {}) = render pairs := by
  simp only [renderAll, List.flatMap_map, render_renderedDefinition]
  rfl

theorem place_renderedDefinition (position : Position) (pairs : List (Text × Text)) :
    place position (pairs.map fun pair => renderedDefinition pair.1 pair.2 {}) =
      renderedDefinitions position pairs := by
  induction pairs generalizing position with
  | nil => rfl
  | cons pair pairs ih => rw [List.map_cons, place, ih, render_renderedDefinition]; rfl

theorem definitions_render {pairs : List (Text × Text)} (named : ∀ pair ∈ pairs, IsName pair.1) :
    definitions (render pairs) = .ok (renderedDefinitions {} pairs) := by
  rw [← renderAll_renderedDefinition, ← place_renderedDefinition]
  apply definitions_renderAll
  · intro definition member
    obtain ⟨pair, listed, rfl⟩ := List.mem_map.mp member
    exact ⟨named pair listed, isPaired_encode pair.2⟩
  · intro definition member
    obtain ⟨pair, _, rfl⟩ := List.mem_map.mp member
    exact return_notMem_encode pair.2

theorem map_renderedDefinitions {α : Type} (f : Definition → α) (g : Text × Text → α)
    (same : ∀ key text position, f (renderedDefinition key text position) = g (key, text))
    (position : Position) (pairs : List (Text × Text)) :
    (renderedDefinitions position pairs).map f = pairs.map g := by
  induction pairs generalizing position with
  | nil => rfl
  | cons pair pairs ih => rw [renderedDefinitions, List.map_cons, List.map_cons, same, ih]

end Source
end EnvFile
