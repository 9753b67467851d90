import EnvFile.Proofs.Value.Decoding
import EnvFile.Proofs.Value.Lexing
import Mathlib.Algebra.Group.Nat.Even
import Mathlib.Data.List.DropRight

/-!
# Where references and escapes are found

A dollar or a backslash starts a token exactly if the number of backslashes right in front of it is
even.  So whether a reference or an escape is found at a place of a value depends on that number and
on the text from there on, and on nothing else in front (`foundByParity_occurrences`).
-/

namespace EnvFile

/-- Texts that put together the same text and take the same number of bytes in front are equal. -/
theorem Text.append_inj_of_utf8Length {front back front' back' : Text}
    (same : front ++ back = front' ++ back')
    (length_eq : utf8Length front = utf8Length front') : front = front' ∧ back = back' := by
  induction front generalizing front' with
  | nil =>
      cases front' with
      | nil => exact ⟨rfl, same⟩
      | cons head tail =>
          have head_pos := head.utf8Size_pos
          simp only [utf8Length_nil, utf8Length_cons] at length_eq
          omega
  | cons head tail ih =>
      cases front' with
      | nil =>
          have head_pos := head.utf8Size_pos
          simp only [utf8Length_nil, utf8Length_cons] at length_eq
          omega
      | cons head' tail' =>
          rw [List.cons_append, List.cons_append] at same
          obtain ⟨rfl, tail_eq⟩ := List.cons.inj same
          simp only [utf8Length_cons, Nat.add_left_cancel_iff] at length_eq
          obtain ⟨rfl, rfl⟩ := ih tail_eq length_eq
          exact ⟨rfl, rfl⟩

namespace Value

/-- Number of backslashes that a text ends in. -/
def trailingBackslashes (text : Text) : Nat :=
  (text.rtakeWhile fun c => c = '\\').length

theorem trailingBackslashes_concat (text : Text) (c : Char) :
    trailingBackslashes (text ++ [c]) = if c = '\\' then trailingBackslashes text + 1 else 0 := by
  unfold trailingBackslashes
  rw [List.rtakeWhile_concat]
  by_cases same : c = '\\' <;> simp [same]

theorem trailingBackslashes_of_notMem {text : Text} (absent : '\\' ∉ text) :
    trailingBackslashes text = 0 := by
  unfold trailingBackslashes
  rw [List.length_eq_zero_iff, List.rtakeWhile_eq_nil_iff]
  intro nonempty is_last
  have last_eq : text.getLast nonempty = '\\' := by simpa using is_last
  exact absent (last_eq ▸ List.getLast_mem nonempty)

/-- A text that ends in an even number of backslashes does not change the parity behind it. -/
theorem even_trailingBackslashes_append_iff {front : Text} (even : Even (trailingBackslashes front))
    (back : Text) :
    Even (trailingBackslashes (front ++ back)) ↔ Even (trailingBackslashes back) := by
  induction back using List.reverseRecOn with
  | nil => simpa [trailingBackslashes] using even
  | append_singleton back c ih =>
      rw [← List.append_assoc, trailingBackslashes_concat, trailingBackslashes_concat]
      by_cases same : c = '\\'
      · rw [if_pos same, if_pos same, Nat.even_add_one, Nat.even_add_one, ih]
      · rw [if_neg same, if_neg same]

/-- Only a lone backslash ends in an odd number of backslashes. -/
theorem Token.Leads.even_trailingBackslashes {token : Token} {rest : Text}
    (leads : token.Leads rest) (not_backslash : token ≠ .backslash) :
    Even (trailingBackslashes token.text) := by
  have even_of_notMem : '\\' ∉ token.text → Even (trailingBackslashes token.text) := by
    intro absent
    rw [trailingBackslashes_of_notMem absent]
    exact Even.zero
  cases token with
  | escape c =>
      have text_eq : (Token.escape c).text = ['\\'] ++ [c] := rfl
      rw [text_eq, trailingBackslashes_concat]
      split
      · decide
      · exact Even.zero
  | plain run =>
      apply even_of_notMem
      intro member
      exact absurd (leads.2.1 _ member) (by decide)
  | backslash => exact absurd rfl not_backslash
  | _ => exact even_of_notMem (notMem_text_of_fits (leads.fits (by simp)) (by simp) (by simp))

theorem backslash_mem_lex_iff (text : Text) :
    .backslash ∈ lex text ↔ ¬ Even (trailingBackslashes text) := by
  generalize cut : lex text = tokens
  induction tokens generalizing text with
  | nil =>
      obtain ⟨rfl, _⟩ := lex_eq_iff.mp cut
      simp [trailingBackslashes]
  | cons token tokens ih =>
      obtain ⟨rest, rfl, rest_cut, leads⟩ := exists_of_lex_eq_cons cut
      by_cases is_backslash : token = .backslash
      · subst is_backslash
        obtain rfl : rest = [] := leads
        exact iff_of_true List.mem_cons_self (by decide)
      · have even := leads.even_trailingBackslashes is_backslash
        rw [even_trailingBackslashes_append_iff even, ← ih rest rest_cut, List.mem_cons,
          or_iff_right fun same => is_backslash same.symm]

/-- The text opens with a name in braces, with a name right behind a dollar, which is as long as
possible, or with a known escape. -/
inductive Opens : Text → Meaning → Prop
  | braced {name : Text} (named : IsName name) (rest : Text) :
      Opens ('$' :: '{' :: (name ++ '}' :: rest)) (.reference name)
  | bare {name rest : Text} (word : IsWord name) (ends : ∀ c ∈ rest.head?, isWordChar c = false) :
      Opens ('$' :: (name ++ rest)) (.reference name)
  | escape {c decoded : Char} (known : decodeEscape c = some decoded) (rest : Text) :
      Opens ('\\' :: c :: rest) (.escape decoded)

/-- A text opens with what the token in front means. -/
theorem opens_iff {text : Text} {meaning : Meaning} :
    Opens text meaning ↔
      ∃ (token : Token) (rest : Text), text = token.text ++ rest ∧ token.Leads rest ∧
        token.meaning? = some meaning := by
  constructor
  · intro opens
    cases opens with
    | @braced name named rest =>
        exact ⟨.braced name, rest, by simp [Token.text], named, rfl⟩
    | @bare name rest word ends => exact ⟨.bare name, rest, rfl, ⟨word, ends⟩, rfl⟩
    | @escape c decoded known rest =>
        exact ⟨.escape c, rest, rfl, trivial, by simp [Token.meaning?, known]⟩
  · rintro ⟨token, rest, rfl, leads, means⟩
    cases token with
    | braced name =>
        obtain rfl := Option.some.inj means
        have opens := Opens.braced leads rest
        simpa [Token.text] using opens
    | bare name =>
        obtain rfl := Option.some.inj means
        exact .bare leads.1 leads.2
    | escape c =>
        obtain ⟨decoded, known, rfl⟩ := Option.map_eq_some_iff.mp means
        exact .escape known rest
    | _ => simp [Token.meaning?] at means

theorem Opens.exists_special {text : Text} {meaning : Meaning} (opens : Opens text meaning) :
    ∃ c rest, text = c :: rest ∧ isPlain c = false := by
  cases opens with
  | braced _ _ => exact ⟨_, _, rfl, rfl⟩
  | bare _ _ => exact ⟨_, _, rfl, rfl⟩
  | escape _ _ => exact ⟨_, _, rfl, rfl⟩

/-- An occurrence is found behind a text exactly if the text ends in an even number of backslashes
and what follows opens with it. -/
theorem exists_occurrence_iff (front back : Text) (origin : Position) (meaning : Meaning) :
    (∃ occurrence ∈ occurrences (front ++ back) origin,
        occurrence.start = front.utf8Length ∧ occurrence.meaning = meaning) ↔
      Even (trailingBackslashes front) ∧ Opens back meaning := by
  constructor
  · rintro ⟨_, member, start_eq, rfl⟩
    obtain ⟨before, token, behind, meaning, cut, means, rfl⟩ := mem_occurrencesOf_iff.mp member
    have whole := isCut_lex (front ++ back)
    rw [cut] at whole
    -- the tokens in front make up the text in front, as they take the same number of bytes
    have split : before.flatMap Token.text ++ (token.text ++ behind.flatMap Token.text) =
        front ++ back := by
      rw [← flatMap_text_lex (front ++ back), cut, List.flatMap_append, List.flatMap_cons]
    have bytes_eq : Text.utf8Length (before.flatMap Token.text) = front.utf8Length := by
      simpa [Token.occurrence] using start_eq
    obtain ⟨rfl, rfl⟩ := Text.append_inj_of_utf8Length split bytes_eq
    constructor
    · have paired := whole.backslash_notMem
      rw [← whole.of_append.1.lex_flatMap_text, backslash_mem_lex_iff, not_not] at paired
      exact paired
    · exact opens_iff.mpr ⟨token, _, rfl, whole.of_append.2.1, means⟩
  · rintro ⟨even, opens⟩
    have paired : .backslash ∉ lex front := by
      rw [backslash_mem_lex_iff, not_not]
      exact even
    obtain ⟨c, tail, back_eq, special⟩ := opens.exists_special
    have cut := lex_append_special paired special tail
    obtain ⟨token, rest, text_eq, leads, means⟩ := opens_iff.mp opens
    rw [← back_eq, text_eq, lex_text_append leads] at cut
    rw [text_eq]
    refine ⟨_, mem_occurrencesOf_iff.mpr ⟨_, _, _, _, cut, means, rfl⟩, ?_, rfl⟩
    simp [Token.occurrence, flatMap_text_lex]

/-- What is found in a value is told, character by character, by the backslashes in front of the
place and by the text from there on. -/
structure FoundByParity (value : Text) (found : List Occurrence) : Prop where
  /-- The number of backslashes decides, and then what the rest opens with. -/
  exists_iff : ∀ (index : Nat) (meaning : Meaning),
    (∃ occurrence ∈ found,
        occurrence.start = Text.utf8Length (value.take index) ∧ occurrence.meaning = meaning) ↔
      Even (trailingBackslashes (value.take index)) ∧ Opens (value.drop index) meaning
  /-- Nothing is found inside a character. -/
  exists_index : ∀ occurrence ∈ found,
    ∃ index, occurrence.start = Text.utf8Length (value.take index)
  /-- Nothing is found twice. -/
  increasing : found.Pairwise fun first later => first.start < later.start

/-- References and escapes are found exactly where an even number of backslashes stands in front. -/
theorem foundByParity_occurrences (value : Text) (origin : Position) :
    FoundByParity value (occurrences value origin) where
  exists_iff index meaning := by
    have split := exists_occurrence_iff (value.take index) (value.drop index) origin meaning
    rwa [List.take_append_drop] at split
  exists_index occurrence member := by
    obtain ⟨before, token, behind, meaning, cut, _, rfl⟩ := mem_occurrencesOf_iff.mp member
    refine ⟨(before.flatMap Token.text).length, ?_⟩
    have split := flatMap_text_lex value
    rw [cut, List.flatMap_append] at split
    rw [← split, List.take_left]
    exact Nat.zero_add _
  increasing := by
    have apart := pairwise_occurrencesOf 0 origin (lex value)
    refine List.Pairwise.imp_of_mem (fun member _ stops => ?_) apart
    exact Nat.lt_of_lt_of_le (start_lt_stop_of_mem member) stops

/-- An escaped backslash hides nothing, and an escaped dollar hides its reference. -/
example : (occurrences "\\\\$A\\${B}".toList {}).map Occurrence.meaning =
    [.escape '\\', .reference ['A'], .escape '$'] := by decide +kernel

end Value
end EnvFile
