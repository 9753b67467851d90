import EnvFile.Proofs.Value.Grain
import Mathlib.Data.List.Basic

/-!
# Decoding

Decoding a value depends on its backslashes alone: each pairs with the character behind it, and all
else stands for itself.  A text whose backslashes are all paired is closed: what stands behind it is
decoded on its own.  Protected and shielded texts are closed, and decoding undoes both in front of
any text (`decode_protect_append`, `decode_shield_append`).
-/

namespace EnvFile
namespace Value

/-- The names that a value refers to, from left to right. -/
def names (value : Text) : List Text :=
  (lex value).filterMap Token.reference?

/-- What a token stands for if each name stands for a text. -/
def Token.fill (means : Text → Text) (token : Token) : Text :=
  match token.reference? with
  | none => token.decode
  | some name => means name

/-- The value with a text for each reference and its escapes decoded. -/
def fill (means : Text → Text) (value : Text) : Text :=
  (lex value).flatMap (Token.fill means)

section Grains

variable {α : Type}

theorem flatMap_grains (f : Token → List α)
    (by_char : ∀ text, f (.plain text) = text.flatMap fun c => f (.plain [c])) (text : Text) :
    (grains text).flatMap f = (lex text).flatMap f := by
  have by_token : ∀ token : Token, token.grains.flatMap f = f token := by
    intro token
    cases token with
    | plain text => rw [by_char, Token.grains, List.flatMap_map]
    | _ => simp [Token.grains]
  simp only [grains, List.flatMap_assoc, by_token]

theorem flatMap_text_grains (text : Text) : (grains text).flatMap Token.text = text := by
  rw [flatMap_grains Token.text (by simp [Token.text]), flatMap_text_lex]

theorem flatMap_decode_grains (text : Text) :
    (grains text).flatMap Token.decode = decode text :=
  flatMap_grains Token.decode (by simp [Token.decode, Token.text]) text

theorem flatMap_shield_grains (text : Text) :
    (grains text).flatMap Token.shield = shield text :=
  flatMap_grains Token.shield (by simp [Token.shield, Token.text]) text

theorem flatMap_fill_grains (means : Text → Text) (text : Text) :
    (grains text).flatMap (Token.fill means) = fill means text :=
  flatMap_grains (Token.fill means)
    (by simp [Token.fill, Token.reference?, Token.decode, Token.text]) text

theorem filterMap_reference?_grains (text : Text) :
    (grains text).filterMap Token.reference? = names text := by
  rw [grains, names]
  induction lex text with
  | nil => rfl
  | cons token tokens ih =>
      rw [List.flatMap_cons, List.filterMap_append, ih]
      cases token <;> simp [Token.grains, Token.reference?, List.filterMap_cons]

theorem mem_names_iff (value name : Text) :
    name ∈ names value ↔ ∃ token ∈ lex value, token.reference? = some name := by
  rw [names, List.mem_filterMap]

theorem mem_names_of_mem_grains {value name : Text} {token : Token}
    (member : token ∈ grains value) (named : token.reference? = some name) :
    name ∈ names value := by
  rw [← filterMap_reference?_grains]
  exact List.mem_filterMap.mpr ⟨token, member, named⟩

theorem isName_of_mem_names {value name : Text} (member : name ∈ names value) : IsName name := by
  rw [← filterMap_reference?_grains, List.mem_filterMap] at member
  obtain ⟨token, member, named⟩ := member
  obtain ⟨rest, fits⟩ := exists_fits_of_mem_grains value token member
  cases token with
  | braced other =>
      obtain rfl : other = name := Option.some.inj named
      exact fits
  | bare other =>
      obtain rfl : other = name := Option.some.inj named
      obtain ⟨⟨head, tail, rfl, start, inWord⟩, _⟩ := fits
      exact ⟨head, tail, rfl, start, fun c member => isNameChar_of_isWordChar (inWord c member)⟩
  | _ => exact nomatch named

theorem fill_congr {means other : Text → Text} {value : Text}
    (same : ∀ name ∈ names value, means name = other name) :
    fill means value = fill other value := by
  apply List.flatMap_congr
  intro token member
  cases named : token.reference? with
  | none => simp [Token.fill, named]
  | some name =>
      have mentioned := (mem_names_iff value name).mpr ⟨token, member, named⟩
      simp [Token.fill, named, same name mentioned]

theorem fill_of_names_eq_nil {means : Text → Text} {value : Text} (unnamed : names value = []) :
    fill means value = decode value := by
  apply List.flatMap_congr
  intro token member
  have no_reference := List.filterMap_eq_nil_iff.mp unnamed token member
  simp [Token.fill, no_reference]

end Grains

@[simp]
theorem decode_nil : decode [] = [] := by
  simp [← flatMap_decode_grains]

theorem decode_text_append {token : Token} {rest : Text} (fits : token.Fits rest) :
    decode (token.text ++ rest) = token.decode ++ decode rest := by
  rw [← flatMap_decode_grains, grains_text_append fits, List.flatMap_cons, flatMap_decode_grains]

private theorem decode_append_of_plain {front : Text} (plain : ∀ c ∈ front, isPlain c = true)
    (rest : Text) : decode (front ++ rest) = front ++ decode rest := by
  rw [← flatMap_decode_grains, grains_append_plain plain, List.flatMap_append,
    flatMap_decode_grains, List.flatMap_map]
  simp [Token.decode, Token.text]

private theorem decode_dollar (text : Text) : decode ('$' :: text) = '$' :: decode text := by
  obtain ⟨taken, rest, text_eq, written, fits, plain⟩ := exists_dollarToken text
  have verbatim : (dollarToken text).decode = (dollarToken text).text := by
    cases token_eq : dollarToken text with
    | escape c => simp [token_eq, Token.text] at written
    | _ => rfl
  have whole := decode_text_append fits
  rw [verbatim, written, List.cons_append, ← text_eq] at whole
  rw [whole, text_eq, decode_append_of_plain plain, List.cons_append]

theorem decode_cons {c : Char} (not_backslash : c ≠ '\\') (rest : Text) :
    decode (c :: rest) = c :: decode rest := by
  by_cases is_dollar : c = '$'
  · subst is_dollar
    exact decode_dollar rest
  · have plain : isPlain c = true := by simp [isPlain, is_dollar, not_backslash]
    have plain_front : ∀ d ∈ [c], isPlain d = true := by simpa using plain
    exact decode_append_of_plain plain_front rest

theorem decode_escape (c : Char) (rest : Text) :
    decode ('\\' :: c :: rest) = (Token.escape c).decode ++ decode rest :=
  decode_text_append (show Token.Fits (.escape c) rest from trivial)

@[simp]
theorem decode_backslash : decode ['\\'] = ['\\'] := by
  rw [← flatMap_decode_grains, grains_backslash]
  rfl

/-- The second text is the first one with each known escape replaced by its character, once, and
with all else as it was written. -/
inductive Decodes : Text → Text → Prop
  /-- There is nothing to replace. -/
  | nil : Decodes [] []
  /-- An escape is known. -/
  | known {c decoded : Char} {raw text : Text} (means : decodeEscape c = some decoded)
      (rest : Decodes raw text) : Decodes ('\\' :: c :: raw) (decoded :: text)
  /-- An escape is not known. -/
  | unknown {c : Char} {raw text : Text} (meaningless : decodeEscape c = none)
      (rest : Decodes raw text) : Decodes ('\\' :: c :: raw) ('\\' :: c :: text)
  /-- The last character is a backslash. -/
  | backslash : Decodes ['\\'] ['\\']
  /-- A character is not escaped. -/
  | plain {c : Char} {raw text : Text} (not_backslash : c ≠ '\\') (rest : Decodes raw text) :
      Decodes (c :: raw) (c :: text)

private theorem decodes_decode (raw : Text) : Decodes raw (decode raw) := by
  match raw with
  | [] =>
      rw [decode_nil]
      exact .nil
  | [c] =>
      by_cases same : c = '\\'
      · subst same
        rw [decode_backslash]
        exact .backslash
      · rw [decode_cons same, decode_nil]
        exact .plain same .nil
  | c :: d :: rest =>
      by_cases same : c = '\\'
      · subst same
        rw [decode_escape]
        cases means : decodeEscape d with
        | none => simpa [Token.decode, means] using .unknown means (decodes_decode rest)
        | some decoded => simpa [Token.decode, means] using .known means (decodes_decode rest)
      · rw [decode_cons same]
        exact .plain same (decodes_decode (d :: rest))

theorem decodes_iff {raw text : Text} : Decodes raw text ↔ text = decode raw := by
  constructor
  · intro decodes
    induction decodes with
    | nil => rw [decode_nil]
    | known means _ ih => simp [decode_escape, Token.decode, means, ih]
    | unknown meaningless _ ih => simp [decode_escape, Token.decode, Token.text, meaningless, ih]
    | backslash => rw [decode_backslash]
    | plain not_backslash _ ih => rw [decode_cons not_backslash, ih]
  · rintro rfl
    exact decodes_decode raw

/-- What stands behind the text is decoded on its own. -/
def IsClosed (text : Text) : Prop :=
  ∀ rest, decode (text ++ rest) = decode text ++ decode rest

theorem isClosed_nil : IsClosed [] := by
  intro rest
  simp

theorem IsClosed.append {front back : Text} (front_closed : IsClosed front)
    (back_closed : IsClosed back) : IsClosed (front ++ back) := by
  intro rest
  rw [List.append_assoc, front_closed, back_closed, front_closed, List.append_assoc]

theorem IsClosed.of_append {front back : Text} (front_closed : IsClosed front)
    (both_closed : IsClosed (front ++ back)) : IsClosed back := by
  intro rest
  have whole := both_closed rest
  rw [List.append_assoc, front_closed, front_closed, List.append_assoc] at whole
  exact List.append_cancel_left whole

theorem isClosed_singleton {c : Char} (not_backslash : c ≠ '\\') : IsClosed [c] := by
  intro rest
  rw [List.singleton_append, decode_cons not_backslash, decode_cons not_backslash, decode_nil]
  rfl

theorem isClosed_escape (c : Char) : IsClosed ['\\', c] := by
  intro rest
  have alone := decode_escape c []
  rw [decode_nil, List.append_nil] at alone
  rw [List.cons_append, List.cons_append, List.nil_append, decode_escape, alone]

theorem isClosed_of_notMem {text : Text} (no_backslash : '\\' ∉ text) : IsClosed text := by
  induction text with
  | nil => exact isClosed_nil
  | cons c text ih =>
      have split := List.ne_and_not_mem_of_not_mem_cons no_backslash
      exact (isClosed_singleton fun same => split.1 same.symm).append (ih split.2)

theorem isClosed_flatMap {α : Type} {f : α → Text} {items : List α}
    (closed : ∀ item ∈ items, IsClosed (f item)) : IsClosed (items.flatMap f) := by
  induction items with
  | nil => exact isClosed_nil
  | cons item items ih =>
      rw [List.flatMap_cons]
      exact (closed item List.mem_cons_self).append
        (ih fun other member => closed other (List.mem_cons_of_mem item member))

theorem decode_flatMap {α : Type} {f : α → Text} {items : List α}
    (closed : ∀ item ∈ items, IsClosed (f item)) :
    decode (items.flatMap f) = items.flatMap fun item => decode (f item) := by
  induction items with
  | nil => simp
  | cons item items ih =>
      have ih := ih fun other member => closed other (List.mem_cons_of_mem item member)
      rw [List.flatMap_cons, closed item List.mem_cons_self, ih, List.flatMap_cons]

theorem decode_of_notMem {text : Text} (no_backslash : '\\' ∉ text) : decode text = text := by
  induction text with
  | nil => exact decode_nil
  | cons c text ih =>
      have split := List.ne_and_not_mem_of_not_mem_cons no_backslash
      rw [decode_cons fun same => split.1 same.symm, ih split.2]

theorem notMem_text_of_fits {token : Token} {rest : Text} (fits : token.Fits rest)
    (no_escape : ∀ c, token ≠ .escape c) (no_backslash : token ≠ .backslash) :
    '\\' ∉ token.text := by
  have not_in_name : ∀ name, IsName name → '\\' ∉ name := by
    intro name named member
    exact absurd (isNameChar_of_mem named member) (by decide)
  cases token with
  | braced name => simpa [Token.text] using not_in_name name fits
  | bare name =>
      simp only [Token.text, List.mem_cons, not_or]
      refine ⟨by decide, fun member => ?_⟩
      exact absurd (isWordChar_of_mem fits.1 member) (by decide)
  | escape c => exact absurd rfl (no_escape c)
  | plain text =>
      obtain ⟨c, rfl, plain⟩ := fits
      simp only [isPlain, Bool.and_eq_true, bne_iff_ne] at plain
      simpa [Token.text] using fun same => plain.2 same.symm
  | dollar => simp [Token.text]
  | backslash => exact absurd rfl no_backslash
  | unclosed name => simpa [Token.text] using not_in_name name fits.1

/-- No backslash is written in a reference. -/
theorem notMem_text_of_reference? {token : Token} {rest name : Text} (fits : token.Fits rest)
    (named : token.reference? = some name) : '\\' ∉ token.text := by
  apply notMem_text_of_fits fits
  · rintro c rfl
    simp [Token.reference?] at named
  · rintro rfl
    simp [Token.reference?] at named

theorem isClosed_text_of_fits {token : Token} {rest : Text} (fits : token.Fits rest)
    (no_backslash : token ≠ .backslash) : IsClosed token.text := by
  by_cases is_escape : ∃ c, token = .escape c
  · obtain ⟨c, rfl⟩ := is_escape
    exact isClosed_escape c
  · apply isClosed_of_notMem
    exact notMem_text_of_fits fits (fun c same => is_escape ⟨c, same⟩) no_backslash

/-- The grains of a closed text hold no backslash without a character behind it. -/
theorem IsClosed.notMem_backslash {text : Text} (closed : IsClosed text) :
    .backslash ∉ grains text := by
  refine grains_induction (motive := fun text => IsClosed text → .backslash ∉ grains text) text
    ?_ ?_ closed
  · simp
  · intro token rest fits ih closed member
    by_cases is_backslash : token = .backslash
    · subst is_backslash
      obtain rfl : rest = [] := fits
      have taken := closed ['$']
      have escaped : decode ['\\', '$'] = ['$'] := by
        rw [decode_escape, decode_nil]
        rfl
      simp only [Token.text, List.append_nil, List.cons_append, List.nil_append, escaped,
        decode_backslash, decode_cons (show '$' ≠ '\\' by decide), decode_nil] at taken
      exact absurd taken (by decide)
    · rw [grains_text_append fits] at member
      have front_closed := isClosed_text_of_fits fits is_backslash
      rcases List.mem_cons.mp member with same | member
      · exact is_backslash same.symm
      · exact ih (front_closed.of_append closed) member

/-- A shielded grain is closed and stands for what the grain stands for. -/
theorem isClosed_shield_of_fits {token : Token} {rest : Text} (fits : token.Fits rest) :
    IsClosed token.shield ∧ decode token.shield = token.decode := by
  have behind_backslash : ∀ c text, '\\' ∉ text → (Token.escape c).decode = [c] →
      IsClosed ('\\' :: c :: text) ∧ decode ('\\' :: c :: text) = c :: text := by
    intro c text no_backslash escaped
    have text_closed := isClosed_of_notMem no_backslash
    constructor
    · exact (isClosed_escape c).append text_closed
    · rw [decode_escape, escaped, decode_of_notMem no_backslash]
      rfl
  cases token with
  | braced name =>
      have absent := notMem_text_of_fits fits (by simp) (by simp)
      simp only [Token.text, List.mem_cons, not_or] at absent
      exact behind_backslash '$' ('{' :: (name ++ ['}'])) (by simpa using absent.2) rfl
  | bare name =>
      have absent := notMem_text_of_fits fits (by simp) (by simp)
      exact behind_backslash '$' name (fun member => absent (List.mem_cons_of_mem _ member)) rfl
  | escape c =>
      refine ⟨isClosed_escape c, ?_⟩
      have alone := decode_escape c []
      rw [decode_nil, List.append_nil] at alone
      exact alone
  | plain text =>
      obtain ⟨c, rfl, plain⟩ := fits
      simp only [isPlain, Bool.and_eq_true, bne_iff_ne] at plain
      refine ⟨isClosed_singleton plain.2, ?_⟩
      simp only [Token.shield, Token.text, Token.decode]
      rw [decode_cons plain.2, decode_nil]
  | dollar => exact behind_backslash '$' [] (by simp) rfl
  | backslash => exact behind_backslash '\\' [] (by simp) rfl
  | unclosed name =>
      have absent := notMem_text_of_fits fits (by simp) (by simp)
      have closed := isClosed_of_notMem absent
      refine ⟨closed, ?_⟩
      exact decode_of_notMem absent

/-- Decoding undoes protection in front of any text. -/
theorem decode_protect_append (text rest : Text) :
    decode (protect text ++ rest) = text ++ decode rest := by
  induction text with
  | nil => rfl
  | cons c text ih =>
      have split : protect (c :: text) ++ rest =
          (if isPlain c then [c] else ['\\', c]) ++ (protect text ++ rest) := by
        simp [protect]
      rw [split]
      by_cases plain : isPlain c = true
      · have not_backslash : c ≠ '\\' := by
          simp only [isPlain, Bool.and_eq_true, bne_iff_ne] at plain
          exact plain.2
        simp only [plain, ↓reduceIte, List.singleton_append]
        rw [decode_cons not_backslash, ih]
        rfl
      · have special : c = '$' ∨ c = '\\' := by
          simp only [isPlain, Bool.and_eq_true, bne_iff_ne, not_and_or, not_not] at plain
          exact plain
        simp only [plain, Bool.false_eq_true, ↓reduceIte, List.cons_append, List.nil_append]
        rw [decode_escape, ih]
        rcases special with rfl | rfl <;> rfl

/-- Decoding a shielded text in front of any text is decoding the text itself. -/
theorem decode_shield_append (text rest : Text) :
    decode (shield text ++ rest) = decode text ++ decode rest := by
  rw [← flatMap_shield_grains]
  refine grains_induction (motive := fun text =>
    decode ((grains text).flatMap Token.shield ++ rest) = decode text ++ decode rest) text ?_ ?_
  · simp
  · intro token tail fits ih
    have shielded := isClosed_shield_of_fits fits
    rw [grains_text_append fits, List.flatMap_cons, List.append_assoc, shielded.1, shielded.2, ih,
      decode_text_append fits, List.append_assoc]

theorem decode_protect (text : Text) : decode (protect text) = text := by
  simpa using decode_protect_append text []

theorem decode_shield (text : Text) : decode (shield text) = decode text := by
  simpa using decode_shield_append text []

theorem isClosed_protect (text : Text) : IsClosed (protect text) := by
  intro rest
  rw [decode_protect_append, decode_protect]

theorem isClosed_shield (text : Text) : IsClosed (shield text) := by
  intro rest
  rw [decode_shield_append, decode_shield]

end Value
end EnvFile
