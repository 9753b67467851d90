import EnvFile.Value.Escape
import Mathlib.Data.List.TakeWhile

/-!
# Grains

The grains of a text are its tokens with every plain run cut into single characters.  Two texts put
together may merge their plain runs at the seam but never their grains, so what happens to a value
when other texts are spliced into it is said about grains.  The main statements read a grain off the
front of a text in both directions (`grains_text_append`, `exists_of_grains_eq_cons`).
-/

namespace EnvFile
namespace Value

/-- A nonempty text that starts like a name and goes on in a class of characters. -/
def IsNameOf (inName : Char → Bool) (name : Text) : Prop :=
  ∃ head tail, name = head :: tail ∧ isNameStart head = true ∧ ∀ c ∈ tail, inName c = true

/-- A name as it may stand in braces. -/
abbrev IsName : Text → Prop := IsNameOf isNameChar

/-- A name as it may stand right behind a dollar. -/
abbrev IsWord : Text → Prop := IsNameOf isWordChar

theorem isNameChar_of_isWordChar {c : Char} (word : isWordChar c = true) :
    isNameChar c = true := by
  simp [isNameChar, word]

theorem isWordChar_of_isNameStart {c : Char} (start : isNameStart c = true) :
    isWordChar c = true := by
  simp only [isNameStart, isWordChar, Char.isAlphanum, Bool.or_eq_true] at start ⊢
  rcases start with alpha | underscore
  · exact .inl (.inl alpha)
  · exact .inr underscore

theorem isNameChar_of_isNameStart {c : Char} (start : isNameStart c = true) :
    isNameChar c = true :=
  isNameChar_of_isWordChar (isWordChar_of_isNameStart start)

theorem isPlain_of_isNameChar {c : Char} (inName : isNameChar c = true) : isPlain c = true := by
  have not_dollar : c ≠ '$' := by
    rintro rfl
    exact absurd inName (by decide)
  have not_backslash : c ≠ '\\' := by
    rintro rfl
    exact absurd inName (by decide)
  simp [isPlain, not_dollar, not_backslash]

theorem isNameChar_of_mem {name : Text} (named : IsName name) {c : Char} (member : c ∈ name) :
    isNameChar c = true := by
  obtain ⟨head, tail, rfl, start, inName⟩ := named
  rcases List.mem_cons.mp member with rfl | member
  · exact isNameChar_of_isNameStart start
  · exact inName c member

theorem isWordChar_of_mem {name : Text} (word : IsWord name) {c : Char} (member : c ∈ name) :
    isWordChar c = true := by
  obtain ⟨head, tail, rfl, start, inName⟩ := word
  rcases List.mem_cons.mp member with rfl | member
  · exact isWordChar_of_isNameStart start
  · exact inName c member

theorem IsNameOf.append {inName : Char → Bool} {name tail : Text} (named : IsNameOf inName name)
    (inside : ∀ c ∈ tail, inName c = true) : IsNameOf inName (name ++ tail) := by
  obtain ⟨head, rest, rfl, start, rest_in⟩ := named
  refine ⟨head, rest ++ tail, rfl, start, fun c member => ?_⟩
  rcases List.mem_append.mp member with member | member
  · exact rest_in c member
  · exact inside c member

theorem splitName?_append {inName : Char → Bool} {name rest : Text} (named : IsNameOf inName name)
    (ends : ∀ c ∈ rest.head?, inName c = false) :
    splitName? inName (name ++ rest) = some (name, rest) := by
  obtain ⟨head, tail, rfl, start, all_in⟩ := named
  have rest_take : rest.takeWhile inName = [] := by
    cases rest with
    | nil => rfl
    | cons c rest => simp [ends c rfl]
  have rest_drop : rest.dropWhile inName = rest := by
    cases rest with
    | nil => rfl
    | cons c rest => simp [ends c rfl]
  simp [splitName?, start, List.takeWhile_append_of_pos all_in,
    List.dropWhile_append_of_pos all_in, rest_take, rest_drop]

theorem head?_dropWhile_eq_false (inRun : Char → Bool) (text : Text) :
    ∀ c ∈ (text.dropWhile inRun).head?, inRun c = false := by
  intro c is_head
  have ended := List.head?_dropWhile_not inRun text
  rw [Option.mem_def] at is_head
  simpa [is_head] using ended

theorem isNameOf_of_splitName? {inName : Char → Bool} {text name rest : Text}
    (found : splitName? inName text = some (name, rest)) :
    IsNameOf inName name ∧ ∀ c ∈ rest.head?, inName c = false := by
  cases text with
  | nil => simp [splitName?] at found
  | cons head tail =>
      by_cases start : isNameStart head = true
      · simp only [splitName?, start, ↓reduceIte, Option.some.injEq, Prod.mk.injEq] at found
        obtain ⟨rfl, rfl⟩ := found
        constructor
        · exact ⟨head, _, rfl, start, fun c => List.mem_takeWhile_imp⟩
        · exact head?_dropWhile_eq_false inName tail
      · simp [splitName?, start] at found

namespace Token

/-- The single characters of a plain run; every other token is one piece. -/
def grains : Token → List Token
  | plain text => text.map fun c => plain [c]
  | token => [token]

end Token

/-- The tokens of a text with its plain runs cut into characters. -/
def grains (text : Text) : List Token :=
  (lex text).flatMap Token.grains

theorem mem_grains_iff {text : Text} {token : Token} (not_plain : ∀ run, token ≠ .plain run) :
    token ∈ grains text ↔ token ∈ lex text := by
  have grains_eq : ∀ other : Token, token ∈ other.grains ↔ token = other := by
    intro other
    cases other with
    | plain run =>
        refine iff_of_false (fun member => ?_) (not_plain run)
        obtain ⟨c, _, same⟩ := List.mem_map.mp member
        exact not_plain [c] same.symm
    | _ => exact List.mem_singleton
  simp [grains, grains_eq]

@[simp]
theorem grains_nil : grains [] = [] := by
  simp [grains, lex]

private theorem lex_cons (head : Char) (tail : Text) :
    lex (head :: tail) =
      firstToken head tail :: lex (tail.drop ((firstToken head tail).text.length - 1)) := by
  rw [lex]

private theorem drop_length_takeWhile (inRun : Char → Bool) (text : Text) :
    text.drop (text.takeWhile inRun).length = text.dropWhile inRun := by
  induction text with
  | nil => rfl
  | cons head tail ih =>
      by_cases member : inRun head = true
      · simpa [member] using ih
      · simp [member]

theorem grains_eq_takeWhile_append (text : Text) :
    grains text =
      (text.takeWhile isPlain).map (fun c => .plain [c]) ++ grains (text.dropWhile isPlain) := by
  cases text with
  | nil => simp
  | cons head tail =>
      by_cases plain : isPlain head = true
      · have first : firstToken head tail = .plain (head :: tail.takeWhile isPlain) := by
          simp only [isPlain, Bool.and_eq_true, bne_iff_ne] at plain
          simp [firstToken, plain.1, plain.2]
        have run_length :
            (firstToken head tail).text.length - 1 = (tail.takeWhile isPlain).length := by
          simp [first, Token.text]
        rw [grains, lex_cons, run_length, drop_length_takeWhile, List.flatMap_cons, first]
        simp [Token.grains, plain, grains]
      · simp [plain]

@[simp]
theorem grains_cons_plain {c : Char} (plain : isPlain c = true) (rest : Text) :
    grains (c :: rest) = .plain [c] :: grains rest := by
  rw [grains_eq_takeWhile_append (c :: rest), grains_eq_takeWhile_append rest]
  simp [plain]

theorem grains_append_plain {front : Text} (plain : ∀ c ∈ front, isPlain c = true) (rest : Text) :
    grains (front ++ rest) = front.map (fun c => .plain [c]) ++ grains rest := by
  induction front with
  | nil => rfl
  | cons c front ih =>
      have ih := ih fun d member => plain d (List.mem_cons_of_mem c member)
      simp [grains_cons_plain (plain c List.mem_cons_self), ih]

@[simp]
theorem grains_escape (c : Char) (rest : Text) :
    grains ('\\' :: c :: rest) = .escape c :: grains rest := by
  rw [grains, lex_cons]
  simp [firstToken, backslashToken, Token.text, Token.grains, grains]

@[simp]
theorem grains_backslash : grains ['\\'] = [.backslash] := by
  rw [grains, lex_cons]
  simp [firstToken, backslashToken, Token.grains, lex]

private theorem grains_dollarToken (rest : Text) :
    (dollarToken rest).grains = [dollarToken rest] := by
  unfold dollarToken
  split <;> split <;> rfl

theorem grains_dollar (rest : Text) :
    grains ('$' :: rest) =
      dollarToken rest :: grains (rest.drop ((dollarToken rest).text.length - 1)) := by
  have first : firstToken '$' rest = dollarToken rest := by simp [firstToken]
  rw [grains, lex_cons, first, List.flatMap_cons, grains_dollarToken]
  rfl

/-! ## Reading a grain off the front -/

/-- A grain is well formed and stands for itself in front of a text. -/
def Token.Fits : Token → Text → Prop
  | .braced name, _ => IsName name
  | .bare name, rest => IsWord name ∧ ∀ c ∈ rest.head?, isWordChar c = false
  | .escape _, _ => True
  | .plain text, _ => ∃ c, text = [c] ∧ isPlain c = true
  | .dollar, rest => dollarToken rest = .dollar
  | .backslash, rest => rest = []
  | .unclosed name, rest => IsName name ∧ ∀ c ∈ rest.head?, isNameChar c = false ∧ c ≠ '}'

theorem dollarToken_braced {name : Text} (named : IsName name) (rest : Text) :
    dollarToken ('{' :: (name ++ '}' :: rest)) = .braced name := by
  have ends : ∀ c ∈ ('}' :: rest).head?, isNameChar c = false := by
    simp only [List.head?_cons, Option.mem_def, Option.some.injEq, forall_eq']
    decide
  simp [dollarToken, splitName?_append named ends]

theorem dollarToken_unclosed {name rest : Text} (named : IsName name)
    (open_end : ∀ c ∈ rest.head?, isNameChar c = false ∧ c ≠ '}') :
    dollarToken ('{' :: (name ++ rest)) = .unclosed name := by
  have split := splitName?_append named fun c member => (open_end c member).1
  cases rest with
  | nil =>
      rw [List.append_nil] at split ⊢
      simp [dollarToken, split]
  | cons c rest =>
      have no_brace : c ≠ '}' := (open_end c rfl).2
      simp [dollarToken, split, no_brace]

theorem dollarToken_bare {name rest : Text} (word : IsWord name)
    (ends : ∀ c ∈ rest.head?, isWordChar c = false) : dollarToken (name ++ rest) = .bare name := by
  have split := splitName?_append word ends
  obtain ⟨head, tail, rfl, start, _⟩ := word
  have no_brace : head ≠ '{' := by
    rintro rfl
    exact absurd start (by decide)
  simp only [List.cons_append] at split ⊢
  unfold dollarToken
  split
  · rename_i inner same
    exact absurd (List.cons.inj same).1 no_brace
  · rw [split]

/-- A dollar starts a reference, a name that no brace closes, or nothing. -/
theorem dollarToken_cases (text : Text) :
    (∃ name rest, text = '{' :: (name ++ '}' :: rest) ∧ dollarToken text = .braced name ∧
      IsName name) ∨
    (∃ name rest, text = name ++ rest ∧ dollarToken text = .bare name ∧ IsWord name ∧
      ∀ c ∈ rest.head?, isWordChar c = false) ∨
    (∃ name rest, text = '{' :: (name ++ rest) ∧ dollarToken text = .unclosed name ∧
      IsName name ∧ ∀ c ∈ rest.head?, isNameChar c = false ∧ c ≠ '}') ∨
    dollarToken text = .dollar := by
  unfold dollarToken
  split
  · rename_i inner
    split
    · rename_i name rest found
      exact .inl ⟨name, rest, by simp [← append_of_splitName? found], rfl,
        (isNameOf_of_splitName? found).1⟩
    · rename_i name rest no_brace found
      obtain ⟨named, ends⟩ := isNameOf_of_splitName? found
      refine .inr (.inr (.inl ⟨name, rest, by simp [← append_of_splitName? found], rfl, named, ?_⟩))
      intro c is_head
      refine ⟨ends c is_head, ?_⟩
      rintro rfl
      obtain ⟨after, rfl⟩ := List.head?_eq_some_iff.mp is_head
      exact no_brace after rfl
    · exact .inr (.inr (.inr rfl))
  · split
    · rename_i name rest found
      obtain ⟨word, ends⟩ := isNameOf_of_splitName? found
      exact .inr (.inl ⟨name, rest, (append_of_splitName? found).symm, rfl, word, ends⟩)
    · exact .inr (.inr (.inr rfl))

theorem fits_dollarToken (text : Text) :
    (dollarToken text).Fits (text.drop ((dollarToken text).text.length - 1)) := by
  rcases dollarToken_cases text with ⟨name, rest, _, eq, named⟩ | ⟨name, rest, rfl, eq, word⟩ |
    ⟨name, rest, rfl, eq, named⟩ | eq
  · rw [eq]
    exact named
  · rw [eq]
    simpa [Token.Fits, Token.text] using word
  · rw [eq]
    simpa [Token.Fits, Token.text] using named
  · rw [eq]
    simpa [Token.Fits, Token.text] using eq

theorem isPlain_of_mem_name {name : Text} (named : IsName name) :
    ∀ c ∈ name, isPlain c = true := fun _ member =>
  isPlain_of_isNameChar (isNameChar_of_mem named member)

/-- What a dollar's token takes up of the text behind the dollar is plain. -/
theorem exists_dollarToken (text : Text) :
    ∃ taken rest, text = taken ++ rest ∧ (dollarToken text).text = '$' :: taken ∧
      (dollarToken text).Fits rest ∧ ∀ c ∈ taken, isPlain c = true := by
  have braces_plain : isPlain '{' = true ∧ isPlain '}' = true := by decide
  rcases dollarToken_cases text with ⟨name, rest, rfl, eq, named⟩ | ⟨name, rest, rfl, eq, word⟩ |
    ⟨name, rest, rfl, eq, named⟩ | eq
  · refine ⟨'{' :: (name ++ ['}']), rest, by simp, by rw [eq]; rfl, by rw [eq]; exact named, ?_⟩
    intro c member
    simp only [List.mem_cons, List.mem_append, List.not_mem_nil, or_false] at member
    rcases member with rfl | member | rfl
    · exact braces_plain.1
    · exact isPlain_of_mem_name named c member
    · exact braces_plain.2
  · refine ⟨name, rest, rfl, by rw [eq]; rfl, by rw [eq]; exact word, fun c member => ?_⟩
    exact isPlain_of_isNameChar (isNameChar_of_isWordChar (isWordChar_of_mem word.1 member))
  · refine ⟨'{' :: name, rest, rfl, by rw [eq]; rfl, by rw [eq]; exact named, ?_⟩
    intro c member
    rcases List.mem_cons.mp member with rfl | member
    · exact braces_plain.1
    · exact isPlain_of_mem_name named.1 c member
  · exact ⟨[], text, rfl, by rw [eq]; rfl, by rw [eq]; exact eq, by simp⟩

/-- A dollar starts nothing in front of a text that starts no name. -/
theorem dollarToken_eq_dollar_iff (text : Text) :
    dollarToken text = .dollar ↔
      (∀ c ∈ text.head?, isNameStart c = false) ∧
        ∀ inner, text = '{' :: inner → ∀ c ∈ inner.head?, isNameStart c = false := by
  have starts : ∀ {inName : Char → Bool} {name rest : Text}, IsNameOf inName name →
      ¬ ∀ c ∈ (name ++ rest).head?, isNameStart c = false := by
    rintro inName name rest ⟨head, tail, rfl, start, _⟩ none_starts
    have := none_starts head rfl
    simp [start] at this
  constructor
  · intro is_dollar
    constructor
    · cases text with
      | nil => simp
      | cons head tail =>
          by_contra no
          simp only [List.head?_cons, Option.mem_def, Option.some.injEq, forall_eq',
            Bool.not_eq_false] at no
          have no_brace : head ≠ '{' := by
            rintro rfl
            exact absurd no (by decide)
          unfold dollarToken at is_dollar
          split at is_dollar
          · rename_i inner same
            exact no_brace (List.cons.inj same).1
          · simp [splitName?, no] at is_dollar
    · rintro inner rfl
      cases inner with
      | nil => simp
      | cons head tail =>
          by_contra no
          simp only [List.head?_cons, Option.mem_def, Option.some.injEq, forall_eq',
            Bool.not_eq_false] at no
          simp only [dollarToken, splitName?, no, ↓reduceIte] at is_dollar
          split at is_dollar <;> simp_all
  · rintro ⟨no_start, no_inner⟩
    rcases dollarToken_cases text with ⟨name, rest, rfl, _, named⟩ | ⟨name, rest, rfl, _, word⟩ |
      ⟨name, rest, rfl, _, named⟩ | eq
    · exact absurd (no_inner _ rfl) (starts named)
    · exact absurd no_start (starts word.1)
    · exact absurd (no_inner _ rfl) (starts named.1)
    · exact eq

/-- A grain that fits in front of a text is the first grain of the two together. -/
theorem grains_text_append {token : Token} {rest : Text} (fits : token.Fits rest) :
    grains (token.text ++ rest) = token :: grains rest := by
  cases token with
  | braced name =>
      have first := dollarToken_braced fits rest
      rw [show (Token.braced name).text ++ rest = '$' :: '{' :: (name ++ '}' :: rest) by
        simp [Token.text], grains_dollar, first]
      simp [Token.text]
  | bare name =>
      have first := dollarToken_bare fits.1 fits.2
      rw [show (Token.bare name).text ++ rest = '$' :: (name ++ rest) from rfl, grains_dollar,
        first]
      simp [Token.text]
  | escape c => exact grains_escape c rest
  | plain text =>
      obtain ⟨c, rfl, plain⟩ := fits
      exact grains_cons_plain plain rest
  | dollar =>
      rw [show Token.dollar.text ++ rest = '$' :: rest from rfl, grains_dollar,
        show dollarToken rest = .dollar from fits]
      simp [Token.text]
  | backslash =>
      obtain rfl : rest = [] := fits
      simp [Token.text]
  | unclosed name =>
      have first := dollarToken_unclosed fits.1 fits.2
      rw [show (Token.unclosed name).text ++ rest = '$' :: '{' :: (name ++ rest) from rfl,
        grains_dollar, first]
      simp [Token.text]

/-- A grain fits in front of everything that starts like a text that it fits in front of. -/
theorem Token.Fits.of_head {token : Token} {rest other : Text} (fits : token.Fits rest)
    (not_dollar : token ≠ .dollar) (not_backslash : token ≠ .backslash)
    (heads : ∀ c ∈ other.head?, isPlain c = false ∨ c ∈ rest.head?) : token.Fits other := by
  have not_name : ∀ {c : Char}, isPlain c = false → isNameChar c = false ∧ c ≠ '}' := by
    intro c special
    constructor
    · by_contra inName
      rw [Bool.not_eq_false] at inName
      exact absurd (isPlain_of_isNameChar inName) (by simp [special])
    · rintro rfl
      exact absurd special (by decide)
  cases token with
  | braced name => exact fits
  | bare name =>
      refine ⟨fits.1, fun c is_head => ?_⟩
      rcases heads c is_head with special | same
      · by_contra word
        rw [Bool.not_eq_false] at word
        have inName := isNameChar_of_isWordChar word
        rw [(not_name special).1] at inName
        exact absurd inName (by decide)
      · exact fits.2 c same
  | escape c => trivial
  | plain text => exact fits
  | dollar => exact absurd rfl not_dollar
  | backslash => exact absurd rfl not_backslash
  | unclosed name =>
      refine ⟨fits.1, fun c is_head => ?_⟩
      rcases heads c is_head with special | same
      · exact not_name special
      · exact fits.2 c same

/-- A dollar or a backslash behind a text takes nothing from the grains in front of it. -/
theorem Token.Fits.append_special {token : Token} {text : Text} (fits : token.Fits text)
    (not_backslash : token ≠ .backslash) {c : Char} (special : isPlain c = false) (rest : Text) :
    token.Fits (text ++ c :: rest) := by
  by_cases is_dollar : token = .dollar
  · subst is_dollar
    have before := (dollarToken_eq_dollar_iff text).mp fits
    refine (dollarToken_eq_dollar_iff _).mpr ?_
    have no_start : isNameStart c = false := by
      by_contra start
      rw [Bool.not_eq_false] at start
      simp [isPlain_of_isNameChar (isNameChar_of_isNameStart start)] at special
    cases text with
    | nil =>
        refine ⟨by simp [no_start], fun inner same => ?_⟩
        rw [(List.cons.inj same).1] at special
        exact absurd special (by decide)
    | cons head tail =>
        refine ⟨by simpa using before.1, fun inner same => ?_⟩
        obtain ⟨rfl, rfl⟩ := List.cons.inj same
        cases tail with
        | nil => simp [no_start]
        | cons d tail => simpa using before.2 _ rfl
  · apply fits.of_head is_dollar not_backslash
    intro d is_head
    cases text with
    | nil =>
        obtain rfl : c = d := by simpa using is_head
        exact .inl special
    | cons e text => exact .inr is_head

/-- The first grain of a text stands at its front, and the other grains are those of the rest. -/
theorem exists_of_grains_eq_cons {text : Text} {token : Token} {tokens : List Token}
    (cut : grains text = token :: tokens) :
    ∃ rest, text = token.text ++ rest ∧ grains rest = tokens ∧ token.Fits rest := by
  cases text with
  | nil => simp at cut
  | cons head tail =>
      by_cases is_dollar : head = '$'
      · subst is_dollar
        rw [grains_dollar] at cut
        obtain ⟨rfl, rfl⟩ := List.cons.inj cut
        obtain ⟨written, rest, text_eq, tail_eq⟩ := text_dollarToken tail
        have drop_eq : tail.drop ((dollarToken tail).text.length - 1) = rest := by
          rw [text_eq, tail_eq]
          simp
        refine ⟨rest, by simp [text_eq, ← tail_eq], by rw [drop_eq], ?_⟩
        exact drop_eq ▸ fits_dollarToken tail
      by_cases is_backslash : head = '\\'
      · subst is_backslash
        cases tail with
        | nil =>
            rw [grains_backslash] at cut
            obtain ⟨rfl, rfl⟩ := List.cons.inj cut
            exact ⟨[], rfl, grains_nil, rfl⟩
        | cons c rest =>
            rw [grains_escape] at cut
            obtain ⟨rfl, rfl⟩ := List.cons.inj cut
            exact ⟨rest, rfl, rfl, trivial⟩
      · have plain : isPlain head = true := by simp [isPlain, is_dollar, is_backslash]
        rw [grains_cons_plain plain] at cut
        obtain ⟨rfl, rfl⟩ := List.cons.inj cut
        exact ⟨tail, rfl, rfl, head, rfl, plain⟩

theorem grains_eq_nil_iff {text : Text} : grains text = [] ↔ text = [] := by
  constructor
  · intro empty
    cases text with
    | nil => rfl
    | cons head tail =>
        exfalso
        by_cases is_dollar : head = '$'
        · subst is_dollar
          rw [grains_dollar] at empty
          exact absurd empty (by simp)
        by_cases is_backslash : head = '\\'
        · subst is_backslash
          cases tail <;> simp at empty
        · have plain : isPlain head = true := by simp [isPlain, is_dollar, is_backslash]
          simp [grains_cons_plain plain] at empty
  · rintro rfl
    exact grains_nil

theorem exists_fits_of_mem_grains (text : Text) :
    ∀ token ∈ grains text, ∃ rest, token.Fits rest := by
  generalize cut : grains text = tokens
  induction tokens generalizing text with
  | nil => simp
  | cons first tokens ih =>
      obtain ⟨rest, rfl, rest_cut, fits⟩ := exists_of_grains_eq_cons cut
      intro token member
      rcases List.mem_cons.mp member with rfl | member
      · exact ⟨rest, fits⟩
      · exact ih rest rest_cut token member

/-- A property of texts with their grains holds if it holds of the empty text and is inherited from
a text to every grain in front of it. -/
theorem grains_induction {motive : Text → Prop} (text : Text) (nil : motive [])
    (cons : ∀ (token : Token) (rest : Text), token.Fits rest → motive rest →
      motive (token.text ++ rest)) : motive text := by
  generalize cut : grains text = tokens
  induction tokens generalizing text with
  | nil =>
      obtain rfl := grains_eq_nil_iff.mp cut
      exact nil
  | cons token tokens ih =>
      obtain ⟨rest, rfl, rest_cut, fits⟩ := exists_of_grains_eq_cons cut
      exact cons token rest fits (ih rest rest_cut)

end Value
end EnvFile
