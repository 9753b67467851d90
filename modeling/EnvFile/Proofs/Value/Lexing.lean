import EnvFile.Proofs.Value.Grain
import EnvFile.Value.Occurrence

/-!
# Tokens side by side

A value is cut into given tokens exactly if each of them leads the text of the tokens behind it
(`lex_eq_iff`).  What a token leads it leads with the end cut off as well, so every run of tokens of
a value is cut the same way when it stands alone (`lex_flatMap_text`).  In front of a dollar or a
backslash a value is always cut, unless a backslash takes that character up (`lex_append_special`).
-/

namespace EnvFile
namespace Value

/-- The token comes first when the token and the text behind it are cut together. -/
def Token.Leads : Token → Text → Prop
  | .plain run, rest =>
      run ≠ [] ∧ (∀ c ∈ run, isPlain c = true) ∧ ∀ c ∈ rest.head?, isPlain c = false
  | token, rest => token.Fits rest

theorem Token.Fits.leads {token : Token} {rest : Text} (fits : token.Fits rest)
    (not_plain : ∀ run, token ≠ .plain run) : token.Leads rest := by
  cases token with
  | plain run => exact absurd rfl (not_plain run)
  | _ => exact fits

theorem Token.Leads.fits {token : Token} {rest : Text} (leads : token.Leads rest)
    (not_plain : ∀ run, token ≠ .plain run) : token.Fits rest := by
  cases token with
  | plain run => exact absurd rfl (not_plain run)
  | _ => exact leads

theorem dollarToken_ne_plain (text run : Text) : dollarToken text ≠ .plain run := by
  unfold dollarToken
  split <;> split <;> simp

/-- The first token of a text leads what is left of it. -/
theorem leads_firstToken (head : Char) (tail : Text) :
    (firstToken head tail).Leads (tail.drop ((firstToken head tail).text.length - 1)) := by
  by_cases is_dollar : head = '$'
  · have first : firstToken head tail = dollarToken tail := by simp [firstToken, is_dollar]
    rw [first]
    exact (fits_dollarToken tail).leads (dollarToken_ne_plain tail)
  by_cases is_backslash : head = '\\'
  · have first : firstToken head tail = backslashToken tail := by
      simp [firstToken, is_backslash]
    rw [first]
    cases tail with
    | nil => rfl
    | cons c rest => trivial
  · have plain : isPlain head = true := by simp [isPlain, is_dollar, is_backslash]
    have first : firstToken head tail = .plain (head :: tail.takeWhile isPlain) := by
      simp [firstToken, is_dollar, is_backslash]
    have left_eq : tail.drop ((firstToken head tail).text.length - 1) =
        tail.dropWhile isPlain := by
      have whole := text_firstToken_append head tail
      rw [first] at whole ⊢
      have run_split := List.takeWhile_append_dropWhile (p := isPlain) (l := tail)
      exact List.append_cancel_left ((List.cons.inj whole).2.trans run_split.symm)
    rw [left_eq, first]
    refine ⟨List.cons_ne_nil _ _, fun c member => ?_, head?_dropWhile_eq_false isPlain tail⟩
    rcases List.mem_cons.mp member with rfl | member
    · exact plain
    · exact List.mem_takeWhile_imp member

/-- A token that leads a text is the first one of the two together. -/
theorem firstToken_of_leads {token : Token} {rest : Text} (leads : token.Leads rest) :
    ∃ head tail, token.text ++ rest = head :: tail ∧ firstToken head tail = token := by
  cases token with
  | braced name =>
      refine ⟨'$', '{' :: (name ++ '}' :: rest), by simp [Token.text], ?_⟩
      exact dollarToken_braced leads rest
  | bare name => exact ⟨'$', name ++ rest, rfl, dollarToken_bare leads.1 leads.2⟩
  | escape c => exact ⟨'\\', c :: rest, rfl, rfl⟩
  | plain run =>
      obtain ⟨nonempty, plain, ends⟩ := leads
      cases run with
      | nil => exact absurd rfl nonempty
      | cons head run =>
          have head_plain := plain head List.mem_cons_self
          simp only [isPlain, Bool.and_eq_true, bne_iff_ne] at head_plain
          have rest_take : rest.takeWhile isPlain = [] := by
            cases rest with
            | nil => rfl
            | cons c rest => simp [ends c rfl]
          have run_plain : ∀ c ∈ run, isPlain c = true :=
            fun c member => plain c (List.mem_cons_of_mem head member)
          refine ⟨head, run ++ rest, rfl, ?_⟩
          rw [firstToken, if_neg head_plain.1, if_neg head_plain.2,
            List.takeWhile_append_of_pos run_plain, rest_take, List.append_nil]
  | dollar => exact ⟨'$', rest, rfl, leads⟩
  | backslash =>
      obtain rfl : rest = [] := leads
      exact ⟨'\\', [], rfl, rfl⟩
  | unclosed name =>
      exact ⟨'$', '{' :: (name ++ rest), rfl, dollarToken_unclosed leads.1 leads.2⟩

theorem Token.Leads.text_ne_nil {token : Token} {rest : Text} (leads : token.Leads rest) :
    token.text ≠ [] := by
  cases token with
  | plain run => exact leads.1
  | _ => simp [Token.text]

theorem lex_nil : lex [] = [] := by
  rw [lex]

theorem lex_text_append {token : Token} {rest : Text} (leads : token.Leads rest) :
    lex (token.text ++ rest) = token :: lex rest := by
  obtain ⟨head, tail, split, first⟩ := firstToken_of_leads leads
  have whole := text_firstToken_append head tail
  rw [first, ← split] at whole
  rw [split, lex, first, List.append_cancel_left whole]

theorem exists_of_lex_eq_cons {text : Text} {token : Token} {tokens : List Token}
    (cut : lex text = token :: tokens) :
    ∃ rest, text = token.text ++ rest ∧ lex rest = tokens ∧ token.Leads rest := by
  cases text with
  | nil => simp [lex_nil] at cut
  | cons head tail =>
      rw [lex] at cut
      obtain ⟨rfl, rfl⟩ := List.cons.inj cut
      exact ⟨_, (text_firstToken_append head tail).symm, rfl, leads_firstToken head tail⟩

theorem Token.Leads.of_append {token : Token} {front back : Text}
    (leads : token.Leads (front ++ back)) : token.Leads front := by
  have heads : ∀ {text : Text}, ∀ c ∈ text.head?, c ∈ (text ++ back).head? := by
    intro text c is_head
    obtain ⟨tail, rfl⟩ := List.head?_eq_some_iff.mp is_head
    exact rfl
  cases token with
  | braced name => exact leads
  | bare name => exact ⟨leads.1, fun c is_head => leads.2 c (heads c is_head)⟩
  | escape c => trivial
  | plain run => exact ⟨leads.1, leads.2.1, fun c is_head => leads.2.2 c (heads c is_head)⟩
  | dollar =>
      obtain ⟨no_start, no_inner⟩ := (dollarToken_eq_dollar_iff _).mp leads
      refine (dollarToken_eq_dollar_iff _).mpr ⟨fun c is_head => no_start c (heads c is_head), ?_⟩
      rintro inner rfl c is_head
      exact no_inner (inner ++ back) rfl c (heads c is_head)
  | backslash => exact (List.append_eq_nil_iff.mp leads).1
  | unclosed name => exact ⟨leads.1, fun c is_head => leads.2 c (heads c is_head)⟩

/-- A token that leads a text leads it with a dollar or a backslash behind it as well. -/
theorem Token.Leads.append_special {token : Token} {text : Text} (leads : token.Leads text)
    (not_backslash : token ≠ .backslash) {c : Char} (special : isPlain c = false) (rest : Text) :
    token.Leads (text ++ c :: rest) := by
  by_cases is_plain : ∃ run, token = .plain run
  · obtain ⟨run, rfl⟩ := is_plain
    refine ⟨leads.1, leads.2.1, fun d is_head => ?_⟩
    cases text with
    | nil =>
        obtain rfl : c = d := by simpa using is_head
        exact special
    | cons e text => exact leads.2.2 d is_head
  · have not_plain : ∀ run, token ≠ .plain run := fun run same => is_plain ⟨run, same⟩
    exact ((leads.fits not_plain).append_special not_backslash special rest).leads not_plain

/-- Each token leads the text of the tokens behind it. -/
def IsCut : List Token → Prop
  | [] => True
  | token :: rest => token.Leads (rest.flatMap Token.text) ∧ IsCut rest

theorem IsCut.of_append {front back : List Token} (cut : IsCut (front ++ back)) :
    IsCut front ∧ IsCut back := by
  induction front with
  | nil => exact ⟨trivial, cut⟩
  | cons token front ih =>
      rw [List.cons_append] at cut
      obtain ⟨leads, cut⟩ := cut
      rw [List.flatMap_append] at leads
      exact ⟨⟨leads.of_append, (ih cut).1⟩, (ih cut).2⟩

theorem isCut_lex (text : Text) : IsCut (lex text) := by
  generalize cut : lex text = tokens
  induction tokens generalizing text with
  | nil => trivial
  | cons token tokens ih =>
      obtain ⟨rest, rfl, rfl, leads⟩ := exists_of_lex_eq_cons cut
      exact ⟨by rwa [flatMap_text_lex], ih rest rfl⟩

theorem IsCut.lex_flatMap_text {tokens : List Token} (cut : IsCut tokens) :
    lex (tokens.flatMap Token.text) = tokens := by
  induction tokens with
  | nil => exact lex_nil
  | cons token tokens ih =>
      rw [List.flatMap_cons, lex_text_append cut.1, ih cut.2]

theorem exists_leads_of_mem_lex {text : Text} {token : Token} (member : token ∈ lex text) :
    ∃ rest, token.Leads rest := by
  obtain ⟨front, back, cut⟩ := List.append_of_mem member
  have whole := isCut_lex text
  rw [cut] at whole
  exact ⟨_, whole.of_append.2.1⟩

/-- A text is cut into tokens exactly if it is their text and each leads what is behind it. -/
theorem lex_eq_iff {text : Text} {tokens : List Token} :
    lex text = tokens ↔ text = tokens.flatMap Token.text ∧ IsCut tokens := by
  constructor
  · rintro rfl
    exact ⟨(flatMap_text_lex text).symm, isCut_lex text⟩
  · rintro ⟨rfl, cut⟩
    exact cut.lex_flatMap_text

theorem IsCut.backslash_notMem {front : List Token} {token : Token} {back : List Token}
    (cut : IsCut (front ++ token :: back)) : .backslash ∉ front := by
  intro member
  obtain ⟨before, behind, rfl⟩ := List.append_of_mem member
  rw [List.append_assoc, List.cons_append] at cut
  have nothing : (behind ++ token :: back).flatMap Token.text = [] := cut.of_append.2.1
  rw [List.flatMap_append, List.flatMap_cons, List.append_eq_nil_iff,
    List.append_eq_nil_iff] at nothing
  rw [← List.cons_append, ← List.append_assoc] at cut
  exact cut.of_append.2.1.text_ne_nil nothing.2.1

/-- A run of tokens of a value is cut in the same way when it stands alone. -/
theorem lex_flatMap_text {value : Text} {front tokens back : List Token}
    (cut : lex value = front ++ tokens ++ back) : lex (tokens.flatMap Token.text) = tokens := by
  have whole := isCut_lex value
  rw [cut] at whole
  exact whole.of_append.1.of_append.2.lex_flatMap_text

/-- A value is cut in front of a dollar or a backslash that no backslash takes up. -/
theorem lex_append_special {front : Text} (paired : .backslash ∉ lex front) {c : Char}
    (special : isPlain c = false) (rest : Text) :
    lex (front ++ c :: rest) = lex front ++ lex (c :: rest) := by
  generalize cut : lex front = tokens at paired
  induction tokens generalizing front with
  | nil =>
      obtain ⟨rfl, _⟩ := lex_eq_iff.mp cut
      rfl
  | cons token tokens ih =>
      obtain ⟨text, rfl, text_cut, leads⟩ := exists_of_lex_eq_cons cut
      obtain ⟨not_first, not_later⟩ := List.ne_and_not_mem_of_not_mem_cons paired
      have leads' := leads.append_special (fun same => not_first same.symm) special rest
      rw [List.append_assoc, lex_text_append leads', ih text_cut not_later, List.cons_append]

/-- The occurrence that a token is behind a text. -/
def Token.occurrence (token : Token) (meaning : Meaning) (start : Nat) (position : Position)
    (front : Text) : Occurrence where
  meaning := meaning
  text := token.text
  start := start + front.utf8Length
  stop := start + front.utf8Length + token.text.utf8Length
  position := position.after front

theorem occurrencesOf_cons (start : Nat) (position : Position) (token : Token)
    (rest : List Token) :
    occurrencesOf start position (token :: rest) =
      (token.meaning?.map fun meaning => token.occurrence meaning start position []).toList ++
        occurrencesOf (start + token.text.utf8Length) (position.after token.text) rest := by
  cases means : token.meaning? with
  | none => simp [occurrencesOf, means]
  | some meaning => simp [occurrencesOf, means, Token.occurrence]

/-- The occurrences are the tokens with a meaning, each behind the text of the tokens in front. -/
theorem mem_occurrencesOf_iff {start : Nat} {position : Position} {tokens : List Token}
    {occurrence : Occurrence} :
    occurrence ∈ occurrencesOf start position tokens ↔
      ∃ front token back meaning, tokens = front ++ token :: back ∧
        token.meaning? = some meaning ∧
        occurrence = token.occurrence meaning start position (front.flatMap Token.text) := by
  constructor
  · intro member
    induction tokens generalizing start position with
    | nil => simp [occurrencesOf] at member
    | cons first rest ih =>
        rw [occurrencesOf_cons, List.mem_append, Option.mem_toList, Option.map_eq_some_iff]
          at member
        rcases member with ⟨meaning, means, rfl⟩ | member
        · exact ⟨[], first, rest, meaning, rfl, means, rfl⟩
        · obtain ⟨front, token, back, meaning, rfl, means, rfl⟩ := ih member
          refine ⟨first :: front, token, back, meaning, rfl, means, ?_⟩
          simp only [Token.occurrence, List.flatMap_cons, Text.utf8Length_append,
            Position.after_append, Nat.add_assoc]
  · rintro ⟨front, token, back, meaning, rfl, means, rfl⟩
    rw [occurrencesOf_append, occurrencesOf_cons, means]
    exact List.mem_append_right _ List.mem_cons_self

theorem start_lt_stop_of_mem {start : Nat} {position : Position} {tokens : List Token}
    {occurrence : Occurrence} (member : occurrence ∈ occurrencesOf start position tokens) :
    occurrence.start < occurrence.stop := by
  obtain ⟨front, token, back, meaning, _, means, rfl⟩ := mem_occurrencesOf_iff.mp member
  obtain ⟨head, tail, text_eq⟩ : ∃ head tail, token.text = head :: tail := by
    cases token with
    | braced name => exact ⟨_, _, rfl⟩
    | bare name => exact ⟨_, _, rfl⟩
    | escape c => exact ⟨_, _, rfl⟩
    | _ => exact nomatch means
  have head_pos := head.utf8Size_pos
  simp only [Token.occurrence, text_eq, Text.utf8Length_cons]
  omega

/-- Occurrences are found from left to right, and none reaches into the next one. -/
theorem pairwise_occurrencesOf (start : Nat) (position : Position) (tokens : List Token) :
    (occurrencesOf start position tokens).Pairwise fun first later => first.stop ≤ later.start := by
  induction tokens generalizing start position with
  | nil => exact .nil
  | cons token rest ih =>
      rw [occurrencesOf_cons, List.pairwise_append]
      refine ⟨?_, ih _ _, ?_⟩
      · cases token.meaning? <;> simp
      · intro first is_first later member
        rw [Option.mem_toList, Option.map_eq_some_iff] at is_first
        obtain ⟨meaning, _, rfl⟩ := is_first
        obtain ⟨front, other, back, meaning', _, _, rfl⟩ := mem_occurrencesOf_iff.mp member
        exact Nat.le_add_right _ _

end Value
end EnvFile
