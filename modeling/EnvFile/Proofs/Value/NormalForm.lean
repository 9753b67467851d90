import EnvFile.Proofs.Value.Protection
import Mathlib.Data.List.Flatten

/-!
# Shielded texts as normal forms

A text is normal if it refers to nothing and no dollar or backslash stands alone in it.  Shielding
makes every text normal (`isNormal_shield`) and leaves exactly the normal ones as they are
(`shield_eq_self_iff`), so a second shield changes nothing.  A backslash is put in front of a dollar
or a lone backslash only: each escape stays in its place (`lex_shield_of_lex_eq`), and between the
escapes of the text the new ones stand where shielding put a backslash (`escapes_shield`).
-/

namespace EnvFile
namespace Value

/-- The text refers to nothing, and no dollar and no backslash of it stands alone. -/
structure IsNormal (text : Text) : Prop where
  no_reference : ∀ origin, referrers text origin = []
  no_dollar : .dollar ∉ lex text
  no_backslash : .backslash ∉ lex text

theorem Token.meaning?_of_reference? {token : Token} {name : Text}
    (named : token.reference? = some name) : token.meaning? = some (.reference name) := by
  cases token with
  | braced other => exact congrArg (Option.map Meaning.reference) named
  | bare other => exact congrArg (Option.map Meaning.reference) named
  | _ => simp [reference?] at named

theorem referrers_eq_nil_iff (text : Text) (origin : Position) :
    referrers text origin = [] ↔ names text = [] := by
  constructor
  · intro none_found
    rw [names, List.filterMap_eq_nil_iff]
    intro token member
    obtain ⟨front, back, lex_eq⟩ := List.append_of_mem member
    by_contra named
    obtain ⟨name, named⟩ := Option.ne_none_iff_exists'.mp named
    have found : token.occurrence (.reference name) 0 origin (front.flatMap Token.text) ∈
        occurrences text origin :=
      mem_occurrencesOf_iff.mpr
        ⟨front, token, back, _, lex_eq, Token.meaning?_of_reference? named, rfl⟩
    exact List.filter_eq_nil_iff.mp none_found _ found rfl
  · intro unnamed
    exact filter_isReference_eq_nil unnamed 0 origin

theorem isNormal_iff {text : Text} : IsNormal text ↔ names text = [] ∧ IsTidy text := by
  have dollar_iff : .dollar ∈ grains text ↔ .dollar ∈ lex text := mem_grains_iff (by simp)
  have backslash_iff : .backslash ∈ grains text ↔ .backslash ∈ lex text :=
    mem_grains_iff (by simp)
  constructor
  · intro normal
    have unnamed := (referrers_eq_nil_iff text {}).mp (normal.no_reference {})
    exact ⟨unnamed, mt dollar_iff.mp normal.no_dollar, mt backslash_iff.mp normal.no_backslash⟩
  · rintro ⟨unnamed, tidy⟩
    exact ⟨fun origin => (referrers_eq_nil_iff text origin).mpr unnamed,
      mt dollar_iff.mpr tidy.no_dollar, mt backslash_iff.mpr tidy.no_backslash⟩

theorem isNormal_shield (text : Text) : IsNormal (shield text) :=
  isNormal_iff.mpr ⟨names_shield text, isTidy_shield text⟩

/-- Shielding leaves exactly the normal texts as they are. -/
theorem shield_eq_self_iff {text : Text} : shield text = text ↔ IsNormal text := by
  constructor
  · intro fixed
    rw [← fixed]
    exact isNormal_shield text
  · intro normal
    have unnamed := (referrers_eq_nil_iff text {}).mp (normal.no_reference {})
    have by_token : ∀ token ∈ lex text, token.shield = token.text := by
      intro token member
      apply Token.shield_eq_text (List.filterMap_eq_nil_iff.mp unnamed token member)
      · rintro rfl
        exact normal.no_dollar member
      · rintro rfl
        exact normal.no_backslash member
    calc
      shield text = (lex text).flatMap Token.text := List.flatMap_congr by_token
      _ = text := flatMap_text_lex text

theorem shield_shield (text : Text) : shield (shield text) = shield text :=
  shield_eq_self_iff.mpr (isNormal_shield text)

/-- The characters that backslashes take along, from left to right, whether the escape is known or
not. -/
def escapes : Text → List Char
  | [] => []
  | [_] => []
  | c :: d :: rest => if c = '\\' then d :: escapes rest else escapes (d :: rest)

theorem escapes_escape (c : Char) (rest : Text) :
    escapes ('\\' :: c :: rest) = c :: escapes rest := by
  rw [escapes, if_pos rfl]

theorem escapes_cons {c : Char} (not_backslash : c ≠ '\\') (rest : Text) :
    escapes (c :: rest) = escapes rest := by
  cases rest with
  | nil => rfl
  | cons d rest => rw [escapes, if_neg not_backslash]

theorem escapes_of_notMem {text : Text} (no_backslash : '\\' ∉ text) : escapes text = [] := by
  induction text with
  | nil => rfl
  | cons c text ih =>
      have split := List.ne_and_not_mem_of_not_mem_cons no_backslash
      rw [escapes_cons fun same => split.1 same.symm, ih split.2]

theorem IsClosed.escapes_append {front : Text} (closed : IsClosed front) (back : Text) :
    escapes (front ++ back) = escapes front ++ escapes back := by
  have decodes : Decodes front (decode front) := decodes_iff.mpr rfl
  generalize decode front = decoded at decodes
  induction decodes with
  | nil => rfl
  | known _ _ ih | unknown _ _ ih =>
      have ih := ih ((isClosed_escape _).of_append closed)
      rw [List.cons_append, List.cons_append, escapes_escape, escapes_escape, ih, List.cons_append]
  | backslash => exact absurd closed.notMem_backslash (by simp)
  | plain not_backslash _ ih =>
      have ih := ih ((isClosed_singleton not_backslash).of_append closed)
      rw [List.cons_append, escapes_cons not_backslash, escapes_cons not_backslash, ih]

theorem escapes_flatMap {α : Type} {f : α → Text} {items : List α}
    (closed : ∀ item ∈ items, IsClosed (f item)) :
    escapes (items.flatMap f) = items.flatMap fun item => escapes (f item) := by
  induction items with
  | nil => rfl
  | cons item items ih =>
      have ih := ih fun other member => closed other (List.mem_cons_of_mem item member)
      rw [List.flatMap_cons, (closed item List.mem_cons_self).escapes_append, ih, List.flatMap_cons]

/-- The character that a token escapes. -/
def Token.escaped? : Token → Option Char
  | escape c => some c
  | _ => none

theorem Token.Leads.escapes_append {token : Token} {rest : Text} (leads : token.Leads rest) :
    escapes (token.text ++ rest) = token.escaped?.toList ++ escapes rest := by
  have of_notMem : '\\' ∉ token.text → escapes (token.text ++ rest) = escapes rest := by
    intro no_backslash
    rw [(isClosed_of_notMem no_backslash).escapes_append, escapes_of_notMem no_backslash]
    rfl
  cases token with
  | escape c => exact escapes_escape c rest
  | backslash =>
      obtain rfl : rest = [] := leads
      rfl
  | plain run =>
      apply of_notMem
      intro member
      exact absurd (leads.2.1 _ member) (by decide)
  | _ => exact of_notMem (notMem_text_of_fits (leads.fits (by simp)) (by simp) (by simp))

theorem escapes_eq_filterMap_lex (text : Text) :
    escapes text = (lex text).filterMap Token.escaped? := by
  generalize cut : lex text = tokens
  induction tokens generalizing text with
  | nil =>
      obtain ⟨rfl, _⟩ := lex_eq_iff.mp cut
      rfl
  | cons token tokens ih =>
      obtain ⟨rest, rfl, rest_cut, leads⟩ := exists_of_lex_eq_cons cut
      rw [leads.escapes_append, ih rest rest_cut, List.filterMap_cons]
      cases token.escaped? <;> rfl

theorem sublist_escapes_flatMap {found : Token → List Char}
    (kept : ∀ c, found (.escape c) = [c]) (text : Text) :
    (escapes text).Sublist ((lex text).flatMap found) := by
  rw [escapes_eq_filterMap_lex, List.filterMap_eq_flatMap_toList]
  apply List.Sublist.flatMap_right
  intro token _
  cases token with
  | escape c =>
      rw [kept]
      exact List.Sublist.refl [c]
  | _ => exact List.nil_sublist _

theorem escapes_flatMap_grains {piece : Token → Text} {found : Token → List Char}
    (closed : ∀ (token : Token) (rest : Text), token.Fits rest →
      IsClosed (piece token) ∧ escapes (piece token) = found token)
    (none_plain : ∀ run, found (.plain run) = []) (text : Text) :
    escapes ((grains text).flatMap piece) = (lex text).flatMap found := by
  have pieces : ∀ token ∈ grains text,
      IsClosed (piece token) ∧ escapes (piece token) = found token := by
    intro token member
    obtain ⟨rest, fits⟩ := exists_fits_of_mem_grains text token member
    exact closed token rest fits
  have by_char : ∀ run : Text, found (.plain run) = run.flatMap fun c => found (.plain [c]) := by
    intro run
    simp [none_plain]
  rw [escapes_flatMap fun token member => (pieces token member).1,
    List.flatMap_congr fun token member => (pieces token member).2, flatMap_grains found by_char]

/-- The escapes in a shielded token. -/
def Token.shieldedEscapes : Token → List Char
  | braced _ => ['$']
  | bare _ => ['$']
  | escape c => [c]
  | plain _ => []
  | dollar => ['$']
  | backslash => ['\\']
  | unclosed _ => []

theorem escapes_shield_of_fits {token : Token} {rest : Text} (fits : token.Fits rest) :
    escapes token.shield = token.shieldedEscapes := by
  have behind_backslash : ∀ c text, '\\' ∉ text → escapes ('\\' :: c :: text) = [c] := by
    intro c text no_backslash
    rw [escapes_escape, escapes_of_notMem no_backslash]
  have no_backslash := notMem_text_of_fits fits
  cases token with
  | braced name =>
      have absent := no_backslash (by simp) (by simp)
      exact behind_backslash '$' ('{' :: (name ++ ['}'])) (List.not_mem_of_not_mem_cons absent)
  | bare name =>
      have absent := no_backslash (by simp) (by simp)
      exact behind_backslash '$' name (List.not_mem_of_not_mem_cons absent)
  | escape c => rfl
  | plain run => exact escapes_of_notMem (no_backslash (by simp) (by simp))
  | dollar => rfl
  | backslash => rfl
  | unclosed name => exact escapes_of_notMem (no_backslash (by simp) (by simp))

/-- A shielded text has the escapes of the text and one for each backslash that was put into it. -/
theorem escapes_shield (text : Text) :
    escapes (shield text) = (lex text).flatMap Token.shieldedEscapes := by
  rw [← flatMap_shield_grains]
  apply escapes_flatMap_grains
  · intro token rest fits
    exact ⟨(isClosed_shield_of_fits fits).1, escapes_shield_of_fits fits⟩
  · intro run
    rfl

/-- The escapes of the text stand between those that shielding makes of bare characters. -/
example : escapes (shield "\\q$ $\x7bA\\n$B\\".toList) = ['q', '$', 'n', '$', '\\'] := by
  decide +kernel

theorem sublist_escapes_shield (text : Text) :
    (escapes text).Sublist (escapes (shield text)) := by
  rw [escapes_shield]
  exact sublist_escapes_flatMap (fun c => rfl) text

/-- An escape stays where it is, between what becomes of the tokens around it. -/
theorem lex_shield_of_lex_eq {text : Text} {front back : List Token} {c : Char}
    (lex_eq : lex text = front ++ .escape c :: back) :
    lex (shield text) =
      lex (front.flatMap Token.shield) ++ .escape c :: lex (back.flatMap Token.shield) := by
  have whole := isCut_lex text
  rw [lex_eq] at whole
  have front_eq : front.flatMap Token.shield = shield (front.flatMap Token.text) := by
    rw [shield, whole.of_append.1.lex_flatMap_text]
  have paired : .backslash ∉ lex (front.flatMap Token.shield) := by
    rw [front_eq]
    exact (isNormal_shield _).no_backslash
  have shield_eq : shield text =
      front.flatMap Token.shield ++ '\\' :: c :: back.flatMap Token.shield := by
    rw [shield, lex_eq, List.flatMap_append, List.flatMap_cons]
    rfl
  have leads : (Token.escape c).Leads (back.flatMap Token.shield) := trivial
  rw [shield_eq, lex_append_special paired (by decide), ← lex_text_append leads]
  rfl

end Value
end EnvFile
