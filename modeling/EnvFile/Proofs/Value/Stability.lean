import EnvFile.Proofs.Value.Lexing
import EnvFile.Proofs.Value.Seal
import Mathlib.Data.List.Chain

/-!
# Stable values

The references of a value are replaced step by step, and the value is read again after each step.
It is stable if nothing that takes the place of a reference can go on with a name in front of it
while another reference still waits, and if no name is left open in the end.  Stability is decided
on the tokens of the value (`IsStable`) and says the same about its grains
(`IsStable.isChain_grains`, `IsStable.endsNames_grains`).
-/

namespace EnvFile
namespace Value

namespace Token

/-- Whether a token keeps its name when the token behind it is replaced, in a value with the given
references. -/
def mayPrecede (all : List Text) (token next : Token) : Bool :=
  match next.reference? with
  | none => true
  | some name =>
      match token with
      | bare own => own == name
      | unclosed _ => all.all (· == name)
      | _ => true

/-- Whether no open name goes on behind the token, whatever the references around it become. -/
def endsName : Token → Bool
  | plain text => text.any fun c => !isNameChar c
  | token => token.reference?.isNone

end Token

/-- Whether a token behind each name without a closing brace ends the name. -/
def endsNames : List Token → Bool
  | [] => true
  | .unclosed _ :: rest => rest.any Token.endsName && endsNames rest
  | _ :: rest => endsNames rest

/-- What replaces the references of the value never goes on with a name of the value. -/
structure IsStable (value : Text) : Prop where
  apart : (lex value).IsChain fun token next => token.mayPrecede (names value) next = true
  ended : endsNames (lex value) = true

instance (value : Text) : Decidable (IsStable value) :=
  decidable_of_iff
    ((lex value).IsChain (fun token next => token.mayPrecede (names value) next = true) ∧
      endsNames (lex value) = true)
    ⟨fun both => ⟨both.1, both.2⟩, fun stable => ⟨stable.apart, stable.ended⟩⟩

theorem ne_nil_of_mem_lex {value : Text} {token : Token} (member : token ∈ lex value) :
    token.grains ≠ [] := by
  obtain ⟨rest, leads⟩ := exists_leads_of_mem_lex member
  cases token with
  | plain run => simpa [Token.grains] using leads.1
  | _ => simp [Token.grains]

/-- A relation between neighbours that holds around plain text holds in the grains of a value
exactly if it holds in its tokens. -/
theorem isChain_grains_iff {related : Token → Token → Prop} (value : Text)
    (plain_left : ∀ text token, related (.plain text) token)
    (plain_right : ∀ token text, related token (.plain text)) :
    (grains value).IsChain related ↔ (lex value).IsChain related := by
  have nonempty : [] ∉ (lex value).map Token.grains := by
    intro member
    obtain ⟨token, member, empty⟩ := List.mem_map.mp member
    exact ne_nil_of_mem_lex member empty
  have inside : ∀ tokens ∈ (lex value).map Token.grains, tokens.IsChain related := by
    intro tokens member
    obtain ⟨token, _, rfl⟩ := List.mem_map.mp member
    cases token with
    | plain text =>
        rw [Token.grains, List.isChain_map]
        exact List.isChain_iff_getElem.mpr fun _ _ => plain_left _ _
    | _ => exact .singleton _
  have across : ∀ token next : Token,
      (∀ last ∈ token.grains.getLast?, ∀ first ∈ next.grains.head?, related last first) ↔
        related token next := by
    intro token next
    have plain_grain : ∀ {text grain}, grain ∈ (Token.plain text).grains →
        ∃ other, grain = .plain other := by
      intro text grain member
      obtain ⟨c, _, rfl⟩ := List.mem_map.mp member
      exact ⟨[c], rfl⟩
    cases token with
    | plain text =>
        refine iff_of_true (fun last is_last first _ => ?_) (plain_left _ _)
        obtain ⟨other, rfl⟩ := plain_grain (List.mem_of_getLast? is_last)
        exact plain_left _ _
    | _ =>
        cases next with
        | plain text =>
            refine iff_of_true (fun last _ first is_first => ?_) (plain_right _ _)
            obtain ⟨other, rfl⟩ := plain_grain (List.mem_of_head? is_first)
            exact plain_right _ _
        | _ => simp [Token.grains]
  rw [grains, List.flatMap_def, List.isChain_flatten nonempty, List.isChain_map,
    and_iff_right inside]
  exact List.IsChain.iff across

/-- Names are ended in the grains of a value exactly if they are in its tokens. -/
theorem endsNames_grains (value : Text) : endsNames (grains value) = endsNames (lex value) := by
  have plain_skipped : ∀ (text : Text) (rest : List Token),
      endsNames (text.map (fun c => .plain [c]) ++ rest) = endsNames rest := by
    intro text rest
    induction text with
    | nil => rfl
    | cons c text ih => exact ih
  have any_token : ∀ token : Token, token.grains.any Token.endsName = token.endsName := by
    intro token
    cases token with
    | plain text => simp [Token.grains, Token.endsName, List.any_map, Function.comp_def]
    | _ => simp [Token.grains]
  have any_grains : ∀ tokens : List Token,
      (tokens.flatMap Token.grains).any Token.endsName = tokens.any Token.endsName := by
    intro tokens
    rw [List.any_flatMap]
    exact congrArg tokens.any (funext any_token)
  rw [grains]
  induction lex value with
  | nil => rfl
  | cons token tokens ih =>
      rw [List.flatMap_cons]
      cases token with
      | plain text => rw [Token.grains, plain_skipped, ih]; rfl
      | unclosed name =>
          change endsNames (.unclosed name :: tokens.flatMap Token.grains) = _
          rw [endsNames, endsNames, any_grains, ih]
      | _ => exact ih

theorem isChain_mayPrecede_grains_iff (all : List Text) (value : Text) :
    (grains value).IsChain (fun token next => token.mayPrecede all next = true) ↔
      (lex value).IsChain fun token next => token.mayPrecede all next = true := by
  apply isChain_grains_iff
  · intro text token
    unfold Token.mayPrecede
    split <;> rfl
  · intro token text
    rfl

namespace IsStable

variable {value : Text}

theorem isChain_grains (stable : IsStable value) :
    (grains value).IsChain fun token next => token.mayPrecede (names value) next = true :=
  (isChain_mayPrecede_grains_iff (names value) value).mpr stable.apart

theorem endsNames_grains_eq_true (stable : IsStable value) : endsNames (grains value) = true :=
  (endsNames_grains value).trans stable.ended

end IsStable

theorem IsStable.not_endsOpen {value : Text} (stable : IsStable value) : ¬ EndsOpen value := by
  rintro ⟨front, name, cut⟩
  have ended := stable.endsNames_grains_eq_true
  rw [cut] at ended
  clear cut
  induction front with
  | nil => simp [endsNames] at ended
  | cons token front ih =>
      apply ih
      cases token with
      | unclosed other =>
          rw [List.cons_append, endsNames, Bool.and_eq_true] at ended
          exact ended.2
      | _ => exact ended

/-- Whether a token has no name outside of closed braces. -/
def Token.isBraced : Token → Bool
  | bare _ => false
  | unclosed _ => false
  | _ => true

/-- All names in a value stand in closed braces. -/
def IsBraced (value : Text) : Prop :=
  ∀ token ∈ lex value, token.isBraced = true

instance (value : Text) : Decidable (IsBraced value) :=
  inferInstanceAs (Decidable (∀ token ∈ lex value, token.isBraced = true))

theorem IsBraced.isStable {value : Text} (braced : IsBraced value) : IsStable value where
  apart := by
    rw [List.isChain_iff_forall_rel_of_append_cons_cons]
    intro token next front back cut
    have token_braced := braced token (by simp [cut])
    unfold Token.mayPrecede
    split
    · rfl
    · split
      · simp [Token.isBraced] at token_braced
      · simp [Token.isBraced] at token_braced
      · rfl
  ended := by
    unfold IsBraced at braced
    generalize lex value = tokens at braced
    induction tokens with
    | nil => rfl
    | cons token tokens ih =>
        have ih := ih fun other member => braced other (List.mem_cons_of_mem token member)
        cases token with
        | unclosed name => simpa [Token.isBraced] using braced _ List.mem_cons_self
        | _ => exact ih

/-- The text is sealed, or a name without a closing brace is all that is open at its end. -/
def IsTame (text : Text) : Prop :=
  IsSealed text ∨ ∃ front name, text = front ++ (Token.unclosed name).text ∧ IsClosed front ∧
    IsName name

theorem isClosed_unclosed {name : Text} (named : IsName name) :
    IsClosed (Token.unclosed name).text :=
  isClosed_text_of_fits (show Token.Fits (.unclosed name) [] from ⟨named, by simp⟩) (by simp)

theorem IsTame.isClosed {text : Text} (tame : IsTame text) : IsClosed text := by
  rcases tame with sealed | ⟨front, name, rfl, front_closed, named⟩
  · exact sealed.isClosed
  · exact front_closed.append (isClosed_unclosed named)

theorem IsTame.append_unclosed {text name : Text} (tame : IsTame text) (named : IsName name) :
    IsTame (text ++ (Token.unclosed name).text) :=
  .inr ⟨text, name, rfl, tame.isClosed, named⟩

theorem isSealed_append_dollar {front text : Text} (closed : IsClosed front)
    (sealed : IsSealed ('$' :: text)) : IsSealed (front ++ '$' :: text) := by
  intro rest
  calc grains (front ++ '$' :: text ++ rest)
      = grains (front ++ '$' :: (text ++ rest)) := by rw [List.append_assoc, List.cons_append]
    _ = grains front ++ grains ('$' :: text ++ rest) := grains_append_dollar closed _
    _ = grains front ++ (grains ('$' :: text) ++ grains rest) := by rw [sealed]
    _ = grains (front ++ '$' :: text) ++ grains rest := by
        rw [grains_append_dollar closed, List.append_assoc]

/-- An open name is ended by a sealed text that no name goes on with. -/
theorem isSealed_open_append {front name text : Text} {c : Char} (closed : IsClosed front)
    (named : IsName name) (sealed : IsSealed (c :: text)) (ends : isNameChar c = false) :
    IsSealed (front ++ (Token.unclosed name).text ++ c :: text) := by
  have behind_front : IsSealed ((Token.unclosed name).text ++ c :: text) := by
    by_cases is_brace : c = '}'
    · subst is_brace
      have brace_sealed : IsSealed ['}'] := isSealed_of_plain (by simp [isPlain])
      have text_sealed : IsSealed text := brace_sealed.of_append sealed
      have whole : (Token.unclosed name).text ++ '}' :: text =
          (Token.braced name).text ++ text := by
        simp [Token.text]
      rw [whole]
      exact (isSealed_braced named).append text_sealed
    · have fits : ∀ rest, (Token.unclosed name).Fits (c :: text ++ rest) := by
        intro rest
        refine ⟨named, fun d is_head => ?_⟩
        obtain rfl : c = d := by simpa using is_head
        exact ⟨ends, is_brace⟩
      intro rest
      have alone := fits []
      rw [List.append_nil] at alone
      rw [List.append_assoc, grains_text_append (fits rest), sealed, grains_text_append alone,
        List.cons_append]
  rw [List.append_assoc]
  exact isSealed_append_dollar closed behind_front

/-- Behind a tame text that is not sealed a sealed text stays tame: it goes on with the open name,
or it ends the name. -/
theorem IsTame.append {front text : Text} (tame : IsTame front) (sealed : IsSealed text) :
    IsTame (front ++ text) := by
  rcases tame with front_sealed | ⟨front, name, rfl, front_closed, named⟩
  · exact .inl (front_sealed.append sealed)
  · have split : text = text.takeWhile isNameChar ++ text.dropWhile isNameChar :=
      List.takeWhile_append_dropWhile.symm
    have in_name : ∀ c ∈ text.takeWhile isNameChar, isNameChar c = true :=
      fun c member => List.mem_takeWhile_imp member
    have longer : IsName (name ++ text.takeWhile isNameChar) := named.append in_name
    have regroup : front ++ (Token.unclosed name).text ++ text =
        front ++ (Token.unclosed (name ++ text.takeWhile isNameChar)).text ++
          text.dropWhile isNameChar := by
      conv_lhs => rw [split]
      simp [Token.text]
    have taken_sealed : IsSealed (text.takeWhile isNameChar) :=
      isSealed_of_plain fun c member => isPlain_of_isNameChar (in_name c member)
    rw [split] at sealed
    have left_sealed := taken_sealed.of_append sealed
    rw [regroup]
    cases left : text.dropWhile isNameChar with
    | nil => exact .inr ⟨front, _, List.append_nil _, front_closed, longer⟩
    | cons c rest =>
        have ends : isNameChar c = false :=
          head?_dropWhile_eq_false isNameChar text c (by rw [left]; rfl)
        rw [left] at left_sealed
        exact .inl (isSealed_open_append front_closed longer left_sealed ends)

/-- A token that ends names does so behind every tame text. -/
theorem IsTame.isSealed_append_shield {front : Text} {token : Token} {rest : Text}
    (tame : IsTame front) (fits : token.Fits rest) (ends : token.endsName = true)
    (not_unclosed : ∀ name, token ≠ .unclosed name) : IsSealed (front ++ token.shield) := by
  have sealed := (isInert_shield_of_fits fits not_unclosed).isSealed
  rcases tame with front_sealed | ⟨front, name, rfl, front_closed, named⟩
  · exact front_sealed.append sealed
  · cases token with
    | plain text =>
        obtain ⟨c, rfl, _⟩ := fits
        have ends : isNameChar c = false := by simpa [Token.endsName] using ends
        exact isSealed_open_append front_closed named sealed ends
    | escape c => exact isSealed_open_append front_closed named sealed (by decide)
    | dollar => exact isSealed_open_append front_closed named sealed (by decide)
    | backslash => exact isSealed_open_append front_closed named sealed (by decide)
    | unclosed name => exact absurd rfl (not_unclosed name)
    | _ => simp [Token.endsName, Token.reference?] at ends

theorem reference?_eq_none_of_endsName {token : Token} (ends : token.endsName = true) :
    token.reference? = none := by
  cases token with
  | braced name => simp [Token.endsName, Token.reference?] at ends
  | bare name => simp [Token.endsName, Token.reference?] at ends
  | _ => rfl

/-- Grains that end their names are sealed once sealed texts take the place of their references. -/
theorem isSealed_append_flatMap {replace : Token → Text} {tokens : List Token} {front : Text}
    (tame : IsTame front) (fitting : ∀ token ∈ tokens, ∃ rest, token.Fits rest)
    (shielded : ∀ token ∈ tokens, token.reference? = none → replace token = token.shield)
    (sealed : ∀ token ∈ tokens, token.reference? ≠ none → IsSealed (replace token))
    (ended : endsNames tokens = true)
    (front_ended : IsSealed front ∨ tokens.any Token.endsName = true) :
    IsSealed (front ++ tokens.flatMap replace) := by
  induction tokens generalizing front with
  | nil =>
      rcases front_ended with front_sealed | none_left
      · simpa using front_sealed
      · simp at none_left
  | cons token tokens ih =>
      obtain ⟨rest, fits⟩ := fitting token List.mem_cons_self
      have head_shielded := shielded token List.mem_cons_self
      have head_sealed := sealed token List.mem_cons_self
      rw [List.flatMap_cons, ← List.append_assoc]
      have later {next : Text} (next_tame : IsTame next) (ended : endsNames tokens = true)
          (next_ended : IsSealed next ∨ tokens.any Token.endsName = true) :
          IsSealed (next ++ tokens.flatMap replace) :=
        ih next_tame (fun other member => fitting other (List.mem_cons_of_mem token member))
          (fun other member => shielded other (List.mem_cons_of_mem token member))
          (fun other member => sealed other (List.mem_cons_of_mem token member)) ended next_ended
      by_cases is_unclosed : ∃ name, token = .unclosed name
      · obtain ⟨name, rfl⟩ := is_unclosed
        rw [endsNames, Bool.and_eq_true] at ended
        rw [head_shielded rfl]
        exact later (tame.append_unclosed fits.1) ended.2 (.inr ended.1)
      · have not_unclosed : ∀ name, token ≠ .unclosed name := fun name same =>
          is_unclosed ⟨name, same⟩
        have tokens_ended : endsNames tokens = true := by
          cases token with
          | unclosed name => exact absurd rfl (not_unclosed name)
          | _ => exact ended
        have piece_sealed : IsSealed (replace token) := by
          by_cases unnamed : token.reference? = none
          · rw [head_shielded unnamed]
            exact (isInert_shield_of_fits fits not_unclosed).isSealed
          · exact head_sealed unnamed
        cases ends : token.endsName with
        | true =>
            have unnamed := reference?_eq_none_of_endsName ends
            have now_sealed : IsSealed (front ++ replace token) := by
              rw [head_shielded unnamed]
              exact tame.isSealed_append_shield fits ends not_unclosed
            exact later (.inl now_sealed) tokens_ended (.inl now_sealed)
        | false =>
            refine later (tame.append piece_sealed) tokens_ended ?_
            rcases front_ended with front_sealed | some_ends
            · exact .inl (front_sealed.append piece_sealed)
            · rw [List.any_cons, ends, Bool.false_or] at some_ends
              exact .inr some_ends

private theorem exists_of_endsNames_eq_false {tokens : List Token}
    (not_ended : endsNames tokens = false) :
    ∃ front own back, tokens = front ++ .unclosed own :: back ∧
      ∀ token ∈ back, token.endsName = false := by
  induction tokens with
  | nil => simp [endsNames] at not_ended
  | cons first tokens ih =>
      by_cases later : endsNames tokens = false
      · obtain ⟨front, own, back, rfl, none_ends⟩ := ih later
        exact ⟨first :: front, own, back, rfl, none_ends⟩
      · rw [Bool.not_eq_false] at later
        cases first with
        | unclosed own =>
            rw [endsNames, later, Bool.and_true, List.any_eq_false] at not_ended
            exact ⟨[], own, tokens, rfl, by simpa using not_ended⟩
        | _ => simp [endsNames, later] at not_ended

/-- A value that is not stable has a name that what replaces the reference behind it goes on with
while another reference waits, or a name that is left open in the end. -/
theorem exists_of_not_isStable {value : Text} (unstable : ¬ IsStable value) :
    (∃ front own next back name other, grains value = front ++ own :: next :: back ∧
      next.reference? = some name ∧ other ∈ names value ∧ other ≠ name ∧
      (own = .bare other ∨ ∃ open_name, own = .unclosed open_name)) ∨
    ∃ front own back, grains value = front ++ .unclosed own :: back ∧
      ∀ token ∈ back, token.endsName = false := by
  by_cases ended : endsNames (lex value) = true
  · left
    have not_apart : ¬ (lex value).IsChain fun token next =>
        token.mayPrecede (names value) next = true := fun apart => unstable ⟨apart, ended⟩
    rw [← isChain_mayPrecede_grains_iff, List.isChain_iff_forall_rel_of_append_cons_cons]
      at not_apart
    push Not at not_apart
    obtain ⟨own, next, front, back, cut, not_precedes⟩ := not_apart
    unfold Token.mayPrecede at not_precedes
    split at not_precedes
    · simp at not_precedes
    · rename_i name named
      split at not_precedes
      · rename_i other
        have differ : other ≠ name := by simpa using not_precedes
        have is_grain : Token.bare other ∈ grains value := by simp [cut]
        have member : other ∈ names value := mem_names_of_mem_grains is_grain rfl
        exact ⟨front, _, next, back, name, other, cut, named, member, differ, .inl rfl⟩
      · rename_i open_name
        have some_differs : ∃ other ∈ names value, other ≠ name := by simpa using not_precedes
        obtain ⟨other, member, differ⟩ := some_differs
        exact ⟨front, _, next, back, name, other, cut, named, member, differ, .inr ⟨open_name, rfl⟩⟩
      · simp at not_precedes
  · right
    rw [Bool.not_eq_true, ← endsNames_grains] at ended
    exact exists_of_endsNames_eq_false ended

end Value
end EnvFile
