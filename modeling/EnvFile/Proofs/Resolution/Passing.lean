import EnvFile.Proofs.Resolution.Splicing
import EnvFile.Proofs.Value.NormalForm

/-!
# Pass after pass

While references are resolved, passes go over a value again and again, and each of them shields what
it copies.  A pass writes each escape of a value down once, as it is (`escapes_text_splice`), so the
escapes come through any number of passes in their order (`sublist_escapes_passAll`).  What has been
shielded once is normal, and no later pass changes it, whatever is bound by then
(`passAll_of_isNormal`).  The main statement puts this together with what shielding does to a text
alone (`normalizes_shield`).
-/

namespace EnvFile

open Value

namespace Bindings

variable {bindings : Bindings} {unready : Unready}

/-- What is left of a value after one pass behind the other, each under bindings of its own. -/
def passAll : List (Bindings × Unready) → Text → Text
  | [], value => value
  | (bindings, unready) :: passes, value => passAll passes (bindings.splice unready value).text

/-- The escapes that one pass makes of a token.  A reference that is replaced leaves those of the
text in its place, and one that waits leaves none; any other token is shielded. -/
def escapesFor (bindings : Bindings) (token : Token) : List Char :=
  match token.reference? with
  | none => token.shieldedEscapes
  | some name =>
      match bindings.find? name with
      | none => []
      | some target => if target.isComplete then escapes target.spliced else []

theorem escapes_spliceToken {token : Token} {rest : Text} (fits : token.Fits rest) :
    escapes (bindings.spliceToken unready token).text = bindings.escapesFor token := by
  cases named : token.reference? with
  | none =>
      rw [spliceToken_of_reference?_eq_none named, escapes_shield_of_fits fits]
      simp only [escapesFor, named]
  | some name =>
      have written := escapes_of_notMem (notMem_text_of_reference? fits named)
      simp only [spliceToken, escapesFor, named]
      cases bindings.find? name with
      | none => rfl
      | some target =>
          cases complete : target.isComplete with
          | true => simp only [complete, ↓reduceIte]
          | false =>
              simp only [complete, Bool.false_eq_true, ↓reduceIte]
              cases unready with
              | keep => exact written
              | erase => rfl

/-- The escapes of a spliced value are those that the pass makes of each token. -/
theorem escapes_text_splice (bindings : Bindings) (unready : Unready) (value : Text) :
    escapes (bindings.splice unready value).text =
      (lex value).flatMap bindings.escapesFor := by
  rw [text_splice]
  apply escapes_flatMap_grains
  · intro token rest fits
    exact ⟨(isClosed_spliceToken bindings unready fits).1, escapes_spliceToken fits⟩
  · intro run
    rfl

theorem sublist_escapes_splice (bindings : Bindings) (unready : Unready) (value : Text) :
    (escapes value).Sublist (escapes (bindings.splice unready value).text) := by
  rw [escapes_text_splice]
  exact sublist_escapes_flatMap (fun c => rfl) value

/-- Passes keep the escapes of a value, in their order. -/
theorem sublist_escapes_passAll (passes : List (Bindings × Unready)) (value : Text) :
    (escapes value).Sublist (escapes (passAll passes value)) := by
  induction passes generalizing value with
  | nil => exact List.Sublist.refl _
  | cons pass passes ih =>
      exact (sublist_escapes_splice pass.1 pass.2 value).trans (ih _)

theorem text_splice_of_names_eq_nil {value : Text} (unnamed : names value = []) :
    (bindings.splice unready value).text = shield value := by
  rw [splice, Splice.text_join, List.flatMap_map, shield]
  apply List.flatMap_congr
  intro token member
  rw [spliceToken_of_reference?_eq_none (List.filterMap_eq_nil_iff.mp unnamed token member)]

/-- Passes change nothing in a normal value. -/
theorem passAll_of_isNormal {value : Text} (normal : IsNormal value)
    (passes : List (Bindings × Unready)) : passAll passes value = value := by
  induction passes with
  | nil => rfl
  | cons pass passes ih =>
      have pass_eq : (pass.1.splice pass.2 value).text = value := by
        rw [text_splice_of_names_eq_nil (isNormal_iff.mp normal).1, shield_eq_self_iff.mpr normal]
      rw [passAll, pass_eq, ih]

end Bindings

namespace Value

/-- The second text is the normal form of the first one and holds all its escapes. -/
structure Normalizes (text shielded : Text) : Prop where
  /-- Nothing in it is a reference, a lone dollar or a lone backslash. -/
  isNormal : IsNormal shielded
  /-- Only a normal text is its own normal form. -/
  eq_self_iff : shielded = text ↔ IsNormal text
  /-- A second shield changes nothing. -/
  shield_eq : shield shielded = shielded
  /-- Nor does any pass that goes over the text later. -/
  passAll_eq : ∀ passes, Bindings.passAll passes shielded = shielded
  /-- The escapes of the text are kept in their order. -/
  escapes_sublist : (escapes text).Sublist (escapes shielded)
  /-- Between them stand the dollars and the backslash that a backslash was put in front of. -/
  escapes_eq : escapes shielded = (lex text).flatMap Token.shieldedEscapes
  /-- Each escape stays in its place. -/
  lex_eq : ∀ front c back, lex text = front ++ .escape c :: back →
    lex shielded =
      lex (front.flatMap Token.shield) ++ .escape c :: lex (back.flatMap Token.shield)
  /-- A pass over the text writes each escape down once, as any other shielded token, and adds only
  those of the texts that it splices in. -/
  splice_eq : ∀ (bindings : Bindings) (unready : Unready),
    escapes (bindings.splice unready text).text = (lex text).flatMap bindings.escapesFor
  /-- The escapes of the text come through all passes over it, in their order. -/
  passAll_sublist : ∀ passes, (escapes text).Sublist (escapes (Bindings.passAll passes text))

/-- Shielding brings a text into normal form, once and for all, and doubles none of its escapes. -/
theorem normalizes_shield (text : Text) : Normalizes text (shield text) where
  isNormal := isNormal_shield text
  eq_self_iff := shield_eq_self_iff
  shield_eq := shield_shield text
  passAll_eq := Bindings.passAll_of_isNormal (isNormal_shield text)
  escapes_sublist := sublist_escapes_shield text
  escapes_eq := escapes_shield text
  lex_eq _ _ _ := lex_shield_of_lex_eq
  splice_eq bindings unready := bindings.escapes_text_splice unready text
  passAll_sublist passes := Bindings.sublist_escapes_passAll passes text

end Value
end EnvFile
