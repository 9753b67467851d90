import EnvFile.Proofs.Value.Seam
import EnvFile.Proofs.Value.Segments

/-!
# Protected texts next to other texts

A protected text leaves the text behind it alone: what that refers to and what it decodes to stay as
they are.  The same holds of a shielded text, except that shielding does not escape the dollar of a
name that no closing brace follows.  If such a name stands at the end of the text and the text
behind closes it, the two refer to one name more (`referrers_behind_protection`).
-/

namespace EnvFile
namespace Value

/-- Whether an occurrence is a reference. -/
def Occurrence.isReference (occurrence : Occurrence) : Bool :=
  occurrence.reference?.isSome

/-- The references of a value with their ranges and places. -/
def referrers (value : Text) (origin : Position) : List Occurrence :=
  (occurrences value origin).filter Occurrence.isReference

/-- The occurrence in a value with that many bytes more in front. -/
def Occurrence.moveBy (bytes : Nat) (occurrence : Occurrence) : Occurrence :=
  { occurrence with start := bytes + occurrence.start, stop := bytes + occurrence.stop }

/-- The reference that a shielded text and the text behind it make together, if a brace there closes
the name that the text ends in. -/
def joinedReferrers (text back : Text) (origin : Position) : List Occurrence :=
  match (lex text).getLast?, back.dropWhile isNameChar with
  | some (.unclosed name), '}' :: _ =>
      let joined := name ++ back.takeWhile isNameChar
      [(Token.braced joined).occurrence (.reference joined) 0 origin
        ((lex text).dropLast.flatMap Token.shield)]
  | _, _ => []

theorem occurrencesOf_add (bytes start : Nat) (position : Position) (tokens : List Token) :
    occurrencesOf (bytes + start) position tokens =
      (occurrencesOf start position tokens).map (Occurrence.moveBy bytes) := by
  induction tokens generalizing start position with
  | nil => rfl
  | cons token rest ih =>
      rw [occurrencesOf_cons, occurrencesOf_cons, List.map_append, Nat.add_assoc, ih]
      cases token.meaning? with
      | none => rfl
      | some meaning => simp [Token.occurrence, Occurrence.moveBy, Nat.add_assoc]

/-- Plain runs hold no occurrence, whether they are cut into characters or not. -/
theorem occurrencesOf_grains (start : Nat) (position : Position) (text : Text) :
    occurrencesOf start position (grains text) = occurrencesOf start position (lex text) := by
  unfold grains
  induction lex text generalizing start position with
  | nil => rfl
  | cons token tokens ih =>
      have text_eq : token.grains.flatMap Token.text = token.text := by
        cases token <;> simp [Token.grains, Token.text, List.flatMap_map]
      have alone : occurrencesOf start position token.grains =
          occurrencesOf start position [token] := by
        cases token with
        | plain run =>
            refine (occurrencesOf_eq_nil (fun grain member => ?_) start position).trans rfl
            obtain ⟨c, _, rfl⟩ := List.mem_map.mp member
            rfl
        | _ => rfl
      have split := occurrencesOf_append start position [token] tokens
      rw [List.singleton_append, List.flatMap_singleton] at split
      rw [List.flatMap_cons, occurrencesOf_append, text_eq, alone, ih, split]

theorem referrers_append {front back : Text} {tokens : List Token}
    (cut : grains (front ++ back) = tokens ++ grains back) (origin : Position) :
    referrers (front ++ back) origin =
      (occurrencesOf 0 origin tokens).filter Occurrence.isReference ++
        (referrers back (origin.after front)).map (Occurrence.moveBy front.utf8Length) := by
  have text_eq : tokens.flatMap Token.text = front := by
    have whole := flatMap_text_grains (front ++ back)
    rw [cut, List.flatMap_append, flatMap_text_grains] at whole
    exact List.append_cancel_right whole
  rw [referrers, occurrences, ← occurrencesOf_grains, cut, occurrencesOf_append,
    List.filter_append, text_eq, Nat.add_comm, occurrencesOf_add, occurrencesOf_grains,
    List.filter_map]
  rfl

theorem filter_isReference_eq_nil {tokens : List Token}
    (unnamed : tokens.filterMap Token.reference? = []) (start : Nat) (position : Position) :
    (occurrencesOf start position tokens).filter Occurrence.isReference = [] := by
  rw [List.filter_eq_nil_iff]
  intro occurrence member
  obtain ⟨front, token, back, meaning, rfl, means, rfl⟩ := mem_occurrencesOf_iff.mp member
  have no_reference : token.reference? = none :=
    List.filterMap_eq_nil_iff.mp unnamed token (by simp)
  cases token with
  | escape c =>
      obtain ⟨decoded, _, rfl⟩ := Option.map_eq_some_iff.mp means
      exact Bool.false_ne_true
  | braced name => exact nomatch no_reference
  | bare name => exact nomatch no_reference
  | _ => exact nomatch means

theorem referrers_append_of_names_eq_nil {front back : Text}
    (cut : grains (front ++ back) = grains front ++ grains back) (unnamed : names front = [])
    (origin : Position) :
    referrers (front ++ back) origin =
      (referrers back (origin.after front)).map (Occurrence.moveBy front.utf8Length) := by
  rw [← filterMap_reference?_grains] at unnamed
  rw [referrers_append cut, filter_isReference_eq_nil unnamed, List.nil_append]

theorem map_moveBy_map_moveBy (bytes further : Nat) (found : List Occurrence) :
    (found.map (Occurrence.moveBy further)).map (Occurrence.moveBy bytes) =
      found.map (Occurrence.moveBy (bytes + further)) := by
  rw [List.map_map]
  apply List.map_congr_left
  intro occurrence _
  simp [Occurrence.moveBy, Nat.add_assoc]

theorem referrers_text_append {token : Token} (fits : token.Fits []) (not_dollar : token ≠ .dollar)
    (not_backslash : token ≠ .backslash) (back : Text) (origin : Position) :
    referrers (token.text ++ back) origin =
      (occurrencesOf 0 origin [(token.takeUp back).1]).filter Occurrence.isReference ++
        (referrers back (origin.after token.text)).map
          (Occurrence.moveBy token.text.utf8Length) := by
  obtain ⟨fits', taken, plain, back_eq, text_eq⟩ := fits.takeUp not_dollar not_backslash back
  have whole_eq : token.text ++ back = (token.takeUp back).1.text ++ (token.takeUp back).2 := by
    rw [text_eq, List.append_assoc, ← back_eq]
  have inert := isInert_of_plain plain
  have cut : grains ((token.takeUp back).1.text ++ (token.takeUp back).2) =
      [(token.takeUp back).1] ++ grains (token.takeUp back).2 := grains_text_append fits'
  have behind := referrers_append_of_names_eq_nil (inert.isSealed (token.takeUp back).2)
    inert.names_eq_nil (origin.after token.text)
  rw [← back_eq] at behind
  rw [whole_eq, referrers_append cut, behind, map_moveBy_map_moveBy, text_eq, Position.after_append,
    Text.utf8Length_append]

/-- A text with an open end ends in a name without a closing brace. -/
theorem EndsOpen.exists_getLast? {text : Text} (ends_open : EndsOpen text) :
    ∃ name, (lex text).getLast? = some (.unclosed name) := by
  obtain ⟨front, name, cut⟩ := ends_open
  refine ⟨name, ?_⟩
  have last_eq : (grains text).getLast? = some (.unclosed name) := by simp [cut]
  rcases List.eq_nil_or_concat' (lex text) with empty | ⟨tokens, last, lex_eq⟩
  · simp [grains, empty] at last_eq
  · have whole := isCut_lex text
    rw [lex_eq] at whole
    rw [grains, lex_eq, List.flatMap_append, List.flatMap_singleton] at last_eq
    rw [lex_eq, List.getLast?_concat]
    cases last with
    | plain run =>
        have nonempty : run ≠ [] := whole.of_append.2.1.1
        simp [Token.grains, List.getLast?_append, List.getLast?_eq_some_getLast nonempty] at last_eq
    | unclosed other => simpa [Token.grains] using last_eq
    | _ => simp [Token.grains] at last_eq

/-- The name at an open end is joined with what the text behind takes to close it. -/
theorem joinedReferrers_of_lex_eq {text name : Text} {tokens : List Token}
    (lex_eq : lex text = tokens ++ [.unclosed name]) (back : Text) (origin : Position) :
    joinedReferrers text back origin =
      ((occurrencesOf 0 (origin.after (tokens.flatMap Token.shield))
          [((Token.unclosed name).takeUp back).1]).filter Occurrence.isReference).map
        (Occurrence.moveBy (Text.utf8Length (tokens.flatMap Token.shield))) := by
  have last_eq : (lex text).getLast? = some (.unclosed name) := by simp [lex_eq]
  rcases Token.takeUp_unclosed name back with ⟨rest, closes, eq⟩ | ⟨no_brace, eq⟩
  · simp only [joinedReferrers, last_eq, closes]
    rw [eq, lex_eq, List.dropLast_concat]
    simp only [occurrencesOf, Token.meaning?, Token.occurrence, Nat.zero_add]
    rfl
  · have nothing : joinedReferrers text back origin = [] := by
      unfold joinedReferrers
      split
      · rename_i rest _ closes
        exact absurd rfl (no_brace '}' (by simp [closes]))
      · rfl
    rw [nothing, eq]
    rfl

/-- What a shielded text and the text behind it refer to: what that text does, and the name that it
closes, if any. -/
theorem referrers_shield_append (text back : Text) (origin : Position) :
    referrers (shield text ++ back) origin =
      joinedReferrers text back origin ++
        (referrers back (origin.after (shield text))).map
          (Occurrence.moveBy (shield text).utf8Length) := by
  by_cases is_open : ∃ name, (lex text).getLast? = some (.unclosed name)
  · obtain ⟨name, last_eq⟩ := is_open
    obtain ⟨tokens, lex_eq⟩ := List.getLast?_eq_some_iff.mp last_eq
    have whole := isCut_lex text
    rw [lex_eq] at whole
    have named : IsName name := whole.of_append.2.1.1
    have fits : (Token.unclosed name).Fits [] := ⟨named, by simp⟩
    have front_eq : tokens.flatMap Token.shield = shield (tokens.flatMap Token.text) := by
      rw [shield, whole.of_append.1.lex_flatMap_text]
    have shield_eq : shield text =
        shield (tokens.flatMap Token.text) ++ (Token.unclosed name).text := by
      rw [shield, lex_eq, List.flatMap_append, front_eq, List.flatMap_singleton]
      rfl
    -- the dollar of the name is cut from the shielded text in front
    have cut : grains (shield (tokens.flatMap Token.text) ++
          ((Token.unclosed name).text ++ back)) =
        grains (shield (tokens.flatMap Token.text)) ++
          grains ((Token.unclosed name).text ++ back) :=
      grains_append_dollar (isClosed_shield _) _
    rw [shield_eq, List.append_assoc,
      referrers_append_of_names_eq_nil cut (names_shield _) origin,
      referrers_text_append fits (by simp) (by simp), List.map_append, map_moveBy_map_moveBy,
      joinedReferrers_of_lex_eq lex_eq, front_eq, Position.after_append, Text.utf8Length_append]
  · have inert := isInert_shield fun ends_open => is_open ends_open.exists_getLast?
    have nothing : joinedReferrers text back origin = [] := by
      unfold joinedReferrers
      split
      · rename_i name _ last_eq _
        exact absurd ⟨name, last_eq⟩ is_open
      · rfl
    rw [nothing, List.nil_append]
    exact referrers_append_of_names_eq_nil (inert.isSealed back) inert.names_eq_nil origin

/-- The references behind a protected text are those of the text behind it, and so are those behind
a shielded text but for a name that the two make together. -/
theorem referrers_behind_protection (text back : Text) (origin : Position) :
    referrers (protect text ++ back) origin =
        (referrers back (origin.after (protect text))).map
          (Occurrence.moveBy (protect text).utf8Length) ∧
      referrers (shield text ++ back) origin =
        joinedReferrers text back origin ++
          (referrers back (origin.after (shield text))).map
            (Occurrence.moveBy (shield text).utf8Length) := by
  have inert := isInert_protect text
  constructor
  · exact referrers_append_of_names_eq_nil (inert.isSealed back) inert.names_eq_nil origin
  · exact referrers_shield_append text back origin

/-- A brace behind a shielded name without one makes a reference of it, so shielded texts do not
always leave the references behind them alone. -/
theorem not_referrers_shield_append :
    referrers (shield "$\x7bA".toList ++ ['}']) {} =
        [{ meaning := .reference ['A'], text := "${A}".toList, start := 0, stop := 4,
            position := {} }] ∧
      referrers ['}'] (({} : Position).after (shield "$\x7bA".toList)) = [] ∧
      ¬ ∀ (text back : Text) (origin : Position), referrers (shield text ++ back) origin =
        (referrers back (origin.after (shield text))).map
          (Occurrence.moveBy (shield text).utf8Length) := by
  have joined : referrers (shield "$\x7bA".toList ++ ['}']) {} =
      [{ meaning := .reference ['A'], text := "${A}".toList, start := 0, stop := 4,
          position := {} }] := by decide +kernel
  have alone : referrers ['}'] (({} : Position).after (shield "$\x7bA".toList)) = [] := by
    decide +kernel
  refine ⟨joined, alone, fun law => ?_⟩
  have absent := law "$\x7bA".toList ['}'] {}
  rw [joined, alone] at absent
  exact absurd absent (by simp)

/-- Decoding undoes protection, and shielding changes nothing that is decoded, whatever stands
behind. -/
theorem decode_behind_protection (text back : Text) :
    decode (protect text ++ back) = text ++ decode back ∧
      decode (shield text ++ back) = decode text ++ decode back ∧
      decode (protect text) = text ∧ decode (shield text) = decode text :=
  ⟨decode_protect_append text back, decode_shield_append text back, decode_protect text,
    decode_shield text⟩

end Value
end EnvFile
