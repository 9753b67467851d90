import EnvFile.Proofs.Value.Decoding

/-!
# Sealed texts

A text is sealed if whatever stands behind it is cut into grains on its own: no name, brace or
backslash at its end takes up what follows.  Protected texts are sealed, and so are shielded ones
that do not end in a name which a brace could still close.  As they refer to nothing, they can be
spliced into a value without a trace (`isInert_protect`, `isInert_shield`).
-/

namespace EnvFile
namespace Value

/-- What stands behind the text is cut into grains on its own. -/
def IsSealed (text : Text) : Prop :=
  ∀ rest, grains (text ++ rest) = grains text ++ grains rest

theorem isSealed_nil : IsSealed [] := by
  intro rest
  simp

theorem IsSealed.append {front back : Text} (front_sealed : IsSealed front)
    (back_sealed : IsSealed back) : IsSealed (front ++ back) := by
  intro rest
  rw [List.append_assoc, front_sealed, back_sealed, front_sealed, List.append_assoc]

theorem IsSealed.of_append {front back : Text} (front_sealed : IsSealed front)
    (both_sealed : IsSealed (front ++ back)) : IsSealed back := by
  intro rest
  have whole := both_sealed rest
  rw [List.append_assoc, front_sealed, front_sealed, List.append_assoc] at whole
  exact List.append_cancel_left whole

theorem isSealed_of_plain {text : Text} (plain : ∀ c ∈ text, isPlain c = true) :
    IsSealed text := by
  intro rest
  have alone := grains_append_plain plain []
  rw [grains_nil, List.append_nil, List.append_nil] at alone
  rw [grains_append_plain plain, alone]

theorem isSealed_escape (c : Char) : IsSealed ['\\', c] := by
  intro rest
  simp

theorem isSealed_braced {name : Text} (named : IsName name) :
    IsSealed (Token.braced name).text := by
  intro rest
  have alone := grains_text_append (show Token.Fits (.braced name) [] from named)
  rw [grains_nil, List.append_nil] at alone
  rw [grains_text_append (show Token.Fits (.braced name) rest from named), alone]
  rfl

theorem IsSealed.isClosed {text : Text} (sealed : IsSealed text) : IsClosed text := by
  intro rest
  rw [← flatMap_decode_grains, sealed, List.flatMap_append, flatMap_decode_grains,
    flatMap_decode_grains]

theorem IsSealed.names_append {front : Text} (sealed : IsSealed front) (back : Text) :
    names (front ++ back) = names front ++ names back := by
  rw [← filterMap_reference?_grains, sealed, List.filterMap_append, filterMap_reference?_grains,
    filterMap_reference?_grains]

theorem grains_append_dollar {text : Text} (closed : IsClosed text) (rest : Text) :
    grains (text ++ '$' :: rest) = grains text ++ grains ('$' :: rest) := by
  refine grains_induction (motive := fun text => .backslash ∉ grains text →
    grains (text ++ '$' :: rest) = grains text ++ grains ('$' :: rest)) text ?_ ?_
    closed.notMem_backslash
  · simp
  · intro token tail fits ih no_backslash
    rw [grains_text_append fits] at no_backslash ⊢
    obtain ⟨not_first, not_later⟩ := List.ne_and_not_mem_of_not_mem_cons no_backslash
    have special : isPlain '$' = false := by decide
    have fits' := fits.append_special (fun same => not_first same.symm) special rest
    rw [List.append_assoc, grains_text_append fits', ih not_later, List.cons_append]

/-- The text ends in a dollar, an opening brace and a name. -/
def EndsOpen (text : Text) : Prop :=
  ∃ front name, grains text = front ++ [.unclosed name]

theorem EndsOpen.of_rest {token : Token} {rest : Text} (fits : token.Fits rest)
    (rest_open : EndsOpen rest) : EndsOpen (token.text ++ rest) := by
  obtain ⟨front, name, cut⟩ := rest_open
  exact ⟨token :: front, name, by rw [grains_text_append fits, cut, List.cons_append]⟩

/-- A brace closes the name at an open end, and a sealed text does not let it. -/
theorem IsSealed.not_endsOpen {text : Text} (sealed : IsSealed text) : ¬ EndsOpen text := by
  rintro ⟨front, name, cut⟩
  have closes : grains (text ++ ['}']) = front ++ [.braced name] := by
    clear sealed
    induction front generalizing text with
    | nil =>
        obtain ⟨rest, rfl, rest_cut, fits⟩ := exists_of_grains_eq_cons cut
        obtain rfl := grains_eq_nil_iff.mp rest_cut
        have closed := grains_text_append (show Token.Fits (.braced name) [] from fits.1)
        simpa [Token.text] using closed
    | cons token front ih =>
        obtain ⟨rest, rfl, rest_cut, fits⟩ := exists_of_grains_eq_cons cut
        have not_backslash : token ≠ .backslash := by
          rintro rfl
          obtain rfl : rest = [] := fits
          simp at rest_cut
        have fits' : token.Fits (rest ++ ['}']) := by
          cases rest with
          | nil => simp at rest_cut
          | cons c rest =>
              by_cases is_dollar : token = .dollar
              · subst is_dollar
                have before := (dollarToken_eq_dollar_iff (c :: rest)).mp fits
                refine (dollarToken_eq_dollar_iff _).mpr ⟨by simpa using before.1, ?_⟩
                intro inner same
                obtain ⟨rfl, rfl⟩ := List.cons.inj same
                cases rest with
                | nil => simp [isNameStart]
                | cons d rest => simpa using before.2 _ rfl
              · exact fits.of_head is_dollar not_backslash fun d is_head => .inr is_head
        rw [List.append_assoc, grains_text_append fits', ih rest_cut, List.cons_append]
  have apart := sealed ['}']
  rw [closes, cut, grains_cons_plain (by decide), grains_nil] at apart
  have lengths := congrArg List.length apart
  simp at lengths

theorem shield_text_append {token : Token} {rest : Text} (fits : token.Fits rest) :
    shield (token.text ++ rest) = token.shield ++ shield rest := by
  rw [← flatMap_shield_grains, grains_text_append fits, List.flatMap_cons, flatMap_shield_grains]

theorem names_text_append {token : Token} {rest : Text} (fits : token.Fits rest) :
    names (token.text ++ rest) = token.reference?.toList ++ names rest := by
  rw [← filterMap_reference?_grains, grains_text_append fits, List.filterMap_cons,
    filterMap_reference?_grains]
  cases token.reference? <;> rfl

@[simp]
theorem names_nil : names [] = [] := by
  simp [← filterMap_reference?_grains]

@[simp]
theorem shield_nil : shield [] = [] := by
  simp [← flatMap_shield_grains]

theorem IsSealed.shield_append {front : Text} (sealed : IsSealed front) (back : Text) :
    shield (front ++ back) = shield front ++ shield back := by
  rw [← flatMap_shield_grains, sealed, List.flatMap_append, flatMap_shield_grains,
    flatMap_shield_grains]

/-- The text is sealed, refers to nothing and needs no shield. -/
structure IsInert (text : Text) : Prop where
  isSealed : IsSealed text
  names_eq_nil : names text = []
  shield_eq_self : shield text = text

theorem isInert_nil : IsInert [] :=
  ⟨isSealed_nil, names_nil, shield_nil⟩

theorem IsInert.append {front back : Text} (front_inert : IsInert front)
    (back_inert : IsInert back) : IsInert (front ++ back) where
  isSealed := front_inert.isSealed.append back_inert.isSealed
  names_eq_nil := by
    rw [front_inert.isSealed.names_append, front_inert.names_eq_nil, back_inert.names_eq_nil]
    rfl
  shield_eq_self := by
    rw [front_inert.isSealed.shield_append, front_inert.shield_eq_self, back_inert.shield_eq_self]

theorem isInert_of_plain {text : Text} (plain : ∀ c ∈ text, isPlain c = true) : IsInert text := by
  induction text with
  | nil => exact isInert_nil
  | cons c text ih =>
      have alone : ∀ d ∈ [c], isPlain d = true := by
        simpa using plain c List.mem_cons_self
      have fits : (Token.plain [c]).Fits [] := ⟨c, rfl, plain c List.mem_cons_self⟩
      have head_inert : IsInert [c] := {
        isSealed := isSealed_of_plain alone
        names_eq_nil := by simpa [Token.text, Token.reference?] using names_text_append fits
        shield_eq_self := by simpa [Token.text, Token.shield] using shield_text_append fits }
      exact head_inert.append (ih fun d member => plain d (List.mem_cons_of_mem c member))

theorem isInert_escape (c : Char) : IsInert ['\\', c] where
  isSealed := isSealed_escape c
  names_eq_nil := by
    have fits : (Token.escape c).Fits [] := trivial
    simpa [Token.text, Token.reference?] using names_text_append fits
  shield_eq_self := by
    have fits : (Token.escape c).Fits [] := trivial
    simpa [Token.text, Token.shield] using shield_text_append fits

/-- A protected text can be spliced. -/
theorem isInert_protect (text : Text) : IsInert (protect text) := by
  induction text with
  | nil => exact isInert_nil
  | cons c text ih =>
      have split : protect (c :: text) =
          (if isPlain c then [c] else ['\\', c]) ++ protect text := by
        simp [protect]
      rw [split]
      by_cases plain : isPlain c = true
      · simp only [plain, ↓reduceIte]
        exact (isInert_of_plain (by simpa using plain)).append ih
      · simp only [plain]
        exact (isInert_escape c).append ih

theorem exists_shield_eq {token : Token} {rest name : Text} (fits : token.Fits rest)
    (named : token.reference? = some name) :
    ∃ tail, token.shield = ['\\', '$'] ++ tail ∧ ∀ c ∈ tail, isPlain c = true := by
  cases token with
  | braced other =>
      refine ⟨'{' :: (other ++ ['}']), rfl, fun c member => ?_⟩
      simp only [List.mem_cons, List.mem_append, List.not_mem_nil, or_false] at member
      rcases member with rfl | member | rfl
      · decide
      · exact isPlain_of_mem_name fits c member
      · decide
  | bare other =>
      refine ⟨other, rfl, fun c member => ?_⟩
      exact isPlain_of_isNameChar (isNameChar_of_isWordChar (isWordChar_of_mem fits.1 member))
  | _ => simp [Token.reference?] at named

/-- A shielded grain is inert unless it is a name without a closing brace. -/
theorem isInert_shield_of_fits {token : Token} {rest : Text} (fits : token.Fits rest)
    (closed : ∀ name, token ≠ .unclosed name) : IsInert token.shield := by
  cases token with
  | braced name =>
      obtain ⟨tail, shield_eq, plain⟩ := exists_shield_eq fits rfl
      rw [shield_eq]
      exact (isInert_escape '$').append (isInert_of_plain plain)
  | bare name =>
      obtain ⟨tail, shield_eq, plain⟩ := exists_shield_eq fits rfl
      rw [shield_eq]
      exact (isInert_escape '$').append (isInert_of_plain plain)
  | escape c => exact isInert_escape c
  | plain text =>
      obtain ⟨c, rfl, plain⟩ := fits
      have alone : ∀ d ∈ [c], isPlain d = true := by simpa using plain
      exact isInert_of_plain alone
  | dollar => exact isInert_escape '$'
  | backslash => exact isInert_escape '\\'
  | unclosed name => exact absurd rfl (closed name)

theorem names_shield_of_fits {token : Token} {rest : Text} (fits : token.Fits rest) :
    names token.shield = [] := by
  by_cases is_unclosed : ∃ name, token = .unclosed name
  · obtain ⟨name, rfl⟩ := is_unclosed
    have alone : (Token.unclosed name).Fits [] := ⟨fits.1, by simp⟩
    have named := names_text_append alone
    rw [List.append_nil, names_nil] at named
    exact named
  · exact (isInert_shield_of_fits fits fun name same => is_unclosed ⟨name, same⟩).names_eq_nil

theorem head?_shield {text : Text} (nonempty : text ≠ []) :
    ∃ c, (shield text).head? = some c ∧ (c = '\\' ∨ c ∈ text.head?) := by
  cases cut : grains text with
  | nil => exact absurd (grains_eq_nil_iff.mp cut) nonempty
  | cons token tokens =>
      obtain ⟨rest, rfl, _, fits⟩ := exists_of_grains_eq_cons cut
      rw [shield_text_append fits]
      cases token with
      | plain text =>
          obtain ⟨c, rfl, _⟩ := fits
          exact ⟨c, rfl, .inr rfl⟩
      | unclosed name => exact ⟨'$', rfl, .inr rfl⟩
      | _ => exact ⟨'\\', rfl, .inl rfl⟩

/-- A shielded text can be spliced if it has no open end. -/
theorem isInert_shield {text : Text} (not_open : ¬ EndsOpen text) : IsInert (shield text) := by
  refine grains_induction (motive := fun text => ¬ EndsOpen text → IsInert (shield text)) text
    ?_ ?_ not_open
  · intro _
    rw [shield_nil]
    exact isInert_nil
  · intro token rest fits ih not_open
    have ih := ih fun rest_open => not_open (rest_open.of_rest fits)
    rw [shield_text_append fits]
    by_cases is_unclosed : ∃ name, token = .unclosed name
    · obtain ⟨name, rfl⟩ := is_unclosed
      have nonempty : rest ≠ [] := by
        rintro rfl
        exact not_open ⟨[], name, by rw [grains_text_append fits, grains_nil]; rfl⟩
      -- the shielded rest starts with nothing that could go on with the name or close it
      have fits' : ∀ other, (Token.unclosed name).Fits (shield rest ++ other) := by
        intro other
        obtain ⟨c, head_eq, same⟩ := head?_shield nonempty
        apply fits.of_head (by simp) (by simp)
        intro d is_head
        rw [List.head?_append, head_eq, Option.some_or, Option.mem_def, Option.some.injEq]
          at is_head
        subst is_head
        rcases same with rfl | same
        · exact .inl rfl
        · exact .inr same
      have alone := fits' []
      rw [List.append_nil] at alone
      refine ⟨fun other => ?_, ?_, ?_⟩
      · change grains ((Token.unclosed name).text ++ shield rest ++ other) =
          grains ((Token.unclosed name).text ++ shield rest) ++ grains other
        rw [List.append_assoc, grains_text_append (fits' other), ih.isSealed,
          grains_text_append alone, List.cons_append]
      · change names ((Token.unclosed name).text ++ shield rest) = []
        rw [names_text_append alone, ih.names_eq_nil]
        rfl
      · change shield ((Token.unclosed name).text ++ shield rest) = _
        rw [shield_text_append alone, ih.shield_eq_self]
    · exact (isInert_shield_of_fits fits fun name same => is_unclosed ⟨name, same⟩).append ih

end Value
end EnvFile
