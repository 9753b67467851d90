import EnvFile.Proofs.Value.Seal

/-!
# Seams

A name at the end of a text goes on in the text behind it, and a brace there may close it.  If no
dollar or backslash stands alone, nothing else happens where texts are put together: the last token
takes up what it can, and all other grains stay (`IsTidy.exists_grains_append`).  References are
renamed or made at a seam in this way but never lost, so a text that is put together from tidy
pieces refers to what its pieces refer to exactly if no seam runs on (`names_flatten_iff`).
-/

namespace EnvFile
namespace Value

/-- What the last token of a text becomes in front of another text, and what is left of that. -/
def Token.takeUp : Token → Text → Token × Text
  | bare name, back => (bare (name ++ back.takeWhile isWordChar), back.dropWhile isWordChar)
  | unclosed name, back =>
      match back.dropWhile isNameChar with
      | '}' :: rest => (braced (name ++ back.takeWhile isNameChar), rest)
      | rest => (unclosed (name ++ back.takeWhile isNameChar), rest)
  | token, back => (token, back)

theorem Token.takeUp_unclosed (name back : Text) :
    (∃ rest, back.dropWhile isNameChar = '}' :: rest ∧
      (unclosed name).takeUp back = (braced (name ++ back.takeWhile isNameChar), rest)) ∨
    ((∀ c ∈ (back.dropWhile isNameChar).head?, c ≠ '}') ∧
      (unclosed name).takeUp back =
        (unclosed (name ++ back.takeWhile isNameChar), back.dropWhile isNameChar)) := by
  simp only [takeUp]
  split
  · rename_i rest cut
    exact .inl ⟨rest, cut, rfl⟩
  · rename_i no_brace
    refine .inr ⟨?_, rfl⟩
    rintro c is_head rfl
    obtain ⟨rest, cut⟩ := List.head?_eq_some_iff.mp is_head
    exact no_brace rest cut

/-- A token takes up a plain text and fits in front of what is left. -/
theorem Token.Fits.takeUp {token : Token} (fits : token.Fits []) (not_dollar : token ≠ .dollar)
    (not_backslash : token ≠ .backslash) (back : Text) :
    (token.takeUp back).1.Fits (token.takeUp back).2 ∧
      ∃ taken, (∀ c ∈ taken, isPlain c = true) ∧ back = taken ++ (token.takeUp back).2 ∧
        (token.takeUp back).1.text = token.text ++ taken := by
  cases token with
  | bare name =>
      have inside : ∀ c ∈ back.takeWhile isWordChar, isWordChar c = true :=
        fun c => List.mem_takeWhile_imp
      refine ⟨⟨fits.1.append inside, head?_dropWhile_eq_false _ back⟩, back.takeWhile isWordChar,
        fun c member => isPlain_of_isNameChar (isNameChar_of_isWordChar (inside c member)),
        List.takeWhile_append_dropWhile.symm, rfl⟩
  | unclosed name =>
      have inside : ∀ c ∈ back.takeWhile isNameChar, isNameChar c = true :=
        fun c => List.mem_takeWhile_imp
      have named := fits.1.append inside
      have split := (List.takeWhile_append_dropWhile (p := isNameChar) (l := back)).symm
      rcases Token.takeUp_unclosed name back with ⟨rest, cut, eq⟩ | ⟨no_brace, eq⟩
      · rw [eq]
        refine ⟨named, back.takeWhile isNameChar ++ ['}'], ?_, ?_, ?_⟩
        · intro c member
          rcases List.mem_append.mp member with member | member
          · exact isPlain_of_isNameChar (inside c member)
          · obtain rfl := List.mem_singleton.mp member
            decide
        · rw [cut] at split
          simpa using split
        · simp [Token.text]
      · rw [eq]
        refine ⟨⟨named, fun c is_head => ⟨head?_dropWhile_eq_false _ back c is_head,
          no_brace c is_head⟩⟩, back.takeWhile isNameChar,
          fun c member => isPlain_of_isNameChar (inside c member), split, rfl⟩
  | dollar => exact absurd rfl not_dollar
  | backslash => exact absurd rfl not_backslash
  | _ => exact ⟨fits, [], by simp, rfl, by simp [Token.takeUp]⟩

/-- Number of characters in a list of names. -/
def nameLength (names : List Text) : Nat :=
  names.flatten.length

theorem Token.nameLength_takeUp {token : Token} (fits : token.Fits []) (back : Text)
    (changed : (token.takeUp back).1.reference? ≠ token.reference?) :
    nameLength token.reference?.toList < nameLength (token.takeUp back).1.reference?.toList := by
  cases token with
  | bare name =>
      have grown : back.takeWhile isWordChar ≠ [] := by
        intro none_taken
        simp [takeUp, reference?, none_taken] at changed
      have longer := List.length_pos_iff.mpr grown
      simpa [nameLength, takeUp, reference?] using longer
  | unclosed name =>
      rcases takeUp_unclosed name back with ⟨rest, _, eq⟩ | ⟨_, eq⟩
      · obtain ⟨head, tail, rfl, _⟩ := fits.1
        simp [eq, nameLength, reference?]
      · simp [eq, reference?] at changed
  | _ => exact absurd rfl changed

theorem Token.takeUp_ne {token : Token} (not_dollar : token ≠ .dollar)
    (not_backslash : token ≠ .backslash) (back : Text) :
    (token.takeUp back).1 ≠ .dollar ∧ (token.takeUp back).1 ≠ .backslash := by
  cases token with
  | unclosed name =>
      rcases takeUp_unclosed name back with ⟨rest, _, eq⟩ | ⟨_, eq⟩ <;> simp [eq]
  | dollar => exact absurd rfl not_dollar
  | backslash => exact absurd rfl not_backslash
  | _ => simp [takeUp]

theorem Token.shield_eq_text {token : Token} (unnamed : token.reference? = none)
    (not_dollar : token ≠ .dollar) (not_backslash : token ≠ .backslash) :
    token.shield = token.text := by
  cases token with
  | braced name => exact nomatch unnamed
  | bare name => exact nomatch unnamed
  | dollar => exact absurd rfl not_dollar
  | backslash => exact absurd rfl not_backslash
  | _ => rfl

/-- No dollar and no backslash of the text stands alone. -/
structure IsTidy (text : Text) : Prop where
  no_dollar : .dollar ∉ grains text
  no_backslash : .backslash ∉ grains text

theorem isTidy_iff {text : Text} :
    IsTidy text ↔ ∀ token ∈ grains text, token ≠ .dollar ∧ token ≠ .backslash := by
  constructor
  · intro tidy token member
    exact ⟨fun same => tidy.no_dollar (same ▸ member),
      fun same => tidy.no_backslash (same ▸ member)⟩
  · intro all
    exact ⟨fun member => (all _ member).1 rfl, fun member => (all _ member).2 rfl⟩

theorem isTidy_nil : IsTidy [] :=
  ⟨by simp, by simp⟩

theorem isTidy_of_grains_eq_flatMap {α : Type} {text : Text} {items : List α} {piece : α → Text}
    (cut : grains text = items.flatMap fun item => grains (piece item))
    (tidy : ∀ item ∈ items, IsTidy (piece item)) : IsTidy text := by
  rw [isTidy_iff, cut]
  intro token member
  obtain ⟨item, item_member, member⟩ := List.mem_flatMap.mp member
  exact isTidy_iff.mp (tidy item item_member) token member

/-- Whatever stands behind a tidy text, only its last grain takes anything up. -/
theorem IsTidy.exists_grains_append {front : Text} (tidy : IsTidy front) (nonempty : front ≠ []) :
    ∃ before last, grains front = before ++ [last] ∧ last.Fits [] ∧
      ∀ back, grains (front ++ back) =
        before ++ (last.takeUp back).1 :: grains (last.takeUp back).2 := by
  refine grains_induction (motive := fun front => IsTidy front → front ≠ [] →
    ∃ before last, grains front = before ++ [last] ∧ last.Fits [] ∧
      ∀ back, grains (front ++ back) =
        before ++ (last.takeUp back).1 :: grains (last.takeUp back).2) front ?_ ?_ tidy nonempty
  · intro _ nonempty
    exact absurd rfl nonempty
  · intro token rest fits ih tidy _
    have cut := grains_text_append fits
    rw [isTidy_iff, cut] at tidy
    obtain ⟨not_dollar, not_backslash⟩ := tidy token List.mem_cons_self
    by_cases is_last : rest = []
    · subst is_last
      refine ⟨[], token, by rw [cut, grains_nil]; rfl, fits, fun back => ?_⟩
      obtain ⟨fits', taken, _, back_eq, text_eq⟩ := fits.takeUp not_dollar not_backslash back
      have whole : token.text ++ [] ++ back =
          (token.takeUp back).1.text ++ (token.takeUp back).2 := by
        rw [text_eq, List.append_nil, List.append_assoc, ← back_eq]
      rw [whole, grains_text_append fits', List.nil_append]
    · have rest_tidy : IsTidy rest :=
        isTidy_iff.mpr fun other member => tidy other (List.mem_cons_of_mem token member)
      obtain ⟨before, last, rest_cut, last_fits, append⟩ := ih rest_tidy is_last
      refine ⟨token :: before, last, by rw [cut, rest_cut]; rfl, last_fits, fun back => ?_⟩
      have fits' : token.Fits (rest ++ back) := by
        apply fits.of_head not_dollar not_backslash
        intro c is_head
        rw [List.head?_append_of_ne_nil _ is_last] at is_head
        exact .inr is_head
      rw [List.append_assoc, grains_text_append fits', append, List.cons_append]

theorem Token.Fits.names_takeUp {token : Token} (fits : token.Fits [])
    (not_dollar : token ≠ .dollar) (not_backslash : token ≠ .backslash) (back : Text) :
    names (token.takeUp back).2 = names back := by
  obtain ⟨_, taken, plain, back_eq, _⟩ := fits.takeUp not_dollar not_backslash back
  have inert := isInert_of_plain plain
  have whole := inert.isSealed.names_append (token.takeUp back).2
  rw [← back_eq, inert.names_eq_nil, List.nil_append] at whole
  exact whole.symm

theorem IsTidy.append {front back : Text} (front_tidy : IsTidy front) (back_tidy : IsTidy back) :
    IsTidy (front ++ back) := by
  by_cases empty : front = []
  · rwa [empty, List.nil_append]
  obtain ⟨before, last, cut, fits, append⟩ := front_tidy.exists_grains_append empty
  rw [isTidy_iff, cut] at front_tidy
  obtain ⟨not_dollar, not_backslash⟩ := front_tidy last (by simp)
  obtain ⟨_, taken, plain, back_eq, _⟩ := fits.takeUp not_dollar not_backslash back
  rw [isTidy_iff, append]
  intro token member
  rcases List.mem_append.mp member with member | member
  · exact front_tidy token (List.mem_append_left _ member)
  rcases List.mem_cons.mp member with rfl | member
  · exact Token.takeUp_ne not_dollar not_backslash back
  · have in_back : token ∈ grains back := by
      rw [back_eq, grains_append_plain plain]
      exact List.mem_append_right _ member
    exact isTidy_iff.mp back_tidy token in_back

/-- Whether the last token of a text becomes another reference in front of the text behind it. -/
def runsOn (front back : Text) : Bool :=
  (grains front).getLast?.any fun last => (last.takeUp back).1.reference? != last.reference?

theorem nameLength_append (front back : List Text) :
    nameLength (front ++ back) = nameLength front + nameLength back := by
  simp [nameLength]

/-- A tidy text that does not run on keeps its references, and otherwise a name gets longer. -/
theorem IsTidy.names_append {front : Text} (tidy : IsTidy front) (back : Text) :
    runsOn front back = false ∧ names (front ++ back) = names front ++ names back ∨
      runsOn front back = true ∧
        nameLength (names front ++ names back) < nameLength (names (front ++ back)) := by
  by_cases empty : front = []
  · subst empty
    exact .inl ⟨by simp [runsOn], by simp⟩
  obtain ⟨before, last, cut, fits, append⟩ := tidy.exists_grains_append empty
  rw [isTidy_iff, cut] at tidy
  obtain ⟨not_dollar, not_backslash⟩ := tidy last (by simp)
  have runs_eq : runsOn front back =
      ((last.takeUp back).1.reference? != last.reference?) := by
    rw [runsOn, cut, List.getLast?_concat, Option.any_some]
  have option_names : ∀ token : Token, [token].filterMap Token.reference? =
      token.reference?.toList := by
    intro token
    cases named : token.reference? <;> simp [named]
  have front_names : names front =
      before.filterMap Token.reference? ++ last.reference?.toList := by
    rw [← filterMap_reference?_grains, cut, List.filterMap_append, option_names]
  have whole_names : names (front ++ back) = before.filterMap Token.reference? ++
      ((last.takeUp back).1.reference?.toList ++ names back) := by
    rw [← filterMap_reference?_grains, append, List.filterMap_append,
      ← List.singleton_append, List.filterMap_append, option_names,
      filterMap_reference?_grains, fits.names_takeUp not_dollar not_backslash]
  rw [runs_eq, front_names, whole_names]
  by_cases kept : (last.takeUp back).1.reference? = last.reference?
  · exact .inl ⟨by simp [kept], by rw [kept, List.append_assoc]⟩
  · have grows := Token.nameLength_takeUp fits back kept
    refine .inr ⟨by simp [kept], ?_⟩
    simp only [nameLength_append]
    omega

/-- No piece of a text runs on in the pieces behind it. -/
def StandApart : List Text → Prop
  | [] => True
  | piece :: pieces => runsOn piece pieces.flatten = false ∧ StandApart pieces

instance : (pieces : List Text) → Decidable (StandApart pieces)
  | [] => .isTrue trivial
  | piece :: pieces =>
      have : Decidable (StandApart pieces) := instDecidableStandApart pieces
      inferInstanceAs (Decidable (runsOn piece pieces.flatten = false ∧ StandApart pieces))

section Pieces

variable {pieces : List Text}

theorem isTidy_flatten (tidy : ∀ piece ∈ pieces, IsTidy piece) : IsTidy pieces.flatten := by
  induction pieces with
  | nil => exact isTidy_nil
  | cons piece pieces ih =>
      rw [List.flatten_cons]
      exact (tidy piece List.mem_cons_self).append
        (ih fun other member => tidy other (List.mem_cons_of_mem piece member))

theorem nameLength_flatMap_names_le (tidy : ∀ piece ∈ pieces, IsTidy piece) :
    nameLength (pieces.flatMap names) ≤ nameLength (names pieces.flatten) := by
  induction pieces with
  | nil => simp
  | cons piece pieces ih =>
      have ih := ih fun other member => tidy other (List.mem_cons_of_mem piece member)
      rw [List.flatMap_cons, List.flatten_cons, nameLength_append]
      rcases (tidy piece List.mem_cons_self).names_append pieces.flatten with
        ⟨_, names_eq⟩ | ⟨_, longer⟩
      · rw [names_eq, nameLength_append]
        omega
      · rw [nameLength_append] at longer
        omega

/-- Tidy pieces refer to the same keys when they are put together exactly if they stand apart. -/
theorem names_flatten_iff (tidy : ∀ piece ∈ pieces, IsTidy piece) :
    names pieces.flatten = pieces.flatMap names ↔ StandApart pieces := by
  induction pieces with
  | nil => simp [StandApart]
  | cons piece pieces ih =>
      have rest_tidy : ∀ other ∈ pieces, IsTidy other :=
        fun other member => tidy other (List.mem_cons_of_mem piece member)
      have shorter := nameLength_flatMap_names_le rest_tidy
      rw [List.flatMap_cons, List.flatten_cons, StandApart, ← ih rest_tidy]
      rcases (tidy piece List.mem_cons_self).names_append pieces.flatten with
        ⟨apart, names_eq⟩ | ⟨runs_on, longer⟩
      · rw [names_eq, List.append_cancel_left_eq, and_iff_right apart]
      · refine iff_of_false (fun same => ?_) (fun both => ?_)
        · rw [same, nameLength_append, nameLength_append] at longer
          omega
        · exact absurd both.1 (by simp [runs_on])

end Pieces

/-- A shielded text has the grains of its shielded grains. -/
theorem grains_shield (text : Text) :
    grains (shield text) = (grains text).flatMap fun token => grains token.shield := by
  refine grains_induction (motive := fun text =>
    grains (shield text) = (grains text).flatMap fun token => grains token.shield) text ?_ ?_
  · simp
  · intro token rest fits ih
    rw [shield_text_append fits, grains_text_append fits, List.flatMap_cons, ← ih]
    by_cases is_unclosed : ∃ name, token = .unclosed name
    · obtain ⟨name, rfl⟩ := is_unclosed
      -- the shielded rest starts with nothing that goes on with the name
      have fits' : (Token.unclosed name).Fits (shield rest) := by
        apply fits.of_head (by simp) (by simp)
        intro c is_head
        by_cases empty : rest = []
        · simp [empty] at is_head
        · obtain ⟨d, head_eq, same⟩ := head?_shield empty
          rw [head_eq, Option.mem_def, Option.some.injEq] at is_head
          subst is_head
          rcases same with rfl | same
          · exact .inl rfl
          · exact .inr same
      have alone : (Token.unclosed name).Fits [] := ⟨fits.1, by simp⟩
      have single := grains_text_append alone
      rw [List.append_nil, grains_nil] at single
      change grains ((Token.unclosed name).text ++ shield rest) =
        grains (Token.unclosed name).text ++ grains (shield rest)
      rw [grains_text_append fits', single, List.singleton_append]
    · exact (isInert_shield_of_fits fits fun name same => is_unclosed ⟨name, same⟩).isSealed _

theorem names_shield (text : Text) : names (shield text) = [] := by
  rw [← filterMap_reference?_grains, grains_shield, List.filterMap_eq_nil_iff]
  intro token member
  obtain ⟨other, other_member, member⟩ := List.mem_flatMap.mp member
  obtain ⟨rest, fits⟩ := exists_fits_of_mem_grains text other other_member
  have unnamed := names_shield_of_fits fits
  rw [← filterMap_reference?_grains, List.filterMap_eq_nil_iff] at unnamed
  exact unnamed token member

theorem isTidy_of_plain {text : Text} (plain : ∀ c ∈ text, isPlain c = true) : IsTidy text := by
  rw [isTidy_iff, ← List.append_nil text, grains_append_plain plain, grains_nil, List.append_nil]
  intro token member
  obtain ⟨c, _, rfl⟩ := List.mem_map.mp member
  simp

theorem isTidy_escape (c : Char) : IsTidy ['\\', c] := by
  simp [isTidy_iff]

theorem Token.Fits.alone {token : Token} {rest : Text} (fits : token.Fits rest)
    (not_dollar : token ≠ .dollar) (not_backslash : token ≠ .backslash) : token.Fits [] :=
  fits.of_head not_dollar not_backslash (by simp)

theorem isTidy_text_of_fits {token : Token} {rest : Text} (fits : token.Fits rest)
    (not_dollar : token ≠ .dollar) (not_backslash : token ≠ .backslash) : IsTidy token.text := by
  have single := grains_text_append (fits.alone not_dollar not_backslash)
  rw [List.append_nil, grains_nil] at single
  rw [isTidy_iff, single]
  intro other member
  obtain rfl := List.mem_singleton.mp member
  exact ⟨not_dollar, not_backslash⟩

theorem isTidy_shield_of_fits {token : Token} {rest : Text} (fits : token.Fits rest) :
    IsTidy token.shield := by
  cases token with
  | braced name =>
      obtain ⟨tail, shield_eq, plain⟩ := exists_shield_eq fits rfl
      rw [shield_eq]
      exact (isTidy_escape '$').append (isTidy_of_plain plain)
  | bare name =>
      obtain ⟨tail, shield_eq, plain⟩ := exists_shield_eq fits rfl
      rw [shield_eq]
      exact (isTidy_escape '$').append (isTidy_of_plain plain)
  | escape c => exact isTidy_escape c
  | plain text => exact isTidy_text_of_fits fits (by simp) (by simp)
  | dollar => exact isTidy_escape '$'
  | backslash => exact isTidy_escape '\\'
  | unclosed name => exact isTidy_text_of_fits fits (by simp) (by simp)

theorem isTidy_shield (text : Text) : IsTidy (shield text) := by
  apply isTidy_of_grains_eq_flatMap (grains_shield text)
  intro token member
  obtain ⟨rest, fits⟩ := exists_fits_of_mem_grains text token member
  exact isTidy_shield_of_fits fits

theorem isTidy_protect (text : Text) : IsTidy (protect text) := by
  rw [protect, List.flatMap_def]
  apply isTidy_flatten
  intro piece member
  obtain ⟨c, _, rfl⟩ := List.mem_map.mp member
  by_cases plain : isPlain c = true
  · rw [if_pos plain]
    exact isTidy_of_plain (by simpa using plain)
  · rw [if_neg plain]
    exact isTidy_escape c

end Value
end EnvFile
