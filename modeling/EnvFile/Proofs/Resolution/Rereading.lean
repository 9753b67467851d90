import EnvFile.Proofs.Resolution.Splicing
import EnvFile.Proofs.Value.Stability

/-!
# Reading a spliced value again

A value that waits is spliced, stored and read again.  If the value is stable and what takes the
place of its ready references is inert, the spliced value has the grains of the old one, with each
ready reference replaced by the grains of its stand-in (`grains_splice`).  Splicing it once more
with later bindings is therefore the same as splicing the value as it was written
(`text_splice_splice`), and a value without waiting references has no open end
(`isSealed_splice`).
-/

namespace EnvFile
namespace Bindings

open Value

variable {bindings : Bindings} {unready : Unready}

/-- What takes the place of each ready reference of a value is inert. -/
def InertFor (bindings : Bindings) (value : Text) : Prop :=
  ∀ name ∈ names value, bindings.blocks name = false → IsInert (bindings.standIn name)

theorem text_splice_of_isInert {text : Text} (inert : IsInert text) :
    (bindings.splice unready text).text = text := by
  have shielded : (grains text).flatMap (fun token => (bindings.spliceToken unready token).text) =
      (grains text).flatMap Token.shield := by
    apply List.flatMap_congr
    intro token member
    have unnamed : token.reference? = none := by
      have none_named := inert.names_eq_nil
      rw [← filterMap_reference?_grains, List.filterMap_eq_nil_iff] at none_named
      exact none_named token member
    rw [spliceToken_of_reference?_eq_none unnamed]
  rw [text_splice, shielded, flatMap_shield_grains, inert.shield_eq_self]

/-- The grains that a grain of a value becomes. -/
def regrain (bindings : Bindings) (token : Token) : List Token :=
  match token.reference? with
  | none => grains token.shield
  | some name => if bindings.blocks name then [token] else grains (bindings.standIn name)

/-- A token that stays and ends in a name which the characters behind it could go on with. -/
def leavesOpen (bindings : Bindings) : Token → Bool
  | .bare name => bindings.blocks name
  | .unclosed _ => true
  | _ => false

/-- Whether the reference behind a token that is left open waits too. -/
def keepsApart (bindings : Bindings) (token next : Token) : Prop :=
  bindings.leavesOpen token = true →
    ∀ name, next.reference? = some name → bindings.blocks name = true

theorem isChain_keepsApart {value : Text} (stable : IsStable value)
    (waits : ∃ name ∈ names value, bindings.blocks name = true) :
    (grains value).IsChain bindings.keepsApart := by
  refine stable.isChain_grains.imp fun token next precedes is_open name named => ?_
  simp only [Token.mayPrecede, named] at precedes
  cases token with
  | bare own =>
      obtain rfl : own = name := by simpa using precedes
      exact is_open
  | unclosed own =>
      obtain ⟨other, member, other_waits⟩ := waits
      have same : other = name := by simpa using List.all_eq_true.mp precedes other member
      exact same ▸ other_waits
  | _ => simp [leavesOpen] at is_open

/-- A spliced text starts like the text itself or with a character that no name goes on with. -/
private theorem head?_flatMap_spliceToken {token : Token} {rest : Text}
    (chain : (token :: grains rest).IsChain bindings.keepsApart)
    (is_open : bindings.leavesOpen token = true) :
    ∀ c ∈ ((grains rest).flatMap fun token => (bindings.spliceToken .keep token).text).head?,
      isPlain c = false ∨ c ∈ rest.head? := by
  cases cut : grains rest with
  | nil => simp
  | cons next tokens =>
      obtain ⟨tail, rfl, _, fits⟩ := exists_of_grains_eq_cons cut
      rw [cut, List.isChain_cons_cons] at chain
      have special : ∀ {text : Text}, ∀ c ∈ ('\\' :: text).head?, isPlain c = false := by
        intro text c is_head
        obtain rfl : '\\' = c := by simpa using is_head
        decide
      intro c is_head
      rw [List.flatMap_cons] at is_head
      cases named : next.reference? with
      | none =>
          rw [spliceToken_of_reference?_eq_none named] at is_head
          cases next with
          | escape d => exact .inl (special c is_head)
          | plain text =>
              obtain ⟨d, rfl, _⟩ := fits
              exact .inr is_head
          | dollar => exact .inl (special c is_head)
          | backslash => exact .inl (special c is_head)
          | unclosed name => exact .inr is_head
          | _ => simp [Token.reference?] at named
      | some name =>
          rw [spliceToken_keep named (chain.1 is_open name named)] at is_head
          cases next with
          | braced name => exact .inr is_head
          | bare name => exact .inr is_head
          | _ => simp [Token.reference?] at named

/-- A grain becomes its pieces in front of a text that it is not open to. -/
theorem grains_spliceToken_append {token : Token} {rest spliced : Text} (fits : token.Fits rest)
    (inert : ∀ name, token.reference? = some name → bindings.blocks name = false →
      IsInert (bindings.standIn name))
    (fits_open : bindings.leavesOpen token = true → token.Fits spliced) :
    grains ((bindings.spliceToken .keep token).text ++ spliced) =
      bindings.regrain token ++ grains spliced := by
  cases named : token.reference? with
  | none =>
      have pieces : bindings.regrain token = grains token.shield := by simp [regrain, named]
      rw [spliceToken_of_reference?_eq_none named, pieces]
      by_cases is_unclosed : ∃ name, token = .unclosed name
      · obtain ⟨name, rfl⟩ := is_unclosed
        have whole := grains_text_append (fits_open rfl)
        have alone : (Token.unclosed name).Fits [] := ⟨fits.1, by simp⟩
        have single := grains_text_append alone
        rw [List.append_nil, grains_nil] at single
        change grains ((Token.unclosed name).text ++ spliced) =
          grains (Token.unclosed name).text ++ grains spliced
        rw [whole, single]
        rfl
      · have shield_inert := isInert_shield_of_fits fits fun name same => is_unclosed ⟨name, same⟩
        exact shield_inert.isSealed spliced
  | some name =>
      cases waits : bindings.blocks name with
      | false =>
          have pieces : bindings.regrain token = grains (bindings.standIn name) := by
            simp [regrain, named, waits]
          rw [spliceToken_of_blocks_eq_false named waits, pieces]
          exact (inert name named waits).isSealed spliced
      | true =>
          have pieces : bindings.regrain token = [token] := by simp [regrain, named, waits]
          rw [spliceToken_keep named waits, pieces]
          cases token with
          | braced other =>
              exact grains_text_append (show Token.Fits (.braced other) spliced from fits)
          | bare other =>
              obtain rfl : other = name := by simpa [Token.reference?] using named
              exact grains_text_append (fits_open waits)
          | _ => simp [Token.reference?] at named

/-- The grains of a spliced value are those that the grains of the value become. -/
theorem grains_splice {value : Text} (inert : bindings.InertFor value)
    (chain : (grains value).IsChain bindings.keepsApart) :
    grains (bindings.splice .keep value).text = (grains value).flatMap bindings.regrain := by
  rw [text_splice]
  refine grains_induction (motive := fun value => bindings.InertFor value →
    (grains value).IsChain bindings.keepsApart →
      grains ((grains value).flatMap fun token => (bindings.spliceToken .keep token).text) =
        (grains value).flatMap bindings.regrain) value ?_ ?_ inert chain
  · intro _ _
    simp
  · intro token rest fits ih inert chain
    rw [grains_text_append fits] at chain
    have rest_inert : bindings.InertFor rest := by
      intro name member
      exact inert name (by simp [names_text_append fits, member])
    have token_inert : ∀ name, token.reference? = some name → bindings.blocks name = false →
        IsInert (bindings.standIn name) := by
      intro name named
      exact inert name (by simp [names_text_append fits, named])
    have ih := ih rest_inert chain.tail
    rw [grains_text_append fits, List.flatMap_cons, List.flatMap_cons, ← ih]
    -- a token that is left open fits in front of whatever the rest became
    apply grains_spliceToken_append fits token_inert
    intro is_open
    apply fits.of_head _ _ (head?_flatMap_spliceToken chain is_open)
    · rintro rfl
      simp [leavesOpen] at is_open
    · rintro rfl
      simp [leavesOpen] at is_open

/-- The references that a spliced value holds are those that wait. -/
theorem names_splice {value : Text} (inert : bindings.InertFor value)
    (chain : (grains value).IsChain bindings.keepsApart) :
    names (bindings.splice .keep value).text = (names value).filter bindings.blocks := by
  rw [← filterMap_reference?_grains, grains_splice inert chain, ← filterMap_reference?_grains]
  clear chain
  have fitting : ∀ token ∈ grains value, ∃ rest, token.Fits rest := exists_fits_of_mem_grains value
  have inert : ∀ token ∈ grains value, ∀ name, token.reference? = some name →
      bindings.blocks name = false → IsInert (bindings.standIn name) := by
    intro token member name named
    exact inert name (mem_names_of_mem_grains member named)
  generalize grains value = tokens at fitting inert
  induction tokens with
  | nil => rfl
  | cons token tokens ih =>
      have ih := ih (fun other member => fitting other (List.mem_cons_of_mem token member))
        fun other member => inert other (List.mem_cons_of_mem token member)
      rw [List.flatMap_cons, List.filterMap_append, ih, List.filterMap_cons]
      obtain ⟨rest, fits⟩ := fitting token List.mem_cons_self
      cases named : token.reference? with
      | none =>
          have none_left : (bindings.regrain token).filterMap Token.reference? = [] := by
            simp only [regrain, named, filterMap_reference?_grains]
            exact names_shield_of_fits fits
          simp [none_left]
      | some name =>
          cases waits : bindings.blocks name with
          | false =>
              have none_left := (inert token List.mem_cons_self name named waits).names_eq_nil
              simp [regrain, named, waits, filterMap_reference?_grains, none_left]
          | true => simp [regrain, named, waits]

/-- Every key that does not wait stays as it is. -/
def Extends (earlier later : Bindings) : Prop :=
  ∀ name, earlier.blocks name = false → later.find? name = earlier.find? name

section Extends

variable {earlier middle later : Bindings}

theorem Extends.refl (bindings : Bindings) : bindings.Extends bindings :=
  fun _ _ => rfl

theorem Extends.blocks_eq_false (extended : earlier.Extends later) {name : Text}
    (ready : earlier.blocks name = false) : later.blocks name = false := by
  rw [blocks, extended name ready]
  exact ready

theorem Extends.standIn_eq (extended : earlier.Extends later) {name : Text}
    (ready : earlier.blocks name = false) : later.standIn name = earlier.standIn name := by
  rw [standIn, extended name ready, standIn]

theorem Extends.trans (front : earlier.Extends middle) (back : middle.Extends later) :
    earlier.Extends later := by
  intro name ready
  rw [back name (front.blocks_eq_false ready), front name ready]

theorem Extends.blocks_of_blocks (extended : earlier.Extends later) {name : Text}
    (waits : later.blocks name = true) : earlier.blocks name = true := by
  by_contra ready
  rw [Bool.not_eq_true] at ready
  simp [extended.blocks_eq_false ready] at waits

/-- What a grain becomes is spliced to what the grain itself is spliced to later. -/
private theorem flatMap_regrain (extended : earlier.Extends later) {token : Token} {rest : Text}
    (fits : token.Fits rest)
    (inert : ∀ name, token.reference? = some name → earlier.blocks name = false →
      IsInert (earlier.standIn name)) :
    ((earlier.regrain token).flatMap fun piece => (later.spliceToken unready piece).text) =
      (later.spliceToken unready token).text := by
  cases named : token.reference? with
  | none =>
      rw [spliceToken_of_reference?_eq_none named]
      simp only [regrain, named]
      rw [← text_splice]
      by_cases is_unclosed : ∃ name, token = .unclosed name
      · obtain ⟨name, rfl⟩ := is_unclosed
        have alone : (Token.unclosed name).Fits [] := ⟨fits.1, by simp⟩
        have single := grains_text_append alone
        rw [List.append_nil, grains_nil] at single
        change (later.splice unready (Token.unclosed name).text).text = _
        rw [text_splice, single, List.flatMap_singleton, spliceToken_of_reference?_eq_none rfl]
      · exact text_splice_of_isInert
          (isInert_shield_of_fits fits fun name same => is_unclosed ⟨name, same⟩)
  | some name =>
      cases waits : earlier.blocks name with
      | false =>
          rw [spliceToken_of_blocks_eq_false named (extended.blocks_eq_false waits),
            extended.standIn_eq waits]
          simp only [regrain, named, waits]
          rw [if_neg (by decide), ← text_splice]
          exact text_splice_of_isInert (inert name named waits)
      | true => simp [regrain, named, waits]

/-- Splicing a stable value a second time is splicing it as it was written. -/
theorem text_splice_splice {value : Text} (extended : earlier.Extends later)
    (stable : IsStable value) (inert : earlier.InertFor value)
    (waits : ∃ name ∈ names value, earlier.blocks name = true) :
    (later.splice unready (earlier.splice .keep value).text).text =
      (later.splice unready value).text := by
  rw [text_splice, grains_splice inert (isChain_keepsApart stable waits), text_splice,
    List.flatMap_assoc]
  apply List.flatMap_congr
  intro token member
  obtain ⟨rest, fits⟩ := exists_fits_of_mem_grains value token member
  apply flatMap_regrain extended fits
  intro name named
  exact inert name (mem_names_of_mem_grains member named)

theorem pending_splice_splice {value : Text} (extended : earlier.Extends later)
    (stable : IsStable value) (inert : earlier.InertFor value)
    (waits : ∃ name ∈ names value, earlier.blocks name = true) :
    (later.splice .keep (earlier.splice .keep value).text).pending =
      (names value).countP later.blocks := by
  rw [pending_splice_keep, names_splice inert (isChain_keepsApart stable waits),
    List.countP_filter]
  apply List.countP_congr
  intro name _
  rw [Bool.and_eq_true, and_iff_left_iff_imp]
  exact extended.blocks_of_blocks

theorem text_splice_congr {value : Text}
    (same : ∀ name ∈ names value, later.find? name = earlier.find? name) :
    (later.splice unready value).text = (earlier.splice unready value).text := by
  rw [text_splice, text_splice]
  apply List.flatMap_congr
  intro token member
  cases named : token.reference? with
  | none => rw [spliceToken_of_reference?_eq_none named, spliceToken_of_reference?_eq_none named]
  | some name => simp [spliceToken, named, same name (mem_names_of_mem_grains member named)]

end Extends

section Complete

variable {value : Text}

/-- A stable value whose references are all ready is sealed when it is spliced. -/
theorem isSealed_splice (stable : IsStable value) (inert : bindings.InertFor value)
    (ready : ∀ name ∈ names value, bindings.blocks name = false) :
    IsSealed (bindings.splice .keep value).text := by
  rw [text_splice, ← List.nil_append (List.flatMap _ _)]
  apply isSealed_append_flatMap (.inl isSealed_nil) (exists_fits_of_mem_grains value)
  · intro token _ unnamed
    rw [spliceToken_of_reference?_eq_none unnamed]
  · intro token member named
    obtain ⟨name, named⟩ := Option.ne_none_iff_exists'.mp named
    have mentioned := mem_names_of_mem_grains member named
    rw [spliceToken_of_blocks_eq_false named (ready name mentioned)]
    exact (inert name mentioned (ready name mentioned)).isSealed
  · exact stable.endsNames_grains_eq_true
  · exact .inl isSealed_nil

end Complete

end Bindings
end EnvFile
