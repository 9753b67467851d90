import EnvFile.Proofs.Value.Decoding
import EnvFile.Proofs.Value.Segments
import EnvFile.Resolution.Splice

/-!
# Spliced values

A spliced value is put together from what its grains become, and each of these pieces is closed
(`isClosed_spliceToken`).  So decoding a spliced value is decoding its pieces: after one pass over
a value each of its tokens stands for what it means under the bindings, whatever its neighbours are
(`decode_splice_eq_flatMap_meaning`).  Splicing replaces the references of a value, keeps its
escapes as they are written and shields what stands around them (`text_splice_eq_rebuild`).
-/

namespace EnvFile

open Value

namespace Bindings

/-- Whether a key is bound and waits for another one. -/
def blocks (bindings : Bindings) (name : Text) : Bool :=
  (bindings.find? name).any fun target => !target.isComplete

/-- What takes the place of a reference to a key that does not wait. -/
def standIn (bindings : Bindings) (name : Text) : Text :=
  ((bindings.find? name).map Binding.spliced).getD []

variable {bindings : Bindings} {unready : Unready}

theorem spliceToken_of_reference?_eq_none {token : Token} (unnamed : token.reference? = none) :
    bindings.spliceToken unready token = { text := token.shield, pending := 0 } := by
  simp [spliceToken, unnamed]

theorem spliceToken_of_blocks_eq_false {token : Token} {name : Text}
    (named : token.reference? = some name) (ready : bindings.blocks name = false) :
    bindings.spliceToken unready token = { text := bindings.standIn name, pending := 0 } := by
  cases found : bindings.find? name with
  | none => simp [spliceToken, named, standIn, found]
  | some target =>
      have complete : target.isComplete = true := by simpa [blocks, found] using ready
      simp [spliceToken, named, standIn, found, complete]

theorem spliceToken_keep {token : Token} {name : Text} (named : token.reference? = some name)
    (waits : bindings.blocks name = true) :
    bindings.spliceToken .keep token = { text := token.text, pending := 1 } := by
  cases found : bindings.find? name with
  | none => simp [blocks, found] at waits
  | some target =>
      have incomplete : target.isComplete = false := by simpa [blocks, found] using waits
      simp [spliceToken, named, found, incomplete]

theorem spliceToken_erase {token : Token} {name : Text} (named : token.reference? = some name)
    (waits : bindings.blocks name = true) :
    bindings.spliceToken .erase token = { text := [], pending := 0 } := by
  cases found : bindings.find? name with
  | none => simp [blocks, found] at waits
  | some target =>
      have incomplete : target.isComplete = false := by simpa [blocks, found] using waits
      simp [spliceToken, named, found, incomplete]

/-- A spliced value is put together from what its grains become. -/
theorem text_splice (bindings : Bindings) (unready : Unready) (value : Text) :
    (bindings.splice unready value).text =
      (grains value).flatMap fun token => (bindings.spliceToken unready token).text := by
  have by_char : ∀ text : Text, (bindings.spliceToken unready (.plain text)).text =
      text.flatMap fun c => (bindings.spliceToken unready (.plain [c])).text := by
    intro text
    simp [spliceToken, Token.reference?, Token.shield, Token.text]
  rw [flatMap_grains _ by_char, splice, Splice.text_join, List.flatMap_map]

/-- What takes the place of an occurrence: an escape stays as it is written. -/
def spliceOccurrence (bindings : Bindings) (unready : Unready) (occurrence : Occurrence) : Text :=
  match occurrence.meaning with
  | .escape _ => occurrence.text
  | .reference name =>
      match bindings.find? name with
      | none => []
      | some target =>
          if target.isComplete then target.spliced
          else
            match unready with
            | .keep => occurrence.text
            | .erase => []

theorem spliceOccurrence_occurrence {token : Token} {meaning : Meaning}
    (means : token.meaning? = some meaning) (start : Nat) (position : Position) (front : Text) :
    bindings.spliceOccurrence unready (token.occurrence meaning start position front) =
      (bindings.spliceToken unready token).text := by
  have of_reference (name : Text) (named : token.reference? = some name)
      (refers : meaning = .reference name) :
      bindings.spliceOccurrence unready (token.occurrence meaning start position front) =
        (bindings.spliceToken unready token).text := by
    simp only [spliceOccurrence, Token.occurrence, refers, spliceToken, named]
    cases bindings.find? name with
    | none => rfl
    | some target =>
        cases complete : target.isComplete <;> cases unready <;> simp [complete]
  cases token with
  | braced name => exact of_reference name rfl (Option.some.inj means).symm
  | bare name => exact of_reference name rfl (Option.some.inj means).symm
  | escape c =>
      obtain ⟨decoded, _, rfl⟩ := Option.map_eq_some_iff.mp means
      rfl
  | _ => simp [Token.meaning?] at means

/-- Splicing goes from occurrence to occurrence and shields the text around them. -/
theorem text_splice_eq_rebuild (bindings : Bindings) (unready : Unready) (value : Text)
    (origin : Position) :
    (bindings.splice unready value).text =
      rebuild shield (bindings.spliceOccurrence unready) 0 value (occurrences value origin) := by
  rw [splice, Splice.text_join, List.flatMap_map]
  symm
  apply rebuild_occurrences
  · intro gap cut meaningless
    rw [shield, cut.lex_flatMap_text]
    apply List.flatMap_congr
    intro token member
    have unnamed : token.reference? = none := by
      have means := meaningless token member
      cases token <;> simp_all [Token.meaning?, Token.reference?]
    rw [spliceToken_of_reference?_eq_none unnamed]
  · intro token meaning start position front means
    exact spliceOccurrence_occurrence means start position front

/-- As many references are kept as there are references to keys that wait. -/
theorem pending_splice_keep (bindings : Bindings) (value : Text) :
    (bindings.splice .keep value).pending = (names value).countP bindings.blocks := by
  rw [splice, names]
  induction lex value with
  | nil => rfl
  | cons token tokens ih =>
      rw [List.map_cons, Splice.join, ih, List.filterMap_cons]
      cases named : token.reference? with
      | none => simp [spliceToken_of_reference?_eq_none named]
      | some name =>
          cases waits : bindings.blocks name with
          | false => simp [spliceToken_of_blocks_eq_false named waits, waits]
          | true => simp [spliceToken_keep named waits, waits, Nat.add_comm]

end Bindings

/-- What a key means: its value if that is verbatim, and its decoded value otherwise. -/
def Binding.meaning (binding : Binding) : Text :=
  if binding.verbatim then binding.value else Value.decode binding.value

theorem Binding.isClosed_spliced (binding : Binding) :
    IsClosed binding.spliced ∧ Value.decode binding.spliced = binding.meaning := by
  unfold spliced meaning
  split
  · exact ⟨isClosed_protect _, decode_protect _⟩
  · exact ⟨isClosed_shield _, decode_shield _⟩

namespace Bindings

variable {bindings : Bindings} {unready : Unready}

/-- What a token of a value means to a pass.  A key without a binding means nothing, and a key that
waits means its reference or nothing. -/
def meaning (bindings : Bindings) (unready : Unready) (token : Token) : Text :=
  match token.reference? with
  | none => token.decode
  | some name =>
      match bindings.find? name with
      | none => []
      | some target =>
          if target.isComplete then target.meaning
          else
            match unready with
            | .keep => token.text
            | .erase => []

/-- What a grain becomes is closed and stands for what the grain means. -/
theorem isClosed_spliceToken (bindings : Bindings) (unready : Unready) {token : Token}
    {rest : Text} (fits : token.Fits rest) :
    IsClosed (bindings.spliceToken unready token).text ∧
      decode (bindings.spliceToken unready token).text = bindings.meaning unready token := by
  cases named : token.reference? with
  | none =>
      simp only [spliceToken, meaning, named]
      exact isClosed_shield_of_fits fits
  | some name =>
      have written : IsClosed token.text ∧ decode token.text = token.text := by
        have no_backslash := notMem_text_of_reference? fits named
        exact ⟨isClosed_of_notMem no_backslash, decode_of_notMem no_backslash⟩
      simp only [spliceToken, meaning, named]
      cases bindings.find? name with
      | none => exact ⟨isClosed_nil, decode_nil⟩
      | some target =>
          cases complete : target.isComplete with
          | true =>
              simp only [complete, ↓reduceIte]
              exact target.isClosed_spliced
          | false =>
              simp only [complete, Bool.false_eq_true, ↓reduceIte]
              cases unready with
              | keep => exact written
              | erase => exact ⟨isClosed_nil, decode_nil⟩

theorem isClosed_flatMap_spliceToken (bindings : Bindings) (unready : Unready)
    {tokens : List Token} (fitting : ∀ token ∈ tokens, ∃ rest, token.Fits rest) :
    IsClosed (tokens.flatMap fun token => (bindings.spliceToken unready token).text) := by
  apply isClosed_flatMap
  intro token member
  obtain ⟨rest, fits⟩ := fitting token member
  exact (isClosed_spliceToken bindings unready fits).1

theorem decode_text_splice (bindings : Bindings) (unready : Unready) (value : Text) :
    decode (bindings.splice unready value).text =
      (grains value).flatMap (bindings.meaning unready) := by
  have pieces : ∀ token ∈ grains value,
      IsClosed (bindings.spliceToken unready token).text ∧
        decode (bindings.spliceToken unready token).text = bindings.meaning unready token := by
    intro token member
    obtain ⟨rest, fits⟩ := exists_fits_of_mem_grains value token member
    exact isClosed_spliceToken bindings unready fits
  rw [text_splice, decode_flatMap fun token member => (pieces token member).1]
  exact List.flatMap_congr fun token member => (pieces token member).2

/-- A value whose references are all ready means what its parts mean when it is spliced. -/
theorem decode_splice {value : Text}
    (ready : ∀ name ∈ names value, bindings.blocks name = false) :
    decode (bindings.splice unready value).text =
      fill (fun name => decode (bindings.standIn name)) value := by
  rw [decode_text_splice, ← flatMap_fill_grains]
  apply List.flatMap_congr
  intro token member
  obtain ⟨rest, fits⟩ := exists_fits_of_mem_grains value token member
  rw [← (isClosed_spliceToken bindings unready fits).2]
  cases named : token.reference? with
  | none =>
      rw [spliceToken_of_reference?_eq_none named, Token.fill, named]
      exact (isClosed_shield_of_fits fits).2
  | some name =>
      have mentioned := mem_names_of_mem_grains member named
      rw [spliceToken_of_blocks_eq_false named (ready name mentioned), Token.fill, named]

/-- After one pass over a value, decoding gives what its tokens mean, one after another. -/
theorem decode_splice_eq_flatMap_meaning (bindings : Bindings) (unready : Unready) (value : Text) :
    decode (bindings.splice unready value).text =
      (lex value).flatMap (bindings.meaning unready) := by
  have by_char : ∀ text : Text, bindings.meaning unready (.plain text) =
      text.flatMap fun c => bindings.meaning unready (.plain [c]) := by
    intro text
    simp [meaning, Token.reference?, Token.decode, Token.text]
  rw [decode_text_splice, flatMap_grains _ by_char]

end Bindings
end EnvFile
