import EnvFile.Proofs.Resolution.Splicing
import EnvFile.Proofs.Value.Lexing
import EnvFile.Proofs.Value.Seam

/-!
# References that are kept

A pass that keeps the waiting references of a value puts it together from tidy pieces, and each
piece refers to the waiting key of its token or to nothing (`isTidy_spliceToken`).  So the pass
leaves exactly the waiting references behind, and the same pass again changes nothing, if and only
if no piece runs on in the pieces behind it (`keeps_waiting_references_iff`).
-/

namespace EnvFile
namespace Bindings

open Value

variable {bindings : Bindings}

/-- The pieces that a value is put together from when its waiting references are kept. -/
def pieces (bindings : Bindings) (value : Text) : List Text :=
  (lex value).map fun token => (bindings.spliceToken .keep token).text

theorem flatten_pieces (bindings : Bindings) (value : Text) :
    (bindings.pieces value).flatten = (bindings.splice .keep value).text := by
  rw [pieces, splice, Splice.text_join, List.flatMap_map, List.flatMap_def]

theorem isTidy_standIn (bindings : Bindings) (name : Text) :
    IsTidy (bindings.standIn name) ∧ names (bindings.standIn name) = [] := by
  unfold standIn
  cases bindings.find? name with
  | none => exact ⟨isTidy_nil, names_nil⟩
  | some target =>
      change IsTidy target.spliced ∧ names target.spliced = []
      unfold Binding.spliced
      split
      · exact ⟨isTidy_protect _, (isInert_protect _).names_eq_nil⟩
      · exact ⟨isTidy_shield _, names_shield _⟩

theorem fits_of_mem_lex {value : Text} {token : Token} (member : token ∈ lex value) :
    (∃ run, token = .plain run ∧ ∀ c ∈ run, isPlain c = true) ∨ ∃ rest, token.Fits rest := by
  obtain ⟨rest, leads⟩ := exists_leads_of_mem_lex member
  by_cases is_plain : ∃ run, token = .plain run
  · obtain ⟨run, rfl⟩ := is_plain
    exact .inl ⟨run, rfl, leads.2.1⟩
  · exact .inr ⟨rest, leads.fits fun run same => is_plain ⟨run, same⟩⟩

/-- A piece is tidy and refers to the key of its token if that waits. -/
theorem isTidy_spliceToken {value : Text} {token : Token} (member : token ∈ lex value) :
    IsTidy (bindings.spliceToken .keep token).text ∧
      names (bindings.spliceToken .keep token).text =
        token.reference?.toList.filter bindings.blocks := by
  rcases fits_of_mem_lex member with ⟨run, rfl, plain⟩ | ⟨rest, fits⟩
  · rw [spliceToken_of_reference?_eq_none rfl]
    exact ⟨isTidy_of_plain plain, (isInert_of_plain plain).names_eq_nil⟩
  cases named : token.reference? with
  | none =>
      rw [spliceToken_of_reference?_eq_none named]
      exact ⟨isTidy_shield_of_fits fits, names_shield_of_fits fits⟩
  | some name =>
      cases waits : bindings.blocks name with
      | false =>
          rw [spliceToken_of_blocks_eq_false named waits]
          simpa [waits] using bindings.isTidy_standIn name
      | true =>
          have not_dollar : token ≠ .dollar := by
            rintro rfl
            simp [Token.reference?] at named
          have not_backslash : token ≠ .backslash := by
            rintro rfl
            simp [Token.reference?] at named
          have alone := names_text_append (fits.alone not_dollar not_backslash)
          rw [List.append_nil, names_nil, List.append_nil, named] at alone
          rw [spliceToken_keep named waits, alone]
          exact ⟨isTidy_text_of_fits fits not_dollar not_backslash, by simp [waits]⟩

theorem isTidy_of_mem_pieces (bindings : Bindings) (value : Text) :
    ∀ piece ∈ bindings.pieces value, IsTidy piece := by
  intro piece member
  obtain ⟨token, token_member, rfl⟩ := List.mem_map.mp member
  exact (isTidy_spliceToken token_member).1

theorem flatMap_names_pieces (bindings : Bindings) (value : Text) :
    (bindings.pieces value).flatMap names = (names value).filter bindings.blocks := by
  have by_token : (lex value).flatMap (fun token =>
      names (bindings.spliceToken .keep token).text) =
        (lex value).flatMap fun token => token.reference?.toList.filter bindings.blocks :=
    List.flatMap_congr fun token member => (isTidy_spliceToken member).2
  rw [pieces, List.flatMap_map, by_token, names]
  induction lex value with
  | nil => rfl
  | cons token tokens ih =>
      rw [List.flatMap_cons, ih, List.filterMap_cons]
      cases token.reference? with
      | none => rfl
      | some name => exact (List.filter_append [name] _).symm

theorem splice_eq_self {text : Text} (tidy : IsTidy text)
    (waits : ∀ name ∈ names text, bindings.blocks name = true) :
    bindings.splice .keep text = { text, pending := (names text).length } := by
  have pieces_eq : ∀ token ∈ grains text,
      (bindings.spliceToken .keep token).text = token.text := by
    intro token member
    obtain ⟨not_dollar, not_backslash⟩ := isTidy_iff.mp tidy token member
    cases named : token.reference? with
    | some name =>
        rw [spliceToken_keep named (waits name (mem_names_of_mem_grains member named))]
    | none =>
        rw [spliceToken_of_reference?_eq_none named]
        exact Token.shield_eq_text named not_dollar not_backslash
  have text_eq : (bindings.splice .keep text).text = text := by
    rw [text_splice, List.flatMap_congr pieces_eq, flatMap_text_grains]
  have pending_eq : (bindings.splice .keep text).pending = (names text).length := by
    rw [pending_splice_keep, List.countP_eq_length.mpr waits]
  exact congrArg₂ Splice.mk text_eq pending_eq

/-- A pass leaves exactly the waiting references of a value behind, and another pass under the same
bindings changes nothing, if and only if no piece runs on in the pieces behind it. -/
theorem keeps_waiting_references_iff (bindings : Bindings) (value : Text) :
    (bindings.splice .keep value).pending = ((names value).filter bindings.blocks).length ∧
      ((names (bindings.splice .keep value).text = (names value).filter bindings.blocks ∧
          bindings.splice .keep (bindings.splice .keep value).text =
            bindings.splice .keep value) ↔
        StandApart (bindings.pieces value)) := by
  have pending_eq : (bindings.splice .keep value).pending =
      ((names value).filter bindings.blocks).length := by
    rw [pending_splice_keep, List.countP_eq_length_filter]
  have tidy := bindings.isTidy_of_mem_pieces value
  have exactly := names_flatten_iff tidy
  rw [flatten_pieces, flatMap_names_pieces] at exactly
  refine ⟨pending_eq, ?_⟩
  rw [← exactly]
  refine ⟨And.left, fun kept => ⟨kept, ?_⟩⟩
  have whole_tidy := isTidy_flatten tidy
  rw [flatten_pieces] at whole_tidy
  have all_wait : ∀ name ∈ names (bindings.splice .keep value).text,
      bindings.blocks name = true := by
    intro name member
    rw [kept] at member
    exact (List.mem_filter.mp member).2
  rw [splice_eq_self whole_tidy all_wait, kept, ← pending_eq]

/-- Bindings in which `B` waits and `X` does not. -/
def halfResolved : Bindings :=
  (OrderedMap.empty.insert ['B'] { Binding.ofSource "${C}".toList {} with pending := 1 }).insert
    ['X'] (.ofSource ['x'] {})

/-- A name that is kept without braces goes on in the text spliced behind it. -/
theorem not_keeps_waiting_references_halfResolved :
    (names "$B${X}".toList).filter halfResolved.blocks = [['B']] ∧
      halfResolved.splice .keep "$B${X}".toList = { text := "$Bx".toList, pending := 1 } ∧
      names "$Bx".toList = [['B', 'x']] ∧
      halfResolved.splice .keep "$Bx".toList = { text := [], pending := 0 } := by
  decide +kernel

end Bindings
end EnvFile
