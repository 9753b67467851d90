import EnvFile.Proofs.Source.Grammar
import EnvFile.Proofs.Source.Lowering

/-!
# Sources one after another

A source that ends with a newline and leaves no quote open says nothing about the text behind it.
Each reader stops in front of that text without having looked at it (`Source.Step.Extends`), so a
source behind another one is read as if it stood alone, further down
(`Source.reads_pieces_one_by_one`).  In particular what is wrong with a line does not spread to the
lines below.
-/

namespace EnvFile

theorem newline_mem_dropWhile {passes : Char → Bool} {text : Text} (stops : passes '\n' = false)
    (member : '\n' ∈ text) : '\n' ∈ text.dropWhile passes := by
  rw [← List.takeWhile_append_dropWhile (p := passes) (l := text)] at member
  refine (List.mem_append.mp member).resolve_left fun passed => ?_
  rw [List.mem_takeWhile_imp passed] at stops
  exact absurd stops (by decide)

theorem takeWhile_append_of_newline_mem {passes : Char → Bool} {text : Text}
    (stops : passes '\n' = false) (member : '\n' ∈ text) (later : Text) :
    (text ++ later).takeWhile passes = text.takeWhile passes := by
  have some_left := List.ne_nil_of_mem (newline_mem_dropWhile stops member)
  have shorter : (text.takeWhile passes).length ≠ text.length := by
    have lengths := congrArg List.length
      (List.takeWhile_append_dropWhile (p := passes) (l := text))
    have positive := List.length_pos_iff.mpr some_left
    rw [List.length_append] at lengths
    omega
  rw [List.takeWhile_append, if_neg shorter]

theorem dropWhile_append_of_newline_mem {passes : Char → Bool} {text : Text}
    (stops : passes '\n' = false) (member : '\n' ∈ text) (later : Text) :
    (text ++ later).dropWhile passes = text.dropWhile passes ++ later := by
  have some_left := List.ne_nil_of_mem (newline_mem_dropWhile stops member)
  rw [List.dropWhile_append, if_neg (by simpa using some_left)]

namespace Cursor

/-- What is left to read ends with a newline. -/
def IsTerminated (cursor : Cursor) : Prop :=
  ['\n'] <:+ cursor.rest

/-- The cursor with more text at the end of what is left to read. -/
def extend (cursor : Cursor) (later : Text) : Cursor :=
  { cursor with rest := cursor.rest ++ later }

@[simp]
theorem rest_extend (cursor : Cursor) (later : Text) :
    (cursor.extend later).rest = cursor.rest ++ later := rfl

variable {cursor : Cursor}

theorem IsTerminated.newline_mem (terminated : cursor.IsTerminated) : '\n' ∈ cursor.rest :=
  terminated.subset (List.mem_singleton.mpr rfl)

theorem IsTerminated.rest_ne_nil (terminated : cursor.IsTerminated) : cursor.rest ≠ [] :=
  List.ne_nil_of_mem terminated.newline_mem

theorem IsTerminated.head?_extend (terminated : cursor.IsTerminated) (later : Text) :
    (cursor.extend later).rest.head? = cursor.rest.head? :=
  List.head?_append_of_ne_nil _ terminated.rest_ne_nil

theorem IsTerminated.of_reaches {there : Cursor} (terminated : cursor.IsTerminated)
    (reaches : cursor.Reaches there) (some_left : there.rest ≠ []) : there.IsTerminated := by
  obtain ⟨passed, rest_eq, _⟩ := reaches
  have behind : there.rest <:+ cursor.rest := ⟨passed, rest_eq.symm⟩
  exact List.suffix_of_suffix_length_le terminated behind (List.length_pos_iff.mpr some_left)

theorem IsTerminated.advance (terminated : cursor.IsTerminated) (passed : Text)
    {behind : Text} {c : Char} (split : cursor.rest = passed ++ c :: behind)
    (not_newline : c ≠ '\n') :
    (cursor.advance (passed.length + 1)).IsTerminated := by
  have rest_eq : (cursor.advance (passed.length + 1)).rest = behind := by
    simp [Cursor.advance, split]
  apply terminated.of_reaches (cursor.reaches_advance _)
  rw [rest_eq]
  rintro rfl
  obtain ⟨front, ends⟩ := terminated
  rw [split] at ends
  exact not_newline (List.singleton_injective (List.append_inj_right' ends rfl)).symm

theorem advance_extend {count : Nat} (within : count ≤ cursor.rest.length) (later : Text) :
    (cursor.extend later).advance count = (cursor.advance count).extend later := by
  simp only [advance, extend, List.take_append_of_le_length within,
    List.drop_append_of_le_length within]

theorem skipWhile_extend (skipped : Char → Bool) (stops : skipped '\n' = false)
    (terminated : cursor.IsTerminated) (later : Text) :
    (cursor.extend later).skipWhile skipped = (cursor.skipWhile skipped).extend later ∧
      (cursor.skipWhile skipped).IsTerminated := by
  constructor
  · simp only [skipWhile, extend, takeWhile_append_of_newline_mem stops terminated.newline_mem,
      dropWhile_append_of_newline_mem stops terminated.newline_mem]
  · exact terminated.of_reaches (cursor.reaches_skipWhile skipped)
      (List.ne_nil_of_mem (newline_mem_dropWhile stops terminated.newline_mem))

theorem skipBlanks_extend (terminated : cursor.IsTerminated) (later : Text) :
    (cursor.extend later).skipBlanks = cursor.skipBlanks.extend later ∧
      cursor.skipBlanks.IsTerminated :=
  skipWhile_extend isBlank (by decide) terminated later

theorem skipLine_extend (terminated : cursor.IsTerminated) (later : Text) :
    (cursor.extend later).skipLine = cursor.skipLine.extend later := by
  obtain ⟨skip_eq, still⟩ :=
    skipWhile_extend (· != '\n') (by decide) terminated later
  rw [skipLine, skip_eq, advance_extend (List.length_pos_iff.mpr still.rest_ne_nil), skipLine]

end Cursor

namespace Source

variable {α β : Type}

namespace Step

/-- A quote was opened that is never closed. -/
def LeavesOpen (step : Step α) : Prop :=
  ∃ diagnostic, step.result = .error diagnostic ∧ diagnostic.code = .unterminatedQuote

/-- The same step in front of more text. -/
def extend (step : Step α) (later : Text) : Step α :=
  { step with stop := step.stop.extend later }

/-- A step stops in front of a newline, and in front of more text it is the same step. -/
structure Extends (step extended : Step α) (later : Text) : Prop where
  eq : extended = step.extend later
  terminated : step.stop.IsTerminated

theorem andThen_of_ok {step : Step α} {value : α} (result : step.result = .ok value)
    (next : α → Cursor → Step β) : step.andThen next = next value step.stop := by
  rw [andThen, result]

theorem Extends.andThen {step extended : Step α} {next : α → Cursor → Step β} {later : Text}
    (front : step.Extends extended later)
    (back : ∀ value, step.result = .ok value →
      (next value step.stop).Extends (next value (step.stop.extend later)) later) :
    (step.andThen next).Extends (extended.andThen next) later := by
  obtain ⟨rfl, terminated⟩ := front
  cases result : step.result with
  | ok value =>
      have result' : (step.extend later).result = .ok value := result
      rw [andThen_of_ok result, andThen_of_ok result']
      exact back value result
  | error diagnostic =>
      have stays : step.andThen next = { result := .error diagnostic, stop := step.stop } := by
        rw [Step.andThen, result]
      have stays' : (step.extend later).andThen next =
          { result := .error diagnostic, stop := step.stop.extend later } := by
        rw [Step.andThen, show (step.extend later).result = _ from result]
        rfl
      rw [stays, stays']
      exact ⟨rfl, terminated⟩

end Step

variable {cursor : Cursor}

theorem extends_readKey (terminated : cursor.IsTerminated) (later : Text) :
    (readKey cursor).Extends (readKey (cursor.extend later)) later := by
  obtain ⟨name_eq, name_still⟩ :=
    Cursor.skipWhile_extend isNameChar (by decide) terminated later
  obtain ⟨like_eq, like_still⟩ :=
    Cursor.skipWhile_extend isKeyLike (by decide) terminated later
  unfold readKey
  rw [terminated.head?_extend later, name_eq, like_eq, Cursor.rest_extend,
    takeWhile_append_of_newline_mem (by decide) terminated.newline_mem,
    takeWhile_append_of_newline_mem (by decide) terminated.newline_mem]
  split
  · exact ⟨rfl, name_still⟩
  · exact ⟨rfl, like_still⟩

theorem extends_readExportedKey (terminated : cursor.IsTerminated) (later : Text) :
    (readExportedKey cursor).Extends (readExportedKey (cursor.extend later)) later := by
  have first := extends_readKey terminated later
  refine first.andThen fun key _ => ?_
  obtain ⟨blanks_eq, blanks_still⟩ := Cursor.skipBlanks_extend first.terminated later
  rw [first.terminated.head?_extend later, blanks_eq, blanks_still.head?_extend later]
  split
  · split
    · exact ⟨rfl, blanks_still⟩
    · exact extends_readKey blanks_still later
  · exact ⟨rfl, first.terminated⟩

theorem extends_readEquals (key : Text) (terminated : cursor.IsTerminated) (later : Text) :
    (readEquals key cursor).Extends (readEquals key (cursor.extend later)) later := by
  obtain ⟨sign_eq, sign_still⟩ := Cursor.skipBlanks_extend terminated later
  unfold readEquals
  dsimp only
  rw [sign_eq, sign_still.head?_extend later]
  split
  · rename_i is_sign
    obtain ⟨behind, split⟩ := List.head?_eq_some_iff.mp is_sign
    have within : 1 ≤ cursor.skipBlanks.rest.length :=
      List.length_pos_iff.mpr sign_still.rest_ne_nil
    have behind_still : (cursor.skipBlanks.advance 1).IsTerminated :=
      sign_still.advance [] split (by decide)
    obtain ⟨blanks_eq, blanks_still⟩ := Cursor.skipBlanks_extend behind_still later
    rw [Cursor.advance_extend within, blanks_eq]
    exact ⟨rfl, blanks_still⟩
  · exact ⟨rfl, sign_still⟩

theorem body?_append_of_body? {quote : Quote} {text body : Text}
    (closed : quote.body? text = some body) (later : Text) :
    quote.body? (text ++ later) = some body := by
  obtain ⟨behind, rfl⟩ := Quote.append_of_body? closed
  rw [List.append_assoc, List.cons_append]
  exact Quote.body?_append (Quote.isValue_of_body? closed) _

theorem endsLine_append {text : Text} (nonempty : text ≠ []) (later : Text) :
    endsLine (text ++ later) = endsLine text := by
  cases text with
  | nil => exact absurd rfl nonempty
  | cons head tail => rfl

theorem extends_readQuoted (key : Text) (quote : Quote) (terminated : cursor.IsTerminated)
    (closed : ¬ (readQuoted key quote cursor).LeavesOpen) (later : Text) :
    (readQuoted key quote cursor).Extends (readQuoted key quote (cursor.extend later)) later := by
  have within : 1 ≤ cursor.rest.length := List.length_pos_iff.mpr terminated.rest_ne_nil
  cases found : quote.body? (cursor.advance 1).rest with
  | none =>
      have leaves_open : (readQuoted key quote cursor).LeavesOpen := by
        refine ⟨.ofProblem (.unterminatedQuote key quote) cursor.position, ?_, rfl⟩
        simp only [readQuoted, found]
      exact absurd leaves_open closed
  | some body =>
      obtain ⟨behind, split⟩ := Quote.append_of_body? found
      have inside_still : (cursor.advance 1).IsTerminated :=
        terminated.of_reaches (cursor.reaches_advance 1) (by simp [split])
      have behind_still : ((cursor.advance 1).advance (body.length + 1)).IsTerminated :=
        inside_still.advance body split (by cases quote <;> decide)
      obtain ⟨blanks_eq, blanks_still⟩ := Cursor.skipBlanks_extend behind_still later
      have within_body : body.length + 1 ≤ (cursor.advance 1).rest.length := by
        rw [split, List.length_append, List.length_cons]
        omega
      unfold readQuoted
      simp only [Cursor.advance_extend within, Cursor.rest_extend, found,
        body?_append_of_body? found later, Cursor.advance_extend within_body, blanks_eq,
        endsLine_append blanks_still.rest_ne_nil]
      split
      · exact ⟨rfl, blanks_still⟩
      · exact ⟨rfl, blanks_still⟩

theorem extends_readValue (key : Text) (terminated : cursor.IsTerminated)
    (closed : ¬ (readValue key cursor).LeavesOpen) (later : Text) :
    (readValue key cursor).Extends (readValue key (cursor.extend later)) later := by
  unfold readValue at closed ⊢
  rw [terminated.head?_extend later]
  split at closed
  · exact extends_readQuoted key _ terminated closed later
  · obtain ⟨line_eq, line_still⟩ :=
      Cursor.skipWhile_extend (· != '\n') (by decide) terminated later
    rw [readUnquoted, readUnquoted, line_eq, Cursor.rest_extend,
      takeWhile_append_of_newline_mem (by decide) terminated.newline_mem]
    exact ⟨rfl, line_still⟩

theorem extends_readDefinition (terminated : cursor.IsTerminated)
    (closed : ¬ (readDefinition cursor).LeavesOpen) (later : Text) :
    (readDefinition cursor).Extends (readDefinition (cursor.extend later)) later := by
  have exported := extends_readExportedKey terminated later
  refine exported.andThen fun key key_read => ?_
  have equals := extends_readEquals key exported.terminated later
  refine equals.andThen fun sign sign_read => ?_
  rw [readDefinition, Step.andThen_of_ok key_read, Step.andThen_of_ok sign_read] at closed
  exact extends_readValue key equals.terminated closed later

theorem readLine_extend (terminated : cursor.IsTerminated)
    (closed : ∀ diagnostic, (readLine cursor).1 = some (.error diagnostic) →
      diagnostic.code ≠ .unterminatedQuote) (later : Text) :
    readLine (cursor.extend later) =
      ((readLine cursor).1, (readLine cursor).2.extend later) := by
  obtain ⟨blanks_eq, blanks_still⟩ := Cursor.skipBlanks_extend terminated later
  unfold readLine at closed ⊢
  dsimp only at closed ⊢
  rw [blanks_eq, Cursor.rest_extend, endsLine_append blanks_still.rest_ne_nil]
  split at closed
  · rename_i ends
    rw [if_pos ends, if_pos ends, Cursor.skipLine_extend blanks_still]
  · rename_i goes_on
    have step := extends_readDefinition blanks_still (fun ⟨diagnostic, result, code⟩ =>
      closed diagnostic (congrArg some result) code) later
    rw [if_neg goes_on, if_neg goes_on, step.eq]
    simp only [Step.extend, Cursor.skipLine_extend step.terminated]

theorem isTerminated_readLine (terminated : cursor.IsTerminated)
    (some_left : (readLine cursor).2.rest ≠ []) : (readLine cursor).2.IsTerminated :=
  terminated.of_reaches (reaches_readLine cursor) some_left

theorem readLines_extend (terminated : cursor.rest ≠ [] → cursor.IsTerminated)
    (closed : ∀ diagnostic, .error diagnostic ∈ readLines cursor →
      diagnostic.code ≠ .unterminatedQuote) (later : Text) :
    readLines (cursor.extend later) =
      readLines cursor ++ readLines ⟨cursor.position.after cursor.rest, later⟩ := by
  fun_induction readLines cursor with
  | case1 cursor nonempty ih =>
      have terminated := terminated nonempty
      have line := readLine_extend terminated (fun diagnostic read =>
        closed diagnostic (List.mem_append_left _ (by simp [read]))) later
      have below := ih (isTerminated_readLine terminated) fun diagnostic member =>
        closed diagnostic (List.mem_append_right _ member)
      have nonempty' : (cursor.extend later).rest ≠ [] := by simp [nonempty]
      obtain ⟨passed, rest_eq, position_eq⟩ := reaches_readLine cursor
      rw [readLines, dif_pos nonempty', line, below, position_eq, ← Position.after_append,
        ← rest_eq, List.append_assoc]
  | case2 cursor empty =>
      obtain ⟨position, rest⟩ := cursor
      obtain rfl : rest = [] := not_not.mp empty
      rfl

end Source

/-! ## Whole sources -/

namespace Position

theorem line_after (position : Position) (text : Text) :
    (position.after text).line = position.line + text.count '\n' := by
  induction text generalizing position with
  | nil => rfl
  | cons head tail ih =>
      rw [after_cons, ih, List.count_cons]
      by_cases newline : head = '\n'
      · simp [step, newline]
        omega
      · simp [step, newline]

theorem after_of_terminated {text : Text} (terminated : ['\n'] <:+ text) (position : Position) :
    position.after text = { line := position.line + text.count '\n', column := 0 } := by
  have line_eq := position.line_after text
  obtain ⟨front, rfl⟩ := terminated
  have column_eq : (position.after (front ++ ['\n'])).column = 0 := by
    rw [after_append, after_cons, after_nil, step, if_pos rfl]
  rw [← line_eq, ← column_eq]

end Position

namespace Cursor

theorem start_of_unmarked {source : Text} (unmarked : source.head? ≠ some '\uFEFF') :
    start source = ⟨{}, source⟩ := by
  unfold start
  split
  · exact absurd rfl unmarked
  · rfl

theorem start_append {front : Text} (nonempty : front ≠ []) (back : Text) :
    start (front ++ back) = (start front).extend back := by
  cases front with
  | nil => exact absurd rfl nonempty
  | cons head tail =>
      by_cases marked : head = '\uFEFF'
      · subst marked
        rfl
      · have front_unmarked : (head :: tail).head? ≠ some '\uFEFF' := by simpa using marked
        have both_unmarked : (head :: tail ++ back).head? ≠ some '\uFEFF' := by simpa using marked
        rw [start_of_unmarked front_unmarked, start_of_unmarked both_unmarked]
        rfl

theorem isTerminated_start {source : Text} (terminated : ['\n'] <:+ source) :
    (start source).IsTerminated ∧ (start source).rest.count '\n' = source.count '\n' ∧
      (start source).position = {} := by
  cases source with
  | nil => simp at terminated
  | cons head tail =>
      by_cases marked : head = '\uFEFF'
      · subst marked
        rw [List.suffix_cons_iff] at terminated
        exact ⟨terminated.resolve_left (by simp), (List.count_cons_of_ne (by decide)).symm, rfl⟩
      · have unmarked : (head :: tail).head? ≠ some '\uFEFF' := by simpa using marked
        rw [start_of_unmarked unmarked]
        exact ⟨terminated, rfl, rfl⟩

end Cursor

namespace Source

/-- The definitions of a source, also if something is wrong with other lines. -/
def found (source : Text) : List Definition :=
  definitionsOf (readLines (.start source))

/-- Everything that is wrong with a source. -/
def errors (source : Text) : List Diagnostic :=
  diagnosticsOf (readLines (.start source))

theorem definitions_eq (source : Text) :
    definitions source =
      if errors source = [] then .ok (found source) else .error (errors source) := rfl

theorem exists_definitions_eq_error_iff (source : Text) :
    (∃ wrong, definitions source = .error wrong) ↔ errors source ≠ [] := by
  rw [definitions_eq]
  by_cases clean : errors source = [] <;> simp [clean]

theorem mem_diagnosticsOf_iff {lines : List (Except Diagnostic Definition)}
    {diagnostic : Diagnostic} :
    diagnostic ∈ diagnosticsOf lines ↔ .error diagnostic ∈ lines := by
  rw [diagnosticsOf, List.mem_filterMap]
  constructor
  · rintro ⟨line, member, is_error⟩
    cases line with
    | error other => exact Option.some.inj is_error ▸ member
    | ok definition => simp at is_error
  · exact fun member => ⟨.error diagnostic, member, rfl⟩

theorem definitionsOf_map_lowerLine (lines : Nat) (contents : List (Except Diagnostic Definition)) :
    definitionsOf (contents.map (lowerLine lines)) =
      (definitionsOf contents).map fun definition => definition.down lines := by
  rw [definitionsOf, List.filterMap_map, definitionsOf, List.map_filterMap]
  congr 1
  funext line
  cases line <;> rfl

theorem diagnosticsOf_map_lowerLine (lines : Nat) (contents : List (Except Diagnostic Definition)) :
    diagnosticsOf (contents.map (lowerLine lines)) =
      (diagnosticsOf contents).map fun diagnostic => diagnostic.down lines := by
  rw [diagnosticsOf, List.filterMap_map, diagnosticsOf, List.map_filterMap]
  congr 1
  funext line
  cases line <;> rfl

/-- The lines of a source that ends with a newline and leaves no quote open are read first, and then
those of the source behind it, further down. -/
theorem readLines_start_append {front back : Text} (terminated : ['\n'] <:+ front)
    (closed : ∀ diagnostic ∈ errors front, diagnostic.code ≠ .unterminatedQuote)
    (unmarked : back.head? ≠ some '\uFEFF') :
    readLines (.start (front ++ back)) =
      readLines (.start front) ++
        (readLines (.start back)).map (lowerLine (front.count '\n')) := by
  have nonempty : front ≠ [] := by
    rintro rfl
    simp at terminated
  obtain ⟨still, count_eq, position_eq⟩ := Cursor.isTerminated_start terminated
  have below : ((Cursor.start front).position.after (Cursor.start front).rest) =
      Position.down {} (front.count '\n') := by
    rw [Position.after_of_terminated still, count_eq, position_eq]
    rfl
  have lowered := readLines_down ⟨{}, back⟩ (front.count '\n')
  rw [Cursor.start_append nonempty, readLines_extend (fun _ => still)
    (fun diagnostic member => closed diagnostic (mem_diagnosticsOf_iff.mpr member)), below,
    Cursor.start_of_unmarked unmarked, ← lowered]
  rfl

/-- A source can be read piece by piece.  If a piece ends with a newline and leaves no quote open,
what is found in it and what is wrong with it comes first, and what the piece behind it holds comes
after that, each position as many lines further down as there are newlines in front. -/
theorem reads_pieces_one_by_one {front back : Text} (terminated : ['\n'] <:+ front)
    (closed : ∀ diagnostic ∈ errors front, diagnostic.code ≠ .unterminatedQuote)
    (unmarked : back.head? ≠ some '\uFEFF') :
    found (front ++ back) =
        found front ++ (found back).map (fun definition => definition.down (front.count '\n')) ∧
      errors (front ++ back) =
        errors front ++ (errors back).map (fun diagnostic => diagnostic.down (front.count '\n')) ∧
      ((∃ wrong, definitions (front ++ back) = .error wrong) ↔
        (∃ wrong, definitions front = .error wrong) ∨
          ∃ wrong, definitions back = .error wrong) := by
  have lines_eq := readLines_start_append terminated closed unmarked
  have errors_eq : errors (front ++ back) = errors front ++
      (errors back).map (fun diagnostic => diagnostic.down (front.count '\n')) := by
    rw [errors, lines_eq, diagnosticsOf, List.filterMap_append, ← diagnosticsOf, ← diagnosticsOf,
      diagnosticsOf_map_lowerLine]
    rfl
  refine ⟨?_, errors_eq, ?_⟩
  · rw [found, lines_eq, definitionsOf, List.filterMap_append, ← definitionsOf, ← definitionsOf,
      definitionsOf_map_lowerLine]
    rfl
  · simp only [exists_definitions_eq_error_iff, errors_eq, ne_eq, List.append_eq_nil_iff,
      List.map_eq_nil_iff, not_and_or]

/-- A piece with a byte order mark, text behind a value that spans lines, and a line without a key.
-/
def malformedPiece : Text :=
  "\uFEFFA='x\ny' z\nC=c\n=\n".toList

/-- A piece with a definition and a line that is not one. -/
def furtherPiece : Text :=
  "B=1\nbad".toList

/-- What two pieces hold is found in both put together. -/
theorem reads_malformedPiece_furtherPiece :
    found (malformedPiece ++ furtherPiece) =
        [{ key := ['C'], value := ['c'], quote := none, position := ⟨2, 2⟩ },
          { key := ['B'], value := ['1'], quote := none, position := ⟨4, 2⟩ }] ∧
      errors (malformedPiece ++ furtherPiece) =
        [.ofProblem (.trailingText ['A']) ⟨1, 3⟩, .ofProblem (.invalidKey []) ⟨3, 0⟩,
          .ofProblem (.missingEquals "bad".toList) ⟨5, 3⟩] := by
  have terminated : ['\n'] <:+ malformedPiece := by decide +kernel
  have closed : ∀ diagnostic ∈ errors malformedPiece, diagnostic.code ≠ .unterminatedQuote := by
    decide +kernel
  have unmarked : furtherPiece.head? ≠ some '\uFEFF' := by decide +kernel
  obtain ⟨found_eq, errors_eq, _⟩ := reads_pieces_one_by_one terminated closed unmarked
  rw [found_eq, errors_eq]
  decide +kernel

end Source
end EnvFile
