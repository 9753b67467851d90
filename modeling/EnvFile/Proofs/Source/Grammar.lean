import EnvFile.Proofs.Value.Grain
import EnvFile.Source.Reading
import Mathlib.Data.List.Chain

/-!
# The grammar of definitions

What a definition can consist of (`Definition.IsWellFormed`): a name, and a value that suits the
quotes it stands in.  Reading yields nothing else.  A definition that is read stands somewhere in
the source (`StandsIn`), and what stands there without quotes or between marks is a value of that
kind (`StandsIn.isValue`).
-/

namespace EnvFile

open Value

/-- A text that can be a value without quotes: it stays on its line, no blank stands at either end,
and neither a mark nor a comment begins in it. -/
structure Unquoted.IsValue (text : Text) : Prop where
  newline_notMem : '\n' ∉ text
  head_solid : ∀ c ∈ text.head?, isBlank c = false
  head_unmarked : ∀ c ∈ text.head?, c ≠ '\'' ∧ c ≠ '"'
  head_uncommented : ∀ c ∈ text.head?, c ≠ '#'
  last_solid : ∀ c ∈ text.getLast?, isBlank c = false
  uncommented : text.IsChain fun first second => isBlank first = true → second ≠ '#'

/-- Each backslash can be paired with the character behind it, from left to right, and no double
mark is left outside the pairs. -/
inductive Quote.IsPaired : Text → Prop
  | nil : IsPaired []
  | pair (c : Char) {rest : Text} : IsPaired rest → IsPaired ('\\' :: c :: rest)
  | single {c : Char} {rest : Text} : c ≠ '\\' → c ≠ '"' → IsPaired rest → IsPaired (c :: rest)

/-- A text that can be a value in the given quotes. -/
def IsValue : Option Quote → Text → Prop
  | none, text => Unquoted.IsValue text
  | some .single, text => '\'' ∉ text
  | some .double, text => Quote.IsPaired text

/-- A definition of a name by a value that suits its quotes. -/
structure Definition.IsWellFormed (definition : Definition) : Prop where
  isName_key : IsName definition.key
  isValue_value : IsValue definition.quote definition.value

theorem mem_head?_of_isPrefix {front text : Text} (isPrefix : front <+: text) :
    ∀ c ∈ front.head?, c ∈ text.head? := by
  obtain ⟨rest, rfl⟩ := isPrefix
  cases front with
  | nil => simp
  | cons head tail => exact fun c is_head => is_head

theorem Text.isPrefix_trimEnd (text : Text) : trimEnd text <+: text := by
  obtain ⟨blanks, split, _⟩ := exists_trimEnd_append text
  exact ⟨blanks, split.symm⟩

theorem Text.last_solid_trimEnd (text : Text) :
    ∀ c ∈ (trimEnd text).getLast?, isBlank c = false := by
  induction text with
  | nil => simp [trimEnd]
  | cons head tail ih =>
      intro c is_last
      by_cases dropped : trimEnd tail = [] ∧ isBlank head = true
      · simp [trimEnd, dropped] at is_last
      · simp only [trimEnd, dropped, ↓reduceIte, List.getLast?_cons, Option.mem_def,
          Option.some.injEq] at is_last
        cases kept : (trimEnd tail).getLast? with
        | some last =>
            rw [kept, Option.getD_some] at is_last
            exact ih c (is_last ▸ kept)
        | none =>
            rw [kept, Option.getD_none] at is_last
            rw [List.getLast?_eq_none_iff] at kept
            simpa [kept, is_last] using dropped

theorem Text.trimEnd_eq_self {text : Text} (solid : ∀ c ∈ text.getLast?, isBlank c = false) :
    trimEnd text = text := by
  obtain ⟨blanks, split, all_blank⟩ := exists_trimEnd_append text
  cases last : blanks.getLast? with
  | none =>
      rw [List.getLast?_eq_none_iff] at last
      rw [last, List.append_nil] at split
      exact split.symm
  | some c =>
      have is_last : text.getLast? = some c := by
        rw [split, List.getLast?_append, last, Option.some_or]
      have blank := all_blank c (List.mem_of_getLast? last)
      rw [solid c is_last] at blank
      exact absurd blank (by decide)

namespace Unquoted

theorem isPrefix_beforeComment (mayStart : Bool) (line : Text) :
    beforeComment mayStart line <+: line := by
  induction line generalizing mayStart with
  | nil => exact List.prefix_rfl
  | cons head tail ih =>
      rw [beforeComment]
      split
      · exact List.nil_prefix
      · exact (List.prefix_cons_inj head).mpr (ih _)

theorem head_beforeComment (line : Text) : ∀ c ∈ (beforeComment true line).head?, c ≠ '#' := by
  cases line with
  | nil => simp [beforeComment]
  | cons head tail =>
      by_cases comment : head = '#'
      · simp [beforeComment, comment]
      · simp [beforeComment, comment]

theorem isChain_beforeComment (mayStart : Bool) (line : Text) :
    (beforeComment mayStart line).IsChain
      fun first second => isBlank first = true → second ≠ '#' := by
  induction line generalizing mayStart with
  | nil => exact .nil
  | cons head tail ih =>
      rw [beforeComment]
      split
      · exact .nil
      · refine List.IsChain.cons (ih _) ?_
        intro second is_head blank
        rw [blank] at is_head
        exact head_beforeComment tail second is_head

theorem beforeComment_eq_self {mayStart : Bool} {text : Text}
    (head_uncommented : mayStart = true → ∀ c ∈ text.head?, c ≠ '#')
    (uncommented : text.IsChain fun first second => isBlank first = true → second ≠ '#') :
    beforeComment mayStart text = text := by
  induction text generalizing mayStart with
  | nil => rfl
  | cons head tail ih =>
      rw [List.isChain_cons] at uncommented
      have goes_on : ¬ (head = '#' ∧ mayStart = true) := fun both =>
        head_uncommented both.2 head rfl both.1
      rw [beforeComment, if_neg goes_on, ih _ uncommented.2]
      exact fun blank c is_head => uncommented.1 c is_head blank

theorem isPrefix_value (line : Text) : value line <+: line :=
  (Text.isPrefix_trimEnd _).trans (isPrefix_beforeComment true line)

theorem isValue_value {text : Text} (head_solid : ∀ c ∈ text.head?, isBlank c = false)
    (head_unmarked : ∀ c ∈ text.head?, c ≠ '\'' ∧ c ≠ '"') :
    IsValue (value (text.takeWhile (· != '\n'))) := by
  have kept : value (text.takeWhile (· != '\n')) <+: beforeComment true _ :=
    Text.isPrefix_trimEnd _
  have inLine := isPrefix_value (text.takeWhile (· != '\n'))
  have inText := inLine.trans (List.takeWhile_prefix (· != '\n'))
  have heads : ∀ c ∈ (value (text.takeWhile (· != '\n'))).head?, c ∈ text.head? :=
    mem_head?_of_isPrefix inText
  constructor
  · intro member
    simpa using List.mem_takeWhile_imp (inLine.subset member)
  · exact fun c is_head => head_solid c (heads c is_head)
  · exact fun c is_head => head_unmarked c (heads c is_head)
  · exact fun c is_head => head_beforeComment _ c (mem_head?_of_isPrefix kept c is_head)
  · exact Text.last_solid_trimEnd _
  · exact List.IsChain.prefix (isChain_beforeComment true _) kept

theorem IsValue.value_eq {text : Text} (isValue : IsValue text) : value text = text := by
  rw [value, beforeComment_eq_self (fun _ => isValue.head_uncommented) isValue.uncommented,
    Text.trimEnd_eq_self isValue.last_solid]

end Unquoted

namespace Quote

/-- Without the mark in it a text between single marks is closed by the first mark behind it. -/
theorem body?_single_append {text : Text} (unmarked : '\'' ∉ text) (rest : Text) :
    single.body? (text ++ '\'' :: rest) = some text := by
  induction text with
  | nil => rfl
  | cons head tail ih =>
      rw [List.mem_cons, not_or] at unmarked
      have reads_on : single.body? (head :: (tail ++ '\'' :: rest)) =
          (single.body? (tail ++ '\'' :: rest)).map fun body => head :: body := by
        have not_mark : head ≠ single.mark := Ne.symm unmarked.1
        cases behind : tail ++ '\'' :: rest with
        | nil => simp at behind
        | cons c behind =>
            by_cases backslash : head = '\\'
            · subst backslash
              rw [body?, if_neg (by decide)]
            · rw [body?, if_neg not_mark]
              rintro _ _ rfl
              exact absurd rfl backslash
      rw [List.cons_append, reads_on, ih unmarked.2]
      rfl

theorem body?_double_append {text : Text} (paired : IsPaired text) (rest : Text) :
    double.body? (text ++ '"' :: rest) = some text := by
  induction paired with
  | nil => rfl
  | pair c _ ih =>
      rw [List.cons_append, List.cons_append, body?, if_pos rfl, ih]
      rfl
  | single not_backslash not_mark _ ih =>
      have not_mark : _ ≠ double.mark := not_mark
      rw [List.cons_append, body?, if_neg not_mark, ih]
      · rfl
      · rintro _ _ rfl
        exact absurd rfl not_backslash

theorem body?_append {quote : Quote} {text : Text} (isValue : IsValue (some quote) text)
    (rest : Text) : quote.body? (text ++ quote.mark :: rest) = some text := by
  cases quote with
  | single => exact body?_single_append isValue rest
  | double => exact body?_double_append isValue rest

/-- What stands in front of the closing mark is a value. -/
theorem isValue_of_body? {quote : Quote} {text body : Text}
    (closed : quote.body? text = some body) :
    IsValue (some quote) body := by
  fun_induction quote.body? text generalizing body with
  | case1 => simp at closed
  | case2 c rest is_double ih =>
      obtain ⟨inner, found, rfl⟩ := Option.map_eq_some_iff.mp closed
      subst is_double
      exact .pair c (ih found)
  | case3 c rest not_double ih =>
      obtain ⟨inner, found, rfl⟩ := Option.map_eq_some_iff.mp closed
      cases quote with
      | double => exact absurd rfl not_double
      | single =>
          have unmarked : '\'' ∉ inner := ih found
          simpa [IsValue] using unmarked
  | case4 tail not_escape =>
      obtain rfl := Option.some.inj closed
      cases quote with
      | single => simp [IsValue]
      | double => exact .nil
  | case5 head tail not_escape not_mark ih =>
      obtain ⟨inner, found, rfl⟩ := Option.map_eq_some_iff.mp closed
      have isValue := ih found
      cases quote with
      | single =>
          have unmarked : '\'' ∉ inner := isValue
          simpa [IsValue, unmarked] using fun same : '\'' = head => not_mark same.symm
      | double =>
          refine .single ?_ not_mark isValue
          rintro rfl
          cases tail with
          | nil => simp [body?] at found
          | cons c rest => exact not_escape c rest rfl rfl

/-- Dropping carriage returns in front of newlines leaves the pairs as they are. -/
theorem IsPaired.content {body : Text} (paired : IsPaired body) :
    IsPaired (double.content body) := by
  induction paired with
  | nil => exact .nil
  | pair c _ ih =>
      rw [Quote.content, if_pos rfl]
      exact .pair c ih
  | @single head rest not_backslash not_mark _ ih =>
      by_cases dropped : ∃ behind, head = '\r' ∧ rest = '\n' :: behind
      · obtain ⟨behind, rfl, rfl⟩ := dropped
        have kept : double.content ('\n' :: behind) = '\n' :: double.content behind := by
          rw [Quote.content] <;> simp
        rwa [Quote.content, ← kept]
      · rw [Quote.content]
        · exact .single not_backslash not_mark ih
        · rintro _ _ rfl
          exact absurd rfl not_backslash
        · rintro behind rfl rfl
          exact dropped ⟨behind, rfl, rfl⟩

theorem content_sublist (quote : Quote) (body : Text) : (quote.content body).Sublist body := by
  fun_induction quote.content body with
  | case1 => exact .slnil
  | case2 c rest _ ih => exact (ih.cons_cons c).cons_cons '\\'
  | case3 c rest _ ih => exact ih.cons_cons '\\'
  | case4 rest ih => exact (ih.cons_cons '\n').cons '\r'
  | case5 head tail _ _ ih => exact ih.cons_cons head

theorem content_eq_self {quote : Quote} {body : Text} (unreturned : '\r' ∉ body) :
    quote.content body = body := by
  fun_induction quote.content body with
  | case1 => rfl
  | case2 c rest _ ih => rw [ih (by simp_all)]
  | case3 c rest _ ih => rw [ih (by simp_all)]
  | case4 rest ih => simp at unreturned
  | case5 head tail _ _ ih => rw [ih (by simp_all)]

theorem isValue_content {quote : Quote} {body : Text} (isValue : IsValue (some quote) body) :
    IsValue (some quote) (quote.content body) := by
  cases quote with
  | single => exact fun member => isValue ((content_sublist single body).subset member)
  | double => exact IsPaired.content isValue

end Quote

/-- The value of a definition stands in front of a text: without quotes up to the end of the line,
or in quotes whose opening mark is behind already. -/
inductive StandsIn : Option Quote → Text → Text → Prop
  | unquoted {text : Text} (head_solid : ∀ c ∈ text.head?, isBlank c = false)
      (head_unmarked : ∀ c ∈ text.head?, c ≠ '\'' ∧ c ≠ '"') :
      StandsIn none (Unquoted.value (text.takeWhile (· != '\n'))) text
  | quoted {quote : Quote} {text body : Text} (closed : quote.body? text = some body) :
      StandsIn (some quote) (quote.content body) text

/-- What stands in a source is a value. -/
theorem StandsIn.isValue {quote : Option Quote} {value text : Text}
    (stands : StandsIn quote value text) : IsValue quote value := by
  cases stands with
  | unquoted head_solid head_unmarked => exact Unquoted.isValue_value head_solid head_unmarked
  | quoted closed => exact Quote.isValue_content (Quote.isValue_of_body? closed)

theorem Cursor.head_skipBlanks (cursor : Cursor) :
    ∀ c ∈ cursor.skipBlanks.rest.head?, isBlank c = false :=
  head?_dropWhile_eq_false isBlank cursor.rest

namespace Source

section Steps

variable {α β : Type}

theorem Step.exists_of_andThen_eq_ok {step : Step α} {next : α → Cursor → Step β} {value : β}
    (read : (step.andThen next).result = .ok value) :
    ∃ first, step.result = .ok first ∧ (next first step.stop).result = .ok value := by
  unfold andThen at read
  cases result : step.result with
  | error diagnostic => simp [result] at read
  | ok first =>
      rw [result] at read
      exact ⟨first, rfl, read⟩

end Steps

theorem isName_of_readKey {cursor : Cursor} {key : Text}
    (read : (readKey cursor).result = .ok key) : IsName key := by
  unfold readKey at read
  split at read
  · rename_i starts
    obtain rfl := Except.ok.inj read
    cases rest_eq : cursor.rest with
    | nil => simp [rest_eq] at starts
    | cons head tail =>
        have starts : isNameStart head = true := by simpa [rest_eq] using starts
        refine ⟨head, tail.takeWhile isNameChar, ?_, starts, fun c => List.mem_takeWhile_imp⟩
        rw [List.takeWhile_cons, if_pos (isNameChar_of_isNameStart starts)]
  · exact absurd read (by simp)

theorem isName_of_readExportedKey {cursor : Cursor} {key : Text}
    (read : (readExportedKey cursor).result = .ok key) : IsName key := by
  obtain ⟨first, first_read, rest_read⟩ := Step.exists_of_andThen_eq_ok read
  have first_named := isName_of_readKey first_read
  split at rest_read
  · split at rest_read
    · exact Except.ok.inj rest_read ▸ first_named
    · exact isName_of_readKey rest_read
  · exact Except.ok.inj rest_read ▸ first_named

theorem head_solid_of_readEquals {key : Text} {cursor : Cursor} {sign : Unit}
    (read : (readEquals key cursor).result = .ok sign) :
    ∀ c ∈ (readEquals key cursor).stop.rest.head?, isBlank c = false := by
  unfold readEquals at read ⊢
  dsimp only at read ⊢
  split at read
  · rename_i is_sign
    rw [if_pos is_sign]
    exact Cursor.head_skipBlanks _
  · exact absurd read (by simp [Step.fail])

theorem ofMark?_eq_none_iff (c : Char) : Quote.ofMark? c = none ↔ c ≠ '\'' ∧ c ≠ '"' := by
  by_cases is_single : c = '\''
  · simp [Quote.ofMark?, Quote.mark, is_single]
  · by_cases is_double : c = '"' <;> simp [Quote.ofMark?, Quote.mark, is_single, is_double]

/-- The value that is read stands at its place in the source. -/
theorem exists_standsIn_of_readValue {key : Text} {cursor : Cursor} {definition : Definition}
    (head_solid : ∀ c ∈ cursor.rest.head?, isBlank c = false)
    (read : (readValue key cursor).result = .ok definition) :
    definition.key = key ∧ ∃ there, cursor.Reaches there ∧ there.position = definition.position ∧
      StandsIn definition.quote definition.value there.rest := by
  unfold readValue at read
  split at read
  · rename_i quote _
    unfold readQuoted at read
    dsimp only at read
    split at read
    · exact absurd read (by simp)
    · rename_i body closed
      split at read
      · obtain rfl := Except.ok.inj read
        exact ⟨rfl, cursor.advance 1, cursor.reaches_advance 1, rfl, .quoted closed⟩
      · exact absurd read (by simp [Step.fail])
  · rename_i unmarked
    obtain rfl := Except.ok.inj read
    refine ⟨rfl, cursor, .refl cursor, rfl, .unquoted head_solid fun c is_head => ?_⟩
    rw [Option.mem_def] at is_head
    rw [is_head, Option.bind_some] at unmarked
    exact (ofMark?_eq_none_iff c).mp unmarked

theorem exists_standsIn_of_readDefinition {cursor : Cursor} {definition : Definition}
    (read : (readDefinition cursor).result = .ok definition) :
    IsName definition.key ∧ ∃ there, cursor.Reaches there ∧
      there.position = definition.position ∧
      StandsIn definition.quote definition.value there.rest := by
  obtain ⟨key, key_read, rest_read⟩ := Step.exists_of_andThen_eq_ok read
  obtain ⟨sign, sign_read, value_read⟩ := Step.exists_of_andThen_eq_ok rest_read
  obtain ⟨key_eq, there, reaches, position_eq, stands⟩ :=
    exists_standsIn_of_readValue (head_solid_of_readEquals sign_read) value_read
  have front := (reaches_readExportedKey cursor).trans (reaches_readEquals key _)
  exact ⟨key_eq ▸ isName_of_readExportedKey key_read, there, front.trans reaches, position_eq,
    stands⟩

theorem exists_standsIn_of_mem_readLines {cursor : Cursor} {definition : Definition}
    (member : .ok definition ∈ readLines cursor) :
    IsName definition.key ∧ ∃ there, cursor.Reaches there ∧
      there.position = definition.position ∧
      StandsIn definition.quote definition.value there.rest := by
  fun_induction readLines cursor with
  | case1 cursor nonempty ih =>
      rcases List.mem_append.mp member with here | later
      · rw [Option.mem_toList] at here
        unfold readLine at here
        dsimp only at here
        split at here
        · simp at here
        · obtain ⟨named, there, reaches, placed⟩ :=
            exists_standsIn_of_readDefinition (Option.some.inj here)
          exact ⟨named, there, cursor.reaches_skipBlanks.trans reaches, placed⟩
      · obtain ⟨named, there, reaches, placed⟩ := ih later
        exact ⟨named, there, (reaches_readLine cursor).trans reaches, placed⟩
  | case2 => simp at member

theorem mem_readLines_of_mem {source : Text} {definitions : List Definition}
    (scans : Source.definitions source = .ok definitions) {definition : Definition}
    (member : definition ∈ definitions) : .ok definition ∈ readLines (.start source) := by
  unfold Source.definitions at scans
  dsimp only at scans
  split at scans
  · obtain rfl := Except.ok.inj scans
    obtain ⟨line, listed, found⟩ := List.mem_filterMap.mp member
    cases line with
    | error diagnostic => simp [Except.toOption] at found
    | ok read =>
        obtain rfl : read = definition := by simpa [Except.toOption] using found
        exact listed
  · simp at scans

theorem isWellFormed_of_mem {source : Text} {definitions : List Definition}
    (scans : Source.definitions source = .ok definitions) {definition : Definition}
    (member : definition ∈ definitions) : definition.IsWellFormed := by
  obtain ⟨named, _, _, _, stands⟩ :=
    exists_standsIn_of_mem_readLines (mem_readLines_of_mem scans member)
  exact ⟨named, stands.isValue⟩

end Source
end EnvFile
