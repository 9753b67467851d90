import EnvFile.Proofs.Source.Canonical

/-!
# Carriage returns

What becomes of a text, and of the values in it, when a carriage return is put in front of each
newline.  A reader of the text with returns is at the same place as the reader of the text without,
or between a return and its newline (`Text.Returned`).  A return at the end of an unquoted value is
trimmed off (`Unquoted.value_append_return`), and between marks each return is dropped but for those
that a backslash takes along (`Quote.content_single_withReturns`,
`Quote.content_double_withReturns`).
-/

namespace EnvFile

open Value

namespace Text

/-- The text with a carriage return in front of each newline. -/
def withReturns (text : Text) : Text :=
  text.flatMap fun c => if c = '\n' then ['\r', '\n'] else [c]

@[simp]
theorem withReturns_nil : withReturns [] = [] := rfl

@[simp]
theorem withReturns_newline (rest : Text) :
    withReturns ('\n' :: rest) = '\r' :: '\n' :: withReturns rest := rfl

@[simp]
theorem withReturns_cons {c : Char} (not_newline : c ≠ '\n') (rest : Text) :
    withReturns (c :: rest) = c :: withReturns rest := by
  simp [withReturns, not_newline]

@[simp]
theorem withReturns_append (front back : Text) :
    withReturns (front ++ back) = withReturns front ++ withReturns back :=
  List.flatMap_append

/-- What is left to read with returns, where the text is what is left without: each newline of it
still has its return, or the first one has it passed. -/
inductive Returned : Text → Text → Prop
  | whole (text : Text) : Returned text text.withReturns
  | behind (text : Text) : Returned ('\n' :: text) ('\n' :: text.withReturns)

variable {text returned : Text}

theorem Returned.cases_head (read : Returned text returned) :
    (text = [] ∧ returned = []) ∨
    (∃ rest, text = '\n' :: rest ∧
      (returned = '\r' :: '\n' :: withReturns rest ∨ returned = '\n' :: withReturns rest)) ∨
    ∃ c rest, c ≠ '\n' ∧ text = c :: rest ∧ returned = c :: withReturns rest := by
  cases read with
  | behind rest => exact .inr (.inl ⟨rest, rfl, .inr rfl⟩)
  | whole =>
      cases text with
      | nil => exact .inl ⟨rfl, rfl⟩
      | cons c rest =>
          by_cases newline : c = '\n'
          · subst newline
            exact .inr (.inl ⟨rest, rfl, .inl rfl⟩)
          · exact .inr (.inr ⟨c, rest, newline, rfl, withReturns_cons newline rest⟩)

theorem Returned.head?_eq (read : Returned text returned) (inside : text.head? ≠ some '\n') :
    returned.head? = text.head? := by
  rcases read.cases_head with ⟨rfl, rfl⟩ | ⟨rest, rfl, _⟩ | ⟨c, rest, _, rfl, rfl⟩
  · rfl
  · exact absurd rfl inside
  · rfl

theorem Returned.exists_tail (read : Returned text returned) {c : Char} (not_newline : c ≠ '\n')
    (is_head : text.head? = some c) :
    ∃ rest, text = c :: rest ∧ returned = c :: withReturns rest := by
  rcases read.cases_head with ⟨rfl, rfl⟩ | ⟨rest, rfl, _⟩ | ⟨d, rest, _, rfl, rfl⟩
  · simp at is_head
  · exact absurd (Option.some.inj is_head).symm not_newline
  · obtain rfl := Option.some.inj is_head
    exact ⟨rest, rfl, rfl⟩

/-- Both readers pass over the characters of a class that newlines are not in. -/
theorem Returned.dropWhile {passes : Char → Bool} (stops : passes '\n' = false)
    (read : Returned text returned) :
    Returned (text.dropWhile passes) (returned.dropWhile passes) := by
  cases read with
  | behind rest =>
      rw [List.dropWhile_cons_of_neg (by simp [stops]),
        List.dropWhile_cons_of_neg (by simp [stops])]
      exact .behind rest
  | whole =>
      induction text with
      | nil => exact .whole []
      | cons c rest ih =>
          by_cases newline : c = '\n'
          · subst newline
            rw [List.dropWhile_cons_of_neg (by simp [stops]), withReturns_newline]
            cases returns : passes '\r' with
            | true =>
                rw [List.dropWhile_cons_of_pos returns,
                  List.dropWhile_cons_of_neg (by simp [stops])]
                exact .behind rest
            | false =>
                rw [List.dropWhile_cons_of_neg (by simp [returns])]
                exact .whole ('\n' :: rest)
          · rw [withReturns_cons newline]
            by_cases passed : passes c = true
            · rwa [List.dropWhile_cons_of_pos passed, List.dropWhile_cons_of_pos passed]
            · rw [List.dropWhile_cons_of_neg passed, List.dropWhile_cons_of_neg passed,
                ← withReturns_cons newline]
              exact .whole (c :: rest)

theorem Returned.takeWhile_eq {passes : Char → Bool} (stops : passes '\n' = false)
    (returns : passes '\r' = false) (read : Returned text returned) :
    returned.takeWhile passes = text.takeWhile passes := by
  cases read with
  | behind rest => simp [stops]
  | whole =>
      induction text with
      | nil => rfl
      | cons c rest ih =>
          by_cases newline : c = '\n'
          · subst newline
            simp [stops, returns]
          · rw [withReturns_cons newline, List.takeWhile_cons, List.takeWhile_cons, ih]

theorem Returned.takeWhile_line (read : Returned text returned) :
    returned.takeWhile (· != '\n') = text.takeWhile (· != '\n') ∨
      returned.takeWhile (· != '\n') = text.takeWhile (· != '\n') ++ ['\r'] := by
  cases read with
  | behind rest => exact .inl rfl
  | whole =>
      induction text with
      | nil => exact .inl rfl
      | cons c rest ih =>
          by_cases newline : c = '\n'
          · subst newline
            exact .inr rfl
          · have passed : (c != '\n') = true := by simpa using newline
            simp only [withReturns_cons newline, List.takeWhile_cons, passed, ↓reduceIte]
            exact ih.imp (congrArg (c :: ·)) (congrArg (c :: ·))

theorem Returned.drop_line (read : Returned text returned) :
    (returned.dropWhile (· != '\n')).drop 1 =
      withReturns ((text.dropWhile (· != '\n')).drop 1) := by
  have ends : ∀ {other : Text}, ∀ c ∈ (other.dropWhile (· != '\n')).head?, c = '\n' := by
    intro other c is_head
    simpa using head?_dropWhile_eq_false (· != '\n') other c is_head
  have lines : Returned (text.dropWhile (· != '\n')) (returned.dropWhile (· != '\n')) :=
    read.dropWhile (by decide)
  rcases lines.cases_head with
    ⟨left, left'⟩ | ⟨rest, left, left' | left'⟩ | ⟨c, rest, inside, left, _⟩
  · simp [left, left']
  · exact absurd (ends '\r' (by rw [left']; rfl)) (by decide)
  · simp [left, left']
  · exact absurd (ends c (by rw [left]; rfl)) inside

theorem trimEnd_append_return (text : Text) : trimEnd (text ++ ['\r']) = trimEnd text := by
  induction text with
  | nil => rfl
  | cons head tail ih => rw [List.cons_append, trimEnd, trimEnd, ih]

end Text

theorem Unquoted.beforeComment_append_return (mayStart : Bool) (line : Text) :
    beforeComment mayStart (line ++ ['\r']) = beforeComment mayStart line ∨
      beforeComment mayStart (line ++ ['\r']) = beforeComment mayStart line ++ ['\r'] := by
  induction line generalizing mayStart with
  | nil => exact .inr rfl
  | cons head tail ih =>
      rw [List.cons_append, beforeComment, beforeComment]
      by_cases comment : head = '#' ∧ mayStart = true
      · simp [comment]
      · rw [if_neg comment, if_neg comment]
        exact (ih (isBlank head)).imp (congrArg (head :: ·)) (congrArg (head :: ·))

/-- A return at the end of a line is not part of the value. -/
theorem Unquoted.value_append_return (line : Text) : value (line ++ ['\r']) = value line := by
  rcases beforeComment_append_return true line with same | same
  · rw [value, same, value]
  · rw [value, same, Text.trimEnd_append_return, value]

/-- The text with a carriage return in front of each newline that a backslash takes along. -/
def Text.withEscapedReturns : Text → Text
  | [] => []
  | '\\' :: c :: rest => '\\' :: (withReturns [c] ++ withEscapedReturns rest)
  | head :: tail => head :: withEscapedReturns tail

namespace Quote

open Text

variable {quote : Quote}

private theorem body?_cons {c : Char} (not_backslash : c ≠ '\\') (rest : Text) :
    quote.body? (c :: rest) =
      if c = quote.mark then some [] else (quote.body? rest).map fun body => c :: body := by
  rw [body?]
  rintro _ _ rfl
  exact absurd rfl not_backslash

private theorem body?_newline (rest : Text) :
    quote.body? ('\n' :: rest) = (quote.body? rest).map fun body => '\n' :: body := by
  rw [body?_cons (by decide), if_neg (by cases quote <;> decide)]

private theorem body?_return (rest : Text) :
    quote.body? ('\r' :: rest) = (quote.body? rest).map fun body => '\r' :: body := by
  rw [body?_cons (by decide), if_neg (by cases quote <;> decide)]

/-- Returns neither close a quote nor keep it open. -/
theorem body?_withReturns (text : Text) :
    quote.body? (withReturns text) = (quote.body? text).map withReturns := by
  fun_induction quote.body? text with
  | case1 => rfl
  | case2 c rest is_double ih =>
      rw [withReturns_cons (by decide)]
      by_cases newline : c = '\n'
      · subst newline
        rw [withReturns_newline, body?, if_pos is_double, body?_newline, ih]
        simp [Option.map_map, Function.comp_def]
      · rw [withReturns_cons newline, body?, if_pos is_double, ih]
        simp [Option.map_map, Function.comp_def, newline]
  | case3 c rest not_double ih =>
      obtain ⟨d, tail, cut⟩ : ∃ d tail, withReturns (c :: rest) = d :: tail := by
        by_cases newline : c = '\n'
        · exact ⟨_, _, by rw [newline, withReturns_newline]⟩
        · exact ⟨_, _, withReturns_cons newline rest⟩
      rw [withReturns_cons (by decide), cut, body?, if_neg not_double, ← cut, ih]
      simp [Option.map_map, Function.comp_def]
  | case4 tail _ =>
      have not_newline : quote.mark ≠ '\n' := by cases quote <;> decide
      have not_backslash : quote.mark ≠ '\\' := by cases quote <;> decide
      rw [withReturns_cons not_newline, body?_cons not_backslash, if_pos rfl]
      rfl
  | case5 head tail not_escape unmarked ih =>
      by_cases newline : head = '\n'
      · subst newline
        rw [withReturns_newline, body?_return, body?_newline, ih]
        simp [Option.map_map, Function.comp_def]
      by_cases backslash : head = '\\'
      · subst backslash
        obtain rfl : tail = [] := by
          cases tail with
          | nil => rfl
          | cons c rest => exact absurd rfl (not_escape c rest rfl)
        simp [body?, unmarked]
      · rw [withReturns_cons newline, body?_cons backslash, if_neg unmarked, ih]
        simp [Option.map_map, Function.comp_def, newline]

private theorem content_cons {c : Char} (not_backslash : c ≠ '\\') (not_return : c ≠ '\r')
    (rest : Text) : quote.content (c :: rest) = c :: quote.content rest := by
  rw [content]
  · rintro _ _ rfl
    exact absurd rfl not_backslash
  · rintro _ rfl
    exact absurd rfl not_return

/-- Between single marks each return is dropped. -/
theorem content_single_withReturns {body : Text} (unreturned : '\r' ∉ body) :
    single.content (withReturns body) = body := by
  induction body with
  | nil => rfl
  | cons c rest ih =>
      rw [List.mem_cons, not_or] at unreturned
      have ih := ih unreturned.2
      by_cases newline : c = '\n'
      · subst newline
        rw [withReturns_newline, content, ih]
      rw [withReturns_cons newline]
      by_cases backslash : c = '\\'
      · subst backslash
        cases cut : withReturns rest with
        | nil =>
            rw [cut] at ih
            rw [← ih]
            rfl
        | cons d tail => rw [content, if_neg (by decide), ← cut, ih]
      · rw [content_cons backslash (Ne.symm unreturned.1), ih]

/-- Between double marks the returns that a backslash takes along stay. -/
theorem content_double_withReturns {body : Text} (unreturned : '\r' ∉ body) :
    double.content (withReturns body) = withEscapedReturns body := by
  fun_induction withEscapedReturns body with
  | case1 => rfl
  | case2 c rest ih =>
      have ih := ih fun member => unreturned (by simp [member])
      rw [withReturns_cons (by decide)]
      by_cases newline : c = '\n'
      · subst newline
        rw [withReturns_newline, content, if_pos rfl, content_cons (by decide) (by decide), ih]
        rfl
      · rw [withReturns_cons newline, content, if_pos rfl, ih, withReturns_cons newline]
        rfl
  | case3 head tail not_escape ih =>
      rw [List.mem_cons, not_or] at unreturned
      have ih := ih unreturned.2
      by_cases newline : head = '\n'
      · subst newline
        rw [withReturns_newline, content, ih]
      rw [withReturns_cons newline]
      by_cases backslash : head = '\\'
      · subst backslash
        obtain rfl : tail = [] := by
          cases tail with
          | nil => rfl
          | cons c rest => exact absurd rfl (not_escape c rest rfl)
        rfl
      · rw [content_cons backslash (Ne.symm unreturned.1), ih]

end Quote

theorem Value.escape_mem_grains_dollar_iff (c : Char) (text : Text) :
    .escape c ∈ grains ('$' :: text) ↔ .escape c ∈ grains text := by
  obtain ⟨taken, rest, rfl, written, fits, plain⟩ := exists_dollarToken text
  have whole := grains_text_append fits
  rw [written, List.cons_append] at whole
  have not_escape : .escape c ≠ dollarToken (taken ++ rest) := by
    intro same
    simp [← same, Token.text] at written
  rw [whole, grains_append_plain plain]
  simp [not_escape]

/-- A value keeps no return if no backslash takes a newline along. -/
theorem Text.withEscapedReturns_eq_self_iff (value : Text) :
    withEscapedReturns value = value ↔ .escape '\n' ∉ lex value := by
  rw [← mem_grains_iff (by simp)]
  fun_induction withEscapedReturns value with
  | case1 => simp
  | case2 c rest ih =>
      rw [grains_escape, List.mem_cons, not_or, ← ih]
      by_cases newline : c = '\n'
      · subst newline
        simp
      · simp [newline, Ne.symm newline]
  | case3 head tail not_escape ih =>
      have same_escapes : .escape '\n' ∈ grains (head :: tail) ↔ .escape '\n' ∈ grains tail := by
        by_cases dollar : head = '$'
        · rw [dollar, escape_mem_grains_dollar_iff]
        by_cases backslash : head = '\\'
        · subst backslash
          cases tail with
          | nil => simp
          | cons c rest => exact absurd rfl (not_escape c rest rfl)
        · simp [grains_cons_plain (show isPlain head = true by simp [isPlain, dollar, backslash])]
      rw [same_escapes, ← ih, List.cons.injEq, and_iff_right rfl]

/-- The key, the value and the quotes of a definition once the source has returns. -/
def Definition.returned (definition : Definition) : Text × Text × Option Quote :=
  (definition.key,
    if definition.quote = some .double then definition.value.withEscapedReturns
    else definition.value,
    definition.quote)

theorem Definition.returned_eq_written_iff (definition : Definition) :
    definition.returned = definition.written ↔
      (definition.quote = some .double → .escape '\n' ∉ lex definition.value) := by
  rw [← Text.withEscapedReturns_eq_self_iff, returned, written]
  by_cases is_double : definition.quote = some .double <;> simp [is_double]

end EnvFile
