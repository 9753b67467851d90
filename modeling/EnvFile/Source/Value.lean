import EnvFile.Definition

/-!
# Values in a source

An unquoted value is what its line holds in front of a comment.  A number sign starts a comment
where the value would start or behind a blank; inside a word it is part of the value.

A quoted value goes from its opening mark to the next mark of the same kind.  Between double
marks a backslash takes the character behind it along, so that an escaped mark closes nothing.
Line ends inside a value are newlines: a carriage return in front of a newline is dropped, unless
a backslash took it along.
-/

namespace EnvFile

namespace Unquoted

/-- The part of a line in front of its comment, given whether a comment may start at once. -/
def beforeComment (mayStart : Bool) : Text → Text
  | [] => []
  | head :: tail =>
      if head = '#' ∧ mayStart then [] else head :: beforeComment (isBlank head) tail

/-- The value that a line holds behind the equals sign and the blanks that follow it. -/
def value (line : Text) : Text :=
  (beforeComment true line).trimEnd

end Unquoted

namespace Quote

/-- The raw text in front of the closing mark, if there is a closing mark. -/
def body? (quote : Quote) : Text → Option Text
  | [] => none
  | '\\' :: c :: rest =>
      if quote = .double then (quote.body? rest).map fun body => '\\' :: c :: body
      else (quote.body? (c :: rest)).map fun body => '\\' :: body
  | head :: tail =>
      if head = quote.mark then some [] else (quote.body? tail).map fun body => head :: body

/-- The value that a raw text between marks holds. -/
def content (quote : Quote) : Text → Text
  | [] => []
  | '\\' :: c :: rest =>
      if quote = .double then '\\' :: c :: quote.content rest
      else '\\' :: quote.content (c :: rest)
  | '\r' :: '\n' :: rest => '\n' :: quote.content rest
  | head :: tail => head :: quote.content tail

/-- The raw text is followed by the mark that closes it. -/
theorem append_of_body? {quote : Quote} {text body : Text} (closed : quote.body? text = some body) :
    ∃ rest, text = body ++ quote.mark :: rest := by
  fun_induction quote.body? text generalizing body with
  | case1 => simp at closed
  | case2 c rest is_double ih =>
      obtain ⟨inner, found, rfl⟩ := Option.map_eq_some_iff.mp closed
      obtain ⟨behind, rfl⟩ := ih found
      exact ⟨behind, rfl⟩
  | case3 c rest _ ih =>
      obtain ⟨inner, found, rfl⟩ := Option.map_eq_some_iff.mp closed
      obtain ⟨behind, split⟩ := ih found
      exact ⟨behind, by rw [split, List.cons_append]⟩
  | case4 tail _ =>
      obtain rfl := Option.some.inj closed
      exact ⟨tail, rfl⟩
  | case5 head tail _ _ ih =>
      obtain ⟨inner, found, rfl⟩ := Option.map_eq_some_iff.mp closed
      obtain ⟨behind, rfl⟩ := ih found
      exact ⟨behind, rfl⟩

end Quote
end EnvFile
