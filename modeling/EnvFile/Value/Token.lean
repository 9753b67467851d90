import EnvFile.Text

/-!
# Tokens of a value

A value is cut into references, escapes and plain text.  At every place the longest token wins; a
name in braces that no closing brace follows is a token of its own, which stands for itself.  No
character is lost: the texts of the tokens, one after another, are the value (`flatMap_text_lex`).
-/

namespace EnvFile
namespace Value

/-- A piece of a value. -/
inductive Token
  /-- A reference with its name in braces. -/
  | braced (name : Text)
  /-- A reference with its name right behind the dollar. -/
  | bare (name : Text)
  /-- A backslash and the character behind it. -/
  | escape (c : Char)
  /-- A run without dollars and backslashes. -/
  | plain (text : Text)
  /-- A dollar that starts no reference. -/
  | dollar
  /-- A backslash with nothing behind it. -/
  | backslash
  /-- A dollar, an opening brace and a name that no closing brace follows. -/
  | unclosed (name : Text)
  deriving DecidableEq, Repr

namespace Token

/-- The token as it is written. -/
def text : Token → Text
  | braced name => '$' :: '{' :: (name ++ ['}'])
  | bare name => '$' :: name
  | escape c => ['\\', c]
  | plain text => text
  | dollar => ['$']
  | backslash => ['\\']
  | unclosed name => '$' :: '{' :: name

/-- The name that a token refers to. -/
def reference? : Token → Option Text
  | braced name => some name
  | bare name => some name
  | _ => none

end Token

/-- Whether a character stands for itself wherever it is. -/
def isPlain (c : Char) : Bool :=
  c != '$' && c != '\\'

/-- Split the longest name off the front of a text; all its characters but the first are in a
class. -/
def splitName? (inName : Char → Bool) : Text → Option (Text × Text)
  | [] => none
  | head :: tail =>
      if isNameStart head then some (head :: tail.takeWhile inName, tail.dropWhile inName)
      else none

/-- The token that a dollar starts in front of a text. -/
def dollarToken : Text → Token
  | '{' :: inner =>
      match splitName? isNameChar inner with
      | some (name, '}' :: _) => .braced name
      | some (name, _) => .unclosed name
      | none => .dollar
  | tail =>
      match splitName? isWordChar tail with
      | some (name, _) => .bare name
      | none => .dollar

/-- The token that a backslash starts in front of a text. -/
def backslashToken : Text → Token
  | c :: _ => .escape c
  | [] => .backslash

/-- The token at the front of the text `head :: tail`. -/
def firstToken (head : Char) (tail : Text) : Token :=
  if head = '$' then dollarToken tail
  else if head = '\\' then backslashToken tail
  else .plain (head :: tail.takeWhile isPlain)

/-- Cut a text into tokens. -/
def lex : Text → List Token
  | [] => []
  | head :: tail =>
      firstToken head tail :: lex (tail.drop ((firstToken head tail).text.length - 1))
termination_by text => text.length
decreasing_by
  simp only [List.length_drop, List.length_cons]
  omega

theorem append_of_splitName? {inName : Char → Bool} {text name rest : Text}
    (found : splitName? inName text = some (name, rest)) : name ++ rest = text := by
  cases text with
  | nil => simp [splitName?] at found
  | cons head tail =>
      simp only [splitName?] at found
      split at found
      · obtain ⟨rfl, rfl⟩ := Prod.mk.inj (Option.some.inj found)
        simp [List.takeWhile_append_dropWhile]
      · simp at found

theorem text_dollarToken (tail : Text) :
    ∃ written rest, (dollarToken tail).text = '$' :: written ∧ tail = written ++ rest := by
  unfold dollarToken
  split
  · rename_i inner
    split
    · rename_i name rest found
      exact ⟨'{' :: (name ++ ['}']), rest, rfl, by simp [← append_of_splitName? found]⟩
    · rename_i name rest _ found
      exact ⟨'{' :: name, rest, rfl, by simp [← append_of_splitName? found]⟩
    · exact ⟨[], _, rfl, rfl⟩
  · split
    · rename_i name rest found
      exact ⟨name, rest, rfl, (append_of_splitName? found).symm⟩
    · exact ⟨[], _, rfl, rfl⟩

theorem text_firstToken (head : Char) (tail : Text) :
    ∃ written rest, (firstToken head tail).text = head :: written ∧ tail = written ++ rest := by
  unfold firstToken
  split
  · rename_i is_dollar
    exact is_dollar ▸ text_dollarToken tail
  · split
    · rename_i is_backslash
      subst is_backslash
      cases tail with
      | nil => exact ⟨[], [], rfl, rfl⟩
      | cons c rest => exact ⟨[c], rest, rfl, rfl⟩
    · exact ⟨_, _, rfl, (List.takeWhile_append_dropWhile).symm⟩

theorem text_firstToken_append (head : Char) (tail : Text) :
    (firstToken head tail).text ++ tail.drop ((firstToken head tail).text.length - 1) =
      head :: tail := by
  obtain ⟨written, rest, text_eq, tail_eq⟩ := text_firstToken head tail
  rw [text_eq, tail_eq]
  simp

/-- The texts of the tokens of a text make up the text. -/
theorem flatMap_text_lex (text : Text) : (lex text).flatMap Token.text = text := by
  fun_induction lex text with
  | case1 => rfl
  | case2 head tail ih =>
      rw [List.flatMap_cons, ih, text_firstToken_append]

end Value
end EnvFile
