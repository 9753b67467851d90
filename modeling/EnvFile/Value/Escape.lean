import EnvFile.Value.Token

/-!
# Escapes

Decoding replaces each known escape of a value by the character it stands for.  Two functions go
the other way.  `protect` escapes every dollar and backslash of a text, so that decoding gives the
text back.  `shield` escapes only what is not part of an escape already: a shielded text refers to
nothing and decodes to what it decoded to before.
-/

namespace EnvFile
namespace Value

/-- The character that a backslash in front of `c` makes of it, if the escape is known. -/
def decodeEscape (c : Char) : Option Char :=
  match c with
  | '\\' | '\'' | '"' | '$' | '{' | '}' => some c
  | 'a' => some '\x07'
  | 'b' => some '\x08'
  | 'f' => some '\x0C'
  | 'n' => some '\n'
  | 'r' => some '\r'
  | 't' => some '\t'
  | 'v' => some '\x0B'
  | _ => none

namespace Token

/-- The token with a known escape replaced by its character. -/
def decode : Token → Text
  | escape c =>
      match decodeEscape c with
      | some decoded => [decoded]
      | none => (escape c).text
  | token => token.text

/-- The token with a backslash in front where a dollar or a lone backslash stands bare. -/
def shield : Token → Text
  | braced name => '\\' :: (braced name).text
  | bare name => '\\' :: (bare name).text
  | dollar => '\\' :: dollar.text
  | backslash => '\\' :: backslash.text
  | token => token.text

end Token

/-- Replace the known escapes of a value by their characters; all else stays as written. -/
def decode (value : Text) : Text :=
  (lex value).flatMap Token.decode

/-- Put a backslash in front of every dollar and backslash. -/
def protect (text : Text) : Text :=
  text.flatMap fun c => if isPlain c then [c] else ['\\', c]

/-- Put a backslash in front of every dollar and lone backslash outside the escapes of a value. -/
def shield (value : Text) : Text :=
  (lex value).flatMap Token.shield

end Value
end EnvFile
