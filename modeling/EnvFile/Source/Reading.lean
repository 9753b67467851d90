import EnvFile.Diagnostic
import EnvFile.Source.Cursor
import EnvFile.Source.Value

/-!
# Reading a source

A source is read line by line.  A line is blank, a comment, or a definition; the value of a
definition may span lines if it is quoted.  A malformed definition is reported and reading goes on
with the line after the place where it went wrong, so that one pass reports every malformed line.
-/

namespace EnvFile
namespace Source

/-- What was read at a cursor, and where reading stopped. -/
structure Step (α : Type) where
  /-- What was read, or what was wrong. -/
  result : Except Diagnostic α
  /-- Where reading stopped. -/
  stop : Cursor

namespace Step

variable {α β : Type}

/-- Read on behind a step that went well. -/
def andThen (step : Step α) (next : α → Cursor → Step β) : Step β :=
  match step.result with
  | .ok value => next value step.stop
  | .error diagnostic => { result := .error diagnostic, stop := step.stop }

/-- A problem at the place where reading stops. -/
def fail (problem : Problem) (stop : Cursor) : Step α :=
  { result := .error (.ofProblem problem stop.position), stop }

end Step

/-- Characters that a malformed key is taken to consist of. -/
def isKeyLike (c : Char) : Bool :=
  !isBlank c && c != '=' && c != '\n'

/-- Read a key. -/
def readKey (cursor : Cursor) : Step Text :=
  if cursor.rest.head?.any isNameStart then
    { result := .ok (cursor.rest.takeWhile isNameChar), stop := cursor.skipWhile isNameChar }
  else
    { result :=
        .error (.ofProblem (.invalidKey (cursor.rest.takeWhile isKeyLike)) cursor.position)
      stop := cursor.skipWhile isKeyLike }

/-- The word that may stand in front of a key. -/
def exportWord : Text :=
  ['e', 'x', 'p', 'o', 'r', 't']

/-- Read a key that the word `export` may stand in front of.  The word is a key itself if an equals
sign follows it. -/
def readExportedKey (cursor : Cursor) : Step Text :=
  (readKey cursor).andThen fun key stop =>
    if key = exportWord ∧ stop.rest.head?.any isBlank then
      if stop.skipBlanks.rest.head? = some '=' then { result := .ok key, stop := stop.skipBlanks }
      else readKey stop.skipBlanks
    else { result := .ok key, stop }

/-- Read the equals sign behind a key and the blanks around it. -/
def readEquals (key : Text) (cursor : Cursor) : Step Unit :=
  let sign := cursor.skipBlanks
  if sign.rest.head? = some '=' then { result := .ok (), stop := (sign.advance 1).skipBlanks }
  else .fail (.missingEquals key) sign

/-- Read an unquoted value; it ends with its line. -/
def readUnquoted (key : Text) (cursor : Cursor) : Step Definition where
  result := .ok
    { key
      value := Unquoted.value (cursor.rest.takeWhile (· != '\n'))
      quote := none
      position := cursor.position }
  stop := cursor.skipWhile (· != '\n')

/-- Whether a line may end in front of a text: there or after a comment. -/
def endsLine : Text → Bool
  | [] => true
  | head :: _ => head == '\n' || head == '#'

/-- Read a quoted value from its opening mark on; nothing but a comment may follow it. -/
def readQuoted (key : Text) (quote : Quote) (cursor : Cursor) : Step Definition :=
  let inside := cursor.advance 1
  match quote.body? inside.rest with
  | none =>
      { result := .error (.ofProblem (.unterminatedQuote key quote) cursor.position)
        stop := cursor.advance cursor.rest.length }
  | some body =>
      let behind := (inside.advance (body.length + 1)).skipBlanks
      if endsLine behind.rest then
        { result := .ok
            { key, value := quote.content body, quote := some quote, position := inside.position }
          stop := behind }
      else .fail (.trailingText key) behind

/-- Read the value of a key. -/
def readValue (key : Text) (cursor : Cursor) : Step Definition :=
  match cursor.rest.head?.bind Quote.ofMark? with
  | some quote => readQuoted key quote cursor
  | none => readUnquoted key cursor

/-- Read a definition. -/
def readDefinition (cursor : Cursor) : Step Definition :=
  (readExportedKey cursor).andThen fun key stop =>
    (readEquals key stop).andThen fun _ stop => readValue key stop

/-- What a line holds: a definition, what is wrong with it, or nothing. -/
abbrev Line := Option (Except Diagnostic Definition)

/-- Read a line with its blanks and its newline. -/
def readLine (cursor : Cursor) : Line × Cursor :=
  let first := cursor.skipBlanks
  if endsLine first.rest then (none, first.skipLine)
  else
    let step := readDefinition first
    (some step.result, step.stop.skipLine)

section Movement

variable {α β : Type}

theorem reaches_andThen {cursor : Cursor} {step : Step α} {next : α → Cursor → Step β}
    (front : cursor.Reaches step.stop)
    (back : ∀ value, step.result = .ok value → step.stop.Reaches (next value step.stop).stop) :
    cursor.Reaches (step.andThen next).stop := by
  unfold Step.andThen
  split
  · rename_i value found
    exact front.trans (back value found)
  · exact front

theorem reaches_readKey (cursor : Cursor) : cursor.Reaches (readKey cursor).stop := by
  unfold readKey
  split <;> exact cursor.reaches_skipWhile _

theorem reaches_readExportedKey (cursor : Cursor) :
    cursor.Reaches (readExportedKey cursor).stop := by
  refine reaches_andThen (reaches_readKey cursor) fun key _ => ?_
  split
  · split
    · exact Cursor.reaches_skipBlanks _
    · exact (Cursor.reaches_skipBlanks _).trans (reaches_readKey _)
  · exact .refl _

theorem reaches_readEquals (key : Text) (cursor : Cursor) :
    cursor.Reaches (readEquals key cursor).stop := by
  unfold readEquals
  dsimp only
  split
  · exact cursor.reaches_skipBlanks.trans
      ((Cursor.reaches_advance _ 1).trans (Cursor.reaches_skipBlanks _))
  · exact cursor.reaches_skipBlanks

theorem reaches_readQuoted (key : Text) (quote : Quote) (cursor : Cursor) :
    cursor.Reaches (readQuoted key quote cursor).stop := by
  unfold readQuoted
  dsimp only
  split
  · exact cursor.reaches_advance _
  · rename_i body _
    have behind : cursor.Reaches ((cursor.advance 1).advance (body.length + 1)).skipBlanks :=
      (cursor.reaches_advance 1).trans
        ((Cursor.reaches_advance _ _).trans (Cursor.reaches_skipBlanks _))
    split <;> exact behind

theorem reaches_readValue (key : Text) (cursor : Cursor) :
    cursor.Reaches (readValue key cursor).stop := by
  unfold readValue
  split
  · exact reaches_readQuoted key _ cursor
  · exact cursor.reaches_skipWhile _

theorem reaches_readDefinition (cursor : Cursor) : cursor.Reaches (readDefinition cursor).stop :=
  reaches_andThen (reaches_readExportedKey cursor) fun key _ =>
    reaches_andThen (reaches_readEquals key _) fun _ _ => reaches_readValue key _

theorem reaches_readLine (cursor : Cursor) : cursor.Reaches (readLine cursor).2 := by
  unfold readLine
  dsimp only
  split
  · exact cursor.reaches_skipBlanks.trans (Cursor.reaches_skipLine _)
  · exact cursor.reaches_skipBlanks.trans
      ((reaches_readDefinition _).trans (Cursor.reaches_skipLine _))

theorem length_skipLine_lt_of_reaches {here there : Cursor} (reaches : here.Reaches there)
    (nonempty : here.rest ≠ []) : there.skipLine.rest.length < here.rest.length := by
  by_cases done : there.rest = []
  · have shorter := (Cursor.reaches_skipLine there).length_le
    have positive := List.length_pos_iff.mpr nonempty
    simp only [done, List.length_nil] at shorter
    omega
  · exact Nat.lt_of_lt_of_le (Cursor.length_skipLine_lt done) reaches.length_le

theorem length_readLine_lt {cursor : Cursor} (nonempty : cursor.rest ≠ []) :
    (readLine cursor).2.rest.length < cursor.rest.length := by
  unfold readLine
  dsimp only
  split
  · exact length_skipLine_lt_of_reaches cursor.reaches_skipBlanks nonempty
  · exact length_skipLine_lt_of_reaches
      (cursor.reaches_skipBlanks.trans (reaches_readDefinition _)) nonempty

end Movement

/-- Read all lines from a cursor on; what they hold, from top to bottom. -/
def readLines (cursor : Cursor) : List (Except Diagnostic Definition) :=
  if _ : cursor.rest ≠ [] then
    (readLine cursor).1.toList ++ readLines (readLine cursor).2
  else []
termination_by cursor.rest.length
decreasing_by exact length_readLine_lt (by assumption)

/-- The definitions among the contents of lines. -/
def definitionsOf (lines : List (Except Diagnostic Definition)) : List Definition :=
  lines.filterMap Except.toOption

/-- The diagnostics among the contents of lines. -/
def diagnosticsOf (lines : List (Except Diagnostic Definition)) : List Diagnostic :=
  lines.filterMap fun line =>
    match line with
    | .error diagnostic => some diagnostic
    | .ok _ => none

/-- The definitions of a source from top to bottom, or else everything that is wrong with it. -/
def definitions (source : Text) : Except (List Diagnostic) (List Definition) :=
  let lines := readLines (.start source)
  if diagnosticsOf lines = [] then .ok (definitionsOf lines) else .error (diagnosticsOf lines)

end Source
end EnvFile
