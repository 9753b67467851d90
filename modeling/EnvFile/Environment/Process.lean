import EnvFile.Environment.Memory
import EnvFile.OrderedMap
import EnvFile.Utf8

/-!
# The environment of a process

Values are byte sequences, most of them texts.  A value that is not one is read with U+FFFD for
what is malformed, so that a variable that is set is never taken for one that is not.  A name must
not be empty and must hold neither NUL nor an equals sign, a value no NUL.

The system keeps each variable as one string, its name and its value with an equals sign between
them, and looks a name up as what stands before an equals sign at the start of a string.  So no
variable can be stored under a name with an equals sign, but one can be found: in `X=1=2` the name
`X` has the value `1=2` and the name `X=1` has the value `2`.
-/

namespace EnvFile

/-- The value of a process variable. -/
inductive ProcessValue
  /-- A text. -/
  | text (content : Text)
  /-- Bytes that encode no text. -/
  | bytes (raw : List UInt8)
  deriving DecidableEq, Repr

namespace ProcessValue

/-- The value that bytes make. -/
def ofBytes (raw : List UInt8) : ProcessValue :=
  match Utf8.decode? raw with
  | some content => text content
  | none => bytes raw

/-- The value as it is read. -/
def content : ProcessValue → Text
  | text content => content
  | bytes raw => Utf8.decodeLossy raw

/-- The bytes of a value. -/
def toBytes : ProcessValue → List UInt8
  | text content => Utf8.encode content
  | bytes raw => raw

/-- What follows a text and an equals sign at the start of a value. -/
def behind? (value : ProcessValue) (front : Text) : Option ProcessValue :=
  ((Utf8.encode (front ++ ['='])).isPrefixOf? value.toBytes).map ofBytes

end ProcessValue

/-- The environment of a process. -/
structure ProcessEnvironment where
  /-- The variables that are set. -/
  vars : OrderedMap Text ProcessValue

namespace ProcessEnvironment

/-- The environment that holds pairs, set one after another. -/
def ofList (pairs : List (Text × List UInt8)) : ProcessEnvironment :=
  { vars := .ofList (pairs.map fun pair => (pair.1, .ofBytes pair.2)) }

/-- Whether a variable of this name and value can be stored. -/
def storable (key value : Text) : Bool :=
  !key.isEmpty && !key.contains '=' && !key.contains '\x00' && !value.contains '\x00'

/-- The value that a name finds.  Up to its first equals sign it is the name of a variable; what
follows must open the value of that variable and be followed there by an equals sign. -/
def find? (environment : ProcessEnvironment) (key : Text) : Option ProcessValue :=
  match key.dropWhile (· != '=') with
  | [] => environment.vars.find? key
  | _ :: front =>
      (environment.vars.find? (key.takeWhile (· != '='))).bind fun value => value.behind? front

instance : Environment ProcessEnvironment where
  get? environment key := (environment.find? key).map ProcessValue.content
  contains environment key := (environment.find? key).isSome
  insert? environment key value :=
    if storable key value then
      some { vars := environment.vars.insert key (.text value) }
    else none

/-- The variables in the order of their names. -/
def listing (environment : ProcessEnvironment) : List (Text × ProcessValue) :=
  environment.vars.entries.mergeSort fun first second => first.1.precedes second.1

theorem bne_equals_of_mem {key : Text} (plain : '=' ∉ key) : ∀ c ∈ key, (c != '=') = true := by
  intro c member
  simpa using fun same : c = '=' => plain (same ▸ member)

theorem find?_of_notMem (environment : ProcessEnvironment) (key : Text) (plain : '=' ∉ key) :
    environment.find? key = environment.vars.find? key := by
  have whole : (key ++ []).dropWhile (· != '=') = [] :=
    List.dropWhile_append_of_pos (bne_equals_of_mem plain)
  rw [List.append_nil] at whole
  rw [find?, whole]

theorem find?_append (environment : ProcessEnvironment) (key front : Text) (plain : '=' ∉ key) :
    environment.find? (key ++ '=' :: front) =
      (environment.vars.find? key).bind fun value => value.behind? front := by
  simp [find?, List.dropWhile_append_of_pos (bne_equals_of_mem plain),
    List.takeWhile_append_of_pos (bne_equals_of_mem plain)]

theorem get?_insert (environment : ProcessEnvironment) (key other value : Text)
    (plain : '=' ∉ other) :
    Environment.get? (Environment.insert environment key value).environment other =
      if other = key ∧ storable key value = true then some value
      else Environment.get? environment other := by
  by_cases accepted : storable key value = true
  · simp only [Environment.insert, Environment.insert?, Environment.get?, accepted, ↓reduceIte,
      find?_of_notMem _ other plain, OrderedMap.find?_insert, and_true]
    split <;> rfl
  · simp [Environment.insert, Environment.insert?, accepted]

end ProcessEnvironment
end EnvFile
