import EnvFile.Position

/-!
# Definitions

A definition binds a key to a raw value, with escapes and references as they were written.
-/

namespace EnvFile

/-- The marks that a value can stand between. -/
inductive Quote
  /-- A verbatim value. -/
  | single
  /-- A value with escapes and references, which may span lines. -/
  | double
  deriving DecidableEq, Repr

namespace Quote

/-- The mark at both ends of a value. -/
def mark : Quote → Char
  | single => '\''
  | double => '"'

/-- The quote that a character opens. -/
def ofMark? (c : Char) : Option Quote :=
  if c = single.mark then some single
  else if c = double.mark then some double
  else none

end Quote

/-- A binding of a key to a raw value, as the source has it. -/
structure Definition where
  /-- The defined key. -/
  key : Text
  /-- The raw value without its quotes. -/
  value : Text
  /-- The quotes around the value, if there are any. -/
  quote : Option Quote
  /-- Place of the first character of the raw value. -/
  position : Position
  deriving DecidableEq, Repr

namespace Definition

/-- A value in single quotes is taken verbatim: it has neither escapes nor references. -/
def isVerbatim (definition : Definition) : Bool :=
  definition.quote == some .single

end Definition
end EnvFile
