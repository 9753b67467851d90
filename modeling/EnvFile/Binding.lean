import EnvFile.Definition
import EnvFile.OrderedMap
import EnvFile.Value.Escape

/-!
# Bindings

The state of each key while references are resolved.  A key is bound by the source or, if a value
refers to it and the source does not define it, by the environment.
-/

namespace EnvFile

/-- Where a key is bound. -/
inductive Origin
  /-- In the source. -/
  | source
  /-- In the environment. -/
  | environment
  deriving DecidableEq, Repr

/-- The state of a key. -/
structure Binding where
  /-- The value as far as it is resolved. -/
  value : Text
  /-- Where the key is bound. -/
  origin : Origin
  /-- Whether the value is taken as it is: it has neither references nor escapes. -/
  verbatim : Bool
  /-- Place of the first character of the raw value. -/
  position : Position
  /-- Number of references in the value that wait for their targets. -/
  pending : Nat
  /-- Whether the escapes of the value have been decoded. -/
  decoded : Bool
  deriving DecidableEq, Repr

namespace Binding

/-- A binding by the source. -/
def ofSource (value : Text) (position : Position) : Binding :=
  { value, origin := .source, verbatim := false, position, pending := 0, decoded := false }

/-- A binding by the environment, whose values are verbatim. -/
def ofEnvironment (value : Text) : Binding :=
  { value
    origin := .environment
    verbatim := true
    position := {}
    pending := 0
    decoded := false }

/-- The binding that a definition makes. -/
def ofDefinition (definition : Definition) : Binding :=
  { ofSource definition.value definition.position with verbatim := definition.isVerbatim }

/-- Whether the source binds the key. -/
def isLocal (binding : Binding) : Bool :=
  binding.origin == .source

/-- Whether no reference in the value waits for its target. -/
def isComplete (binding : Binding) : Bool :=
  binding.pending == 0

/-- Whether the source binds the key and its value waits for another key. -/
def isWaiting (binding : Binding) : Bool :=
  binding.isLocal && !binding.isComplete

/-- Whether the source binds the key to a value with references and escapes. -/
def isInterpreted (binding : Binding) : Bool :=
  binding.isLocal && !binding.verbatim

/-- The text that stands for the key where another value refers to it.  It refers to nothing, and
decoding it gives what decoding the value gives, or the value itself if that is verbatim. -/
def spliced (binding : Binding) : Text :=
  if binding.verbatim then Value.protect binding.value else Value.shield binding.value

/-- Take a new value with the number of references that still wait in it.  The number of waiting
references never grows. -/
def replace (binding : Binding) (value : Text) (pending : Nat) : Binding :=
  { binding with value, pending := min binding.pending pending }

/-- Take the value with its escapes decoded, if that has not been done before. -/
def decode (binding : Binding) : Binding :=
  if binding.isInterpreted && !binding.decoded then
    { binding with value := Value.decode binding.value, decoded := true }
  else binding

theorem decode_eq (binding : Binding) :
    binding.decode =
      { binding with value := binding.decode.value, decoded := binding.decode.decoded } := by
  unfold decode
  split <;> rfl

@[simp]
theorem origin_decode (binding : Binding) : binding.decode.origin = binding.origin := by
  rw [decode_eq]

@[simp]
theorem isLocal_decode (binding : Binding) : binding.decode.isLocal = binding.isLocal := by
  rw [decode_eq]
  rfl

@[simp]
theorem isComplete_decode (binding : Binding) :
    binding.decode.isComplete = binding.isComplete := by
  rw [decode_eq]
  rfl

@[simp]
theorem verbatim_decode (binding : Binding) : binding.decode.verbatim = binding.verbatim := by
  rw [decode_eq]

theorem decode_eq_self {binding : Binding}
    (done : binding.isInterpreted = false ∨ binding.decoded = true) : binding.decode = binding := by
  unfold decode
  rcases done with done | done <;> simp [done]

theorem decode_of_isInterpreted {binding : Binding} (interpreted : binding.isInterpreted = true)
    (encoded : binding.decoded = false) :
    binding.decode = { binding with value := Value.decode binding.value, decoded := true } := by
  simp [decode, interpreted, encoded]

theorem decode_decode (binding : Binding) : binding.decode.decode = binding.decode := by
  cases interpreted : binding.isInterpreted with
  | false => rw [decode_eq_self (.inl interpreted), decode_eq_self (.inl interpreted)]
  | true =>
      cases decoded : binding.decoded with
      | true => rw [decode_eq_self (.inr decoded), decode_eq_self (.inr decoded)]
      | false =>
          rw [decode_of_isInterpreted interpreted decoded]
          exact decode_eq_self (.inr rfl)

end Binding

/-- All keys that are bound, in the order in which they were bound first. -/
abbrev Bindings := OrderedMap Text Binding

namespace Bindings

/-- Whether a binding of the key is let in: an old one gives way only to overwriting. -/
def admits (bindings : Bindings) (key : Text) (overwrite : Bool) : Bool :=
  overwrite || !bindings.contains key

/-- Bind a key, if the binding is let in. -/
def define (bindings : Bindings) (key : Text) (binding : Binding) (overwrite : Bool) : Bindings :=
  if bindings.admits key overwrite then bindings.insert key binding else bindings

theorem find?_define (bindings : Bindings) (key other : Text) (binding : Binding)
    (overwrite : Bool) :
    (bindings.define key binding overwrite).find? other =
      if other = key ∧ bindings.admits key overwrite = true then some binding
      else bindings.find? other := by
  unfold define
  by_cases admitted : bindings.admits key overwrite = true
  · simp [admitted, OrderedMap.find?_insert]
  · simp [admitted]

theorem keys_define (bindings : Bindings) (key : Text) (binding : Binding) (overwrite : Bool) :
    (bindings.define key binding overwrite).keys =
      if key ∈ bindings.keys then bindings.keys else bindings.keys ++ [key] := by
  unfold define admits
  by_cases bound : key ∈ bindings.keys
  · cases overwrite <;> simp [bound, (bindings.contains_iff key).mpr bound, OrderedMap.keys_insert]
  · have unbound : bindings.contains key = false := by
      rw [← Bool.not_eq_true, bindings.contains_iff key]
      exact bound
    simp [bound, unbound, OrderedMap.keys_insert]

/-- The bindings by the source, in order. -/
def locals (bindings : Bindings) : List (Text × Binding) :=
  bindings.entries.filter fun entry => entry.2.isLocal

end Bindings
end EnvFile
