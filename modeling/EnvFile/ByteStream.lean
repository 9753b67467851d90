import EnvFile.Failure
import EnvFile.Utf8

/-!
# Byte streams

A stream hands out bytes piece by piece and then ends or breaks.
-/

namespace EnvFile

/-- What a stream hands out. -/
structure ByteStream where
  /-- The pieces, one for each reading. -/
  pieces : List (List UInt8)
  /-- What the stream says if it breaks behind the last piece. -/
  breakage? : Option String

namespace ByteStream

/-- Cut bytes into pieces of a size; the last one may be shorter. -/
def cut (size : Nat) (bytes : List UInt8) : List (List UInt8) :=
  if _ : size = 0 ∨ bytes = [] then []
  else bytes.take size :: cut size (bytes.drop size)
termination_by bytes.length
decreasing_by
  have apart : ¬ (size = 0 ∨ bytes = []) := by assumption
  have positive : 0 < bytes.length := List.length_pos_iff.mpr fun empty => apart (.inr empty)
  rw [List.length_drop]
  omega

/-- The stream that hands out bytes in pieces of a size, or all at once. -/
def ofBytes (bytes : List UInt8) (size? : Option Nat) (breakage? : Option String) : ByteStream where
  pieces :=
    match size? with
    | some size => cut size bytes
    | none => [bytes]
  breakage? := breakage?

/-- Read a stream to its end as a text.  That it broke counts more than what it held. -/
def readText (stream : ByteStream) : Except ReadFault Text :=
  match stream.breakage? with
  | some message => .error (.other message)
  | none =>
      match Utf8.decode? stream.pieces.flatten with
      | some text => .ok text
      | none => .error .notText

theorem flatten_cut {size : Nat} (positive : 0 < size) (bytes : List UInt8) :
    (cut size bytes).flatten = bytes := by
  fun_induction cut size bytes with
  | case1 bytes stop =>
      rcases stop with none_each | empty
      · omega
      · simp [empty]
  | case2 bytes _ ih => rw [List.flatten_cons, ih, List.take_append_drop]

end ByteStream
end EnvFile
