import EnvFile.ByteStream

/-!
# Texts in streams

Reading accepts the bytes that writing yields and no others (`Utf8.decode?_eq_some_iff`).  A byte
that begins a character says how many bytes it owes, and the range of the first of them leaves out
the forms that are too long, the surrogates, and what lies above the last scalar value (`Begins`).
So a stream is read as a text exactly if it does not break and hands out the bytes of that text, in
pieces of whatever size (`ByteStream.readText_eq_ok_iff`).
-/

namespace EnvFile
namespace Utf8

/-- What a byte that stands between characters begins. -/
inductive Begins (lead : Nat) : List Piece × Option Partial → Prop
  /-- A character of one byte. -/
  | one (small : lead < 0x80) : Begins lead ([some (Char.ofNat lead)], none)
  /-- A character of two bytes. -/
  | two (low_le : 0xC2 ≤ lead) (lt_high : lead < 0xE0) :
      Begins lead ([], some { code := lead - 0xC0, owed := 1, low := 0x80, high := 0xBF })
  /-- A character of three bytes, neither too long nor a surrogate. -/
  | three {low high : Nat} (low_le : 0xE0 ≤ lead) (lt_high : lead < 0xF0) (le_low : 0x80 ≤ low)
      (high_le : high ≤ 0xBF) (short : lead = 0xE0 → 0xA0 ≤ low)
      (scalar : lead = 0xED → high ≤ 0x9F) :
      Begins lead ([], some { code := lead - 0xE0, owed := 2, low, high })
  /-- A character of four bytes, neither too long nor too high. -/
  | four {low high : Nat} (low_le : 0xF0 ≤ lead) (le_high : lead ≤ 0xF4) (le_low : 0x80 ≤ low)
      (high_le : high ≤ 0xBF) (short : lead = 0xF0 → 0x90 ≤ low)
      (scalar : lead = 0xF4 → high ≤ 0x8F) :
      Begins lead ([], some { code := lead - 0xF0, owed := 3, low, high })
  /-- Nothing. -/
  | malformed : Begins lead ([none], none)

theorem begins_first (lead : Nat) : Begins lead (first lead) := by
  unfold first
  split
  · exact .one (by assumption)
  split
  · exact .malformed
  split
  · exact .two (by omega) (by omega)
  split
  · subst lead
    exact .three (by omega) (by omega) (by omega) (by omega) (by omega) (by omega)
  split
  · subst lead
    exact .three (by omega) (by omega) (by omega) (by omega) (by omega) (by omega)
  split
  · exact .three (by omega) (by omega) (by omega) (by omega) (by omega) (by omega)
  split
  · subst lead
    exact .four (by omega) (by omega) (by omega) (by omega) (by omega) (by omega)
  split
  · exact .four (by omega) (by omega) (by omega) (by omega) (by omega) (by omega)
  split
  · subst lead
    exact .four (by omega) (by omega) (by omega) (by omega) (by omega) (by omega)
  · exact .malformed

theorem exists_next {part : Partial} (le_low : 0x80 ≤ part.low) (high_le : part.high ≤ 0xBF)
    {bytes : List UInt8} (sound : none ∉ piecesFrom (some part) bytes) :
    ∃ bits rest, bits < 64 ∧ part.low ≤ 0x80 + bits ∧ 0x80 + bits ≤ part.high ∧
      bytes = .ofNat (0x80 + bits) :: rest := by
  cases bytes with
  | nil => exact absurd List.mem_cons_self sound
  | cons byte rest =>
      by_cases taken : part.low ≤ byte.toNat ∧ byte.toNat ≤ part.high
      · refine ⟨byte.toNat - 0x80, rest, by omega, by omega, by omega, ?_⟩
        rw [Nat.add_sub_cancel' (by omega), UInt8.ofNat_toNat]
      · rw [piecesFrom_cons, next, if_neg taken] at sound
        exact absurd List.mem_cons_self sound

theorem exists_inner {code owed low high : Nat} (le_low : 0x80 ≤ low) (high_le : high ≤ 0xBF)
    {bytes : List UInt8}
    (sound : none ∉ piecesFrom (some { code, owed := owed + 2, low, high }) bytes) :
    ∃ bits rest, bits < 64 ∧ low ≤ 0x80 + bits ∧ 0x80 + bits ≤ high ∧
      bytes = .ofNat (0x80 + bits) :: rest ∧
      none ∉ piecesFrom
        (some { code := code * 64 + bits, owed := owed + 1, low := 0x80, high := 0xBF }) rest := by
  obtain ⟨bits, rest, bits_lt, low_le, le_high, rfl⟩ := exists_next le_low high_le sound
  rw [piecesFrom_inner bits_lt low_le le_high] at sound
  exact ⟨bits, rest, bits_lt, low_le, le_high, rfl, sound⟩

/-- Where nothing is malformed, there are the bytes of a scalar value. -/
theorem exists_encodeScalar {byte : UInt8} {tail : List UInt8}
    (sound : none ∉ piecesFrom none (byte :: tail)) :
    ∃ code rest, (code < 0xD800 ∨ 0xDFFF < code ∧ code < 0x110000) ∧
      byte :: tail = encodeScalar code ++ rest := by
  obtain ⟨lead, small, rfl⟩ : ∃ lead, lead < 256 ∧ byte = .ofNat lead :=
    ⟨byte.toNat, byte.toNat_lt, UInt8.ofNat_toNat.symm⟩
  rw [piecesFrom_cons, toNat_ofNat small, next] at sound
  have begins := begins_first lead
  generalize first lead = read at begins sound
  cases begins with
  | one ascii => exact ⟨lead, tail, by omega, by rw [encodeScalar, if_pos ascii]; rfl⟩
  | two low_le lt_high =>
      obtain ⟨bits, rest, bits_lt, -, -, rfl⟩ := exists_next (by simp) (by simp) sound
      refine ⟨(lead - 0xC0) * 64 + bits, rest, by omega, ?_⟩
      rw [encodeScalar, if_neg (by omega), if_pos (by omega)]
      simp only [List.cons_append, List.nil_append]
      congr 3 <;> omega
  | three low_le lt_high le_low high_le short scalar =>
      obtain ⟨bits, rest, bits_lt, low_bits, bits_high, rfl, behind⟩ :=
        exists_inner le_low high_le sound
      obtain ⟨bits', rest', bits_lt', -, -, rfl⟩ := exists_next (by simp) (by simp) behind
      refine ⟨((lead - 0xE0) * 64 + bits) * 64 + bits', rest', by omega, ?_⟩
      rw [encodeScalar, if_neg (by omega), if_neg (by omega), if_pos (by omega)]
      simp only [List.cons_append, List.nil_append]
      congr 4 <;> omega
  | four low_le le_high le_low high_le short scalar =>
      obtain ⟨bits, rest, bits_lt, low_bits, bits_high, rfl, behind⟩ :=
        exists_inner le_low high_le sound
      obtain ⟨bits', rest', bits_lt', -, -, rfl, last⟩ := exists_inner (by simp) (by simp) behind
      obtain ⟨bits'', rest'', bits_lt'', -, -, rfl⟩ := exists_next (by simp) (by simp) last
      refine ⟨(((lead - 0xF0) * 64 + bits) * 64 + bits') * 64 + bits'', rest'', by omega, ?_⟩
      rw [encodeScalar, if_neg (by omega), if_neg (by omega), if_neg (by omega)]
      simp only [List.cons_append, List.nil_append]
      congr 5 <;> omega
  | malformed => exact absurd List.mem_cons_self sound

theorem textOf?_eq_some_iff {pieces : List Piece} {text : Text} :
    textOf? pieces = some text ↔ pieces = text.map some := by
  constructor
  · intro read
    induction pieces generalizing text with
    | nil => simpa [textOf?] using read.symm
    | cons piece pieces ih =>
        cases piece with
        | none => simp [textOf?] at read
        | some c =>
            obtain ⟨rest, rest_eq, rfl⟩ := Option.map_eq_some_iff.mp read
            rw [ih rest_eq, List.map_cons]
  · rintro rfl
    exact textOf?_map_some text

/-- The bytes that are read as a text are those that writing it yields. -/
theorem eq_encode_of_pieces_eq {bytes : List UInt8} {text : Text}
    (read : pieces bytes = text.map some) : bytes = encode text := by
  have sound : none ∉ pieces bytes := by simp [read]
  induction text generalizing bytes with
  | nil =>
      cases bytes with
      | nil => rfl
      | cons byte tail =>
          obtain ⟨code, rest, scalar, split⟩ := exists_encodeScalar sound
          rw [pieces, split, piecesFrom_encodeScalar scalar] at read
          exact absurd read (List.cons_ne_nil _ _)
  | cons c text ih =>
      cases bytes with
      | nil => exact absurd read.symm (List.cons_ne_nil _ _)
      | cons byte tail =>
          obtain ⟨code, rest, scalar, split⟩ := exists_encodeScalar sound
          rw [split, pieces, piecesFrom_encodeScalar scalar, List.map_cons] at read
          rw [split, pieces, piecesFrom_encodeScalar scalar, List.mem_cons, not_or] at sound
          obtain ⟨head_eq, rest_eq⟩ := List.cons.inj read
          have code_eq : c.toNat = code := by
            rw [← Option.some.inj head_eq, Char.ofNat, dif_pos scalar]
            rfl
          rw [split, encode, List.flatMap_cons, code_eq, ← encode, ← ih rest_eq sound.2]

/-- Reading accepts exactly what writing yields. -/
theorem decode?_eq_some_iff {bytes : List UInt8} {text : Text} :
    decode? bytes = some text ↔ bytes = encode text := by
  constructor
  · exact fun read => eq_encode_of_pieces_eq (textOf?_eq_some_iff.mp read)
  · rintro rfl
    exact decode?_encode text

theorem encodeScalar_toNat (c : Char) : encodeScalar c.toNat = String.utf8EncodeChar c := by
  have scalar : c.toNat < 0xD800 ∨ 0xDFFF < c.toNat ∧ c.toNat < 0x110000 := c.valid
  unfold encodeScalar String.utf8EncodeChar
  simp only [Char.toNat_val]
  generalize c.toNat = code at scalar
  split
  · rw [if_pos (by omega)]
  split
  · have lead : code / 64 % 32 + 192 = 0xC0 + code / 64 := by omega
    rw [if_neg (by omega), if_pos (by omega), lead, Nat.add_comm (code % 64)]
  split
  · have lead : code / 4096 % 16 + 224 = 0xE0 + code / 4096 := by omega
    rw [if_neg (by omega), if_neg (by omega), if_pos (by omega), lead,
      Nat.add_comm (code / 64 % 64), Nat.add_comm (code % 64)]
  · have lead : code / 262144 % 8 + 240 = 0xF0 + code / 262144 := by omega
    rw [if_neg (by omega), if_neg (by omega), if_neg (by omega), lead,
      Nat.add_comm (code / 4096 % 64), Nat.add_comm (code / 64 % 64), Nat.add_comm (code % 64)]

theorem encode_eq (text : Text) : encode text = text.flatMap String.utf8EncodeChar := by
  simp only [encode, encodeScalar_toNat]

end Utf8

namespace ByteStream

theorem readText_eq_ok_iff {stream : ByteStream} {text : Text} :
    stream.readText = .ok text ↔
      stream.breakage? = none ∧ stream.pieces.flatten = Utf8.encode text := by
  rw [← Utf8.decode?_eq_some_iff, readText]
  cases stream.breakage? with
  | some message => simp
  | none => cases Utf8.decode? stream.pieces.flatten <;> simp

end ByteStream
end EnvFile
