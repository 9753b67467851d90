import Mathlib.Data.List.Basic
import EnvFile.Proofs.Value.Lexing

/-!
# Segments of a value

The occurrences of a value and the gaps around them make up the value.  Each occurrence stands at
its range of bytes and at its place, and each gap is cut into the same tokens alone as inside the
value, none of which means anything (`isSegmented_occurrences`).  So a pass that takes a value apart
by the ranges of its occurrences and works on the gaps one by one does what a pass over the tokens
does (`rebuild_occurrences`); decoding is such a pass (`decode_eq_rebuild`).
-/

namespace EnvFile
namespace Value

/-- The ranges of bytes around occurrences, from a byte offset to the end of the value. -/
def gapsAround (last size : Nat) : List Occurrence → List (Nat × Nat)
  | [] => [(last, size)]
  | occurrence :: rest => (last, occurrence.start) :: gapsAround occurrence.stop size rest

/-- The text in a range of bytes is cut alone as inside the value, its tokens mean nothing, and so
nothing occurs in it. -/
def IsGap (value : Text) (range : Nat × Nat) : Prop :=
  ∃ front gap back : Text, value = front ++ gap ++ back ∧
    range = (front.utf8Length, (front ++ gap).utf8Length) ∧
    lex value = lex front ++ lex gap ++ lex back ∧
    (∀ token ∈ lex gap, token.meaning? = none) ∧
    ∀ origin, occurrences gap origin = []

/-- Occurrences and gaps that make up a value whose first character stands at `origin`. -/
structure IsSegmented (value : Text) (origin : Position) (found : List Occurrence) : Prop where
  /-- No range is empty. -/
  start_lt_stop : ∀ occurrence ∈ found, occurrence.start < occurrence.stop
  /-- The ranges are in order and share no byte. -/
  pairwise_le : found.Pairwise fun first later => first.stop ≤ later.start
  /-- An occurrence is written at its range, which is one of whole characters, and stands where the
  text in front of it ends. -/
  exists_front : ∀ occurrence ∈ found, ∃ front back : Text,
    value = front ++ occurrence.text ++ back ∧ occurrence.start = front.utf8Length ∧
      occurrence.stop = (front ++ occurrence.text).utf8Length ∧
      occurrence.position = origin.after front
  /-- What stands around the occurrences is read alone as inside the value. -/
  isGap : ∀ range ∈ gapsAround 0 value.utf8Length found, IsGap value range

theorem occurrencesOf_eq_nil {tokens : List Token}
    (meaningless : ∀ token ∈ tokens, token.meaning? = none) (start : Nat) (position : Position) :
    occurrencesOf start position tokens = [] := by
  rw [List.eq_nil_iff_forall_not_mem]
  intro occurrence member
  obtain ⟨front, token, back, meaning, rfl, means, _⟩ := mem_occurrencesOf_iff.mp member
  simp [meaningless token (by simp)] at means

theorem isGap_of_lex_eq {value : Text} {front gap back : List Token}
    (cut : lex value = front ++ gap ++ back)
    (meaningless : ∀ token ∈ gap, token.meaning? = none) :
    IsGap value (Text.utf8Length (front.flatMap Token.text),
      Text.utf8Length ((front ++ gap).flatMap Token.text)) := by
  have whole := isCut_lex value
  rw [cut] at whole
  have front_cut := whole.of_append.1.of_append.1.lex_flatMap_text
  have gap_cut := lex_flatMap_text cut
  have back_cut := whole.of_append.2.lex_flatMap_text
  refine ⟨front.flatMap Token.text, gap.flatMap Token.text, back.flatMap Token.text, ?_, ?_, ?_,
    by rwa [gap_cut], ?_⟩
  · rw [← flatMap_text_lex value, cut, List.flatMap_append, List.flatMap_append]
  · rw [List.flatMap_append]
  · rw [front_cut, gap_cut, back_cut, cut]
  · intro origin
    rw [occurrences, gap_cut]
    exact occurrencesOf_eq_nil meaningless 0 origin

/-- Around the occurrences among the tokens behind a gap there are gaps. -/
theorem isGap_of_mem_gapsAround {value : Text} {front gap back : List Token}
    (cut : lex value = front ++ gap ++ back)
    (meaningless : ∀ token ∈ gap, token.meaning? = none) (position : Position) :
    ∀ range ∈ gapsAround (Text.utf8Length (front.flatMap Token.text)) value.utf8Length
        (occurrencesOf (Text.utf8Length ((front ++ gap).flatMap Token.text)) position back),
      IsGap value range := by
  induction back generalizing front gap position with
  | nil =>
      intro range member
      rw [List.append_nil] at cut
      obtain rfl : range = (Text.utf8Length (front.flatMap Token.text), value.utf8Length) := by
        simpa [occurrencesOf, gapsAround] using member
      have last := isGap_of_lex_eq (cut.trans (List.append_nil _).symm) meaningless
      rwa [← cut, flatMap_text_lex] at last
  | cons token back ih =>
      have stop_eq : Text.utf8Length ((front ++ gap).flatMap Token.text) + token.text.utf8Length =
          Text.utf8Length ((front ++ gap ++ [token]).flatMap Token.text) := by
        simp [List.flatMap_append, Nat.add_assoc]
      cases means : token.meaning? with
      | none =>
          -- the token makes the gap longer
          simp only [occurrencesOf, means]
          rw [stop_eq, List.append_assoc]
          apply ih
          · rw [cut]
            simp
          · intro other member
            rcases List.mem_append.mp member with member | member
            · exact meaningless other member
            · obtain rfl := List.mem_singleton.mp member
              exact means
      | some meaning =>
          -- the token ends the gap, and the next one starts behind it
          simp only [occurrencesOf, means, gapsAround]
          intro range member
          rcases List.mem_cons.mp member with rfl | member
          · exact isGap_of_lex_eq cut meaningless
          · have cut' : lex value = front ++ gap ++ [token] ++ [] ++ back := by simp [cut]
            have later := ih cut' (by simp) (position.after token.text)
            rw [List.append_nil, ← stop_eq] at later
            exact later range member

/-- The occurrences of a value segment it. -/
theorem isSegmented_occurrences (value : Text) (origin : Position) :
    IsSegmented value origin (occurrences value origin) where
  start_lt_stop _ member := start_lt_stop_of_mem member
  pairwise_le := pairwise_occurrencesOf 0 origin (lex value)
  exists_front occurrence member := by
    obtain ⟨front, token, back, meaning, cut, _, rfl⟩ := mem_occurrencesOf_iff.mp member
    refine ⟨front.flatMap Token.text, back.flatMap Token.text, ?_, ?_, ?_, rfl⟩
    · rw [← flatMap_text_lex value, cut]
      simp [Token.occurrence]
    · simp [Token.occurrence]
    · simp [Token.occurrence]
  isGap := by
    have cut : lex value = [] ++ [] ++ lex value := rfl
    exact isGap_of_mem_gapsAround cut (by simp) origin

end Value

/-- Split a text behind a number of bytes. -/
def Text.splitBytes : Text → Nat → Text × Text
  | [], _ => ([], [])
  | head :: tail, bytes =>
      if head.utf8Size ≤ bytes then
        (head :: (splitBytes tail (bytes - head.utf8Size)).1,
          (splitBytes tail (bytes - head.utf8Size)).2)
      else ([], head :: tail)

theorem Text.splitBytes_append (front back : Text) :
    splitBytes (front ++ back) front.utf8Length = (front, back) := by
  induction front with
  | nil =>
      cases back with
      | nil => rfl
      | cons head tail =>
          have head_pos := head.utf8Size_pos
          simp [splitBytes, Nat.not_le.mpr head_pos]
  | cons head tail ih => simp [splitBytes, ih]

namespace Value

/-- The text `left`, in front of which `last` bytes of a value stand, put together again from copies
of the gaps in it and from what takes the place of the occurrences. -/
def rebuild (copy : Text → Text) (replace : Occurrence → Text) (last : Nat) (left : Text) :
    List Occurrence → Text
  | [] => copy left
  | occurrence :: rest =>
      let gap := (left.splitBytes (occurrence.start - last)).1
      let behind := (left.splitBytes (occurrence.stop - last)).2
      copy gap ++ replace occurrence ++ rebuild copy replace occurrence.stop behind rest

section Rebuilding

variable {copy : Text → Text} {replace : Occurrence → Text} {rewrite : Token → Text}

theorem rebuild_cons {gap text : Text} {last : Nat} {occurrence : Occurrence}
    (starts : occurrence.start = last + gap.utf8Length)
    (stops : occurrence.stop = last + (gap ++ text).utf8Length) (behind : Text)
    (later : List Occurrence) :
    rebuild copy replace last (gap ++ text ++ behind) (occurrence :: later) =
      copy gap ++ replace occurrence ++
        rebuild copy replace (last + (gap ++ text).utf8Length) behind later := by
  have gap_split := Text.splitBytes_append gap (text ++ behind)
  have text_split := Text.splitBytes_append (gap ++ text) behind
  rw [← List.append_assoc] at gap_split
  simp only [rebuild, starts, stops, Nat.add_sub_cancel_left, gap_split, text_split]

/-- Tokens that mean nothing stand in front of tokens that are still to be read. -/
theorem rebuild_occurrencesOf
    (copies : ∀ gap, IsCut gap → (∀ token ∈ gap, token.meaning? = none) →
      copy (gap.flatMap Token.text) = gap.flatMap rewrite)
    (replaces : ∀ token meaning start position front, token.meaning? = some meaning →
      replace (token.occurrence meaning start position front) = rewrite token)
    {gap back : List Token} (cut : IsCut (gap ++ back))
    (meaningless : ∀ token ∈ gap, token.meaning? = none) (last : Nat) (position : Position) :
    rebuild copy replace last ((gap ++ back).flatMap Token.text)
        (occurrencesOf (last + Text.utf8Length (gap.flatMap Token.text)) position back) =
      (gap ++ back).flatMap rewrite := by
  induction back generalizing gap last position with
  | nil =>
      rw [List.append_nil] at cut ⊢
      exact copies gap cut meaningless
  | cons token back ih =>
      rw [occurrencesOf_cons]
      cases means : token.meaning? with
      | none =>
          have regroup : gap ++ token :: back = gap ++ [token] ++ back := by simp
          have gap_size : Text.utf8Length (gap.flatMap Token.text) + token.text.utf8Length =
              Text.utf8Length ((gap ++ [token]).flatMap Token.text) := by
            simp [List.flatMap_append]
          rw [regroup] at cut ⊢
          rw [Nat.add_assoc, gap_size]
          refine ih cut (fun other member => ?_) last _
          rcases List.mem_append.mp member with member | member
          · exact meaningless other member
          · obtain rfl := List.mem_singleton.mp member
            exact means
      | some meaning =>
          have back_cut : IsCut ([] ++ back) := cut.of_append.2.2
          have behind := ih back_cut (by simp)
            (last + Text.utf8Length (gap.flatMap Token.text ++ token.text))
            (position.after token.text)
          have stop_eq : last + Text.utf8Length (gap.flatMap Token.text) + token.text.utf8Length =
              last + Text.utf8Length (gap.flatMap Token.text ++ token.text) := by
            rw [Text.utf8Length_append, Nat.add_assoc]
          rw [stop_eq, Option.map_some, Option.toList_some, List.singleton_append,
            List.flatMap_append, List.flatMap_cons, ← List.append_assoc,
            rebuild_cons (by simp [Token.occurrence]) (by simp [Token.occurrence, Nat.add_assoc]),
            copies gap cut.of_append.1 meaningless, replaces token meaning _ _ _ means]
          simp only [List.nil_append, List.flatMap_nil, Text.utf8Length_nil, Nat.add_zero] at behind
          rw [behind, List.flatMap_append, List.flatMap_cons, List.append_assoc]

/-- A pass over the gaps and occurrences of a value does what a pass over its tokens does. -/
theorem rebuild_occurrences
    (copies : ∀ gap, IsCut gap → (∀ token ∈ gap, token.meaning? = none) →
      copy (gap.flatMap Token.text) = gap.flatMap rewrite)
    (replaces : ∀ token meaning start position front, token.meaning? = some meaning →
      replace (token.occurrence meaning start position front) = rewrite token)
    (value : Text) (origin : Position) :
    rebuild copy replace 0 value (occurrences value origin) = (lex value).flatMap rewrite := by
  have cut : IsCut ([] ++ lex value) := isCut_lex value
  have whole := rebuild_occurrencesOf copies replaces cut (by simp) 0 origin
  simpa [occurrences, flatMap_text_lex] using whole

end Rebuilding

/-- What an occurrence stands for when escapes are decoded: a reference stays as it is written. -/
def Occurrence.decode (occurrence : Occurrence) : Text :=
  match occurrence.meaning with
  | .reference _ => occurrence.text
  | .escape decoded => [decoded]

/-- Decoding copies the gaps of a value and replaces its escapes. -/
theorem decode_eq_rebuild (value : Text) (origin : Position) :
    decode value = rebuild id Occurrence.decode 0 value (occurrences value origin) := by
  symm
  apply rebuild_occurrences
  · intro gap _ meaningless
    apply List.flatMap_congr
    intro token member
    have means := meaningless token member
    cases token with
    | escape c =>
        rw [Token.meaning?, Option.map_eq_none_iff] at means
        simp [Token.decode, means]
    | _ => rfl
  · intro token meaning start position front means
    cases token with
    | escape c =>
        obtain ⟨decoded, known, rfl⟩ := Option.map_eq_some_iff.mp means
        simp [Token.occurrence, Occurrence.decode, Token.decode, known]
    | braced name =>
        obtain rfl := Option.some.inj means
        rfl
    | bare name =>
        obtain rfl := Option.some.inj means
        rfl
    | _ => simp [Token.meaning?] at means

end Value
end EnvFile
