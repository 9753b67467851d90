import EnvFile.Proofs.Source.Appending
import EnvFile.Proofs.Source.Returns

/-!
# Line ends

A source reads alike whether its lines end in newlines or in carriage returns and newlines.  Each
reader that succeeds without returns succeeds with them and stops at the same place or in front of
the newline (`Source.Step.Agrees`, `Source.Step.Returns`), so the definitions are the same but for
the returns that a backslash between double marks takes along (`Source.definitions_withReturns`).
-/

namespace EnvFile

open Value

namespace Source

open Text

/-- A step in a source with returns finds the same and stops at the same place. -/
structure Step.Agrees {α : Type} (step other : Step α) : Prop where
  result_eq : other.result = step.result
  read : Returned step.stop.rest other.stop.rest

variable {here there : Cursor} {key : Text}

theorem starts_of_readKey (found : (readKey here).result = .ok key) :
    here.rest.head?.any isNameStart = true := by
  by_contra starts
  rw [readKey, if_neg starts] at found
  simp at found

theorem agrees_readKey (read : Returned here.rest there.rest)
    (found : (readKey here).result = .ok key) : (readKey here).Agrees (readKey there) := by
  have starts := starts_of_readKey found
  have inside : here.rest.head? ≠ some '\n' := by
    intro newline
    rw [newline] at starts
    exact absurd starts (by decide)
  have starts' : there.rest.head?.any isNameStart = true := by rwa [read.head?_eq inside]
  rw [readKey, if_pos starts, readKey, if_pos starts',
    read.takeWhile_eq (by decide) (by decide)]
  exact ⟨rfl, read.dropWhile (by decide)⟩

theorem agrees_readExportedKey (read : Returned here.rest there.rest)
    (found : (readExportedKey here).result = .ok key)
    (inside : (readExportedKey here).stop.rest.head? ≠ some '\n') :
    (readExportedKey here).Agrees (readExportedKey there) := by
  obtain ⟨first, first_found, rest_found⟩ := Step.exists_of_andThen_eq_ok found
  have agrees := agrees_readKey read first_found
  have first_found' := agrees.result_eq.trans first_found
  rw [readExportedKey, Step.andThen_of_ok first_found] at inside
  rw [readExportedKey, readExportedKey, Step.andThen_of_ok first_found,
    Step.andThen_of_ok first_found']
  have not_newline : (readKey here).stop.rest.head? ≠ some '\n' := by
    intro newline
    rw [if_neg (by simp [newline, isBlank])] at inside
    exact inside newline
  rw [agrees.read.head?_eq not_newline]
  by_cases exported : first = exportWord ∧ (readKey here).stop.rest.head?.any isBlank = true
  · rw [if_pos exported] at rest_found ⊢
    rw [if_pos exported]
    have blanks : Returned (readKey here).stop.skipBlanks.rest
        (readKey there).stop.skipBlanks.rest :=
      agrees.read.dropWhile (by decide)
    by_cases sign : (readKey here).stop.skipBlanks.rest.head? = some '='
    · have sign' : (readKey there).stop.skipBlanks.rest.head? = some '=' := by
        rw [blanks.head?_eq (by simp [sign]), sign]
      rw [if_pos sign, if_pos sign']
      exact ⟨rfl, blanks⟩
    · rw [if_neg sign] at rest_found ⊢
      have starts := starts_of_readKey rest_found
      have sign' : (readKey there).stop.skipBlanks.rest.head? ≠ some '=' := by
        rwa [blanks.head?_eq]
        intro newline
        rw [newline] at starts
        exact absurd starts (by decide)
      rw [if_neg sign']
      exact agrees_readKey blanks rest_found
  · rw [if_neg exported, if_neg exported]
    exact ⟨rfl, agrees.read⟩

theorem sign_of_readEquals {sign : Unit} (found : (readEquals key here).result = .ok sign) :
    here.skipBlanks.rest.head? = some '=' := by
  by_contra no_sign
  simp [readEquals, no_sign, Step.fail] at found

theorem not_newline_of_readEquals {sign : Unit}
    (found : (readEquals key here).result = .ok sign) : here.rest.head? ≠ some '\n' := by
  intro newline
  have is_sign := sign_of_readEquals found
  obtain ⟨rest, rest_eq⟩ := List.head?_eq_some_iff.mp newline
  rw [Cursor.skipBlanks, Cursor.skipWhile, rest_eq,
    List.dropWhile_cons_of_neg (by decide)] at is_sign
  exact absurd is_sign (by simp)

theorem agrees_readEquals (read : Returned here.rest there.rest) {sign : Unit}
    (found : (readEquals key here).result = .ok sign) :
    (readEquals key here).Agrees (readEquals key there) := by
  have blanks : Returned here.skipBlanks.rest there.skipBlanks.rest := read.dropWhile (by decide)
  have is_sign := sign_of_readEquals found
  obtain ⟨rest, rest_eq, rest_eq'⟩ := blanks.exists_tail (by decide) is_sign
  have is_sign' : there.skipBlanks.rest.head? = some '=' := by rw [rest_eq']; rfl
  have behind : Returned (here.skipBlanks.advance 1).rest (there.skipBlanks.advance 1).rest := by
    simp only [Cursor.advance, rest_eq, rest_eq', List.drop_succ_cons, List.drop_zero]
    exact .whole rest
  simp only [readEquals, is_sign, is_sign', ↓reduceIte]
  exact ⟨rfl, behind.dropWhile (by decide)⟩

theorem endsLine_eq_of_returned {text returned : Text} (read : Returned text returned)
    (solid : ∀ c ∈ returned.head?, isBlank c = false) : endsLine returned = endsLine text := by
  rcases read.cases_head with ⟨rfl, rfl⟩ | ⟨rest, rfl, rfl | rfl⟩ | ⟨c, rest, _, rfl, rfl⟩
  · rfl
  · exact absurd (solid '\r' rfl) (by decide)
  · rfl
  · rfl

/-- A definition is read in a source with returns, with the value that it has there. -/
structure Step.Returns (step other : Step Definition) (definition : Definition) : Prop where
  found : ∃ returned, other.result = .ok returned ∧ returned.written = definition.returned
  read : Returned step.stop.rest other.stop.rest

variable {definition : Definition}

theorem returns_readUnquoted (read : Returned here.rest there.rest)
    (found : (readUnquoted key here).result = .ok definition) :
    (readUnquoted key here).Returns (readUnquoted key there) definition := by
  obtain rfl := Except.ok.inj found
  refine ⟨⟨_, rfl, ?_⟩, read.dropWhile (by decide)⟩
  have value_eq : Unquoted.value (there.rest.takeWhile (· != '\n')) =
      Unquoted.value (here.rest.takeWhile (· != '\n')) := by
    rcases read.takeWhile_line with same | same
    · rw [same]
    · rw [same, Unquoted.value_append_return]
  simp [Definition.written, Definition.returned, value_eq]

theorem returns_readQuoted {quote : Quote} {c : Char} {rest : Text}
    (here_eq : here.rest = c :: rest) (there_eq : there.rest = c :: withReturns rest)
    (unreturned : '\r' ∉ rest)
    (found : (readQuoted key quote here).result = .ok definition) :
    (readQuoted key quote here).Returns (readQuoted key quote there) definition := by
  have inside : (here.advance 1).rest = rest := by simp [Cursor.advance, here_eq]
  have inside' : (there.advance 1).rest = withReturns rest := by simp [Cursor.advance, there_eq]
  cases closed : quote.body? rest with
  | none => simp [readQuoted, inside, closed] at found
  | some body =>
      obtain ⟨behind, split⟩ := Quote.append_of_body? closed
      have closed' : quote.body? (withReturns rest) = some (withReturns body) := by
        rw [Quote.body?_withReturns, closed, Option.map_some]
      have mark_eq : quote.mark ≠ '\n' := by cases quote <;> decide
      have body_unreturned : '\r' ∉ body := fun member => unreturned (by simp [split, member])
      have left : ((here.advance 1).advance (body.length + 1)).rest = behind := by
        simp [Cursor.advance, here_eq, split]
      have left' : ((there.advance 1).advance ((withReturns body).length + 1)).rest =
          withReturns behind := by
        simp [Cursor.advance, there_eq, split, mark_eq]
      have blanks : Returned ((here.advance 1).advance (body.length + 1)).skipBlanks.rest
          ((there.advance 1).advance ((withReturns body).length + 1)).skipBlanks.rest := by
        rw [Cursor.skipBlanks, Cursor.skipWhile, Cursor.skipBlanks, Cursor.skipWhile, left, left']
        exact (Returned.whole behind).dropWhile (by decide)
      have ends_eq := endsLine_eq_of_returned blanks (Cursor.head_skipBlanks _)
      simp only [readQuoted, inside, closed] at found
      simp only [readQuoted, inside, closed, inside', closed', ends_eq]
      split at found
      · rename_i ends
        rw [if_pos ends, if_pos ends]
        obtain rfl := Except.ok.inj found
        refine ⟨⟨_, rfl, ?_⟩, blanks⟩
        have content_eq : quote.content body = body := Quote.content_eq_self body_unreturned
        cases quote with
        | single =>
            simp [Definition.written, Definition.returned, content_eq,
              Quote.content_single_withReturns body_unreturned]
        | double =>
            simp [Definition.written, Definition.returned, content_eq,
              Quote.content_double_withReturns body_unreturned]
      · simp [Step.fail] at found

theorem returns_readValue (read : Returned here.rest there.rest) (unreturned : '\r' ∉ here.rest)
    (found : (readValue key here).result = .ok definition) :
    (readValue key here).Returns (readValue key there) definition := by
  rcases read.cases_head with ⟨here_eq, there_eq⟩ | ⟨rest, here_eq, there_eq⟩ |
    ⟨c, rest, _, here_eq, there_eq⟩
  · simp only [readValue, here_eq, there_eq] at found ⊢
    exact returns_readUnquoted read found
  · have unmarked : there.rest.head?.bind Quote.ofMark? = none := by
      rcases there_eq with there_eq | there_eq <;> rw [there_eq] <;> rfl
    rw [readValue, here_eq] at found ⊢
    rw [readValue, unmarked]
    exact returns_readUnquoted read found
  · simp only [readValue, here_eq, there_eq, List.head?_cons, Option.bind_some] at found ⊢
    cases marked : Quote.ofMark? c with
    | none =>
        rw [marked] at found
        exact returns_readUnquoted read found
    | some quote =>
        rw [marked] at found
        rw [here_eq] at unreturned
        exact returns_readQuoted here_eq there_eq
          (fun member => unreturned (List.mem_cons_of_mem c member)) found

theorem notMem_of_reaches {c : Char} (reaches : here.Reaches there) (absent : c ∉ here.rest) :
    c ∉ there.rest := by
  obtain ⟨passed, rest_eq, _⟩ := reaches
  exact fun member => absent (rest_eq ▸ List.mem_append_right passed member)

theorem returns_readDefinition (read : Returned here.rest there.rest)
    (unreturned : '\r' ∉ here.rest) (found : (readDefinition here).result = .ok definition) :
    (readDefinition here).Returns (readDefinition there) definition := by
  obtain ⟨key, key_found, rest_found⟩ := Step.exists_of_andThen_eq_ok found
  obtain ⟨sign, sign_found, value_found⟩ := Step.exists_of_andThen_eq_ok rest_found
  have key_unreturned := notMem_of_reaches (reaches_readExportedKey here) unreturned
  have value_unreturned := notMem_of_reaches (reaches_readEquals key _) key_unreturned
  -- an equals sign follows the key, so the line goes on behind it
  have inside := not_newline_of_readEquals sign_found
  have exported := agrees_readExportedKey read key_found inside
  have equals := agrees_readEquals exported.read sign_found
  rw [readDefinition, Step.andThen_of_ok key_found, Step.andThen_of_ok sign_found, readDefinition,
    Step.andThen_of_ok (exported.result_eq.trans key_found),
    Step.andThen_of_ok (equals.result_eq.trans sign_found)]
  exact returns_readValue equals.read value_unreturned value_found

/-- A line that is not malformed is read in a source with returns, and all returns below it are
still to come. -/
theorem readLine_withReturns (read : there.rest = withReturns here.rest)
    (unreturned : '\r' ∉ here.rest)
    (fine : ∀ line, (readLine here).1 = some line → ∃ definition, line = .ok definition) :
    (readLine there).2.rest = withReturns (readLine here).2.rest ∧
      ((readLine here).1 = none ∧ (readLine there).1 = none ∨
        ∃ definition returned, (readLine here).1 = some (.ok definition) ∧
          (readLine there).1 = some (.ok returned) ∧ returned.written = definition.returned) := by
  have blanks : Returned here.skipBlanks.rest there.skipBlanks.rest := by
    rw [Cursor.skipBlanks, Cursor.skipWhile, Cursor.skipBlanks, Cursor.skipWhile, read]
    exact (Returned.whole here.rest).dropWhile (by decide)
  have ends_eq := endsLine_eq_of_returned blanks (Cursor.head_skipBlanks there)
  by_cases ends : endsLine here.skipBlanks.rest = true
  · have line_eq : readLine here = (none, here.skipBlanks.skipLine) := by
      simp only [readLine, ends, ↓reduceIte]
    have line_eq' : readLine there = (none, there.skipBlanks.skipLine) := by
      simp only [readLine, ends_eq, ends, ↓reduceIte]
    rw [line_eq, line_eq']
    exact ⟨blanks.drop_line, .inl ⟨rfl, rfl⟩⟩
  · simp only [readLine, ends, Bool.false_eq_true, ↓reduceIte, Option.some.injEq, forall_eq']
      at fine
    obtain ⟨definition, found⟩ := fine
    have unreturned' := notMem_of_reaches here.reaches_skipBlanks unreturned
    have step := returns_readDefinition blanks unreturned' found
    obtain ⟨returned, found', written_eq⟩ := step.found
    have line_eq : readLine here =
        (some (.ok definition), (readDefinition here.skipBlanks).stop.skipLine) := by
      simp only [readLine, ends, Bool.false_eq_true, ↓reduceIte, found]
    have line_eq' : readLine there =
        (some (.ok returned), (readDefinition there.skipBlanks).stop.skipLine) := by
      simp only [readLine, ends_eq, ends, Bool.false_eq_true, ↓reduceIte, found']
    rw [line_eq, line_eq']
    exact ⟨step.read.drop_line, .inr ⟨definition, returned, rfl, rfl, written_eq⟩⟩

/-- Lines that are not malformed are read in a source with returns, one after another. -/
theorem readLines_withReturns (read : there.rest = withReturns here.rest)
    (unreturned : '\r' ∉ here.rest)
    (fine : ∀ line ∈ readLines here, ∃ definition, line = .ok definition) :
    (∀ line ∈ readLines there, ∃ definition, line = .ok definition) ∧
      (definitionsOf (readLines there)).map Definition.written =
        (definitionsOf (readLines here)).map Definition.returned := by
  fun_induction readLines here generalizing there with
  | case1 here nonempty ih =>
      have nonempty' : there.rest ≠ [] := by
        rw [read]
        intro empty
        cases cut : here.rest with
        | nil => exact nonempty cut
        | cons c rest => by_cases newline : c = '\n' <;> simp [cut, newline] at empty
      obtain ⟨read_below, line⟩ := readLine_withReturns read unreturned fun line found =>
        fine line (List.mem_append_left _ (by simp [found]))
      obtain ⟨fine_below, below⟩ := ih read_below
        (notMem_of_reaches (reaches_readLine here) unreturned)
        fun line member => fine line (List.mem_append_right _ member)
      rw [readLines, dif_pos nonempty']
      rcases line with ⟨found, found'⟩ | ⟨definition, returned, found, found', written_eq⟩
      · rw [found, found']
        exact ⟨fine_below, below⟩
      · rw [found, found']
        refine ⟨?_, ?_⟩
        · intro line member
          rcases List.mem_cons.mp member with rfl | member
          · exact ⟨returned, rfl⟩
          · exact fine_below line member
        · exact congrArg₂ List.cons written_eq below
  | case2 here empty =>
      have empty' : there.rest = [] := by rw [read, not_not.mp empty, withReturns_nil]
      have none_left : readLines there = [] := by
        rw [readLines, dif_neg (by simp [empty'])]
      simp [none_left, definitionsOf]

theorem diagnosticsOf_eq_nil_iff (lines : List (Except Diagnostic Definition)) :
    diagnosticsOf lines = [] ↔ ∀ line ∈ lines, ∃ definition, line = .ok definition := by
  rw [List.eq_nil_iff_forall_not_mem]
  constructor
  · intro none_wrong line member
    cases line with
    | ok definition => exact ⟨definition, rfl⟩
    | error diagnostic =>
        exact absurd (mem_diagnosticsOf_iff.mpr member) (none_wrong diagnostic)
  · intro fine diagnostic member
    obtain ⟨definition, same⟩ := fine _ (mem_diagnosticsOf_iff.mp member)
    exact absurd same (by simp)

/-- No return comes in front of a byte order mark. -/
theorem rest_start_withReturns (source : Text) :
    (Cursor.start (withReturns source)).rest = withReturns (Cursor.start source).rest := by
  have stays : ∀ (c : Char) (rest : Text), c ≠ '\uFEFF' →
      (Cursor.start (c :: rest)).rest = c :: rest := by
    intro c rest other
    unfold Cursor.start
    split
    · rename_i same
      exact absurd (List.cons.inj same).1 other
    · rfl
  cases source with
  | nil => rfl
  | cons c rest =>
      by_cases mark : c = '\uFEFF'
      · subst mark
        rw [withReturns_cons (by decide)]
        rfl
      · rw [stays c rest mark]
        by_cases newline : c = '\n'
        · subst newline
          rw [withReturns_newline, stays _ _ (by decide)]
        · rw [withReturns_cons newline, stays _ _ mark]

theorem notMem_start {source : Text} {c : Char} (absent : c ∉ source) :
    c ∉ (Cursor.start source).rest := by
  unfold Cursor.start
  split
  · exact List.not_mem_of_not_mem_cons absent
  · exact absent

/-- A source without returns that is well formed is so with returns, and its definitions are the
same but for the returns that a backslash takes along. -/
theorem definitions_withReturns {source : Text} {read : List Definition}
    (unreturned : '\r' ∉ source) (scans : definitions source = .ok read) :
    ∃ returned, definitions (withReturns source) = .ok returned ∧
      returned.map Definition.written = read.map Definition.returned ∧
      (returned.map Definition.written = read.map Definition.written ↔
        ∀ definition ∈ read, definition.quote = some .double →
          .escape '\n' ∉ lex definition.value) := by
  rw [definitions_eq] at scans
  by_cases clean : errors source = []
  · rw [if_pos clean] at scans
    obtain rfl := Except.ok.inj scans
    obtain ⟨fine, written_eq⟩ := readLines_withReturns (rest_start_withReturns source)
      (notMem_start unreturned) ((diagnosticsOf_eq_nil_iff _).mp clean)
    have clean' : errors (withReturns source) = [] := (diagnosticsOf_eq_nil_iff _).mpr fine
    refine ⟨found (withReturns source), ?_, written_eq, ?_⟩
    · rw [definitions_eq, if_pos clean']
    · change (definitionsOf _).map _ = (definitionsOf _).map _ ↔ _
      rw [written_eq, List.map_inj_left]
      exact forall₂_congr fun definition _ => definition.returned_eq_written_iff
  · rw [if_neg clean] at scans
    exact absurd scans (by simp)

/-- Definitions in all three styles, with a comment, a blank line and values over several lines. -/
def severalLines : Text :=
  "# all\nexport A = a # b\n\nB=\"${A}\\n\n\"\nC='\\\nc' # d\n".toList

/-- The definitions of `severalLines`. -/
def severalDefinitions : List Definition :=
  [{ key := ['A'], value := ['a'], quote := none, position := ⟨1, 11⟩ },
    { key := ['B'], value := "${A}\\n\n".toList, quote := some .double, position := ⟨3, 3⟩ },
    { key := ['C'], value := "\\\nc".toList, quote := some .single, position := ⟨5, 3⟩ }]

theorem definitions_withReturns_severalLines :
    '\r' ∉ severalLines ∧ definitions severalLines = .ok severalDefinitions ∧
      ∃ returned, definitions (withReturns severalLines) = .ok returned ∧
        returned.map Definition.written = severalDefinitions.map Definition.written := by
  have unreturned : '\r' ∉ severalLines := by decide
  have scans : definitions severalLines = .ok severalDefinitions := by decide +kernel
  obtain ⟨returned, scans', _, same_iff⟩ := definitions_withReturns unreturned scans
  exact ⟨unreturned, scans, returned, scans', same_iff.mpr (by decide +kernel)⟩

/-- A value in which a backslash stands at the end of a line. -/
def brokenLine : Text :=
  "A=\"x\\\ny\"\n".toList

/-- The return behind a backslash becomes part of the value. -/
theorem not_reads_alike_brokenLine :
    '\r' ∉ brokenLine ∧
      definitions brokenLine =
        .ok [⟨['A'], "x\\\ny".toList, some .double, ⟨0, 3⟩⟩] ∧
      definitions (withReturns brokenLine) =
        .ok [⟨['A'], "x\\\r\ny".toList, some .double, ⟨0, 3⟩⟩] := by
  decide +kernel

end Source
end EnvFile
