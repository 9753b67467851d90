import EnvFile.Proofs.Source.Grammar

/-!
# Canonical sources

A definition that keeps to the grammar has a canonical line: the key, an equals sign and the value
in its quotes, without blanks or comments.  Canonical lines are read back whole, one after another,
each definition at its place (`Source.definitions_renderAll`), so what can be read is exactly what
the grammar allows (`Source.reads_exactly_wellFormed`).
-/

namespace EnvFile

open Value

theorem takeWhile_append_of_stops {passes : Char → Bool} {front back : Text}
    (all : ∀ c ∈ front, passes c = true) (stops : ∀ c ∈ back.head?, passes c = false) :
    (front ++ back).takeWhile passes = front := by
  rw [List.takeWhile_append_of_pos all]
  cases back with
  | nil => simp
  | cons c back => simp [stops c rfl]

namespace Cursor

theorem skipWhile_append {skipped : Char → Bool} {passed rest : Text} {position : Position}
    (all : ∀ c ∈ passed, skipped c = true) (stops : ∀ c ∈ rest.head?, skipped c = false) :
    skipWhile ⟨position, passed ++ rest⟩ skipped = ⟨position.after passed, rest⟩ := by
  have dropped : (passed ++ rest).dropWhile skipped = rest := by
    rw [List.dropWhile_append_of_pos all]
    cases rest with
    | nil => rfl
    | cons c rest => simp [stops c rfl]
  simp only [skipWhile, takeWhile_append_of_stops all stops, dropped]

theorem skipBlanks_of_solid {text : Text} (solid : ∀ c ∈ text.head?, isBlank c = false)
    (position : Position) : skipBlanks ⟨position, text⟩ = ⟨position, text⟩ := by
  have none_passed : ∀ d ∈ ([] : Text), isBlank d = true := by simp
  exact skipWhile_append none_passed solid

theorem advance_append (position : Position) (passed rest : Text) :
    advance ⟨position, passed ++ rest⟩ passed.length = ⟨position.after passed, rest⟩ := by
  simp [advance]

theorem skipLine_newline (position : Position) (rest : Text) :
    skipLine ⟨position, '\n' :: rest⟩ = ⟨position.after ['\n'], rest⟩ := by
  have none_passed : ∀ d ∈ ([] : Text), (d != '\n') = true := by simp
  have stays : skipWhile ⟨position, '\n' :: rest⟩ (· != '\n') = ⟨position, '\n' :: rest⟩ :=
    skipWhile_append none_passed (by simp)
  rw [skipLine, stays]
  exact advance_append position ['\n'] rest

end Cursor

namespace Source

theorem readKey_append {key rest : Text} (named : IsName key)
    (stops : ∀ c ∈ rest.head?, isNameChar c = false) (position : Position) :
    readKey ⟨position, key ++ rest⟩ =
      { result := .ok key, stop := ⟨position.after key, rest⟩ } := by
  have all : ∀ c ∈ key, isNameChar c = true := fun _ => isNameChar_of_mem named
  have taken := takeWhile_append_of_stops all stops
  have passed : Cursor.skipWhile ⟨position, key ++ rest⟩ isNameChar = _ :=
    Cursor.skipWhile_append all stops
  obtain ⟨head, tail, rfl, starts, _⟩ := named
  rw [readKey, if_pos (by simpa using starts), taken, passed]

theorem readExportedKey_equals {key : Text} (named : IsName key) (position : Position)
    (rest : Text) :
    readExportedKey ⟨position, key ++ '=' :: rest⟩ =
      { result := .ok key, stop := ⟨position.after key, '=' :: rest⟩ } := by
  have stops : ∀ c ∈ ('=' :: rest).head?, isNameChar c = false := by
    intro c is_head
    obtain rfl : '=' = c := by simpa using is_head
    decide
  rw [readExportedKey, readKey_append named stops, Step.andThen]
  exact if_neg (by simp [isBlank])

theorem readEquals_of_solid {text : Text} (solid : ∀ c ∈ text.head?, isBlank c = false)
    (key : Text) (position : Position) :
    readEquals key ⟨position, '=' :: text⟩ =
      { result := .ok (), stop := ⟨position.after ['='], text⟩ } := by
  have stays : Cursor.skipBlanks ⟨position, '=' :: text⟩ = _ :=
    Cursor.skipBlanks_of_solid (by simp [isBlank]) position
  have passed := Cursor.advance_append position ['='] text
  have behind := Cursor.skipBlanks_of_solid solid (position.after ['='])
  rw [readEquals, stays]
  simp only [List.head?_cons, ↓reduceIte]
  change Step.mk _ (Cursor.advance ⟨position, ['='] ++ text⟩ ['='].length).skipBlanks = _
  rw [passed, behind]

private theorem starts_definition {c : Char} (starts : isNameStart c = true) :
    isBlank c = false ∧ (c == '\n' || c == '#') = false := by
  constructor
  · cases blank : isBlank c with
    | false => rfl
    | true =>
        simp only [isBlank, Bool.or_eq_true, beq_iff_eq] at blank
        rcases blank with (rfl | rfl) | rfl <;> exact absurd starts (by decide)
  · cases ends : (c == '\n' || c == '#') with
    | false => rfl
    | true =>
        simp only [Bool.or_eq_true, beq_iff_eq] at ends
        rcases ends with rfl | rfl <;> exact absurd starts (by decide)

theorem readLine_equals {key text : Text} (named : IsName key)
    (solid : ∀ c ∈ text.head?, isBlank c = false) (position : Position) :
    readLine ⟨position, key ++ '=' :: text⟩ =
      (some (readValue key ⟨position.after (key ++ ['=']), text⟩).result,
        (readValue key ⟨position.after (key ++ ['=']), text⟩).stop.skipLine) := by
  have exported := readExportedKey_equals named position text
  have equals := readEquals_of_solid solid key (position.after key)
  obtain ⟨head, tail, rfl, starts, _⟩ := named
  obtain ⟨head_solid, head_opens⟩ := starts_definition starts
  have stays : Cursor.skipBlanks ⟨position, head :: tail ++ '=' :: text⟩ = _ :=
    Cursor.skipBlanks_of_solid (by simpa using head_solid) position
  rw [readLine, stays]
  simp only [endsLine, head_opens, List.cons_append]
  rw [← List.cons_append, readDefinition, exported]
  simp only [Step.andThen, equals, ← Position.after_append]
  rfl

/-- A closed quoted value with nothing behind it on its line is read. -/
theorem readValue_quoted {quote : Quote} {body rest : Text}
    (closed : quote.body? (body ++ quote.mark :: '\n' :: rest) = some body) (key : Text)
    (position : Position) :
    readValue key ⟨position, quote.mark :: (body ++ quote.mark :: '\n' :: rest)⟩ =
      { result := .ok
          { key
            value := quote.content body
            quote := some quote
            position := position.after [quote.mark] }
        stop := ⟨(position.after [quote.mark]).after (body ++ [quote.mark]), '\n' :: rest⟩ } := by
  have opened := Cursor.advance_append position [quote.mark] (body ++ quote.mark :: '\n' :: rest)
  have passed := Cursor.advance_append (position.after [quote.mark]) (body ++ [quote.mark])
    ('\n' :: rest)
  have behind : Cursor.skipBlanks ⟨_, '\n' :: rest⟩ = _ :=
    Cursor.skipBlanks_of_solid (by simp [isBlank])
      ((position.after [quote.mark]).after (body ++ [quote.mark]))
  have mark_opens : Quote.ofMark? quote.mark = some quote := by cases quote <;> rfl
  simp only [List.append_assoc, List.singleton_append, List.length_append, List.length_singleton]
    at opened passed
  rw [readValue]
  simp only [List.head?_cons, Option.bind_some, mark_opens, readQuoted, opened, closed, passed,
    behind]
  rfl

theorem readValue_unquoted {value : Text} (isValue : Unquoted.IsValue value) (key rest : Text)
    (position : Position) :
    readValue key ⟨position, value ++ '\n' :: rest⟩ =
      { result := .ok { key, value, quote := none, position }
        stop := ⟨position.after value, '\n' :: rest⟩ } := by
  have inLine : ∀ c ∈ value, (c != '\n') = true := by
    intro c member
    simpa using fun same : c = '\n' => isValue.newline_notMem (same ▸ member)
  have ends : ∀ c ∈ ('\n' :: rest).head?, (c != '\n') = false := by simp
  have unmarked : (value ++ '\n' :: rest).head?.bind Quote.ofMark? = none := by
    cases value with
    | nil => rfl
    | cons head tail => exact (ofMark?_eq_none_iff head).mpr (isValue.head_unmarked head rfl)
  rw [readValue]
  simp only [unmarked, readUnquoted, takeWhile_append_of_stops inLine ends, isValue.value_eq,
    Cursor.skipWhile_append inLine ends]

end Source

namespace Definition

/-- The mark that stands at either end of the value, if it is in quotes. -/
def marks (definition : Definition) : Text :=
  (definition.quote.map Quote.mark).toList

/-- What the canonical line of a definition has in front of the value. -/
def opening (definition : Definition) : Text :=
  definition.key ++ '=' :: definition.marks

/-- A definition without its place. -/
def written (definition : Definition) : Text × Text × Option Quote :=
  (definition.key, definition.value, definition.quote)

/-- The canonical line of a definition. -/
def render (definition : Definition) : Text :=
  definition.opening ++ (definition.value ++ (definition.marks ++ ['\n']))

end Definition

namespace Source

/-- The canonical lines of definitions. -/
def renderAll (definitions : List Definition) : Text :=
  definitions.flatMap Definition.render

/-- The definitions as they stand in their canonical lines, which start at a position. -/
def place : Position → List Definition → List Definition
  | _, [] => []
  | position, definition :: definitions =>
      { definition with position := position.after definition.opening } ::
        place (position.after definition.render) definitions

theorem readLine_render {definition : Definition} (wellFormed : definition.IsWellFormed)
    (unreturned : '\r' ∉ definition.value) (position : Position) (rest : Text) :
    readLine ⟨position, definition.render ++ rest⟩ =
      (some (.ok { definition with position := position.after definition.opening }),
        ⟨position.after definition.render, rest⟩) := by
  obtain ⟨key, value, quote, place⟩ := definition
  obtain ⟨named, isValue⟩ := wellFormed
  cases quote with
  | none =>
      have isValue : Unquoted.IsValue value := isValue
      have solid : ∀ c ∈ (value ++ '\n' :: rest).head?, isBlank c = false := by
        cases value with
        | nil => simp [isBlank]
        | cons head tail => exact isValue.head_solid
      have line := readLine_equals named solid position
      rw [readValue_unquoted isValue] at line
      simp only [Cursor.skipLine_newline, ← Position.after_append] at line
      simpa [Definition.render, Definition.opening, Definition.marks] using line
  | some quote =>
      have closed := Quote.body?_append isValue ('\n' :: rest)
      have solid : ∀ c ∈ (quote.mark :: (value ++ quote.mark :: '\n' :: rest)).head?,
          isBlank c = false := by
        cases quote <;> simp [Quote.mark, isBlank]
      have line := readLine_equals named solid position
      rw [readValue_quoted closed, Quote.content_eq_self unreturned] at line
      simp only [Cursor.skipLine_newline, ← Position.after_append] at line
      simpa [Definition.render, Definition.opening, Definition.marks] using line

theorem readLines_renderAll {definitions : List Definition}
    (wellFormed : ∀ definition ∈ definitions, definition.IsWellFormed)
    (unreturned : ∀ definition ∈ definitions, '\r' ∉ definition.value) (position : Position) :
    readLines ⟨position, renderAll definitions⟩ = (place position definitions).map .ok := by
  induction definitions generalizing position with
  | nil => simp [renderAll, readLines, place]
  | cons definition definitions ih =>
      have nonempty : renderAll (definition :: definitions) ≠ [] := by
        simp [renderAll, Definition.render]
      have line := readLine_render (wellFormed definition List.mem_cons_self)
        (unreturned definition List.mem_cons_self) position (renderAll definitions)
      have later := ih (fun other member => wellFormed other (List.mem_cons_of_mem _ member))
        (fun other member => unreturned other (List.mem_cons_of_mem _ member))
        (position.after definition.render)
      have split : renderAll (definition :: definitions) =
          definition.render ++ renderAll definitions := List.flatMap_cons
      rw [readLines, dif_pos nonempty, split, line, later]
      rfl

theorem start_renderAll {definitions : List Definition}
    (wellFormed : ∀ definition ∈ definitions, definition.IsWellFormed) :
    Cursor.start (renderAll definitions) = ⟨{}, renderAll definitions⟩ := by
  cases definitions with
  | nil => rfl
  | cons definition definitions =>
      obtain ⟨head, tail, key_eq, starts, _⟩ :=
        (wellFormed definition List.mem_cons_self).isName_key
      unfold Cursor.start
      split
      · rename_i is_mark
        simp only [renderAll, Definition.render, Definition.opening, key_eq, List.flatMap_cons,
          List.cons_append, List.cons.injEq] at is_mark
        rw [is_mark.1] at starts
        exact absurd starts (by decide)
      · rfl

theorem definitionsOf_map_ok (definitions : List Definition) :
    definitionsOf (definitions.map .ok) = definitions := by
  rw [definitionsOf, List.filterMap_map]
  exact List.filterMap_some

theorem diagnosticsOf_map_ok (definitions : List Definition) :
    diagnosticsOf (definitions.map .ok) = [] := by
  simp [diagnosticsOf]

/-- Canonical lines are read back whole. -/
theorem definitions_renderAll {definitions : List Definition}
    (wellFormed : ∀ definition ∈ definitions, definition.IsWellFormed)
    (unreturned : ∀ definition ∈ definitions, '\r' ∉ definition.value) :
    Source.definitions (renderAll definitions) = .ok (place {} definitions) := by
  rw [Source.definitions, start_renderAll wellFormed, readLines_renderAll wellFormed unreturned]
  simp only [diagnosticsOf_map_ok, ↓reduceIte, definitionsOf_map_ok]

theorem map_place {α : Type} (f g : Definition → α)
    (same : ∀ definition position, f { definition with position } = g definition)
    (position : Position) (definitions : List Definition) :
    (place position definitions).map f = definitions.map g := by
  induction definitions generalizing position with
  | nil => rfl
  | cons definition definitions ih => rw [place, List.map_cons, List.map_cons, same, ih]

/-- Reading yields exactly what the grammar allows.  All definitions that are read are well formed,
and well-formed definitions without carriage returns are read back from their canonical lines, in
order and each as often as it stands there. -/
theorem reads_exactly_wellFormed :
    (∀ source definitions, Source.definitions source = .ok definitions →
      ∀ definition ∈ definitions, definition.IsWellFormed) ∧
    ∀ definitions : List Definition,
      (∀ definition ∈ definitions, definition.IsWellFormed ∧ '\r' ∉ definition.value) →
        Source.definitions (renderAll definitions) = .ok (place {} definitions) ∧
        (place {} definitions).map Definition.written = definitions.map Definition.written := by
  constructor
  · intro source definitions scans definition member
    exact isWellFormed_of_mem scans member
  · intro definitions keeps
    exact ⟨definitions_renderAll (fun definition member => (keeps definition member).1)
      (fun definition member => (keeps definition member).2),
      map_place _ _ (fun _ _ => rfl) {} definitions⟩

/-- Definitions in all three styles, of a key twice, with marks, newlines and number signs. -/
def mixedDefinitions : List Definition :=
  [{ key := "export".toList, value := "a#b 'c'".toList, quote := none, position := {} },
    { key := "_.x".toList, value := "\n\"${A}\\".toList, quote := some .single, position := {} },
    { key := "export".toList, value := "\\\" # \n\\\\".toList, quote := some .double,
      position := {} }]

/-- Definitions in all three styles are read back, and well formed again. -/
theorem reads_mixedDefinitions :
    (∀ definition ∈ mixedDefinitions, definition.IsWellFormed ∧ '\r' ∉ definition.value) ∧
      Source.definitions (renderAll mixedDefinitions) = .ok (place {} mixedDefinitions) ∧
      ∀ definition ∈ place {} mixedDefinitions, definition.IsWellFormed := by
  have named : ∀ head tail, isNameStart head = true → tail.all isNameChar = true →
      IsName (head :: tail) := fun head tail starts inside =>
    ⟨head, tail, rfl, starts, List.all_eq_true.mp inside⟩
  have unquoted : IsValue none "a#b 'c'".toList := by
    refine ⟨by decide, ?_, ?_, ?_, ?_, by decide⟩
    · rintro c ⟨⟩
      rfl
    · rintro c ⟨⟩
      decide
    · rintro c ⟨⟩
      decide
    · rintro c ⟨⟩
      rfl
  have verbatim : '\'' ∉ "\n\"${A}\\".toList := by decide
  have quoted : IsValue (some .double) "\\\" # \n\\\\".toList :=
    .pair _ (.single (by decide) (by decide) (.single (by decide) (by decide)
      (.single (by decide) (by decide) (.single (by decide) (by decide) (.pair _ .nil)))))
  have keeps : ∀ definition ∈ mixedDefinitions,
      definition.IsWellFormed ∧ '\r' ∉ definition.value :=
    List.forall_mem_cons.mpr ⟨⟨⟨named 'e' "xport".toList rfl rfl, unquoted⟩, by decide⟩,
      List.forall_mem_cons.mpr ⟨⟨⟨named '_' ".x".toList rfl rfl, verbatim⟩, by decide⟩,
        List.forall_mem_singleton.mpr ⟨⟨named 'e' "xport".toList rfl rfl, quoted⟩, by decide⟩⟩⟩
  obtain ⟨onlyWellFormed, readBack⟩ := reads_exactly_wellFormed
  have scans := (readBack mixedDefinitions keeps).1
  exact ⟨keeps, scans, onlyWellFormed _ _ scans⟩

end Source
end EnvFile
