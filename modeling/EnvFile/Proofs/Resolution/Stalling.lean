import EnvFile.Proofs.Resolution.Outcome

/-!
# Keys that wait for each other

A reference that is written into a value behind a closed text stays there as long as its key waits
(`Carries`).  If a key refers to another one whose value has come to refer back to it, neither is
completed by a visit (`Stuck`), so the run stalls and cuts a cycle.  A source of this kind without a
cycle is resolved wrongly (`spoils_of_stuck`).
-/

namespace EnvFile
namespace Resolution

open Value

/-- The value holds a reference to a key behind a closed text and in front of a hyphen. -/
def Carries (name value : Text) : Prop :=
  ∃ (front : Text) (token : Token) (back : Text),
    value = front ++ (token.text ++ '-' :: back) ∧ IsClosed front ∧
      token.reference? = some name ∧ ∀ rest, token.Fits ('-' :: rest)

theorem grains_carried {front back : Text} {token : Token} {name : Text} (closed : IsClosed front)
    (named : token.reference? = some name) (fits : ∀ rest, token.Fits ('-' :: rest)) :
    grains (front ++ (token.text ++ '-' :: back)) =
      grains front ++ token :: .plain ['-'] :: grains back := by
  have text_eq : ∃ written, token.text = '$' :: written := by
    cases token with
    | braced other => exact ⟨_, rfl⟩
    | bare other => exact ⟨_, rfl⟩
    | _ => simp [Token.reference?] at named
  obtain ⟨written, text_eq⟩ := text_eq
  have split : front ++ (token.text ++ '-' :: back) = front ++ '$' :: (written ++ '-' :: back) := by
    rw [text_eq, List.cons_append]
  have whole := grains_text_append (fits back)
  rw [text_eq, List.cons_append] at whole
  rw [split, grains_append_dollar closed, whole, grains_cons_plain (by decide)]

theorem Carries.mem_names {name value : Text} (carries : Carries name value) :
    name ∈ names value := by
  obtain ⟨front, token, back, rfl, closed, named, fits⟩ := carries
  have is_grain : token ∈ grains (front ++ (token.text ++ '-' :: back)) := by
    simp [grains_carried closed named fits]
  exact mem_names_of_mem_grains is_grain named

/-- A reference to a key that waits stays where it is. -/
theorem Carries.splice {bindings : Bindings} {name value : Text} (carries : Carries name value)
    (waits : bindings.blocks name = true) :
    Carries name (bindings.splice .keep value).text := by
  obtain ⟨front, token, back, rfl, closed, named, fits⟩ := carries
  have hyphen : (bindings.spliceToken .keep (.plain ['-'])).text = ['-'] := by
    rw [Bindings.spliceToken_of_reference?_eq_none rfl]
    rfl
  rw [Bindings.text_splice, grains_carried closed named fits, List.flatMap_append,
    List.flatMap_cons, List.flatMap_cons, hyphen, Bindings.spliceToken_keep named waits]
  have front_closed := Bindings.isClosed_flatMap_spliceToken bindings .keep
    (exists_fits_of_mem_grains front)
  exact ⟨_, token, _, rfl, front_closed, named, fits⟩

/-- A key refers to another one, whose value has come to refer to the key. -/
structure Stuck (key target : Text) (bindings : Bindings) : Prop where
  key_waits : ∃ binding, bindings.find? key = some binding ∧ binding.isComplete = false ∧
    binding.value = (Token.braced target).text
  target_waits : ∃ binding, bindings.find? target = some binding ∧ binding.isComplete = false ∧
    Carries key binding.value

theorem blocks_of_find? {bindings : Bindings} {key : Text} {binding : Binding}
    (found : bindings.find? key = some binding) (incomplete : binding.isComplete = false) :
    bindings.blocks key = true := by
  simp [Bindings.blocks, found, incomplete]

theorem grains_braced {target : Text} (named : IsName target) :
    grains (Token.braced target).text = [.braced target] := by
  have fits : (Token.braced target).Fits [] := named
  have whole := grains_text_append fits
  rwa [List.append_nil, grains_nil] at whole

theorem names_braced {target : Text} (named : IsName target) :
    names (Token.braced target).text = [target] := by
  rw [← filterMap_reference?_grains, grains_braced named]
  rfl

theorem mem_names_braced {target : Text} (named : IsName target) :
    target ∈ names (Token.braced target).text := by
  rw [names_braced named]
  exact List.mem_cons_self

theorem splice_braced {bindings : Bindings} {target : Text} (named : IsName target)
    (waits : bindings.blocks target = true) :
    (bindings.splice .keep (Token.braced target).text).text = (Token.braced target).text := by
  rw [Bindings.text_splice, grains_braced named, List.flatMap_singleton,
    Bindings.spliceToken_keep rfl waits]

section Visit

variable {state : Resolution} {key target : Text}

theorem isComplete_visited {binding : Binding} (incomplete : binding.isComplete = false)
    {name : Text} (member : name ∈ names binding.value)
    (waits : state.bindings.blocks name = true) :
    (state.visited binding).isComplete = false := by
  have pending_eq : (state.visited binding).pending =
      min binding.pending ((names binding.value).countP state.bindings.blocks) := by
    rw [← Bindings.pending_splice_keep]
    rfl
  have some_wait : (names binding.value).countP state.bindings.blocks ≠ 0 := by
    rw [ne_eq, List.countP_eq_zero]
    exact fun none_waits => none_waits name member waits
  have some_left : binding.pending ≠ 0 := by simpa [Binding.isComplete] using incomplete
  rw [Binding.isComplete, pending_eq, beq_eq_false_iff_ne]
  omega

/-- Two keys that wait for each other do so for ever. -/
theorem Stuck.visit (stuck : Stuck key target state.bindings) (named : IsName target)
    (counted : Counted state) (visited : Text) :
    Stuck key target (state.visit visited).bindings := by
  obtain ⟨⟨key_binding, key_found, key_incomplete, key_value⟩,
    target_binding, target_found, target_incomplete, carries⟩ := stuck
  have key_blocks := blocks_of_find? key_found key_incomplete
  have target_blocks := blocks_of_find? target_found target_incomplete
  constructor
  · by_cases here : key = visited
    · subst here
      refine ⟨_, counted.find?_visit key_found key_incomplete, ?_, ?_⟩
      · apply isComplete_visited key_incomplete _ target_blocks
        rw [key_value]
        exact mem_names_braced named
      · change (state.bindings.splice .keep key_binding.value).text = _
        rw [key_value, splice_braced named target_blocks]
    · rw [find?_visit_of_ne here]
      exact ⟨key_binding, key_found, key_incomplete, key_value⟩
  · by_cases here : target = visited
    · subst here
      exact ⟨_, counted.find?_visit target_found target_incomplete,
        isComplete_visited target_incomplete carries.mem_names key_blocks,
        carries.splice key_blocks⟩
    · rw [find?_visit_of_ne here]
      exact ⟨target_binding, target_found, target_incomplete, carries⟩

theorem Stuck.visitAll (stuck : Stuck key target state.bindings) (named : IsName target)
    (counted : Counted state) (keys : List Text) :
    Stuck key target (state.visitAll keys).bindings :=
  visitAll_induction
    (fun _ visited counted stuck => Stuck.visit stuck named counted visited) counted stuck keys

/-- The target comes to refer back to the key when it is visited, while another key in its value
still waits. -/
theorem Stuck.of_visit {binding : Binding} {waiting : Text} (counted : Counted state)
    (differ : key ≠ target)
    (key_waits : ∃ binding, state.bindings.find? key = some binding ∧
      binding.isComplete = false ∧ binding.value = (Token.braced target).text)
    (found : state.bindings.find? target = some binding) (incomplete : binding.isComplete = false)
    (member : waiting ∈ names binding.value) (waits : state.bindings.blocks waiting = true)
    (carries : Carries key (state.bindings.splice .keep binding.value).text) :
    Stuck key target (state.visit target).bindings := by
  constructor
  · rwa [find?_visit_of_ne differ]
  · exact ⟨_, counted.find?_visit found incomplete,
      isComplete_visited incomplete member waits, carries⟩

end Visit

section Run

variable {definitions : List Definition} {overwrite : Bool} {lookup : Text → Option Text}
  {scope : Text → Prop} {start first : Resolution} {key target : Text}

/-- Settling stalls if two keys wait for each other behind the first round. -/
theorem Stuck.exists_settle (stuck : Stuck key target start.round.bindings)
    (named : IsName target) (counted : Counted start) :
    ∃ last, Advances start last ∧ Counted last ∧ Stuck key target last.bindings ∧
      start.settle = last.cutCycles := by
  have ne_zero : ∀ state : Resolution, Counted state → state.bindings.blocks key = true →
      state.unresolved ≠ 0 := by
    intro state counted waits none_left
    rw [counted.blocks_eq_false_of_unresolved_eq_zero none_left key] at waits
    exact absurd waits (by decide)
  have key_blocks : ∀ bindings, Stuck key target bindings → bindings.blocks key = true := by
    rintro bindings ⟨⟨binding, found, incomplete, _⟩, _⟩
    exact blocks_of_find? found incomplete
  have start_waits := (advances_round start).extended.blocks_of_blocks (key_blocks _ stuck)
  rw [settle, if_neg (ne_zero start counted start_waits)]
  by_cases stalled : start.round.unresolved = start.unresolved
  · rw [dif_pos stalled]
    exact ⟨start.round, advances_round start, counted.round, stuck, rfl⟩
  · rw [dif_neg stalled]
    obtain ⟨last, advances, last_counted, last_stuck, outcome⟩ :=
      exists_last (fun state visited counted stuck => Stuck.visit stuck named counted visited)
        counted.round stuck
    refine ⟨last, (advances_round start).trans advances, last_counted, last_stuck, ?_⟩
    rcases outcome with ⟨none_left, _⟩ | ⟨_, settle_eq, _⟩
    · exact absurd none_left (ne_zero last last_counted (key_blocks _ last_stuck))
    · exact settle_eq

/-- Cutting the cycles erases the reference of the first key. -/
theorem Stuck.find?_cutCycles {last : Resolution} (stuck : Stuck key target last.bindings)
    (named : IsName target) (counted : Counted last) {keys : List Text}
    (first_key : last.bindings.keys = key :: keys) :
    ∃ binding, last.cutCycles.bindings.find? key = some binding ∧ binding.isLocal = true ∧
      binding.value = [] := by
  obtain ⟨⟨binding, found, incomplete, value_eq⟩, target_binding, target_found, target_incomplete,
    _⟩ := stuck
  have target_blocks := blocks_of_find? target_found target_incomplete
  have is_waiting := (counted.isWaiting_iff found).mpr (blocks_of_find? found incomplete)
  have erased : (last.bindings.splice .erase binding.value).text = [] := by
    rw [value_eq, Bindings.text_splice, grains_braced named, List.flatMap_singleton,
      Bindings.spliceToken_erase rfl target_blocks]
  let reported :=
    { last with
      diagnostics := last.diagnostics ++ last.circularities
      convergence := { last.convergence with stalls := last.convergence.stalls + 1 } }
  have reported_found : reported.bindings.find? key = some binding := found
  have forced : (reported.force key).bindings.find? key = some (binding.replace [] 0) := by
    unfold force
    simp only [reported_found, is_waiting, ↓reduceIte]
    rw [OrderedMap.find?_modify, if_pos rfl, reported_found, ← erased]
    rfl
  have ready : (reported.force key).bindings.blocks key = false := by
    simp [Bindings.blocks, forced, Binding.replace, Binding.isComplete]
  have cut_eq : last.cutCycles = keys.foldl force (reported.force key) := by
    have keys_eq : reported.bindings.keys = key :: keys := first_key
    change reported.bindings.keys.foldl force reported = _
    rw [keys_eq, List.foldl_cons]
  refine ⟨binding.replace [] 0, ?_, counted.isLocal key binding found incomplete, rfl⟩
  rw [cut_eq, (advances_foldl_force _ _).extended key ready, forced]

/-- A run stalls if its first two keys wait for each other behind the first round: a circular
reference is reported, and the first key is left empty. -/
theorem Run.of_stuck (run : Run definitions overwrite lookup scope start first)
    (stuck : Stuck key target start.round.bindings) (named : IsName target)
    (first_key : ∃ keys, definedKeys definitions = key :: keys)
    (defined : (Dictionary.ofDefinitions definitions overwrite target).isSome)
    (scanned : target ∈ (Dictionary.scan (.ofDefinitions definitions overwrite)
      (definedKeys definitions)).map Prod.fst) :
    start.settle.convergence.stalls = 1 ∧
      (∃ diagnostic ∈ start.settle.diagnostics, diagnostic.code = .circularReference) ∧
      (key, []) ∈ start.settle.decodeValues.values := by
  obtain ⟨last, advances, counted, last_stuck, settle_eq⟩ := stuck.exists_settle named run.counted
  obtain ⟨_, diagnostics_eq, _, stalls_eq⟩ := last.cutCycles_spec
  refine ⟨?_, ?_, ?_⟩
  · rw [settle_eq, stalls_eq, advances.stalls_eq, run.convergence_eq]
  · obtain ⟨position, mentioned⟩ := run.exists_mention defined scanned
    obtain ⟨_, target_binding, target_found, target_incomplete, _⟩ := last_stuck
    have member : Diagnostic.ofProblem (.circularReference target) position ∈
        last.circularities := by
      apply List.mem_map.mpr
      refine ⟨(target, position), List.mem_filter.mpr ⟨?_, ?_⟩, rfl⟩
      · rw [advances.mentions_eq]
        exact mentioned
      · exact blocks_of_find? target_found target_incomplete
    rw [settle_eq, diagnostics_eq]
    exact ⟨_, List.mem_append_right _ member, code_eq_of_mem_circularities member⟩
  · obtain ⟨keys, defined_eq⟩ := first_key
    obtain ⟨externals, keys_eq⟩ := run.keys
    have head_eq : last.bindings.keys = key :: (keys ++ externals) := by
      rw [advances.keys_eq, ← keys_eq, defined_eq, List.cons_append]
    obtain ⟨binding, found, isLocal, value_eq⟩ :=
      last_stuck.find?_cutCycles named counted head_eq
    have decoded : binding.decode.value = [] := by
      unfold Binding.decode
      split
      · change decode binding.value = []
        rw [value_eq, decode_nil]
      · exact value_eq
    rw [settle_eq, ← decoded]
    exact mem_values_decodeValues found isLocal

end Run

/-- A source is stable but for one value and has no cycle, and yet its resolution stalls, reports a
circular reference and leaves a key with another value than its expansion. -/
structure Spoils (value : Text) (definitions : List Definition) (lookup : Text → Option Text) :
    Prop where
  isolated : ∃ front definition back, definitions = front ++ definition :: back ∧
    definition.value = value ∧ definition.isVerbatim = false ∧
    ∀ other ∈ front ++ back, IsStable other.value
  acyclic : ∀ overwrite key, ¬ (Dictionary.ofDefinitions definitions overwrite).LeadsToCycle key
  stalls_eq : ∀ overwrite,
    (run {} definitions { overwrite, interpolate := true } lookup).convergence.stalls = 1
  reported : ∀ overwrite,
    ∃ diagnostic ∈ (run {} definitions { overwrite, interpolate := true } lookup).diagnostics,
      diagnostic.code = .circularReference
  wrong : ∀ overwrite, ∃ key ∈ definedKeys definitions, ∃ published,
    (key, published) ∈ (run {} definitions { overwrite, interpolate := true } lookup).values ∧
      published ≠ expand definitions overwrite lookup key

/-- A definition without quotes. -/
def unquoted (key value : Text) : Definition :=
  { key, value, quote := none, position := {} }

theorem names_unquoted (key value : Text) : (unquoted key value).names = names value := rfl

theorem expand_braced {definitions : List Definition} {overwrite : Bool}
    {lookup : Text → Option Text} {key target : Text} (named : IsName target)
    (found : Dictionary.ofDefinitions definitions overwrite key =
      some (unquoted key (Token.braced target).text))
    (acyclic : ¬ (Dictionary.ofDefinitions definitions overwrite).LeadsToCycle key) :
    expand definitions overwrite lookup key = expand definitions overwrite lookup target := by
  have meaning := isExpansion_expand definitions overwrite lookup key acyclic
  rw [found] at meaning
  rw [meaning]
  change fill _ (Token.braced target).text = _
  rw [← flatMap_fill_grains, grains_braced named, List.flatMap_singleton]
  rfl

section Start

variable {definitions : List Definition} {overwrite : Bool} {lookup : Text → Option Text}
  {scope : Text → Prop} {start last : Resolution} {key target : Text}

theorem Run.exists_waiting (run : Run definitions overwrite lookup scope start last)
    (nodup : (definitions.map Definition.key).Nodup) {value name : Text}
    (listed : unquoted key value ∈ definitions) (member : name ∈ names value)
    (defined : name ∈ definitions.map Definition.key) :
    ∃ binding, start.bindings.find? key = some binding ∧ binding.isComplete = false ∧
      binding.value = value := by
  have bound : (Dictionary.ofDefinitions definitions overwrite).isBound lookup name = true := by
    rw [Dictionary.isBound, Bool.or_eq_true, Dictionary.isSome_ofDefinitions_iff,
      definedKeys_of_nodup nodup]
    exact .inl defined
  have some_bound : (names value).countP
      ((Dictionary.ofDefinitions definitions overwrite).isBound lookup) ≠ 0 := by
    rw [ne_eq, List.countP_eq_zero]
    exact fun none_bound => none_bound name member bound
  refine ⟨_, run.find?_of_mem nodup listed, ?_, ?_⟩
  · simpa [Binding.isComplete, Dictionary.linkedBinding, names_unquoted] using some_bound
  · simp [Dictionary.linkedBinding, names_unquoted, some_bound]
    rfl

theorem visitAll_cons_of_blocks {state : Resolution} (counted : Counted state) {name : Text}
    (waits : state.bindings.blocks name = true) (visited : Text) (keys : List Text) :
    state.visitAll (visited :: keys) = (state.visit visited).visitAll keys := by
  rw [visitAll, if_neg]
  intro none_left
  rw [counted.blocks_eq_false_of_unresolved_eq_zero none_left name] at waits
  exact absurd waits (by decide)

theorem Counted.round_of_keys {keys : List Text} {binding : Binding} (counted : Counted start)
    (named : IsName target) (keys_eq : start.bindings.keys = key :: keys)
    (found : start.bindings.find? key = some binding)
    (incomplete : binding.isComplete = false)
    (value_eq : binding.value = (Token.braced target).text)
    (waits : start.bindings.blocks target = true) :
    (∃ binding, (start.visit key).bindings.find? key = some binding ∧
        binding.isComplete = false ∧ binding.value = (Token.braced target).text) ∧
      start.round.bindings = ((start.visit key).visitAll keys).bindings := by
  have found' := counted.find?_visit found incomplete
  have incomplete' : (start.visited binding).isComplete = false := by
    apply isComplete_visited incomplete _ waits
    rw [value_eq]
    exact mem_names_braced named
  have value_eq' : (start.visited binding).value = (Token.braced target).text := by
    change (start.bindings.splice .keep binding.value).text = _
    rw [value_eq, splice_braced named waits]
  refine ⟨⟨_, found', incomplete', value_eq'⟩, ?_⟩
  change (start.visitAll start.bindings.keys).bindings = _
  rw [keys_eq, visitAll_cons_of_blocks counted waits]

/-- A source spoils a value if it starts with a key that comes to wait for the key it refers to, and
that key means something. -/
theorem spoils_of_stuck {value : Text} {rest : List Definition} (named : IsName target)
    (shape : definitions = unquoted key (Token.braced target).text :: rest)
    (nodup : (definitions.map Definition.key).Nodup)
    (isolated : ∃ front definition back, definitions = front ++ definition :: back ∧
      definition.value = value ∧ definition.isVerbatim = false ∧
      ∀ other ∈ front ++ back, IsStable other.value)
    (acyclic : ∀ overwrite key, ¬ (Dictionary.ofDefinitions definitions overwrite).LeadsToCycle key)
    (target_member : target ∈ definitions.map Definition.key)
    (meaningful : ∀ overwrite, expand definitions overwrite lookup target ≠ [])
    (stuck : ∀ overwrite start last, Run definitions overwrite lookup (fun _ => False) start last →
      Stuck key target start.round.bindings) : Spoils value definitions lookup := by
  have keys_eq := definedKeys_of_nodup nodup
  have first_key : ∃ keys, definedKeys definitions = key :: keys := by
    rw [keys_eq, shape]
    exact ⟨_, rfl⟩
  have found : ∀ overwrite, Dictionary.ofDefinitions definitions overwrite key =
      some (unquoted key (Token.braced target).text) := by
    intro overwrite
    refine (Dictionary.ofDefinitions_eq_some_iff nodup overwrite key _).mpr ⟨?_, rfl⟩
    rw [shape]
    exact List.mem_cons_self
  have outcome : ∀ overwrite,
      (run {} definitions { overwrite, interpolate := true } lookup).convergence.stalls = 1 ∧
      (∃ diagnostic ∈ (run {} definitions { overwrite, interpolate := true } lookup).diagnostics,
        diagnostic.code = .circularReference) ∧
      (key, []) ∈ (run {} definitions { overwrite, interpolate := true } lookup).values := by
    intro overwrite
    obtain ⟨start, last, spec⟩ := exists_run definitions overwrite lookup (stableScope_empty _)
    have target_defined : (Dictionary.ofDefinitions definitions overwrite target).isSome := by
      rw [Dictionary.isSome_ofDefinitions_iff, keys_eq]
      exact target_member
    have scanned : target ∈ (Dictionary.scan (.ofDefinitions definitions overwrite)
        (definedKeys definitions)).map Prod.fst := by
      obtain ⟨keys, defined_eq⟩ := first_key
      rw [defined_eq]
      exact Dictionary.mem_map_fst_scan List.mem_cons_self (found overwrite)
        (mem_names_braced named)
    rw [spec.run_eq]
    exact spec.of_stuck (stuck overwrite start last spec) named first_key target_defined scanned
  refine ⟨isolated, acyclic, fun overwrite => (outcome overwrite).1,
    fun overwrite => (outcome overwrite).2.1, ?_⟩
  intro overwrite
  obtain ⟨keys, defined_eq⟩ := first_key
  refine ⟨key, by simp [defined_eq], [], (outcome overwrite).2.2, ?_⟩
  rw [expand_braced named (found overwrite) (acyclic overwrite key)]
  exact (meaningful overwrite).symm

end Start

end Resolution
end EnvFile
