import EnvFile.Proofs.Resolution.Joining

/-!
# What an unstable value does

For each value that is not stable there is a source without cycles whose other values are stable and
which is resolved wrongly all the same (`exists_spoils_of_not_isStable`).  In this source a text
goes on with a name of the value while another reference waits, or it closes a name that the value
leaves open.  The longer name is the name of a key that refers back to the value.
-/

namespace EnvFile
namespace Resolution

open Value

/-- The plain characters among some grains. -/
def plainText (tokens : List Token) : Text :=
  tokens.flatMap fun token =>
    match token with
    | .plain text => text
    | _ => []

/-- The text that is left of a value whose references all stand for nothing. -/
def erasedText (value : Text) : Text :=
  (Bindings.splice .empty .keep value).text

section Open

variable {value own : Text} {front back : List Token}

theorem plainText_inName (none_ends : ∀ token ∈ back, token.endsName = false) :
    ∀ c ∈ plainText back, isNameChar c = true := by
  intro c member
  obtain ⟨token, is_token, member⟩ := List.mem_flatMap.mp member
  have not_ends := none_ends token is_token
  cases token with
  | plain text =>
      rw [Token.endsName, List.any_eq_false] at not_ends
      simpa using not_ends c member
  | _ => exact absurd member List.not_mem_nil

/-- Without its references a value that is left open ends in a name without a closing brace. -/
theorem exists_erasedText_eq (cut : grains value = front ++ .unclosed own :: back)
    (none_ends : ∀ token ∈ back, token.endsName = false) :
    ∃ closed, IsClosed closed ∧
      erasedText value = closed ++ (Token.unclosed (own ++ plainText back)).text := by
  have fitting : ∀ piece ∈ front, ∃ rest, piece.Fits rest := by
    intro piece member
    exact exists_fits_of_mem_grains value piece (by simp [cut, member])
  have back_text : (back.flatMap fun token => (Bindings.spliceToken .empty .keep token).text) =
      plainText back := by
    apply List.flatMap_congr
    intro token member
    have not_ends := none_ends token member
    cases token with
    | plain text => rfl
    | braced name => rfl
    | bare name => rfl
    | _ => simp [Token.endsName, Token.reference?] at not_ends
  refine ⟨_, Bindings.isClosed_flatMap_spliceToken .empty .keep fitting, ?_⟩
  rw [erasedText, Bindings.text_splice, cut, List.flatMap_append, List.flatMap_cons, back_text]
  rfl

theorem shield_unclosed {name : Text} (named : IsName name) :
    shield (Token.unclosed name).text = (Token.unclosed name).text := by
  have fits : (Token.unclosed name).Fits [] := ⟨named, by simp⟩
  have whole := shield_text_append fits
  rw [List.append_nil, shield_nil, List.append_nil] at whole
  exact whole

theorem shield_append_unclosed {closed name : Text} (is_closed : IsClosed closed)
    (named : IsName name) :
    shield (closed ++ (Token.unclosed name).text) =
      shield closed ++ (Token.unclosed name).text := by
  have split : grains (closed ++ (Token.unclosed name).text) =
      grains closed ++ grains (Token.unclosed name).text := grains_append_dollar is_closed _
  rw [← flatMap_shield_grains, split, List.flatMap_append, flatMap_shield_grains,
    flatMap_shield_grains, shield_unclosed named]

theorem shield_eq_erasedText (unnamed : names value = []) : shield value = erasedText value := by
  rw [erasedText, Bindings.text_splice, ← flatMap_shield_grains]
  apply List.flatMap_congr
  intro token member
  have no_reference : token.reference? = none := by
    rw [← filterMap_reference?_grains, List.filterMap_eq_nil_iff] at unnamed
    exact unnamed token member
  rw [Bindings.spliceToken_of_reference?_eq_none no_reference]

/-- References to keys that stand for nothing are erased. -/
theorem text_splice_eq_erasedText {bindings : Bindings}
    (found : ∀ name ∈ names value, bindings.find? name = some (.ofEnvironment [])) :
    (bindings.splice .keep value).text = erasedText value := by
  rw [erasedText, Bindings.text_splice, Bindings.text_splice]
  apply List.flatMap_congr
  intro token member
  cases named : token.reference? with
  | none => rw [Bindings.spliceToken_of_reference?_eq_none named,
      Bindings.spliceToken_of_reference?_eq_none named]
  | some name =>
      have name_found := found name (mem_names_of_mem_grains member named)
      have ready : bindings.blocks name = false := by
        simp [Bindings.blocks, name_found, Binding.isComplete, Binding.ofEnvironment]
      rw [Bindings.spliceToken_of_blocks_eq_false named ready,
        Bindings.spliceToken_of_blocks_eq_false named rfl, Bindings.standIn, name_found]
      rfl

/-- The text of a value that closes the open name of another key, with a reference that still
waits. -/
def closingText (opened closing waiting : Text) : Text :=
  (Token.braced opened).text ++ (closing ++ '}' :: '-' :: (Token.braced waiting).text)

variable {opened closing waiting : Text}

theorem grains_closingText (opened_named : IsName opened)
    (closing_plain : ∀ c ∈ closing, isPlain c = true) (waiting_named : IsName waiting) :
    grains (closingText opened closing waiting) =
      .braced opened :: (closing.map (fun c => .plain [c]) ++
        [.plain ['}'], .plain ['-'], .braced waiting]) := by
  have fits : ∀ rest, (Token.braced opened).Fits rest := fun _ => opened_named
  rw [closingText, grains_text_append (fits _), grains_append_plain closing_plain,
    grains_cons_plain (by decide), grains_cons_plain (by decide), grains_braced waiting_named]

theorem names_closingText (opened_named : IsName opened)
    (closing_plain : ∀ c ∈ closing, isPlain c = true) (waiting_named : IsName waiting) :
    names (closingText opened closing waiting) = [opened, waiting] := by
  have fits : ∀ rest, (Token.braced opened).Fits rest := fun _ => opened_named
  have brace_inert : IsInert ['}', '-'] := isInert_of_plain (by simp [isPlain])
  have closing_inert := (isInert_of_plain closing_plain).append brace_inert
  have regroup : closingText opened closing waiting = (Token.braced opened).text ++
      (closing ++ ['}', '-'] ++ (Token.braced waiting).text) := by
    simp [closingText]
  rw [regroup, names_text_append (fits _), closing_inert.isSealed.names_append,
    closing_inert.names_eq_nil, names_braced waiting_named]
  rfl

theorem isStable_closingText (opened_named : IsName opened)
    (closing_plain : ∀ c ∈ closing, isPlain c = true) (waiting_named : IsName waiting) :
    IsStable (closingText opened closing waiting) := by
  apply IsBraced.isStable
  apply isBraced_of_grains
  intro token member
  rw [grains_closingText opened_named closing_plain waiting_named] at member
  simp only [List.mem_cons, List.mem_append, List.mem_map, List.not_mem_nil, or_false] at member
  rcases member with rfl | ⟨c, _, rfl⟩ | rfl | rfl | rfl <;> rfl

theorem carries_closingText {bindings : Bindings} {closed name : Text}
    (opened_named : IsName opened) (closing_plain : ∀ c ∈ closing, isPlain c = true)
    (waiting_named : IsName waiting) (is_closed : IsClosed closed)
    (named : IsName (name ++ closing)) (ready : bindings.blocks opened = false)
    (standIn_eq : bindings.standIn opened = closed ++ (Token.unclosed name).text) :
    Carries (name ++ closing)
      (bindings.splice .keep (closingText opened closing waiting)).text := by
  have plain_text : ∀ text : Text, ((text.map fun c => Token.plain [c]).flatMap fun token =>
      (bindings.spliceToken .keep token).text) = text := by
    intro text
    rw [List.flatMap_map]
    exact List.flatMap_singleton' text
  rw [Bindings.text_splice, grains_closingText opened_named closing_plain waiting_named,
    List.flatMap_cons, Bindings.spliceToken_of_blocks_eq_false rfl ready, standIn_eq,
    List.flatMap_append, plain_text]
  refine ⟨closed, .braced (name ++ closing),
    (bindings.spliceToken .keep (.braced waiting)).text, ?_, is_closed, rfl, fun _ => named⟩
  simp [Token.text, Bindings.spliceToken, Token.reference?, Token.shield]

section Visited

variable {definitions : List Definition} {overwrite : Bool} {scope : Text → Prop}
  {start last state : Resolution} {closed name : Text}

theorem Run.standIn_of_names_eq_nil
    (run : Run definitions overwrite (fun _ => some []) scope start last)
    (nodup : (definitions.map Definition.key).Nodup) (listed : unquoted opened value ∈ definitions)
    (same : state.bindings.find? opened = start.bindings.find? opened) (unnamed : names value = [])
    (erased_eq : erasedText value = closed ++ (Token.unclosed name).text) :
    (state.visit opened).bindings.blocks opened = false ∧
      (state.visit opened).bindings.standIn opened = closed ++ (Token.unclosed name).text := by
  have found := same.trans (run.find?_of_mem nodup listed)
  have no_names : (unquoted opened value).names = [] := unnamed
  rw [Dictionary.linkedBinding_of_names_eq_nil _ _ no_names] at found
  have ready : state.bindings.blocks opened = false := by
    simp [Bindings.blocks, found, Binding.isComplete, Binding.ofDefinition, Binding.ofSource]
  rw [visit_of_blocks_eq_false ready]
  refine ⟨ready, ?_⟩
  rw [← erased_eq, ← shield_eq_erasedText unnamed, Bindings.standIn, found]
  rfl

/-- A visit erases references to keys that stand for nothing, and then the value takes its place
with the open name that it ends in. -/
theorem Run.standIn_visit_of_external
    (run : Run definitions overwrite (fun _ => some []) scope start last)
    (nodup : (definitions.map Definition.key).Nodup) (listed : unquoted opened value ∈ definitions)
    (external : ∀ name ∈ names value, name ∉ definitions.map Definition.key)
    (counted : Counted state)
    (unchanged : ∀ name, name = opened ∨ name ∈ names value →
      state.bindings.find? name = start.bindings.find? name)
    (some_named : names value ≠ []) (is_closed : IsClosed closed) (named : IsName name)
    (erased_eq : erasedText value = closed ++ (Token.unclosed name).text) :
    (state.visit opened).bindings.blocks opened = false ∧
      (state.visit opened).bindings.standIn opened =
        shield closed ++ (Token.unclosed name).text := by
  have found := (unchanged opened (.inl rfl)).trans (run.find?_of_mem nodup listed)
  have names_found : ∀ name ∈ names value,
      state.bindings.find? name = some (.ofEnvironment []) := by
    intro name member
    rw [unchanged name (.inr member),
      run.find?_of_notMem nodup listed (show name ∈ (unquoted opened value).names from member)
        (external name member)]
    rfl
  have pending_eq : (state.bindings.splice .keep value).pending = 0 := by
    rw [Bindings.pending_splice_keep, List.countP_eq_zero]
    intro name member
    simp [Bindings.blocks, names_found name member, Binding.isComplete, Binding.ofEnvironment]
  have some_bound : (names value).countP ((Dictionary.ofDefinitions definitions overwrite).isBound
      fun _ => some []) ≠ 0 := by
    obtain ⟨mentioned, member⟩ := List.exists_mem_of_ne_nil _ some_named
    rw [ne_eq, List.countP_eq_zero]
    intro none_bound
    simpa [Dictionary.isBound] using none_bound mentioned member
  have value_eq : ((Dictionary.ofDefinitions definitions overwrite).linkedBinding
      (fun _ => some []) (unquoted opened value)).value = value := by
    simp [Dictionary.linkedBinding, names_unquoted, some_bound]
    rfl
  have incomplete : ((Dictionary.ofDefinitions definitions overwrite).linkedBinding
      (fun _ => some []) (unquoted opened value)).isComplete = false := by
    simpa [Binding.isComplete, Dictionary.linkedBinding, names_unquoted] using some_bound
  have found' := counted.find?_visit found incomplete
  have complete : (state.visited ((Dictionary.ofDefinitions definitions overwrite).linkedBinding
      (fun _ => some []) (unquoted opened value))).isComplete = true := by
    rw [visited, value_eq, pending_eq]
    simp [Binding.isComplete, Binding.replace]
  refine ⟨by simp [Bindings.blocks, found', complete], ?_⟩
  rw [← shield_append_unclosed is_closed named, ← erased_eq,
    ← text_splice_eq_erasedText names_found, Bindings.standIn, found', visited, value_eq]
  rfl

/-- A value that is left open takes its place with an open name once it has been visited, if all its
references stand for nothing. -/
theorem Run.exists_standIn_eq (run : Run definitions overwrite (fun _ => some []) scope start last)
    (nodup : (definitions.map Definition.key).Nodup) (listed : unquoted opened value ∈ definitions)
    (external : ∀ name ∈ names value, name ∉ definitions.map Definition.key)
    (counted : Counted state)
    (unchanged : ∀ name, name = opened ∨ name ∈ names value →
      state.bindings.find? name = start.bindings.find? name)
    (own_named : IsName (own ++ plainText back))
    (cut : grains value = front ++ .unclosed own :: back)
    (none_ends : ∀ token ∈ back, token.endsName = false) :
    (state.visit opened).bindings.blocks opened = false ∧ ∃ closed, IsClosed closed ∧
      (state.visit opened).bindings.standIn opened =
        closed ++ (Token.unclosed (own ++ plainText back)).text := by
  obtain ⟨closed, is_closed, erased_eq⟩ := exists_erasedText_eq cut none_ends
  by_cases unnamed : names value = []
  · obtain ⟨ready, standIn_eq⟩ := run.standIn_of_names_eq_nil nodup listed
      (unchanged opened (.inl rfl)) unnamed erased_eq
    exact ⟨ready, closed, is_closed, standIn_eq⟩
  · obtain ⟨ready, standIn_eq⟩ := run.standIn_visit_of_external nodup listed external counted
      unchanged unnamed is_closed own_named erased_eq
    exact ⟨ready, shield closed, isClosed_shield closed, standIn_eq⟩

end Visited

/-- A source in which `target` closes the name that the value of `opened` leaves open.  The name is
then that of a key that refers to the target. -/
def openSource (value key opened closing target waiting last : Text) : List Definition :=
  [unquoted key (Token.braced target).text, unquoted opened value,
    unquoted target (closingText opened closing waiting),
    unquoted waiting (Token.braced last).text, unquoted last []]

/-- The keys of the source are distinct, and the value mentions none of them. -/
structure OpenKeys (value key opened closing target waiting last : Text) : Prop where
  nodup : ((openSource value key opened closing target waiting last).map Definition.key).Nodup
  fresh : ∀ own ∈ [key, opened, target, waiting, last], own ∉ names value
  closing_in : ∀ c ∈ closing, isNameChar c = true
  opened_named : IsName opened
  target_named : IsName target
  waiting_named : IsName waiting
  last_named : IsName last

theorem exists_openKeys (name value : Text) :
    ∃ opened closing target waiting last,
      OpenKeys value (name ++ closing) opened closing target waiting last := by
  obtain ⟨count, key_fresh⟩ := exists_fresh name (names value)
  generalize closing_eq : List.replicate count 'x' = closing at key_fresh
  generalize key_eq : name ++ closing = key at key_fresh
  obtain ⟨opened, opened_named, opened_fresh⟩ := exists_fresh_name (key :: names value)
  obtain ⟨target, target_named, target_fresh⟩ := exists_fresh_name (opened :: key :: names value)
  obtain ⟨waiting, waiting_named, waiting_fresh⟩ :=
    exists_fresh_name (target :: opened :: key :: names value)
  obtain ⟨last, last_named, last_fresh⟩ :=
    exists_fresh_name (waiting :: target :: opened :: key :: names value)
  simp only [List.mem_cons, not_or] at opened_fresh target_fresh waiting_fresh last_fresh
  refine ⟨opened, closing, target, waiting, last, ?_⟩
  rw [key_eq]
  refine ⟨?_, ?_, ?_, opened_named, target_named, waiting_named, last_named⟩
  · rw [← List.nodup_reverse]
    change [last, waiting, target, opened, key].Nodup
    simp [opened_fresh, target_fresh, waiting_fresh, last_fresh]
  · simp [key_fresh, opened_fresh, target_fresh, waiting_fresh, last_fresh]
  · subst closing_eq
    intro c member
    rw [List.eq_of_mem_replicate member]
    decide

theorem target_mem_openSource (value key opened closing target waiting last : Text) :
    unquoted target (closingText opened closing waiting) ∈
      openSource value key opened closing target waiting last := by
  simp [openSource]

namespace OpenKeys

variable {key target last : Text} (keys : OpenKeys value key opened closing target waiting last)

include keys

theorem closing_plain : ∀ c ∈ closing, isPlain c = true := fun c member =>
  isPlain_of_isNameChar (keys.closing_in c member)

theorem differ : (key ≠ opened ∧ key ≠ target ∧ key ≠ waiting ∧ key ≠ last) ∧
    (opened ≠ target ∧ opened ≠ waiting ∧ opened ≠ last) ∧ (target ≠ waiting ∧ target ≠ last) ∧
      waiting ≠ last := by
  have distinct : [key, opened, target, waiting, last].Nodup := keys.nodup
  simpa using distinct

theorem external : ∀ name ∈ names value,
    name ∉ (openSource value key opened closing target waiting last).map Definition.key :=
  fun name member own => keys.fresh name own member

theorem not_leadsToCycle (overwrite : Bool) (asked : Text) :
    ¬ (Dictionary.ofDefinitions (openSource value key opened closing target waiting last)
      overwrite).LeadsToCycle asked := by
  have differ := keys.differ
  apply Dictionary.not_leadsToCycle_of_rank keys.nodup fun asked =>
    if key = asked then 0 else if opened = asked then 2 else if target = asked then 1
    else if waiting = asked then 2 else 3
  intro definition listed asked mentioned defined
  simp only [openSource, List.mem_cons, List.not_mem_nil, or_false] at listed
  rcases listed with rfl | rfl | rfl | rfl | rfl
  · rw [names_unquoted, names_braced keys.target_named, List.mem_singleton] at mentioned
    subst mentioned
    simp [unquoted, differ]
  · exact absurd defined (keys.external asked mentioned)
  · rw [names_unquoted, names_closingText keys.opened_named keys.closing_plain keys.waiting_named,
      List.mem_pair] at mentioned
    rcases mentioned with rfl | rfl <;> simp [unquoted, differ]
  · rw [names_unquoted, names_braced keys.last_named, List.mem_singleton] at mentioned
    subst mentioned
    simp [unquoted, differ]
  · rw [names_unquoted, names_nil] at mentioned
    exact absurd mentioned List.not_mem_nil

theorem isolated :
    ∃ front definition back, openSource value key opened closing target waiting last =
        front ++ definition :: back ∧
      definition.value = value ∧ definition.isVerbatim = false ∧
      ∀ other ∈ front ++ back, IsStable other.value := by
  refine ⟨[_], unquoted opened value, [_, _, _], rfl, rfl, rfl, ?_⟩
  simp only [List.singleton_append, List.mem_cons, List.not_mem_nil, or_false]
  rintro listed (rfl | rfl | rfl | rfl)
  · exact isStable_braced keys.target_named
  · exact isStable_closingText keys.opened_named keys.closing_plain keys.waiting_named
  · exact isStable_braced keys.last_named
  · exact isStable_nil

theorem expand_ne_nil (lookup : Text → Option Text) (overwrite : Bool) :
    expand (openSource value key opened closing target waiting last) overwrite lookup target ≠
      [] := by
  have found := (Dictionary.ofDefinitions_eq_some_iff keys.nodup overwrite target _).mpr
    ⟨target_mem_openSource _ _ _ _ _ _ _, rfl⟩
  have meaning := isExpansion_expand _ overwrite lookup target
    (keys.not_leadsToCycle overwrite target)
  rw [found] at meaning
  rw [meaning]
  change fill _ (closingText opened closing waiting) ≠ []
  rw [← flatMap_fill_grains,
    grains_closingText keys.opened_named keys.closing_plain keys.waiting_named]
  simp [Token.fill, Token.reference?, Token.decode, Token.text]

/-- The key and the target come to wait for each other in the first round. -/
theorem stuck_round {overwrite : Bool} {start final : Resolution} {scope : Text → Prop}
    (run : Run (openSource value key opened closing target waiting last) overwrite
      (fun _ => some []) scope start final)
    (key_eq : key = own ++ plainText back ++ closing) (own_named : IsName (own ++ plainText back))
    (cut : grains value = front ++ .unclosed own :: back)
    (none_ends : ∀ token ∈ back, token.endsName = false) :
    Stuck key target start.round.bindings := by
  have counted := run.counted
  have keys_eq : (openSource value key opened closing target waiting last).map Definition.key =
      [key, opened, target, waiting, last] := rfl
  have key_listed : unquoted key (Token.braced target).text ∈
      openSource value key opened closing target waiting last := List.mem_cons_self
  have opened_listed : unquoted opened value ∈
      openSource value key opened closing target waiting last := by
    simp [openSource]
  have waiting_listed : unquoted waiting (Token.braced last).text ∈
      openSource value key opened closing target waiting last := by
    simp [openSource]
  have waiting_member : waiting ∈ names (closingText opened closing waiting) := by
    simp [names_closingText keys.opened_named keys.closing_plain keys.waiting_named]
  obtain ⟨key_binding, key_found, key_incomplete, key_value⟩ :=
    run.exists_waiting keys.nodup key_listed (mem_names_braced keys.target_named)
      (by simp [keys_eq])
  obtain ⟨target_binding, target_found, target_incomplete, target_value⟩ :=
    run.exists_waiting keys.nodup (target_mem_openSource _ _ _ _ _ _ _) waiting_member
      (by simp [keys_eq])
  obtain ⟨waiting_binding, waiting_found, waiting_incomplete, _⟩ :=
    run.exists_waiting keys.nodup waiting_listed (mem_names_braced keys.last_named)
      (by simp [keys_eq])
  obtain ⟨externals, all_keys⟩ := run.keys
  rw [definedKeys_of_nodup keys.nodup, keys_eq] at all_keys
  simp only [List.cons_append] at all_keys
  obtain ⟨⟨key_binding', key_found', key_incomplete', key_value'⟩, round_eq⟩ :=
    counted.round_of_keys keys.target_named all_keys.symm key_found key_incomplete key_value
      (blocks_of_find? target_found target_incomplete)
  -- the first key has been visited in vain, and nothing else has changed
  obtain ⟨⟨key_opened, key_target, key_waiting, _⟩, ⟨opened_target, opened_waiting, _⟩, _, _⟩ :=
    keys.differ
  have counted' := counted.visit key
  have counted'' := counted'.visit opened
  have unchanged : ∀ name, name = opened ∨ name ∈ names value →
      (start.visit key).bindings.find? name = start.bindings.find? name := by
    intro name either
    apply find?_visit_of_ne
    rcases either with rfl | member
    · exact key_opened.symm
    · rintro rfl
      exact keys.fresh name (by simp) member
  obtain ⟨ready, closed, is_closed, standIn_eq⟩ := run.exists_standIn_eq keys.nodup opened_listed
    keys.external counted' unchanged own_named cut none_ends
  -- the opened key is complete now, and the others have not changed
  have key_found'' := (find?_visit_of_ne key_opened).trans key_found'
  have target_found'' := (find?_visit_of_ne opened_target.symm).trans
    ((find?_visit_of_ne key_target.symm).trans target_found)
  have waiting_found'' := (find?_visit_of_ne opened_waiting.symm).trans
    ((find?_visit_of_ne key_waiting.symm).trans waiting_found)
  have waiting_waits := blocks_of_find? waiting_found'' waiting_incomplete
  have stuck : Stuck key target (((start.visit key).visit opened).visit target).bindings := by
    apply Stuck.of_visit counted'' key_target ⟨_, key_found'', key_incomplete', key_value'⟩
      target_found'' target_incomplete (target_value ▸ waiting_member) waiting_waits
    rw [target_value, key_eq]
    exact carries_closingText keys.opened_named keys.closing_plain keys.waiting_named is_closed
      (own_named.append keys.closing_in) (key_eq ▸ ready) (key_eq ▸ standIn_eq)
  rw [round_eq, visitAll_cons_of_blocks counted' (blocks_of_find? key_found' key_incomplete'),
    visitAll_cons_of_blocks counted'' waiting_waits]
  exact stuck.visitAll keys.target_named (counted''.visit target) _

end OpenKeys

/-- A text that closes a name which the value leaves open spoils the value. -/
theorem exists_spoils_of_open (cut : grains value = front ++ .unclosed own :: back)
    (none_ends : ∀ token ∈ back, token.endsName = false) :
    ∃ definitions lookup, Spoils value definitions lookup := by
  have own_named : IsName (own ++ plainText back) := by
    obtain ⟨rest, fits⟩ := exists_fits_of_mem_grains value (.unclosed own) (by simp [cut])
    exact fits.1.append (plainText_inName none_ends)
  obtain ⟨opened, closing, target, waiting, last, keys⟩ :=
    exists_openKeys (own ++ plainText back) value
  have target_member : target ∈ (openSource value (own ++ plainText back ++ closing) opened closing
      target waiting last).map Definition.key := by
    simp [openSource, unquoted]
  refine ⟨openSource value (own ++ plainText back ++ closing) opened closing target waiting last,
    fun _ => some [], spoils_of_stuck keys.target_named rfl keys.nodup keys.isolated
      keys.not_leadsToCycle target_member ?_ ?_⟩
  · exact keys.expand_ne_nil fun _ => some []
  · intro overwrite start final run
    exact keys.stuck_round run rfl own_named cut none_ends

end Open

/-! ## Every unstable value -/

/-- Each value that is not stable is spoilt by a source whose other values are stable. -/
theorem exists_spoils_of_not_isStable {value : Text} (unstable : ¬ IsStable value) :
    ∃ definitions lookup, Spoils value definitions lookup := by
  rcases exists_of_not_isStable unstable with
    ⟨front, own, next, back, name, other, cut, named, member, differ, kept⟩ |
    ⟨front, own, back, cut, none_ends⟩
  · have own_fits : ∃ rest, own.Fits rest := exists_fits_of_mem_grains value own (by simp [cut])
    obtain ⟨rest, own_fits⟩ := own_fits
    have letter_in : ∀ (count : Nat), ∀ c ∈ List.replicate count 'x', isWordChar c = true := by
      intro count c member
      rw [List.eq_of_mem_replicate member]
      decide
    have tail_plain : ∀ (count : Nat) (closing : Text), (∀ c ∈ closing, isPlain c = true) →
        ∀ c ∈ List.replicate count 'x' ++ closing, isPlain c = true := by
      intro count closing closing_plain c member
      rcases List.mem_append.mp member with member | member
      · exact isPlain_of_isNameChar (isNameChar_of_isWordChar (letter_in count c member))
      · exact closing_plain c member
    rcases kept with rfl | ⟨open_name, rfl⟩
    · obtain ⟨count, fresh⟩ := exists_fresh other (names value)
      have word := own_fits.1.append (letter_in count)
      have joined : (Token.bare other).text ++ (List.replicate count 'x' ++ ['-']) =
          (Token.bare (other ++ List.replicate count 'x')).text ++ ['-'] := by
        simp [Token.text]
      refine exists_spoils_of_joined cut named member differ (.inl rfl) joined
        (tail_plain count _ (by simp [isPlain])) (by simp) rfl
        (fun rest => ⟨word, fun c is_head => ?_⟩) fresh
      obtain rfl : '-' = c := by simpa using is_head
      decide
    · obtain ⟨count, fresh⟩ := exists_fresh open_name (names value)
      have longer_named := own_fits.1.append fun c member =>
        isNameChar_of_isWordChar (letter_in count c member)
      have joined : (Token.unclosed open_name).text ++ (List.replicate count 'x' ++ ['}', '-']) =
          (Token.braced (open_name ++ List.replicate count 'x')).text ++ ['-'] := by
        simp [Token.text]
      exact exists_spoils_of_joined cut named member differ (.inr ⟨open_name, rfl⟩) joined
        (tail_plain count _ (by simp [isPlain])) (by simp) rfl (fun _ => longer_named) fresh
  · exact exists_spoils_of_open cut none_ends

end Resolution
end EnvFile
