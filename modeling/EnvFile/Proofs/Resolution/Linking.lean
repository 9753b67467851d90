import EnvFile.Proofs.Dependency.Graph
import EnvFile.Proofs.Resolution.Rereading
import EnvFile.Resolution.Linking

/-!
# What linking finds

After the definitions each key is bound by the definition that wins (`find?_defineAll`).  Linking
passes over the references in scan order: the order of the keys, and from left to right in a value.
A key is passed over, or the references of its value are followed and what is left of it is recorded
(`linkKey_cases`).  What linking has done after some references is stated once (`Linked`) and
preserved by a reference that is followed and by a key that is linked; a linked source follows
(`exists_linked_link`).
-/

namespace EnvFile

open Value

namespace Resolution

@[simp]
theorem bindings_define (state : Resolution) (definition : Definition) (overwrite : Bool) :
    (state.define definition overwrite).bindings =
      state.bindings.define definition.key (.ofDefinition definition) overwrite := rfl

private theorem defineAll_append_singleton (state : Resolution) (definitions : List Definition)
    (definition : Definition) (overwrite : Bool) :
    state.defineAll (definitions ++ [definition]) overwrite =
      (state.defineAll definitions overwrite).define definition overwrite := by
  simp [defineAll]

theorem defineAll_eq (state : Resolution) (definitions : List Definition) (overwrite : Bool) :
    state.defineAll definitions overwrite =
      { state with bindings := (state.defineAll definitions overwrite).bindings } := by
  induction definitions using List.reverseRecOn with
  | nil => rfl
  | append_singleton definitions definition ih =>
      rw [defineAll_append_singleton, ih]
      rfl

theorem keys_defineAll (definitions : List Definition) (overwrite : Bool) :
    (defineAll {} definitions overwrite).bindings.keys = definedKeys definitions := by
  induction definitions using List.reverseRecOn with
  | nil => rfl
  | append_singleton definitions definition ih =>
      rw [defineAll_append_singleton, bindings_define, Bindings.keys_define, ih, definedKeys,
        definedKeys, List.map_append, List.map_singleton, eraseDups_append_singleton,
        if_congr List.mem_eraseDups rfl rfl]

/-- Each key is bound by the definition that wins. -/
theorem find?_defineAll (definitions : List Definition) (overwrite : Bool) (key : Text) :
    (defineAll {} definitions overwrite).bindings.find? key =
      (Dictionary.ofDefinitions definitions overwrite key).map .ofDefinition := by
  induction definitions using List.reverseRecOn generalizing key with
  | nil => cases overwrite <;> rfl
  | append_singleton definitions definition ih =>
      rw [defineAll_append_singleton, bindings_define, Bindings.find?_define, Bindings.admits,
        OrderedMap.contains, ih, ih]
      unfold Dictionary.ofDefinitions
      by_cases same : key = definition.key
      · subst same
        cases overwrite with
        | true => simp
        | false =>
            cases found : definitions.find? fun other => other.key = definition.key with
            | none => simp [List.find?_append, found]
            | some winner => simp [List.find?_append, found]
      · have differ : definition.key ≠ key := fun other => same other.symm
        cases overwrite <;> simp [List.find?_append, same, differ]

end Resolution

namespace Mentions

/-- The keys of references, each with the place where it stands first. -/
def ofReferences (references : List (Text × Position)) : Mentions :=
  references.foldl (fun mentions reference => mentions.note reference.1 reference.2) .empty

theorem ofReferences_append_singleton (references : List (Text × Position))
    (reference : Text × Position) :
    ofReferences (references ++ [reference]) =
      (ofReferences references).note reference.1 reference.2 := by
  simp [ofReferences]

theorem keys_ofReferences (references : List (Text × Position)) :
    (ofReferences references).keys = (references.map Prod.fst).eraseDups := by
  induction references using List.reverseRecOn with
  | nil => rfl
  | append_singleton references reference ih =>
      rw [ofReferences_append_singleton, keys_note, ih, List.map_append, List.map_singleton,
        eraseDups_append_singleton, if_congr List.mem_eraseDups rfl rfl]

theorem find?_ofReferences (references : List (Text × Position)) (key : Text) :
    (ofReferences references).find? key = references.lookup key := by
  induction references using List.reverseRecOn with
  | nil => rfl
  | append_singleton references reference ih =>
      obtain ⟨name, position⟩ := reference
      rw [ofReferences_append_singleton, find?_note, ih, isFresh, OrderedMap.contains,
        List.lookup_append]
      by_cases same : key = name
      · subst same
        cases known : references.lookup key with
        | none => simp [ih, known]
        | some place => simp [ih, known]
      · have no_match : (key == name) = false := by simpa using same
        simp [same, List.lookup_cons, no_match]

end Mentions

namespace Dictionary

variable (dictionary : Dictionary) (lookup : Text → Option Text)

/-- Whether a key is defined or set. -/
def isBound (name : Text) : Bool :=
  (dictionary name).isSome || (lookup name).isSome

/-- Whether the value of a defined key refers to a key that is defined or set. -/
def awaits (key : Text) : Bool :=
  (dictionary key).any fun definition => definition.names.any (dictionary.isBound lookup)

/-- The binding of a defined key before any reference is replaced.  A value that refers only to keys
without a value loses its references at once. -/
def linkedBinding (definition : Definition) : Binding :=
  { Binding.ofDefinition definition with
    value :=
      if definition.names.countP (dictionary.isBound lookup) = 0 ∧ definition.names ≠ [] then
        (Bindings.splice .empty .keep definition.value).text
      else definition.value
    pending := definition.names.countP (dictionary.isBound lookup) }

theorem linkedBinding_of_names_eq_nil {definition : Definition} (unnamed : definition.names = []) :
    dictionary.linkedBinding lookup definition = .ofDefinition definition := by
  rw [linkedBinding, if_neg fun both => both.2 unnamed, unnamed]
  rfl

end Dictionary

namespace Resolution

variable {dictionary : Dictionary} {lookup : Text → Option Text}

/-- Record what linking leaves of the value of a key, and how many of its references have a
target. -/
def record (state : Resolution) (key value : Text) (pending : Nat) : Resolution :=
  { state with
    bindings := state.bindings.modify key fun old => { old with value, pending }
    unresolved := if pending = 0 then state.unresolved else state.unresolved + 1 }

@[simp]
theorem bindings_record (state : Resolution) (key value : Text) (pending : Nat) :
    (state.record key value pending).bindings =
      state.bindings.modify key fun old => { old with value, pending } := rfl

theorem exists_isInterpreted_or (bindings : Bindings) (key : Text) :
    (∃ binding, bindings.find? key = some binding ∧ binding.isInterpreted = true) ∨
      ∀ binding, bindings.find? key = some binding → binding.isInterpreted = false := by
  cases found : bindings.find? key with
  | none => exact .inr fun binding bound => by simp at bound
  | some binding =>
      cases interpreted : binding.isInterpreted with
      | false => exact .inr fun other same => Option.some.inj same ▸ interpreted
      | true => exact .inl ⟨binding, rfl, interpreted⟩

theorem linkKey_of_not_isInterpreted {state : Resolution} {key : Text}
    (passed : ∀ binding, state.bindings.find? key = some binding → binding.isInterpreted = false) :
    linkKey lookup state key = state := by
  unfold linkKey
  cases found : state.bindings.find? key with
  | none => rfl
  | some binding => simp [passed binding found]

theorem linkKey_of_isInterpreted {state : Resolution} {key : Text} {binding : Binding}
    (found : state.bindings.find? key = some binding) (interpreted : binding.isInterpreted = true) :
    linkKey lookup state key =
      (followAll lookup state (Value.references binding.value binding.position)).1.record key
        (if (followAll lookup state (Value.references binding.value binding.position)).2 = 0 ∧
            Value.references binding.value binding.position ≠ [] then
          ((followAll lookup state (Value.references binding.value
            binding.position)).1.bindings.splice .keep binding.value).text
        else binding.value)
        (followAll lookup state (Value.references binding.value binding.position)).2 := by
  unfold linkKey
  simp only [found, interpreted, ↓reduceIte, record]

/-- Whatever is recorded as the value of a key, linking the key does one of two things. -/
theorem linkKey_cases (lookup : Text → Option Text) (state : Resolution) (key : Text) :
    linkKey lookup state key = state ∨
      ∃ binding value, state.bindings.find? key = some binding ∧ binding.isInterpreted = true ∧
        linkKey lookup state key =
          (followAll lookup state (Value.references binding.value binding.position)).1.record key
            value (followAll lookup state (Value.references binding.value binding.position)).2 := by
  rcases exists_isInterpreted_or state.bindings key with ⟨binding, found, interpreted⟩ | passed
  · exact .inr ⟨binding, _, found, interpreted, linkKey_of_isInterpreted found interpreted⟩
  · exact .inl (linkKey_of_not_isInterpreted passed)

/-! ## Keys linked so far -/

/-- The state after some references were followed and some keys were linked. -/
structure Linked (dictionary : Dictionary) (lookup : Text → Option Text)
    (scanned : List (Text × Position)) (processed : List Text) (state : Resolution) : Prop where
  find?_of_some : ∀ key definition, dictionary key = some definition →
    state.bindings.find? key = some
      (if key ∈ processed then dictionary.linkedBinding lookup definition
        else .ofDefinition definition)
  find?_of_none : ∀ key, dictionary key = none →
    state.bindings.find? key =
      if key ∈ scanned.map Prod.fst then (lookup key).map .ofEnvironment else none
  mentions_eq : state.mentions =
    .ofReferences (scanned.filter fun reference => dictionary.isBound lookup reference.1)
  diagnostics_eq : state.diagnostics =
    (scanned.filter fun reference => !dictionary.isBound lookup reference.1).map fun reference =>
      .ofProblem (.undefinedReference reference.1) reference.2
  unresolved_eq : state.unresolved = processed.countP (dictionary.awaits lookup)
  convergence_eq : state.convergence = {}

namespace Linked

variable {scanned references : List (Text × Position)} {processed : List Text} {state : Resolution}

theorem contains_iff (linked : Linked dictionary lookup scanned processed state) (key : Text) :
    state.bindings.contains key = true ↔
      (dictionary key).isSome ∨ key ∈ scanned.map Prod.fst ∧ (lookup key).isSome := by
  rw [OrderedMap.contains]
  cases found : dictionary key with
  | none =>
      rw [linked.find?_of_none key found]
      by_cases member : key ∈ scanned.map Prod.fst
      · simp [member]
      · simp [member]
  | some definition => simp [linked.find?_of_some key definition found]

private theorem mem_map_fst_append_iff {key other : Text} (position : Position)
    (differ : other ≠ key) :
    other ∈ (scanned ++ [(key, position)]).map Prod.fst ↔ other ∈ scanned.map Prod.fst := by
  rw [List.map_append, List.mem_append]
  exact or_iff_left fun member => differ (List.mem_singleton.mp member)

/-- A reference to a key that is bound already adds a mention. -/
private theorem mention (linked : Linked dictionary lookup scanned processed state) {key : Text}
    (position : Position) (contained : state.bindings.contains key = true) :
    Linked dictionary lookup (scanned ++ [(key, position)]) processed
      (state.mention key position) := by
  have either := (linked.contains_iff key).mp contained
  have bound : dictionary.isBound lookup key = true := by
    rw [Dictionary.isBound, Bool.or_eq_true]
    exact either.imp id And.right
  constructor
  · exact linked.find?_of_some
  · intro other undefined
    rw [show (state.mention key position).bindings = state.bindings from rfl,
      linked.find?_of_none other undefined]
    by_cases same : other = key
    · subst same
      have known : other ∈ scanned.map Prod.fst := by
        simpa [undefined] using And.left (either.resolve_left (by simp [undefined]))
      have known' : other ∈ (scanned ++ [(other, position)]).map Prod.fst := by simp
      rw [if_pos known, if_pos known']
    · rw [if_congr (mem_map_fst_append_iff position same) rfl rfl]
  · rw [List.filter_append, List.filter_cons_of_pos (by simpa using bound), List.filter_nil,
      Mentions.ofReferences_append_singleton, ← linked.mentions_eq]
    rfl
  · rw [List.filter_append, List.filter_cons_of_neg (by simpa using bound), List.filter_nil,
      List.append_nil]
    exact linked.diagnostics_eq
  · exact linked.unresolved_eq
  · exact linked.convergence_eq

private theorem bindExternal (linked : Linked dictionary lookup scanned processed state)
    {key value : Text} (position : Position) (undefined : dictionary key = none)
    (unbound : state.bindings.contains key = false) (found : lookup key = some value) :
    Linked dictionary lookup (scanned ++ [(key, position)]) processed
      (Resolution.mention { state with
        bindings := state.bindings.define key (.ofEnvironment value) false } key position) := by
  have bound : dictionary.isBound lookup key = true := by simp [Dictionary.isBound, found]
  have admitted : state.bindings.admits key false = true := by simp [Bindings.admits, unbound]
  constructor
  · intro other definition defined
    have differ : other ≠ key := by
      rintro rfl
      simp [undefined] at defined
    change (state.bindings.define key (.ofEnvironment value) false).find? other = _
    rw [Bindings.find?_define, if_neg fun both => differ both.1]
    exact linked.find?_of_some other definition defined
  · intro other other_undefined
    change (state.bindings.define key (.ofEnvironment value) false).find? other = _
    rw [Bindings.find?_define]
    by_cases same : other = key
    · subst same
      simp [admitted, found]
    · rw [if_neg fun both => same both.1, linked.find?_of_none other other_undefined,
        if_congr (mem_map_fst_append_iff position same) rfl rfl]
  · change state.mentions.note key position = _
    rw [List.filter_append, List.filter_cons_of_pos (by simpa using bound), List.filter_nil,
      Mentions.ofReferences_append_singleton, ← linked.mentions_eq]
  · rw [List.filter_append, List.filter_cons_of_neg (by simpa using bound), List.filter_nil,
      List.append_nil]
    exact linked.diagnostics_eq
  · exact linked.unresolved_eq
  · exact linked.convergence_eq

private theorem reportUndefined (linked : Linked dictionary lookup scanned processed state)
    {key : Text} (position : Position) (undefined : dictionary key = none)
    (unset : lookup key = none) :
    Linked dictionary lookup (scanned ++ [(key, position)]) processed
      (state.report (.undefinedReference key) position) := by
  have unbound : dictionary.isBound lookup key = false := by
    simp [Dictionary.isBound, unset, undefined]
  constructor
  · exact linked.find?_of_some
  · intro other other_undefined
    change state.bindings.find? other = _
    rw [linked.find?_of_none other other_undefined]
    by_cases same : other = key
    · subst same
      simp [unset]
    · rw [if_congr (mem_map_fst_append_iff position same) rfl rfl]
  · rw [List.filter_append, List.filter_cons_of_neg (by simp [unbound]), List.filter_nil,
      List.append_nil]
    exact linked.mentions_eq
  · change state.diagnostics ++ _ = _
    rw [List.filter_append, List.filter_cons_of_pos (by simp [unbound]), List.filter_nil,
      List.map_append, ← linked.diagnostics_eq]
    rfl
  · exact linked.unresolved_eq
  · exact linked.convergence_eq

theorem follow (linked : Linked dictionary lookup scanned processed state) (key : Text)
    (position : Position) :
    Linked dictionary lookup (scanned ++ [(key, position)]) processed
        (Resolution.follow lookup state key position).1 ∧
      (Resolution.follow lookup state key position).2 = dictionary.isBound lookup key := by
  unfold Resolution.follow
  cases contained : state.bindings.contains key with
  | true =>
      have either := (linked.contains_iff key).mp contained
      rw [if_pos rfl]
      refine ⟨linked.mention position contained, ?_⟩
      rw [eq_comm, Dictionary.isBound, Bool.or_eq_true]
      exact either.imp id And.right
  | false =>
      have undefined : dictionary key = none := by
        rw [← Option.not_isSome_iff_eq_none]
        intro defined
        rw [(linked.contains_iff key).mpr (.inl defined)] at contained
        exact absurd contained (by decide)
      rw [if_neg Bool.false_ne_true]
      cases found : lookup key with
      | some value =>
          refine ⟨linked.bindExternal position undefined contained found, ?_⟩
          simp [Dictionary.isBound, found]
      | none =>
          refine ⟨linked.reportUndefined position undefined found, ?_⟩
          simp [Dictionary.isBound, found, undefined]

theorem followAll (linked : Linked dictionary lookup scanned processed state)
    (references : List (Text × Position)) :
    Linked dictionary lookup (scanned ++ references) processed
        (Resolution.followAll lookup state references).1 ∧
      (Resolution.followAll lookup state references).2 =
        (references.map Prod.fst).countP (dictionary.isBound lookup) := by
  induction references generalizing scanned state with
  | nil => simpa [Resolution.followAll] using linked
  | cons reference references ih =>
      obtain ⟨key, position⟩ := reference
      obtain ⟨next, found⟩ := linked.follow key position
      obtain ⟨last, counted⟩ := ih next
      rw [List.append_assoc, List.singleton_append] at last
      refine ⟨last, ?_⟩
      simp only [Resolution.followAll, found, counted, List.map_cons, List.countP_cons]
      split <;> rfl

theorem text_splice_eq_empty (linked : Linked dictionary lookup scanned processed state)
    {value : Text}
    (unbound : (names value).countP (dictionary.isBound lookup) = 0) :
    (state.bindings.splice .keep value).text = (Bindings.splice .empty .keep value).text := by
  apply Bindings.text_splice_congr
  intro name member
  have unset := List.countP_eq_zero.mp unbound name member
  simp only [Dictionary.isBound, Bool.or_eq_true, not_or, Bool.not_eq_true,
    Option.isSome_eq_false_iff, Option.isNone_iff_eq_none] at unset
  rw [linked.find?_of_none name unset.1, unset.2, OrderedMap.find?_empty]
  split <;> rfl

private theorem awaits_iff (lookup : Text → Option Text) {key : Text} {definition : Definition}
    (defined : dictionary key = some definition) :
    dictionary.awaits lookup key = true ↔
      definition.names.countP (dictionary.isBound lookup) ≠ 0 := by
  simp [Dictionary.awaits, defined, List.countP_eq_zero]

private theorem mem_append_singleton_iff_of_ne {key other : Text} (differ : other ≠ key) :
    other ∈ processed ++ [key] ↔ other ∈ processed := by
  simp [differ]

/-- A verbatim value is passed over. -/
private theorem linkKey_of_verbatim (linked : Linked dictionary lookup scanned processed state)
    {key : Text} {definition : Definition} (defined : dictionary key = some definition)
    (fresh : key ∉ processed) (verbatim : definition.isVerbatim = true) :
    Linked dictionary lookup (scanned ++ definition.references) (processed ++ [key])
      (Resolution.linkKey lookup state key) := by
  have found := linked.find?_of_some key definition defined
  rw [if_neg fresh] at found
  have no_names : definition.names = [] := by simp [Definition.names, verbatim]
  have no_references : definition.references = [] := by simp [Definition.references, verbatim]
  have skipped : Resolution.linkKey lookup state key = state := by
    refine linkKey_of_not_isInterpreted fun binding bound => ?_
    obtain rfl : Binding.ofDefinition definition = binding :=
      Option.some.inj (found.symm.trans bound)
    simp [Binding.isInterpreted, Binding.ofDefinition, verbatim]
  have ready : dictionary.awaits lookup key = false := by
    simpa [no_names] using awaits_iff lookup defined
  rw [skipped, no_references, List.append_nil]
  constructor
  · intro other other_definition other_defined
    rw [linked.find?_of_some other other_definition other_defined]
    by_cases same : other = key
    · subst same
      obtain rfl : definition = other_definition := by
        simpa [defined] using other_defined
      simp [fresh, Dictionary.linkedBinding_of_names_eq_nil _ _ no_names]
    · rw [if_congr (mem_append_singleton_iff_of_ne same) rfl rfl]
  · exact linked.find?_of_none
  · exact linked.mentions_eq
  · exact linked.diagnostics_eq
  · rw [List.countP_append, List.countP_singleton, ready, ← linked.unresolved_eq]
    rfl
  · exact linked.convergence_eq

/-- What linking a key does beyond following the references of its value. -/
private theorem linkKey_of_interpreted (linked : Linked dictionary lookup scanned processed state)
    {key : Text} {definition : Definition} (defined : dictionary key = some definition)
    (fresh : key ∉ processed) (interpreted : definition.isVerbatim = false) :
    Resolution.linkKey lookup state key =
      (Resolution.followAll lookup state definition.references).1.record key
        (dictionary.linkedBinding lookup definition).value
        (definition.names.countP (dictionary.isBound lookup)) := by
  have found := linked.find?_of_some key definition defined
  rw [if_neg fresh] at found
  have names_eq : definition.names = names definition.value := by
    simp [Definition.names, interpreted]
  have references_eq : Value.references (Binding.ofDefinition definition).value
      (Binding.ofDefinition definition).position = definition.references := by
    simp [Definition.references, interpreted, Binding.ofDefinition, Binding.ofSource]
  have nonempty_iff : definition.references ≠ [] ↔ definition.names ≠ [] := by
    rw [← definition.map_fst_references, ne_eq, ne_eq, List.map_eq_nil_iff]
  have binding_interpreted : (Binding.ofDefinition definition).isInterpreted = true := by
    simp [Binding.isInterpreted, Binding.isLocal, Binding.ofDefinition, Binding.ofSource,
      interpreted]
  obtain ⟨next, counted⟩ := linked.followAll definition.references
  rw [definition.map_fst_references] at counted
  have value_eq : (if definition.names.countP (dictionary.isBound lookup) = 0 ∧
        definition.references ≠ [] then
      ((Resolution.followAll lookup state definition.references).1.bindings.splice .keep
        definition.value).text
      else definition.value) = (dictionary.linkedBinding lookup definition).value := by
    rw [Dictionary.linkedBinding, if_congr (and_congr_right fun _ => nonempty_iff) rfl rfl]
    by_cases erased : definition.names.countP (dictionary.isBound lookup) = 0 ∧
      definition.names ≠ []
    · rw [if_pos erased, if_pos erased, next.text_splice_eq_empty (names_eq ▸ erased.1)]
    · rw [if_neg erased, if_neg erased]
  rw [linkKey_of_isInterpreted found binding_interpreted, references_eq, counted, ← value_eq]
  rfl

/-- Linking a key passes over the references of its value. -/
theorem linkKey (linked : Linked dictionary lookup scanned processed state) {key : Text}
    {definition : Definition} (defined : dictionary key = some definition)
    (fresh : key ∉ processed) :
    Linked dictionary lookup (scanned ++ definition.references) (processed ++ [key])
      (Resolution.linkKey lookup state key) := by
  cases verbatim : definition.isVerbatim with
  | true => exact linked.linkKey_of_verbatim defined fresh verbatim
  | false =>
      obtain ⟨next, _⟩ := linked.followAll definition.references
      rw [linked.linkKey_of_interpreted defined fresh verbatim]
      constructor
      · intro other other_definition other_defined
        rw [bindings_record, OrderedMap.find?_modify,
          next.find?_of_some other other_definition other_defined]
        by_cases same : other = key
        · subst same
          obtain rfl : definition = other_definition := by
            simpa [defined] using other_defined
          simp [fresh, Dictionary.linkedBinding]
        · rw [if_neg same, if_congr (mem_append_singleton_iff_of_ne same) rfl rfl]
      · intro other undefined
        have differ : other ≠ key := by
          rintro rfl
          simp [undefined] at defined
        rw [bindings_record, OrderedMap.find?_modify, if_neg differ]
        exact next.find?_of_none other undefined
      · exact next.mentions_eq
      · exact next.diagnostics_eq
      · have waits_iff := awaits_iff lookup defined
        rw [List.countP_append, List.countP_singleton, ← next.unresolved_eq]
        by_cases none_bound : definition.names.countP (dictionary.isBound lookup) = 0
        · simp [record, none_bound, mt waits_iff.mp (not_not.mpr none_bound)]
        · simp [record, none_bound, waits_iff.mpr none_bound]
      · exact next.convergence_eq

/-- What holds at the start and of each key that is linked holds when all keys are linked. -/
theorem foldl_linkKey_induction
    {motive : List (Text × Position) → List Text → Resolution → Prop}
    (step : ∀ scanned processed state key definition,
      Linked dictionary lookup scanned processed state → dictionary key = some definition →
        key ∉ processed → motive scanned processed state →
          motive (scanned ++ definition.references) (processed ++ [key])
            (Resolution.linkKey lookup state key))
    {keys : List Text} (linked : Linked dictionary lookup scanned processed state)
    (defined : ∀ key ∈ keys, (dictionary key).isSome) (nodup : (processed ++ keys).Nodup)
    (start : motive scanned processed state) :
    motive (scanned ++ dictionary.scan keys) (processed ++ keys)
      (keys.foldl (Resolution.linkKey lookup) state) := by
  induction keys generalizing scanned processed state with
  | nil => simpa [Dictionary.scan] using start
  | cons key keys ih =>
      obtain ⟨definition, found⟩ := Option.isSome_iff_exists.mp (defined key List.mem_cons_self)
      have fresh : key ∉ processed := by
        intro member
        exact (List.nodup_append.mp nodup).2.2 key member key List.mem_cons_self rfl
      have split : processed ++ key :: keys = processed ++ [key] ++ keys := by simp
      have rest := ih (linked.linkKey found fresh)
        (fun other member => defined other (List.mem_cons_of_mem key member)) (split ▸ nodup)
        (step _ _ _ key definition linked found fresh start)
      rw [List.foldl_cons, split]
      simpa [Dictionary.scan, found] using rest

theorem foldl_linkKey {keys : List Text} (linked : Linked dictionary lookup scanned processed state)
    (defined : ∀ key ∈ keys, (dictionary key).isSome) (nodup : (processed ++ keys).Nodup) :
    Linked dictionary lookup (scanned ++ dictionary.scan keys) (processed ++ keys)
      (keys.foldl (Resolution.linkKey lookup) state) :=
  linked.foldl_linkKey_induction
    (fun _ _ _ _ _ linked found fresh _ => linked.linkKey found fresh) defined nodup linked

end Linked

theorem isPrefix_keys_follow (lookup : Text → Option Text) (state : Resolution) (key : Text)
    (position : Position) :
    state.bindings.keys <+: (follow lookup state key position).1.bindings.keys := by
  unfold follow
  split
  · exact List.prefix_rfl
  · split
    · change _ <+: (state.bindings.define key _ false).keys
      rw [Bindings.keys_define]
      split
      · exact List.prefix_rfl
      · exact List.prefix_append _ _
    · exact List.prefix_rfl

theorem isPrefix_keys_followAll (lookup : Text → Option Text) (state : Resolution)
    (references : List (Text × Position)) :
    state.bindings.keys <+: (followAll lookup state references).1.bindings.keys := by
  induction references generalizing state with
  | nil => exact List.prefix_rfl
  | cons reference references ih =>
      exact (isPrefix_keys_follow lookup state reference.1 reference.2).trans (ih _)

theorem isPrefix_keys_linkKey (lookup : Text → Option Text) (state : Resolution) (key : Text) :
    state.bindings.keys <+: (linkKey lookup state key).bindings.keys := by
  rcases linkKey_cases lookup state key with same | ⟨binding, value, _, _, linked⟩
  · rw [same]
  · rw [linked, bindings_record, OrderedMap.keys_modify]
    exact isPrefix_keys_followAll lookup state _

theorem isPrefix_keys_link (state : Resolution) (lookup : Text → Option Text) :
    state.bindings.keys <+: (state.link lookup).bindings.keys := by
  have linked : state.bindings.keys <+:
      (state.bindings.keys.foldl (linkKey lookup) state).bindings.keys := by
    refine List.foldlRecOn
      (motive := fun reached : Resolution => state.bindings.keys <+: reached.bindings.keys) _ _
      List.prefix_rfl fun reached kept key _ => ?_
    exact kept.trans (isPrefix_keys_linkKey lookup reached key)
  exact linked

theorem linked_defineAll (definitions : List Definition) (overwrite : Bool)
    (lookup : Text → Option Text) :
    Linked (.ofDefinitions definitions overwrite) lookup [] []
      (defineAll {} definitions overwrite) := by
  have rest := defineAll_eq {} definitions overwrite
  constructor
  · intro key definition defined
    rw [find?_defineAll, defined]
    rfl
  · intro key undefined
    rw [find?_defineAll, undefined]
    rfl
  · rw [rest]
    rfl
  · rw [rest]
    rfl
  · rw [rest]
    rfl
  · rw [rest]

theorem nodup_definedKeys (definitions : List Definition) : (definedKeys definitions).Nodup := by
  rw [← keys_defineAll definitions false]
  exact OrderedMap.nodup_keys _

/-- Linking passes over all references of the source and counts the keys that wait. -/
theorem exists_linked_link (definitions : List Definition) (overwrite : Bool)
    (lookup : Text → Option Text) :
    ∃ linked, Linked (.ofDefinitions definitions overwrite) lookup
        (Dictionary.scan (.ofDefinitions definitions overwrite) (definedKeys definitions))
        (definedKeys definitions) linked ∧
      (defineAll {} definitions overwrite).link lookup =
        { linked with convergence := { initial := linked.unresolved } } := by
  have defined : ∀ key ∈ definedKeys definitions,
      (Dictionary.ofDefinitions definitions overwrite key).isSome := fun key =>
    (Dictionary.isSome_ofDefinitions_iff definitions overwrite key).mpr
  have linked := (linked_defineAll definitions overwrite lookup).foldl_linkKey defined
    (nodup_definedKeys definitions)
  rw [List.nil_append, List.nil_append] at linked
  refine ⟨_, linked, ?_⟩
  rw [link, keys_defineAll]
  simp only [linked.convergence_eq]

end Resolution
end EnvFile
