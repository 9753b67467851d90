import EnvFile.Proofs.Resolution.Operations
import EnvFile.Proofs.Resolution.Outcome
import EnvFile.Proofs.Resolution.Winners

/-!
# The tables behind linking

Linking binds keys of the environment while it passes over the values, and decides about each
reference by what is bound so far.  What it leaves is told by the tables before it alone: a
reference has a target if its key is defined or set, wherever it stands, and the keys of the
environment follow the defined ones in the order in which they are referred to first
(`tells_link`).
-/

namespace EnvFile

open Value

/-- The references of a binding with their places.  Only an interpreted value has references. -/
def Binding.references (binding : Binding) : List (Text × Position) :=
  if binding.isInterpreted then Value.references binding.value binding.position else []

theorem Binding.references_ofDefinition (definition : Definition) :
    (ofDefinition definition).references = definition.references := by
  cases verbatim : definition.isVerbatim <;>
    simp [references, Definition.references, isInterpreted, isLocal, ofDefinition, ofSource,
      verbatim]

namespace Bindings

/-- The references of all bindings, in the order of the keys and from left to right in a value. -/
def references (bindings : Bindings) : List (Text × Position) :=
  bindings.entries.flatMap fun entry => entry.2.references

/-- Whether a reference to a key has a target: the key is bound or set. -/
def hasTarget (bindings : Bindings) (lookup : Text → Option Text) (key : Text) : Bool :=
  bindings.contains key || (lookup key).isSome

end Bindings

/-- The keys of references that are set and not among the defined ones, in the order of the first
references to them. -/
def importedKeys (lookup : Text → Option Text) (defined : List Text)
    (references : List (Text × Position)) : List Text :=
  ((references.map Prod.fst).filter fun key =>
    !defined.contains key && (lookup key).isSome).eraseDups

/-- The entries of these keys, each with the value that the environment has for it. -/
def importedEntries (lookup : Text → Option Text) (defined : List Text)
    (references : List (Text × Position)) : List (Text × Binding) :=
  (importedKeys lookup defined references).filterMap fun key =>
    (lookup key).map fun value => (key, .ofEnvironment value)

/-- A binding with its references counted that have a target.  If there are references, but none of
them has a target, they are erased. -/
def Binding.counted (hasTarget : Text → Bool) (table : Bindings) (binding : Binding) : Binding :=
  { binding with
    value :=
      if (binding.references.countP fun reference => hasTarget reference.1) = 0 ∧
          binding.references ≠ [] then
        (table.splice .keep binding.value).text
      else binding.value
    pending := binding.references.countP fun reference => hasTarget reference.1 }

namespace Resolution

section Import

variable {lookup : Text → Option Text} {defined : List Text}
  {scanned references : List (Text × Position)} {state : Resolution}

theorem mem_importedKeys_iff {key : Text} :
    key ∈ importedKeys lookup defined scanned ↔
      key ∈ scanned.map Prod.fst ∧ key ∉ defined ∧ (lookup key).isSome = true := by
  rw [importedKeys, List.mem_eraseDups, List.mem_filter]
  simp

theorem importedKeys_append_singleton (key : Text) (position : Position) :
    importedKeys lookup defined (scanned ++ [(key, position)]) =
      if key ∉ defined ∧ (lookup key).isSome ∧ key ∉ importedKeys lookup defined scanned then
        importedKeys lookup defined scanned ++ [key]
      else importedKeys lookup defined scanned := by
  rw [importedKeys, List.map_append, List.map_singleton, List.filter_append]
  by_cases wanted : key ∉ defined ∧ (lookup key).isSome
  · rw [List.filter_cons_of_pos (by simpa using wanted), List.filter_nil,
      eraseDups_append_singleton, if_congr List.mem_eraseDups.symm rfl rfl, ← importedKeys]
    by_cases known : key ∈ importedKeys lookup defined scanned
    · rw [if_pos known, if_neg fun fresh => fresh.2.2 known]
    · rw [if_neg known, if_pos ⟨wanted.1, wanted.2, known⟩]
  · rw [List.filter_cons_of_neg (by simpa using wanted), List.filter_nil, List.append_nil,
      if_neg fun fresh => wanted ⟨fresh.1, fresh.2.1⟩]
    rfl

/-- Following a reference binds its key behind all others, if it is new and set. -/
theorem keys_follow (key : Text) (position : Position)
    (keys_eq : state.bindings.keys = defined ++ importedKeys lookup defined scanned) :
    (follow lookup state key position).1.bindings.keys =
      defined ++ importedKeys lookup defined (scanned ++ [(key, position)]) := by
  have contains_iff : state.bindings.contains key = true ↔
      key ∈ defined ∨ key ∈ importedKeys lookup defined scanned := by
    rw [state.bindings.contains_iff, keys_eq, List.mem_append]
  rw [importedKeys_append_singleton, follow]
  by_cases contained : state.bindings.contains key = true
  · rw [if_pos contained, if_neg, ← keys_eq]
    · rfl
    · rintro ⟨undefined, _, unbound⟩
      exact (contains_iff.mp contained).elim undefined unbound
  · rw [if_neg contained]
    rw [contains_iff, not_or] at contained
    cases found : lookup key with
    | none =>
        rw [if_neg (by simp), ← keys_eq]
        rfl
    | some value =>
        have unbound : key ∉ state.bindings.keys := by
          rw [keys_eq, List.mem_append, not_or]
          exact contained
        rw [if_pos ⟨contained.1, rfl, contained.2⟩, ← List.append_assoc, ← keys_eq]
        change (state.bindings.define key (.ofEnvironment value) false).keys = _
        rw [Bindings.keys_define, if_neg unbound]

theorem keys_followAll
    (keys_eq : state.bindings.keys = defined ++ importedKeys lookup defined scanned) :
    (followAll lookup state references).1.bindings.keys =
      defined ++ importedKeys lookup defined (scanned ++ references) := by
  induction references generalizing scanned state with
  | nil => simpa [followAll] using keys_eq
  | cons reference references ih =>
      have rest := ih (keys_follow reference.1 reference.2 keys_eq)
      rwa [List.append_assoc, List.singleton_append] at rest

variable {dictionary : Dictionary} {processed : List Text}

/-- Linking a key binds the keys of the environment that its value is the first to refer to. -/
theorem Linked.keys_linkKey (linked : Linked dictionary lookup scanned processed state)
    {key : Text} {definition : Definition} (found : dictionary key = some definition)
    (fresh : key ∉ processed)
    (keys_eq : state.bindings.keys = defined ++ importedKeys lookup defined scanned) :
    (Resolution.linkKey lookup state key).bindings.keys =
      defined ++ importedKeys lookup defined (scanned ++ definition.references) := by
  have bound := linked.find?_of_some key definition found
  rw [if_neg fresh] at bound
  have references_eq := Binding.references_ofDefinition definition
  cases interpreted : (Binding.ofDefinition definition).isInterpreted with
  | false =>
      rw [Binding.references, interpreted] at references_eq
      rw [linkKey_of_not_isInterpreted fun binding same =>
        Option.some.inj (bound.symm.trans same) ▸ interpreted]
      simpa [← references_eq] using keys_eq
  | true =>
      rw [Binding.references, interpreted, if_pos rfl] at references_eq
      rw [linkKey_of_isInterpreted bound interpreted, bindings_record, OrderedMap.keys_modify,
        references_eq]
      exact keys_followAll keys_eq

theorem map_fst_importedEntries :
    (importedEntries lookup defined scanned).map Prod.fst =
      importedKeys lookup defined scanned := by
  have all_set : ∀ key ∈ importedKeys lookup defined scanned,
      ((lookup key).map fun value => (key, Binding.ofEnvironment value)).map Prod.fst =
        some key := by
    intro key imported
    obtain ⟨value, found⟩ := Option.isSome_iff_exists.mp (mem_importedKeys_iff.mp imported).2.2
    rw [found]
    rfl
  rw [importedEntries, List.map_filterMap, List.filterMap_congr all_set, List.filterMap_some]

theorem Linked.find?_of_mem_importedEntries
    (linked : Linked dictionary lookup scanned processed state)
    (all : ∀ key, (dictionary key).isSome ↔ key ∈ processed) {key : Text} {binding : Binding}
    (member : (key, binding) ∈ importedEntries lookup processed scanned) :
    state.bindings.find? key = some binding := by
  obtain ⟨imported_key, imported, same⟩ := List.mem_filterMap.mp member
  obtain ⟨value, found, same⟩ := Option.map_eq_some_iff.mp same
  obtain ⟨rfl, rfl⟩ := Prod.mk.inj same
  obtain ⟨listed, undefined, _⟩ := mem_importedKeys_iff.mp imported
  rw [← all, Option.not_isSome_iff_eq_none] at undefined
  rw [linked.find?_of_none _ undefined, if_pos listed, found]
  rfl

end Import

theorem Linked.counted_ofDefinition {dictionary : Dictionary} {lookup : Text → Option Text}
    {scanned : List (Text × Position)} {processed : List Text} {state : Resolution}
    (linked : Linked dictionary lookup scanned processed state) (definition : Definition) :
    (Binding.ofDefinition definition).counted (dictionary.isBound lookup) state.bindings =
      dictionary.linkedBinding lookup definition := by
  have count_eq : (definition.references.countP fun reference =>
      dictionary.isBound lookup reference.1) =
        definition.names.countP (dictionary.isBound lookup) := by
    rw [← definition.map_fst_references, List.countP_map]
    rfl
  have nonempty_iff : definition.references ≠ [] ↔ definition.names ≠ [] := by
    rw [← definition.map_fst_references, ne_eq, ne_eq, List.map_eq_nil_iff]
  rw [Binding.counted, Binding.references_ofDefinition, count_eq, Dictionary.linkedBinding,
    if_congr (and_congr_right fun _ => nonempty_iff) rfl rfl]
  by_cases erased : definition.names.countP (dictionary.isBound lookup) = 0 ∧
    definition.names ≠ []
  · have interpreted : definition.isVerbatim = false := by
      cases verbatim : definition.isVerbatim with
      | true => exact absurd (by simp [Definition.names, verbatim]) erased.2
      | false => rfl
    have text_eq := linked.text_splice_eq_empty (names_eq_of_interpreted interpreted ▸ erased.1)
    rw [if_pos erased, if_pos erased, ← text_eq]
    rfl
  · rw [if_neg erased, if_neg erased]
    rfl

section Source

variable (definitions : List Definition) (overwrite : Bool) (lookup : Text → Option Text)

theorem references_defineAll :
    (defineAll {} definitions overwrite).bindings.references =
      Dictionary.scan (.ofDefinitions definitions overwrite) (definedKeys definitions) := by
  rw [Bindings.references, entries_defineAll, winners, Dictionary.scan, List.flatMap_map]
  induction definedKeys definitions with
  | nil => rfl
  | cons key keys ih =>
      cases found : Dictionary.ofDefinitions definitions overwrite key with
      | none => rw [List.filterMap_cons_none found, ih, List.flatMap_cons, found]; rfl
      | some definition =>
          rw [List.filterMap_cons_some found, List.flatMap_cons, ih, List.flatMap_cons, found,
            Binding.references_ofDefinition]
          rfl

theorem hasTarget_defineAll :
    (defineAll {} definitions overwrite).bindings.hasTarget lookup =
      (Dictionary.ofDefinitions definitions overwrite).isBound lookup := by
  funext key
  rw [Bindings.hasTarget, OrderedMap.contains, find?_defineAll, Option.isSome_map,
    Dictionary.isBound]

theorem keys_link :
    ((defineAll {} definitions overwrite).link lookup).bindings.keys =
      definedKeys definitions ++ importedKeys lookup (definedKeys definitions)
        (Dictionary.scan (.ofDefinitions definitions overwrite) (definedKeys definitions)) := by
  have none_imported : (defineAll {} definitions overwrite).bindings.keys =
      definedKeys definitions ++ importedKeys lookup (definedKeys definitions) [] := by
    rw [keys_defineAll]
    exact (List.append_nil _).symm
  have folded := (linked_defineAll definitions overwrite lookup).foldl_linkKey_induction
    (fun _ _ _ _ _ linked found fresh keys_eq => linked.keys_linkKey found fresh keys_eq)
    (fun key => (Dictionary.isSome_ofDefinitions_iff definitions overwrite key).mpr)
    (nodup_definedKeys definitions) none_imported
  rwa [← keys_defineAll definitions overwrite] at folded ⊢

/-- What linking leaves, told by what was bound before.

The bindings of the source keep their places and have their references counted.  The keys of the
environment that they refer to follow, in the order of the first references to them.  Behind that,
erasing references that have no target leaves the other tokens of a value, shielded.  The references
that have a target are mentioned and the others reported; both go by the order of all references. -/
structure LinksTables (before : Bindings) (lookup : Text → Option Text) (after : Resolution) :
    Prop where
  entries_eq : after.bindings.entries =
    (before.entries.map fun entry =>
        (entry.1, entry.2.counted (before.hasTarget lookup) after.bindings)) ++
      importedEntries lookup before.keys before.references
  text_splice_eq : ∀ value, (∀ name ∈ names value, before.hasTarget lookup name = false) →
    (after.bindings.splice .keep value).text =
      (lex value).flatMap fun token => if token.reference?.isSome then [] else token.shield
  keys_mentions_eq : after.mentions.keys =
    ((before.references.map Prod.fst).filter (before.hasTarget lookup)).eraseDups
  find?_mentions_eq : ∀ key ∈ after.mentions.keys,
    after.mentions.find? key = before.references.lookup key
  diagnostics_eq : after.diagnostics =
    (before.references.filter fun reference => !before.hasTarget lookup reference.1).map
      fun reference => .ofProblem (.undefinedReference reference.1) reference.2
  unresolved_eq : after.unresolved =
    after.bindings.entries.countP fun entry => decide (0 < entry.2.pending)
  convergence_eq : after.convergence = { initial := after.unresolved }

theorem Linked.text_splice_of_unbound {dictionary : Dictionary}
    {scanned : List (Text × Position)} {processed : List Text} {state : Resolution}
    {lookup : Text → Option Text} (linked : Linked dictionary lookup scanned processed state)
    {value : Text} (unbound : ∀ name ∈ names value, dictionary.isBound lookup name = false) :
    (state.bindings.splice .keep value).text =
      (lex value).flatMap fun token => if token.reference?.isSome then [] else token.shield := by
  have none_bound : (names value).countP (dictionary.isBound lookup) = 0 :=
    List.countP_eq_zero.mpr fun name member => by simp [unbound name member]
  rw [linked.text_splice_eq_empty none_bound, Bindings.splice, Splice.text_join, List.flatMap_map]
  apply List.flatMap_congr
  intro token _
  cases named : token.reference? <;> simp [Bindings.spliceToken, named]

/-- The bindings behind linking: those of the source with their references counted, and behind them
those of the environment. -/
theorem Linked.entries_eq {state : Resolution}
    (linked : Linked (.ofDefinitions definitions overwrite) lookup
      (Dictionary.scan (.ofDefinitions definitions overwrite) (definedKeys definitions))
      (definedKeys definitions) state)
    (keys_eq : state.bindings.keys =
      definedKeys definitions ++ importedKeys lookup (definedKeys definitions)
        (Dictionary.scan (.ofDefinitions definitions overwrite) (definedKeys definitions))) :
    state.bindings.entries =
      ((defineAll {} definitions overwrite).bindings.entries.map fun entry =>
          (entry.1, entry.2.counted
            ((Dictionary.ofDefinitions definitions overwrite).isBound lookup) state.bindings)) ++
        importedEntries lookup (definedKeys definitions)
          (Dictionary.scan (.ofDefinitions definitions overwrite) (definedKeys definitions)) := by
  have all := Dictionary.isSome_ofDefinitions_iff definitions overwrite
  rw [← List.map_id (_ ++ _)]
  refine OrderedMap.entries_eq_map ?_ ?_
  · rw [keys_eq, List.map_append, List.map_map, map_fst_importedEntries, ← keys_defineAll]
    rfl
  · rintro ⟨key, binding⟩ member
    rcases List.mem_append.mp member with member | imported
    · rw [entries_defineAll, List.map_map, List.mem_map] at member
      obtain ⟨definition, wins, same⟩ := member
      obtain ⟨rfl, rfl⟩ := Prod.mk.inj same
      have found := mem_winners_iff.mp wins
      have bound := linked.find?_of_some definition.key definition found
      rw [if_pos ((all definition.key).mp (by simp [found]))] at bound
      exact bound.trans (congrArg some (linked.counted_ofDefinition definition).symm)
    · exact linked.find?_of_mem_importedEntries all imported

theorem Counted.unresolved_eq_countP {state : Resolution} (counted : Counted state) :
    state.unresolved = state.bindings.entries.countP fun entry => decide (0 < entry.2.pending) := by
  rw [counted.unresolved_eq, OrderedMap.keys, List.countP_map]
  apply List.countP_congr
  rintro ⟨key, binding⟩ member
  have found := (state.bindings.find?_eq_some_iff key binding).mpr member
  simp [Bindings.blocks, found, Binding.isComplete, Nat.pos_iff_ne_zero]

/-- Whatever is defined and whatever the environment holds, linking leaves these tables. -/
theorem linksTables_link :
    LinksTables (defineAll {} definitions overwrite).bindings lookup
      ((defineAll {} definitions overwrite).link lookup) := by
  obtain ⟨linked, spec, link_eq⟩ := exists_linked_link definitions overwrite lookup
  have keys_eq := keys_link definitions overwrite lookup
  have accounted := (reachable_link definitions overwrite lookup).accounted
  rw [link_eq] at keys_eq accounted ⊢
  have mentions_eq : linked.mentions = _ := spec.mentions_eq
  constructor
  · rw [hasTarget_defineAll, references_defineAll, keys_defineAll]
    exact spec.entries_eq definitions overwrite lookup keys_eq
  · rw [hasTarget_defineAll]
    exact fun value unbound => spec.text_splice_of_unbound unbound
  · rw [hasTarget_defineAll, references_defineAll]
    change linked.mentions.keys = _
    rw [mentions_eq, Mentions.keys_ofReferences, List.filter_map]
    rfl
  · intro key mentioned
    change key ∈ linked.mentions.keys at mentioned
    change linked.mentions.find? key = _
    rw [mentions_eq, Mentions.keys_ofReferences, List.mem_eraseDups, List.mem_map] at mentioned
    obtain ⟨reference, listed, rfl⟩ := mentioned
    have bound := (List.mem_filter.mp listed).2
    rw [mentions_eq, Mentions.find?_ofReferences, lookup_filter bound, references_defineAll]
  · rw [hasTarget_defineAll, references_defineAll]
    exact spec.diagnostics_eq
  · exact accounted.unresolved_eq_countP
  · rfl

end Source

end Resolution
end EnvFile
