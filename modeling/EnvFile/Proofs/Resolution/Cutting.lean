import EnvFile.Proofs.Resolution.Operations

/-!
# Cutting cycles

Cutting the cycles first reports the keys that wait and then forces them in order.  What a forced
key gets depends on those forced before it: a reference to one of them is replaced by what that key
got, while one to the key itself or to a key that is forced later is erased.  The state behind some
of the keys is described by one invariant (`Forced`), and what a key gets is told by the bindings at
the start and in the end alone (`contribution`, `cutsCycles_cutCycles`).
-/

namespace EnvFile

open Value

namespace Bindings

theorem meaning_erase {bindings : Bindings} {token : Token} {name : Text}
    (named : token.reference? = some name) :
    bindings.meaning .erase token =
      if bindings.blocks name = true then []
      else ((bindings.find? name).map Binding.meaning).getD [] := by
  cases found : bindings.find? name with
  | none => simp [meaning, named, blocks, found]
  | some target =>
      cases complete : target.isComplete <;> simp [meaning, named, blocks, found, complete]

/-- What a reference is replaced by when keys are forced one after another: by what its key means in
the end, if that did not wait at the start or was among the keys forced before, and otherwise by
nothing. -/
def contribution (before after : Bindings) (front : List Text) (name : Text) : Text :=
  if before.blocks name && !front.contains name then []
  else ((after.find? name).map Binding.meaning).getD []

end Bindings

namespace Resolution

/-- The state behind some keys that were forced: these are complete, and the others are bound as at
the start. -/
structure Forced (before : Resolution) (front : List Text) (state : Resolution) : Prop where
  accounted : Accounted state
  advances : Advances before state
  ready : ∀ name ∈ front, state.bindings.blocks name = false
  untouched : ∀ name ∉ front, state.bindings.find? name = before.bindings.find? name

namespace Forced

variable {before state : Resolution} {front : List Text}

theorem force (forced : Forced before front state) (key : Text) :
    Forced before (front ++ [key]) (state.force key) := by
  have rewrites := rewrites_force state key
  constructor
  · exact forced.accounted.rewrites rewrites
  · exact forced.advances.trans rewrites.advances
  · intro name member
    rcases List.mem_append.mp member with member | member
    · exact rewrites.extended.blocks_eq_false (forced.ready name member)
    · obtain rfl := List.mem_singleton.mp member
      exact forced.accounted.blocks_force name
  · intro name absent
    rw [List.mem_append, List.mem_singleton, not_or] at absent
    exact (rewrites.find?_of_ne absent.2).trans (forced.untouched name absent.1)

theorem foldl_force (accounted : Accounted before) (keys : List Text) :
    Forced before keys (keys.foldl Resolution.force before) := by
  induction keys using List.reverseRecOn with
  | nil => exact ⟨accounted, .refl before, by simp, fun _ _ => rfl⟩
  | append_singleton front key ih =>
      rw [List.foldl_append]
      exact ih.force key

theorem meaning_erase_eq (forced : Forced before front state) {token : Token} {name : Text}
    (named : token.reference? = some name) {after : Bindings}
    (extended : state.bindings.Extends after) :
    state.bindings.meaning .erase token = before.bindings.contribution after front name := by
  rw [Bindings.meaning_erase named, Bindings.contribution]
  by_cases skipped : (before.bindings.blocks name && !front.contains name) = true
  · obtain ⟨waited, absent⟩ : before.bindings.blocks name = true ∧ name ∉ front := by
      simpa using skipped
    have waits : state.bindings.blocks name = true := by
      rw [Bindings.blocks, forced.untouched name absent]
      exact waited
    rw [if_pos waits, if_pos skipped]
  · have ready : state.bindings.blocks name = false := by
      by_cases member : name ∈ front
      · exact forced.ready name member
      · apply forced.advances.extended.blocks_eq_false
        simpa [member] using skipped
    rw [if_neg (by simp [ready]), if_neg skipped, extended name ready]

/-- A key that waits until its turn takes its value with each reference replaced by what the key
forced before it, or complete before, has come to. -/
theorem exists_value (forced : Forced before front state) {key : Text} (fresh : key ∉ front)
    {old : Binding} (found : before.bindings.find? key = some old)
    (incomplete : old.isComplete = false) {after : Bindings}
    (extended : (state.force key).bindings.Extends after) :
    ∃ value, after.find? key = some { old with value, pending := 0 } ∧
      decode value = fill (before.bindings.contribution after front) old.value := by
  have found' : state.bindings.find? key = some old := (forced.untouched key fresh).trans found
  have waits : old.isWaiting = true := by
    rw [forced.accounted.isWaiting_iff found', Bindings.blocks, found']
    simp [incomplete]
  have forced_eq : (state.force key).bindings.find? key =
      some (old.replace (state.bindings.splice .erase old.value).text 0) := by
    simp [Resolution.force, found', waits, OrderedMap.find?_modify]
  refine ⟨(state.bindings.splice .erase old.value).text, ?_, ?_⟩
  · rw [extended key (forced.accounted.blocks_force key), forced_eq, Binding.replace,
      Nat.min_zero]
  · rw [Bindings.decode_text_splice, ← flatMap_fill_grains]
    apply List.flatMap_congr
    intro token _
    cases named : token.reference? with
    | none => rw [Bindings.meaning, named, Token.fill, named]
    | some name =>
        have later := (rewrites_force state key).extended.trans extended
        rw [forced.meaning_erase_eq named later, Token.fill, named]

end Forced

/-- Cutting the cycles of a state.  The keys that are mentioned and wait are reported, each once and
in the order of mention; then all waiting keys are completed in their order, and what was complete
before stays as it is.  A key that waited gets its value with each reference replaced by what that
contributes. -/
structure CutsCycles (before after : Resolution) : Prop where
  diagnostics_eq : after.diagnostics = before.diagnostics ++
    (before.mentions.entries.filter fun mention => before.bindings.blocks mention.1).map
      fun mention => .ofProblem (.circularReference mention.1) mention.2
  unresolved_eq : after.unresolved = 0
  isComplete : ∀ entry ∈ after.bindings.entries, entry.2.isComplete = true
  keys_eq : after.bindings.keys = before.bindings.keys
  mentions_eq : after.mentions = before.mentions
  find?_of_isComplete : ∀ key binding, before.bindings.find? key = some binding →
    binding.isComplete = true → after.bindings.find? key = some binding
  exists_value : ∀ front key back old, before.bindings.keys = front ++ key :: back →
    before.bindings.find? key = some old → old.isComplete = false →
      ∃ value, after.bindings.find? key = some { old with value, pending := 0 } ∧
        decode value = fill (before.bindings.contribution after.bindings front) old.value

theorem Accounted.cutsCycles {state : Resolution} (accounted : Accounted state) :
    CutsCycles state state.cutCycles := by
  let reported :=
    { state with
      diagnostics := state.diagnostics ++ state.circularities
      convergence := { state.convergence with stalls := state.convergence.stalls + 1 } }
  have reported_accounted : Accounted reported := accounted.of_eq rfl rfl
  have forced : Forced reported state.bindings.keys state.cutCycles :=
    Forced.foldl_force reported_accounted state.bindings.keys
  have none_left := accounted.unresolved_cutCycles
  constructor
  · exact forced.advances.diagnostics_eq
  · exact none_left
  · rintro ⟨key, binding⟩ member
    have found := (OrderedMap.find?_eq_some_iff _ key binding).mpr member
    exact forced.accounted.isComplete_of_unresolved_eq_zero none_left found
  · exact forced.advances.keys_eq
  · exact forced.advances.mentions_eq
  · intro key binding found complete
    have ready : state.bindings.blocks key = false := by simp [Bindings.blocks, found, complete]
    exact (forced.advances.extended key ready).trans found
  · intro front key back old split found incomplete
    have nodup := state.bindings.nodup_keys
    rw [split] at nodup
    have fresh : key ∉ front := fun member =>
      (List.nodup_append.mp nodup).2.2 key member key List.mem_cons_self rfl
    have cut_eq : state.cutCycles =
        back.foldl Resolution.force ((front.foldl Resolution.force reported).force key) := by
      change state.bindings.keys.foldl Resolution.force reported = _
      rw [split, List.foldl_append, List.foldl_cons]
    rw [cut_eq]
    exact (Forced.foldl_force reported_accounted front).exists_value fresh found incomplete
      (advances_foldl_force _ back).extended

theorem Accounted.iterate_round {state : Resolution} (accounted : Accounted state) (count : Nat) :
    Accounted (Resolution.round^[count] state) := by
  induction count with
  | zero => exact accounted
  | succ count ih =>
      rw [Function.iterate_succ_apply']
      exact ih.round

/-- The cycles of whatever was defined and linked are cut like this, at once or behind any number of
rounds. -/
theorem cutsCycles_cutCycles (definitions : List (Definition × Bool))
    (lookup : Text → Option Text) (count : Nat) :
    CutsCycles (Resolution.round^[count] ((defineEach definitions).link lookup))
      (Resolution.round^[count] ((defineEach definitions).link lookup)).cutCycles := by
  obtain ⟨reachable, none_counted, _⟩ := reachable_defineEach definitions
  have linked := Reachable.next reachable (.link lookup) none_counted
  exact (linked.accounted.iterate_round count).cutsCycles

/-- The definitions of `A=[$A$B]`, `B=<$A$D>` and `D=($B$C)`, in which `C` is set nowhere. -/
def tangle : List Definition :=
  [{ key := ['A'], value := "[$A$B]".toList, quote := none, position := ⟨0, 2⟩ },
    { key := ['B'], value := "<$A$D>".toList, quote := none, position := ⟨1, 2⟩ },
    { key := ['D'], value := "($B$C)".toList, quote := none, position := ⟨2, 2⟩ }]

-- each takes what stands above it and drops the rest
example :
    ((defineAll {} tangle false).link fun _ => none).cutCycles.values =
      [(['A'], "[]".toList), (['B'], "<[]>".toList), (['D'], "(<[]>)".toList)] := by
  decide +kernel

end Resolution
end EnvFile
