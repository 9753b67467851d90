import EnvFile.Proofs.Resolution.Stalling
import Mathlib.Algebra.Order.BigOperators.Group.List
import Mathlib.Algebra.Order.Group.Nat

/-!
# Names that go on

A name without a closing brace goes on with the text that is spliced in behind it.  If another
reference of the value still waits, the value is read again with the longer name in it.  A source in
which this is the name of a key that refers to the value is resolved wrongly
(`exists_spoils_of_joined`).
-/

namespace EnvFile
namespace Resolution

open Value

theorem exists_fresh (front : Text) (taken : List Text) :
    ∃ count, front ++ List.replicate count 'x' ∉ taken := by
  refine ⟨(taken.map List.length).sum + 1, fun member => ?_⟩
  have bounded := List.le_sum_of_mem (List.mem_map_of_mem (f := List.length) member)
  rw [List.length_append, List.length_replicate] at bounded
  omega

theorem exists_fresh_name (taken : List Text) : ∃ name, IsName name ∧ name ∉ taken := by
  obtain ⟨count, fresh⟩ := exists_fresh ['x'] taken
  refine ⟨_, ⟨'x', List.replicate count 'x', rfl, by decide, ?_⟩, fresh⟩
  intro c member
  rw [List.eq_of_mem_replicate member]
  decide

theorem isStable_nil : IsStable [] :=
  ⟨by simp [lex], by simp [lex, endsNames]⟩

theorem isBraced_of_grains {value : Text} (braced : ∀ token ∈ grains value, token.isBraced = true) :
    IsBraced value := by
  intro token member
  cases token with
  | bare name => exact braced _ ((mem_grains_iff (by simp)).mpr member)
  | unclosed name => exact braced _ ((mem_grains_iff (by simp)).mpr member)
  | _ => rfl

theorem isStable_braced {target : Text} (named : IsName target) :
    IsStable (Token.braced target).text := by
  apply IsBraced.isStable
  apply isBraced_of_grains
  simp [grains_braced named, Token.isBraced]

theorem fill_ne_nil {means : Text → Text} {value name : Text} (member : name ∈ names value)
    (meaningful : means name ≠ []) : fill means value ≠ [] := by
  obtain ⟨token, is_token, named⟩ := (mem_names_iff value name).mp member
  intro empty
  rw [fill, List.flatMap_eq_nil_iff] at empty
  have none_left := empty token is_token
  simp only [Token.fill, named] at none_left
  exact meaningful none_left

section Joined

variable {value tail key : Text} {front back : List Token} {own next token : Token}
  {name other : Text}

/-- The text of the reference behind a name goes on with the name when the value is spliced. -/
theorem carries_splice_of_joined {bindings : Bindings}
    (cut : grains value = front ++ own :: next :: back) (next_named : next.reference? = some name)
    (kept : own = .bare other ∨ ∃ open_name, own = .unclosed open_name)
    (waits : bindings.blocks other = true)
    (found : bindings.find? name = some (.ofEnvironment tail))
    (joined : own.text ++ tail = token.text ++ ['-']) (tail_plain : ∀ c ∈ tail, isPlain c = true)
    (token_named : token.reference? = some key) (fits : ∀ rest, token.Fits ('-' :: rest)) :
    Carries key (bindings.splice .keep value).text := by
  have own_stays : (bindings.spliceToken .keep own).text = own.text := by
    rcases kept with rfl | ⟨open_name, rfl⟩
    · rw [Bindings.spliceToken_keep rfl waits]
    · rw [Bindings.spliceToken_of_reference?_eq_none rfl]
      rfl
  have next_spliced : (bindings.spliceToken .keep next).text = tail := by
    have ready : bindings.blocks name = false := by
      simp [Bindings.blocks, found, Binding.isComplete, Binding.ofEnvironment]
    have protected_tail : protect tail = tail := by
      rw [protect]
      conv_rhs => rw [← List.flatMap_singleton' tail]
      exact List.flatMap_congr fun c member => by simp [tail_plain c member]
    rw [Bindings.spliceToken_of_blocks_eq_false next_named ready, Bindings.standIn, found]
    exact protected_tail
  have fitting : ∀ piece ∈ front, ∃ rest, piece.Fits rest := by
    intro piece member
    exact exists_fits_of_mem_grains value piece (by simp [cut, member])
  rw [Bindings.text_splice, cut, List.flatMap_append, List.flatMap_cons, List.flatMap_cons,
    own_stays, next_spliced, ← List.append_assoc own.text, joined, List.append_assoc]
  exact ⟨_, token, _, rfl, Bindings.isClosed_flatMap_spliceToken bindings .keep fitting,
    token_named, fits⟩

/-- A source that defines `holder` as a value in which the value of `key` is to come up.  The key
refers to the holder, and the value to a key that waits for another one. -/
def joinedSource (value key holder other last : Text) : List Definition :=
  [unquoted key (Token.braced holder).text, unquoted holder value,
    unquoted other (Token.braced last).text, unquoted last []]

/-- The keys of the source are distinct, and the value mentions none of them but the one that
waits. -/
structure JoinedKeys (value key holder other last : Text) : Prop where
  nodup : ((joinedSource value key holder other last).map Definition.key).Nodup
  fresh : ∀ own ∈ [key, holder, last], own ∉ names value
  mentioned : other ∈ names value
  holder_named : IsName holder
  last_named : IsName last

theorem exists_joinedKeys (member : other ∈ names value) (key_fresh : key ∉ names value) :
    ∃ holder last, JoinedKeys value key holder other last := by
  obtain ⟨holder, holder_named, holder_fresh⟩ := exists_fresh_name (key :: names value)
  obtain ⟨last, last_named, last_fresh⟩ := exists_fresh_name (holder :: key :: names value)
  simp only [List.mem_cons, not_or] at holder_fresh last_fresh
  refine ⟨holder, last, ?_, ?_, member, holder_named, last_named⟩
  · have key_other : key ≠ other := fun same => key_fresh (same ▸ member)
    have holder_other : holder ≠ other := fun same => holder_fresh.2 (same ▸ member)
    have other_last : other ≠ last := fun same => last_fresh.2.2 (same ▸ member)
    change [key, holder, other, last].Nodup
    simp [key_other, holder_other, other_last, Ne.symm holder_fresh.1, Ne.symm last_fresh.1,
      Ne.symm last_fresh.2.1]
  · simp [key_fresh, holder_fresh.2, last_fresh.2.2]

namespace JoinedKeys

variable {holder last : Text} (keys : JoinedKeys value key holder other last)

include keys

theorem differ : (key ≠ holder ∧ key ≠ other ∧ key ≠ last) ∧ (holder ≠ other ∧ holder ≠ last) ∧
    other ≠ last := by
  have distinct : [key, holder, other, last].Nodup := keys.nodup
  simpa using distinct

theorem notMem_keys (member : name ∈ names value) (differ : other ≠ name) :
    name ∉ (joinedSource value key holder other last).map Definition.key := by
  intro listed
  have either : name = other ∨ name ∈ [key, holder, last] := by
    simp only [joinedSource, unquoted, List.map_cons, List.map_nil, List.mem_cons,
      List.not_mem_nil, or_false] at listed ⊢
    tauto
  rcases either with rfl | own
  · exact differ rfl
  · exact keys.fresh name own member

theorem not_leadsToCycle (overwrite : Bool) (asked : Text) :
    ¬ (Dictionary.ofDefinitions (joinedSource value key holder other last)
      overwrite).LeadsToCycle asked := by
  have differ := keys.differ
  apply Dictionary.not_leadsToCycle_of_rank keys.nodup fun asked =>
    if key = asked then 0 else if holder = asked then 1 else if other = asked then 2 else 3
  intro definition listed asked mentioned defined
  simp only [joinedSource, List.mem_cons, List.not_mem_nil, or_false] at listed
  rcases listed with rfl | rfl | rfl | rfl
  · rw [names_unquoted, names_braced keys.holder_named, List.mem_singleton] at mentioned
    subst mentioned
    simp [unquoted, differ]
  · obtain rfl : other = asked := by
      by_contra unlike
      exact keys.notMem_keys mentioned unlike defined
    simp [unquoted, differ]
  · rw [names_unquoted, names_braced keys.last_named, List.mem_singleton] at mentioned
    subst mentioned
    simp [unquoted, differ]
  · rw [names_unquoted, names_nil] at mentioned
    exact absurd mentioned List.not_mem_nil

theorem isolated :
    ∃ front definition back,
      joinedSource value key holder other last = front ++ definition :: back ∧
      definition.value = value ∧ definition.isVerbatim = false ∧
      ∀ other ∈ front ++ back, IsStable other.value := by
  refine ⟨[_], unquoted holder value, [_, _], rfl, rfl, rfl, ?_⟩
  simp only [List.singleton_append, List.mem_cons, List.not_mem_nil, or_false]
  rintro listed (rfl | rfl | rfl)
  · exact isStable_braced keys.holder_named
  · exact isStable_braced keys.last_named
  · exact isStable_nil

/-- The holder means something if a key that the value mentions does. -/
theorem expand_ne_nil {lookup : Text → Option Text} (member : name ∈ names value)
    (differ : other ≠ name) (set_to : lookup name = some tail) (nonempty : tail ≠ [])
    (overwrite : Bool) :
    expand (joinedSource value key holder other last) overwrite lookup holder ≠ [] := by
  have listed : unquoted holder value ∈ joinedSource value key holder other last := by
    simp [joinedSource]
  have found := (Dictionary.ofDefinitions_eq_some_iff keys.nodup overwrite holder _).mpr
    ⟨listed, rfl⟩
  have none_found : Dictionary.ofDefinitions (joinedSource value key holder other last) overwrite
      name = none := by
    rw [← Option.not_isSome_iff_eq_none]
    exact fun defined =>
      keys.notMem_keys member differ (mem_map_key_of_isSome _ overwrite name defined)
  have expansion := isExpansion_expand (joinedSource value key holder other last) overwrite lookup
  have meaning := expansion holder (keys.not_leadsToCycle overwrite holder)
  have name_meaning := expansion name (keys.not_leadsToCycle overwrite name)
  rw [found] at meaning
  rw [none_found] at name_meaning
  rw [meaning]
  apply fill_ne_nil member
  rw [name_meaning]
  simpa [set_to] using nonempty

/-- The key and the holder come to wait for each other in the first round. -/
theorem stuck_round {lookup : Text → Option Text} {overwrite : Bool} {start final : Resolution}
    {scope : Text → Prop}
    (run : Run (joinedSource value key holder other last) overwrite lookup scope start final)
    (set_to : lookup name = some tail) (differ : other ≠ name)
    (cut : grains value = front ++ own :: next :: back) (next_named : next.reference? = some name)
    (kept : own = .bare other ∨ ∃ open_name, own = .unclosed open_name)
    (joined : own.text ++ tail = token.text ++ ['-']) (tail_plain : ∀ c ∈ tail, isPlain c = true)
    (token_named : token.reference? = some key) (fits : ∀ rest, token.Fits ('-' :: rest)) :
    Stuck key holder start.round.bindings := by
  have counted := run.counted
  have name_member : name ∈ names value := by
    have is_grain : next ∈ grains value := by simp [cut]
    exact mem_names_of_mem_grains is_grain next_named
  have name_key : name ≠ key := by
    rintro rfl
    exact keys.fresh name (by simp) name_member
  have undefined := keys.notMem_keys name_member differ
  have keys_eq : (joinedSource value key holder other last).map Definition.key =
      [key, holder, other, last] := rfl
  have key_listed : unquoted key (Token.braced holder).text ∈
      joinedSource value key holder other last := List.mem_cons_self
  have holder_listed : unquoted holder value ∈ joinedSource value key holder other last := by
    simp [joinedSource]
  have other_listed : unquoted other (Token.braced last).text ∈
      joinedSource value key holder other last := by
    simp [joinedSource]
  obtain ⟨key_binding, key_found, key_incomplete, key_value⟩ :=
    run.exists_waiting keys.nodup key_listed (mem_names_braced keys.holder_named)
      (by simp [keys_eq])
  obtain ⟨holder_binding, holder_found, holder_incomplete, holder_value⟩ :=
    run.exists_waiting keys.nodup holder_listed keys.mentioned (by simp [keys_eq])
  obtain ⟨other_binding, other_found, other_incomplete, _⟩ :=
    run.exists_waiting keys.nodup other_listed (mem_names_braced keys.last_named)
      (by simp [keys_eq])
  have name_found := run.find?_of_notMem keys.nodup holder_listed name_member undefined
  rw [set_to, Option.map_some] at name_found
  obtain ⟨externals, all_keys⟩ := run.keys
  rw [definedKeys_of_nodup keys.nodup, keys_eq, List.cons_append, List.cons_append] at all_keys
  obtain ⟨key_waits, round_eq⟩ :=
    counted.round_of_keys keys.holder_named all_keys.symm key_found key_incomplete key_value
      (blocks_of_find? holder_found holder_incomplete)
  -- the first key has been visited in vain, and nothing else has changed
  have holder_found' := (find?_visit_of_ne keys.differ.1.1.symm).trans holder_found
  have other_found' := (find?_visit_of_ne keys.differ.1.2.1.symm).trans other_found
  have name_found' := (find?_visit_of_ne name_key).trans name_found
  have other_waits := blocks_of_find? other_found' other_incomplete
  have counted' := counted.visit key
  have stuck : Stuck key holder ((start.visit key).visit holder).bindings := by
    apply Stuck.of_visit counted' keys.differ.1.1 key_waits holder_found' holder_incomplete
      (holder_value ▸ keys.mentioned) other_waits
    rw [holder_value]
    exact carries_splice_of_joined cut next_named kept other_waits name_found' joined tail_plain
      token_named fits
  rw [round_eq, visitAll_cons_of_blocks counted' other_waits]
  exact stuck.visitAll keys.holder_named (counted'.visit holder) _

end JoinedKeys

/-- A text that goes on with a name of the value spoils the value. -/
theorem exists_spoils_of_joined (cut : grains value = front ++ own :: next :: back)
    (next_named : next.reference? = some name) (member : other ∈ names value)
    (differ : other ≠ name)
    (kept : own = .bare other ∨ ∃ open_name, own = .unclosed open_name)
    (joined : own.text ++ tail = token.text ++ ['-']) (tail_plain : ∀ c ∈ tail, isPlain c = true)
    (tail_nonempty : tail ≠ [])
    (token_named : token.reference? = some key) (fits : ∀ rest, token.Fits ('-' :: rest))
    (key_fresh : key ∉ names value) : ∃ definitions lookup, Spoils value definitions lookup := by
  obtain ⟨holder, last, keys⟩ := exists_joinedKeys member key_fresh
  let lookup : Text → Option Text := fun asked => if asked = name then some tail else some ['-']
  have set_to : lookup name = some tail := if_pos rfl
  have name_member : name ∈ names value := by
    have is_grain : next ∈ grains value := by simp [cut]
    exact mem_names_of_mem_grains is_grain next_named
  have holder_member : holder ∈ (joinedSource value key holder other last).map Definition.key := by
    simp [joinedSource, unquoted]
  refine ⟨joinedSource value key holder other last, lookup, spoils_of_stuck keys.holder_named rfl
    keys.nodup keys.isolated keys.not_leadsToCycle holder_member ?_ ?_⟩
  · exact keys.expand_ne_nil name_member differ set_to tail_nonempty
  · intro overwrite start final run
    exact keys.stuck_round run set_to differ cut next_named kept joined tail_plain token_named fits

end Joined

end Resolution
end EnvFile
