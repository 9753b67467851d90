import EnvFile.Proofs.Dependency.Graph

/-!
# Recursive expansion

The expansion of a key is its value with each reference replaced by the expansion of the key that it
names, and with its escapes decoded.  Expanding to a depth is defined for every source; a key that
leads to no cycle has the same expansion at every depth beyond the number of definitions, and there
it satisfies the recursion (`isExpansion_expand`).
-/

namespace EnvFile
namespace Dictionary

/-- The value of a key with references expanded to a depth.  A key that is not defined has the value
that look-up finds, or else the empty one. -/
def expandWithin (dictionary : Dictionary) (lookup : Text → Option Text) : Nat → Text → Text
  | 0, _ => []
  | depth + 1, key =>
      match dictionary key with
      | none => (lookup key).getD []
      | some definition =>
          if definition.isVerbatim then definition.value
          else Value.fill (dictionary.expandWithin lookup depth) definition.value

/-- The recursion that an expansion satisfies at each key that leads to no cycle.  A verbatim value
is its own expansion; otherwise each known escape of the value is decoded and each reference
replaced by the expansion of its key. -/
def IsExpansion (dictionary : Dictionary) (lookup : Text → Option Text) (means : Text → Text) :
    Prop :=
  ∀ key, ¬ dictionary.LeadsToCycle key →
    means key =
      match dictionary key with
      | none => (lookup key).getD []
      | some definition =>
          if definition.isVerbatim then definition.value else Value.fill means definition.value

section Finite

variable {dictionary : Dictionary} {lookup : Text → Option Text} {keys : List Text}

theorem card_reached_pos (finite : ∀ key, (dictionary key).isSome → key ∈ keys) {key : Text}
    (defined : (dictionary key).isSome) : 0 < (dictionary.reached keys key).card := by
  apply Finset.card_pos.mpr
  exact ⟨key, by simp [reached, finite key defined, Relation.ReflTransGen.refl]⟩

/-- Away from cycles the depth does not matter once it exceeds the number of keys that are reached.
-/
theorem expandWithin_eq_expandWithin (finite : ∀ key, (dictionary key).isSome → key ∈ keys)
    {key : Text} (acyclic : ¬ dictionary.LeadsToCycle key) :
    ∀ depth other, (dictionary.reached keys key).card < depth →
      (dictionary.reached keys key).card < other →
      dictionary.expandWithin lookup depth key = dictionary.expandWithin lookup other key := by
  refine induction_of_not_leadsToCycle finite (motive := fun key => ∀ depth other,
    (dictionary.reached keys key).card < depth → (dictionary.reached keys key).card < other →
      dictionary.expandWithin lookup depth key = dictionary.expandWithin lookup other key)
    ?_ acyclic
  intro key acyclic ih depth other deep deep'
  obtain ⟨depth, rfl⟩ := Nat.exists_eq_add_one_of_ne_zero (Nat.ne_zero_of_lt deep)
  obtain ⟨other, rfl⟩ := Nat.exists_eq_add_one_of_ne_zero (Nat.ne_zero_of_lt deep')
  cases found : dictionary key with
  | none => simp [expandWithin, found]
  | some definition =>
      simp only [expandWithin, found]
      by_cases verbatim : definition.isVerbatim = true
      · simp [verbatim]
      · rw [if_neg verbatim, if_neg verbatim]
        apply Value.fill_congr
        intro name member
        cases target : dictionary name with
        | none =>
            have defined : (dictionary key).isSome := by simp [found]
            have positive := card_reached_pos finite defined
            obtain ⟨depth, rfl⟩ := Nat.exists_eq_add_one_of_ne_zero (n := depth) (by omega)
            obtain ⟨other, rfl⟩ := Nat.exists_eq_add_one_of_ne_zero (n := other) (by omega)
            simp [expandWithin, target]
        | some _ =>
            have refers : dictionary.Refers key name :=
              ⟨⟨definition, found, by simpa [Definition.names, verbatim] using member⟩,
                by simp [target]⟩
            have smaller := card_reached_lt finite acyclic refers
            exact ih name refers depth other (by omega) (by omega)

theorem isExpansion_expandWithin (finite : ∀ key, (dictionary key).isSome → key ∈ keys)
    {depth : Nat} (deep : keys.length < depth) :
    dictionary.IsExpansion lookup (dictionary.expandWithin lookup depth) := by
  intro key acyclic
  have bounded := card_reached_le dictionary keys key
  rw [expandWithin_eq_expandWithin finite acyclic depth (depth + 1) (by omega) (by omega)]
  rfl

end Finite

end Dictionary

/-- The expansion of a key by the definitions of a source. -/
def expand (definitions : List Definition) (overwrite : Bool) (lookup : Text → Option Text)
    (key : Text) : Text :=
  (Dictionary.ofDefinitions definitions overwrite).expandWithin lookup (definitions.length + 1) key

theorem mem_map_key_of_isSome (definitions : List Definition) (overwrite : Bool) (key : Text)
    (defined : (Dictionary.ofDefinitions definitions overwrite key).isSome) :
    key ∈ definitions.map Definition.key := by
  rw [Dictionary.isSome_ofDefinitions_iff, definedKeys, List.mem_eraseDups] at defined
  exact defined

theorem isExpansion_expand (definitions : List Definition) (overwrite : Bool)
    (lookup : Text → Option Text) :
    (Dictionary.ofDefinitions definitions overwrite).IsExpansion lookup
      (expand definitions overwrite lookup) :=
  Dictionary.isExpansion_expandWithin (mem_map_key_of_isSome definitions overwrite) (by simp)

end EnvFile
