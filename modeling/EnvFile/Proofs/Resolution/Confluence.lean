import EnvFile.Proofs.Resolution.Result

/-!
# The order of definitions

Definitions of distinct keys make up the same dictionary in any order, and a result is said in terms
of the dictionary and of the defined keys up to their order.  So two runs over one list of
definitions in different orders agree, although they take different rounds and pass through
different texts.
-/

namespace EnvFile

section Permutation

variable {definitions others : List Definition}

theorem Dictionary.ofDefinitions_perm (perm : definitions.Perm others)
    (nodup : (definitions.map Definition.key).Nodup) (overwrite : Bool) :
    ofDefinitions definitions overwrite = ofDefinitions others overwrite := by
  have nodup' : (others.map Definition.key).Nodup := (perm.map Definition.key).nodup_iff.mp nodup
  funext key
  apply Option.ext
  intro definition
  rw [ofDefinitions_eq_some_iff nodup, ofDefinitions_eq_some_iff nodup', perm.mem_iff]

theorem expand_perm (perm : definitions.Perm others)
    (nodup : (definitions.map Definition.key).Nodup) (overwrite : Bool)
    (lookup : Text → Option Text) :
    expand definitions overwrite lookup = expand others overwrite lookup := by
  funext key
  rw [expand, expand, Dictionary.ofDefinitions_perm perm nodup, perm.length_eq]

theorem definedKeys_perm (perm : definitions.Perm others)
    (nodup : (definitions.map Definition.key).Nodup) :
    (definedKeys definitions).Perm (definedKeys others) := by
  have nodup' : (others.map Definition.key).Nodup := (perm.map Definition.key).nodup_iff.mp nodup
  rw [definedKeys_of_nodup nodup, definedKeys_of_nodup nodup']
  exact perm.map Definition.key

end Permutation

namespace Resolution

open Value

/-- Keys that were found to lead to a cycle. -/
def IsReportedCircular (state : Resolution) (key : Text) : Prop :=
  ∃ diagnostic ∈ state.diagnostics, diagnostic.code = .circularReference ∧
    diagnostic.key? = some key

/-- Two outcomes agree on all that the order of the definitions is not meant to decide.  The values
of keys that lead to a cycle and the places where these are reported are left out. -/
structure Agrees (dictionary : Dictionary) (first second : Resolution) : Prop where
  values : ∀ key, ¬ dictionary.LeadsToCycle key →
    (first.bindings.find? key).map (fun binding => (binding.origin, binding.value)) =
      (second.bindings.find? key).map fun binding => (binding.origin, binding.value)
  circular : ∀ key, first.IsReportedCircular key ↔ second.IsReportedCircular key
  undefined : first.undefinedReferences.Perm second.undefinedReferences
  initial : first.convergence.initial = second.convergence.initial
  stalls : first.convergence.stalls = second.convergence.stalls

theorem mem_map_fst_iff_exists_lookup (references : List (Text × Position)) (key : Text) :
    key ∈ references.map Prod.fst ↔ ∃ position, references.lookup key = some position := by
  constructor
  · intro member
    obtain ⟨reference, listed, rfl⟩ := List.mem_map.mp member
    cases place : references.lookup reference.1 with
    | some position => exact ⟨position, rfl⟩
    | none =>
        rw [List.lookup_eq_none_iff] at place
        simpa using place reference listed
  · rintro ⟨position, place⟩
    by_contra absent
    have missing : references.lookup key = none := by
      rw [List.lookup_eq_none_iff]
      intro reference listed
      simpa using fun same : key = reference.1 =>
        absent (same ▸ List.mem_map_of_mem (f := Prod.fst) listed)
    rw [missing] at place
    exact Option.some_ne_none position place.symm

namespace IsResult

variable {dictionary : Dictionary} {lookup : Text → Option Text} {means : Text → Text}
  {keys others : List Text} {first second : Resolution}

theorem isReportedCircular_iff (result : IsResult dictionary lookup means keys first) (key : Text) :
    first.IsReportedCircular key ↔
      dictionary.LeadsToCycle key ∧ key ∈ (dictionary.scan keys).map Prod.fst := by
  rw [mem_map_fst_iff_exists_lookup]
  constructor
  · rintro ⟨diagnostic, member, code, about⟩
    obtain ⟨other, position, leads, place, rfl⟩ :=
      (result.reportsCycles.mem_iff diagnostic).mp ⟨member, code⟩
    obtain rfl : other = key := Option.some.inj about
    exact ⟨leads, position, place⟩
  · rintro ⟨leads, position, place⟩
    obtain ⟨member, code⟩ :=
      (result.reportsCycles.mem_iff _).mpr ⟨key, position, leads, place, rfl⟩
    exact ⟨_, member, code, rfl⟩

/-- Two results of one dictionary agree, in whatever order the keys were gone through. -/
theorem agrees (result : IsResult dictionary lookup means keys first)
    (result' : IsResult dictionary lookup means others second) (perm : keys.Perm others) :
    Agrees dictionary first second := by
  have scan_perm : (dictionary.scan keys).Perm (dictionary.scan others) := perm.flatMap_right _
  have scanned_iff : ∀ key, key ∈ (dictionary.scan keys).map Prod.fst ↔
      key ∈ (dictionary.scan others).map Prod.fst :=
    fun key => (scan_perm.map Prod.fst).mem_iff
  constructor
  · intro key acyclic
    cases found : dictionary key with
    | some definition =>
        rw [result.find?_of_some key definition found acyclic,
          result'.find?_of_some key definition found acyclic]
    | none =>
        rw [result.find?_of_none key found, result'.find?_of_none key found]
        simp only [scanned_iff key]
  · intro key
    rw [result.isReportedCircular_iff, result'.isReportedCircular_iff, scanned_iff key]
  · rw [result.undefinedReferences_eq, result'.undefinedReferences_eq]
    exact (scan_perm.filter _).map _
  · rw [result.initial_eq, result'.initial_eq, perm.countP_eq]
  · by_cases cyclic : ∃ key, dictionary.LeadsToCycle key
    · rw [(result.reportsCycles.cyclic cyclic).1, (result'.reportsCycles.cyclic cyclic).1]
    · rw [not_exists] at cyclic
      rw [(result.reportsCycles.acyclic cyclic).1, (result'.reportsCycles.acyclic cyclic).1]

end IsResult

/-- Runs over definitions of distinct keys agree in whatever order these come, if all names in their
values stand in closed braces. -/
theorem agrees_run_of_perm {definitions others : List Definition} (perm : definitions.Perm others)
    (nodup : (definitions.map Definition.key).Nodup)
    (braced : ∀ definition ∈ definitions, definition.isVerbatim = false → IsBraced definition.value)
    (overwrite : Bool) (lookup : Text → Option Text) :
    Agrees (.ofDefinitions definitions overwrite)
      (run {} definitions { overwrite, interpolate := true } lookup)
      (run {} others { overwrite, interpolate := true } lookup) := by
  have stable : ∀ definition ∈ definitions, definition.isVerbatim = false →
      IsStable definition.value :=
    fun definition listed interpreted => (braced definition listed interpreted).isStable
  have stable' : ∀ definition ∈ others, definition.isVerbatim = false →
      IsStable definition.value :=
    fun definition listed => stable definition (perm.mem_iff.mpr listed)
  have result := isResult_run definitions overwrite lookup
    (dependsOnStable_of_forall_isStable stable overwrite)
  have result' := isResult_run others overwrite lookup
    (dependsOnStable_of_forall_isStable stable' overwrite)
  rw [← Dictionary.ofDefinitions_perm perm nodup, ← expand_perm perm nodup] at result'
  exact result.agrees result' (definedKeys_perm perm nodup)

/-- Definitions with a cycle, a key that leads to it, one that does not, and a key without a value.
-/
def tangledDefinitions : List Definition :=
  [{ key := ['A'], value := "${B}$".toList, quote := none, position := ⟨0, 2⟩ },
    { key := ['B'], value := "${A}${C}".toList, quote := none, position := ⟨1, 2⟩ },
    { key := ['C'], value := "${D}${E}\\$".toList, quote := some .double, position := ⟨2, 3⟩ },
    { key := ['D'], value := "$C$\x7b".toList, quote := some .single, position := ⟨3, 3⟩ }]

/-- Going backwards through definitions leads to the same. -/
theorem agrees_run_reverse_tangledDefinitions :
    Agrees (.ofDefinitions tangledDefinitions false)
      (run {} tangledDefinitions { overwrite := false, interpolate := true } fun _ => none)
      (run {} tangledDefinitions.reverse { overwrite := false, interpolate := true }
        fun _ => none) :=
  agrees_run_of_perm (List.reverse_perm tangledDefinitions).symm (by decide) (by decide +kernel)
    false fun _ => none

end Resolution
end EnvFile
