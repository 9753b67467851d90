import EnvFile.Proofs.Resolution.Outcome

/-!
# What a report shows

The report on a well-formed source shows the outcome of its resolution: the entries are the values
in order, the diagnostics are those of resolving, and a key is looked up among the values
(`Evaluator.exists_report`, `Report.get?_eq_some_of_mem`).
-/

namespace EnvFile

variable {ε : Type} [Environment ε]

theorem map_entries_publish (overwrite : Bool) (values : List (Text × Text)) (environment : ε) :
    (publish overwrite values environment).entries.map (fun entry => (entry.key, entry.value)) =
      values := by
  induction values generalizing environment with
  | nil => rfl
  | cons pair values ih =>
      obtain ⟨key, value⟩ := pair
      simp [publish, ih]

/-- A report shows the value that is published for a key. -/
theorem Report.get?_eq_some_of_mem {report : Report} {values : List (Text × Text)}
    (entries_eq : report.entries.map (fun entry => (entry.key, entry.value)) = values)
    (nodup : (values.map Prod.fst).Nodup) {key value : Text} (member : (key, value) ∈ values) :
    report.get? key = some value := by
  subst entries_eq
  rw [List.map_map] at nodup
  obtain ⟨entry, listed, same⟩ := List.mem_map.mp member
  obtain ⟨rfl, rfl⟩ := Prod.mk.inj same
  clear member same
  rw [get?]
  generalize report.entries = entries at nodup listed
  induction entries with
  | nil => simp at listed
  | cons first entries ih =>
      rw [List.map_cons, List.nodup_cons] at nodup
      rcases List.mem_cons.mp listed with rfl | listed
      · simp
      · have differ : first.key ≠ entry.key := by
          intro same
          exact nodup.1 (List.mem_map.mpr ⟨entry, listed, same.symm⟩)
        rw [List.find?_cons_of_neg (by simpa using differ)]
        exact ih nodup.2 listed

theorem exists_ok_of_map_toOption {α β ε : Type} {outcome : Except ε α} {f : α → β} {shown : β}
    (mapped : outcome.toOption.map f = some shown) :
    ∃ value, outcome = .ok value ∧ f value = shown := by
  cases outcome with
  | error failure => simp [Except.toOption] at mapped
  | ok value => exact ⟨value, rfl, by simpa [Except.toOption] using mapped⟩

/-- The report on a source shows what its definitions are resolved to. -/
theorem Evaluator.exists_report (evaluator : Evaluator) {source : Text}
    {definitions : List Definition} (scans : Source.definitions source = .ok definitions)
    (options : Options) (environment : ε) :
    ∃ report, (evaluator.evaluate source options environment).outcome = .ok report ∧
      report.entries.map (fun entry => (entry.key, entry.value)) =
        (Resolution.run {} definitions options (Environment.get? environment)).values ∧
      report.diagnostics =
        (Resolution.run {} definitions options (Environment.get? environment)).diagnostics ∧
      report.convergence =
        (Resolution.run {} definitions options (Environment.get? environment)).convergence := by
  rw [evaluate]
  simp only [scans, Resolution.reset_eq]
  exact ⟨_, rfl, map_entries_publish _ _ _, rfl, rfl⟩

end EnvFile
