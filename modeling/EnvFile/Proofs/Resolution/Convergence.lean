import EnvFile.Proofs.Resolution.Operations

/-!
# How settling converges

After each round settling notes how many keys still wait.  These numbers fall from round to round
until none is left, or until a round completes no key: then the cycles are cut, and no key waits
behind that (`Descent`).  So there are at most as many rounds as keys that wait at the start, and
what is noted tells whether cycles were cut (`converges_settle`).
-/

namespace EnvFile
namespace Resolution

/-- How the number of waiting keys falls: the number after each round, and how many rounds completed
no key. -/
inductive Descent : Nat → List Nat → Nat → Prop
  /-- No key waits. -/
  | done : Descent 0 [] 0
  /-- A round completes keys. -/
  | round {count later stalls : Nat} {rounds : List Nat} (lower : later < count)
      (rest : Descent later rounds stalls) : Descent count (later :: rounds) stalls
  /-- A round completes no key, and no key waits once the cycles are cut. -/
  | stall {count : Nat} (some_left : 0 < count) : Descent count [count] 1

namespace Descent

variable {count stalls : Nat} {rounds : List Nat}

theorem eq_of_zero (descent : Descent 0 rounds stalls) : rounds = [] ∧ stalls = 0 := by
  cases descent with
  | done => exact ⟨rfl, rfl⟩
  | round lower => exact absurd lower (Nat.not_lt_zero _)
  | stall some_left => exact absurd some_left (Nat.lt_irrefl 0)

theorem length_le (descent : Descent count rounds stalls) : rounds.length ≤ count := by
  induction descent with
  | done => exact Nat.le_refl 0
  | round lower _ ih => exact Nat.le_trans (Nat.succ_le_succ ih) lower
  | stall some_left => exact some_left

theorem stalls_le (descent : Descent count rounds stalls) : stalls ≤ 1 := by
  induction descent with
  | done => exact Nat.zero_le 1
  | round _ _ ih => exact ih
  | stall _ => exact Nat.le_refl 1

private theorem singleton_ne (count : Nat) (front back : List Nat) (here next : Nat) :
    [count] ≠ front ++ here :: next :: back := by
  intro split
  have lengths := congrArg List.length split
  simp only [List.length_append, List.length_cons, List.length_nil] at lengths
  omega

theorem lt_or_last (descent : Descent count rounds stalls) {front back : List Nat}
    {here next : Nat} (split : count :: rounds = front ++ here :: next :: back) :
    next < here ∨ next = here ∧ back = [] := by
  induction descent generalizing front with
  | done => exact absurd split (singleton_ne _ _ _ _ _)
  | round lower _ ih =>
      cases front with
      | nil =>
          obtain ⟨rfl, rfl, rfl⟩ : _ = here ∧ _ = next ∧ _ = back := by simpa using split
          exact .inl lower
      | cons _ front => exact ih (List.cons.inj split).2
  | stall _ =>
      cases front with
      | nil =>
          obtain ⟨rfl, rfl, rfl⟩ : _ = here ∧ _ = next ∧ [] = back := by simpa using split
          exact .inr ⟨rfl, rfl⟩
      | cons _ front => exact absurd (List.cons.inj split).2 (singleton_ne _ _ _ _ _)

/-- The last number is noted twice exactly if a round completed no key. -/
theorem repeats_iff (descent : Descent count rounds stalls) :
    (∃ front last, count :: rounds = front ++ [last, last]) ↔ stalls = 1 := by
  induction descent with
  | done =>
      refine iff_of_false ?_ Nat.zero_ne_one
      rintro ⟨front, last, split⟩
      exact singleton_ne _ _ _ _ _ split
  | round lower _ ih =>
      rw [← ih]
      constructor
      · rintro ⟨front, last, split⟩
        cases front with
        | nil =>
            obtain ⟨rfl, rfl, _⟩ : _ = last ∧ _ = last ∧ _ = [] := by simpa using split
            exact absurd lower (Nat.lt_irrefl _)
        | cons _ front => exact ⟨front, last, (List.cons.inj split).2⟩
      · rintro ⟨front, last, split⟩
        exact ⟨_ :: front, last, congrArg (List.cons _) split⟩
  | stall _ => exact iff_of_true ⟨[], _, rfl⟩ rfl

theorem getLast?_eq (descent : Descent count rounds stalls) (none_stalled : stalls = 0)
    (some_left : count ≠ 0) : rounds.getLast? = some 0 := by
  induction descent with
  | done => exact absurd rfl some_left
  | @round count later stalls rounds lower rest ih =>
      rw [List.getLast?_cons]
      by_cases none_left : later = 0
      · subst none_left
        rw [rest.eq_of_zero.1]
        rfl
      · rw [ih none_stalled none_left]
        rfl
  | stall _ => exact absurd none_stalled Nat.one_ne_zero

end Descent

theorem convergence_round (state : Resolution) :
    state.round.convergence =
      { state.convergence with
        rounds := state.convergence.rounds ++ [state.round.unresolved] } := by
  simp only [round, convergence_visitAll]

theorem convergence_cutCycles (state : Resolution) :
    state.cutCycles.convergence =
      { state.convergence with stalls := state.convergence.stalls + 1 } :=
  convergence_foldl_force _ _

/-- Settling notes how the number of waiting keys falls behind what was noted before. -/
theorem Settles.exists_descent {state last : Resolution} (settles : Settles state last) :
    ∃ rounds stalls, Descent state.unresolved rounds stalls ∧
      last.convergence =
        { initial := state.convergence.initial
          rounds := state.convergence.rounds ++ rounds
          stalls := state.convergence.stalls + stalls } := by
  induction settles with
  | done none_left => exact ⟨[], 0, none_left ▸ .done, by simp⟩
  | @round state last _ _ moved _ ih =>
      obtain ⟨rounds, stalls, descent, noted⟩ := ih
      have lower := Nat.lt_of_le_of_ne state.unresolved_round_le moved
      refine ⟨state.round.unresolved :: rounds, stalls, .round lower descent, ?_⟩
      rw [noted, convergence_round, List.append_assoc, List.singleton_append]
  | @stall state last some_left _ stalled cleared _ ih =>
      obtain ⟨rounds, stalls, descent, noted⟩ := ih
      -- nothing follows the cut
      rw [cleared] at descent
      obtain ⟨rfl, rfl⟩ := descent.eq_of_zero
      refine ⟨[state.unresolved], 1, .stall (Nat.pos_of_ne_zero some_left), ?_⟩
      rw [noted, convergence_cutCycles, convergence_round, stalled, List.append_nil]

section Link

variable (lookup : Text → Option Text) (state : Resolution)

theorem convergence_linkKey (key : Text) :
    (linkKey lookup state key).convergence = state.convergence := by
  rcases linkKey_cases lookup state key with same | ⟨binding, value, _, _, linked⟩
  · rw [same]
  · rw [linked]
    exact (counts_followAll lookup state _).2

theorem convergence_link :
    (state.link lookup).convergence =
      { state.convergence with initial := (state.link lookup).unresolved } := by
  have kept : (state.bindings.keys.foldl (linkKey lookup) state).convergence =
      state.convergence := by
    refine List.foldlRecOn
      (motive := fun reached : Resolution => reached.convergence = state.convergence)
      _ _ rfl fun reached kept key _ => ?_
    exact (convergence_linkKey lookup reached key).trans kept
  simp only [link, kept]

end Link

/-- Settling a linked state comes to an end with all keys complete, and what it notes on the way
tells how: the number of waiting keys at the start and after each round, which falls with every
round, except that it is the same again behind the last round if that completed no key, and how
often that happened. -/
structure Converges (start settled : Resolution) : Prop where
  settles : Settles start settled
  unresolved_eq : settled.unresolved = 0
  isComplete : ∀ entry ∈ settled.bindings.locals, entry.2.isComplete = true
  initial_eq : settled.convergence.initial = start.unresolved
  length_le : settled.convergence.rounds.length ≤ settled.convergence.initial
  lt_or_last : ∀ front here next back,
    settled.convergence.initial :: settled.convergence.rounds = front ++ here :: next :: back →
      next < here ∨ next = here ∧ back = []
  repeats_iff :
    (∃ front last,
      settled.convergence.initial :: settled.convergence.rounds = front ++ [last, last]) ↔
        settled.convergence.stalls = 1
  stalls_le : settled.convergence.stalls ≤ 1
  getLast?_eq : settled.convergence.stalls = 0 → settled.convergence.initial ≠ 0 →
    settled.convergence.rounds.getLast? = some 0

theorem Settles.unresolved_eq_zero {state last : Resolution} (settles : Settles state last) :
    last.unresolved = 0 := by
  induction settles with
  | done none_left => exact none_left
  | round _ _ _ _ ih => exact ih
  | stall _ _ _ _ _ ih => exact ih

/-- Whatever is defined, and whatever the environment holds: settling what was linked comes to an
end with all keys complete, after at most as many rounds as keys waited at the start. -/
theorem converges_settle (definitions : List (Definition × Bool))
    (lookup : Text → Option Text) :
    Converges ((defineEach definitions).link lookup)
      ((defineEach definitions).link lookup).settle := by
  obtain ⟨reachable, none_counted, fresh⟩ := reachable_defineEach definitions
  have linked := Reachable.next reachable (.link lookup) none_counted
  have accounted : Accounted ((defineEach definitions).link lookup) := linked.accounted
  have settles := accounted.settles
  obtain ⟨rounds, stalls, descent, noted⟩ := settles.exists_descent
  have none_left := settles.unresolved_eq_zero
  rw [convergence_link, fresh, List.nil_append, Nat.zero_add] at noted
  constructor
  · exact settles
  · exact none_left
  · rintro ⟨key, binding⟩ member
    have found := (OrderedMap.find?_eq_some_iff _ key binding).mpr (List.mem_of_mem_filter member)
    exact accounted.settle.isComplete_of_unresolved_eq_zero none_left found
  all_goals rw [noted]
  · exact descent.length_le
  · exact fun _ _ _ _ split => descent.lt_or_last split
  · exact descent.repeats_iff
  · exact descent.stalls_le
  · exact descent.getLast?_eq

/-- The definitions of `A=$B`, `B=$C`, `C=x` and `D=$D`. -/
def chainAndLoop : List Definition :=
  [{ key := ['A'], value := "$B".toList, quote := none, position := ⟨0, 2⟩ },
    { key := ['B'], value := "$C".toList, quote := none, position := ⟨1, 2⟩ },
    { key := ['C'], value := "x".toList, quote := none, position := ⟨2, 2⟩ },
    { key := ['D'], value := "$D".toList, quote := none, position := ⟨3, 2⟩ }]

-- the chain takes two rounds, and a third one shows that the loop is stuck
example :
    ((defineAll {} chainAndLoop false).link fun _ => none).settle.convergence =
      { initial := 3, rounds := [2, 1, 1], stalls := 1 } := by
  decide +kernel

end Resolution
end EnvFile
