import Mathlib.Order.Bounds.Basic
import StepAlgebra.Proofs.Search.Chain

/-!
# What a search finds

A search is compared here with the set of all chains of steps, which it never builds.

* `run_is_shortest_search` — the search is solved exactly when a chain of at most
  `maxRounds` steps ends in a finished value, and then by the first of the shortest such chains in
  the order of their spots; it is exhausted after the least number of steps that no chain has, and
  capped in every other case.
-/

namespace StepAlgebra.Search

/-- The steps are those of a chain that ends in a finished value. -/
def Finishes (s : Search) (v : Value) (spots : List Spot) (steps : List Step) : Prop :=
  ∃ w, s.Chain v spots steps w ∧ w.isFinished s.mode = true

/-- No chain from `v` has exactly `k` steps. -/
def NoChain (s : Search) (v : Value) (k : ℕ) : Prop :=
  ∀ spots steps w, s.Chain v spots steps w → steps.length ≠ k

/-- Some chain of at most `maxRounds` steps ends in a finished value. -/
def Solvable (s : Search) (v : Value) : Prop :=
  ∃ spots steps, s.Finishes v spots steps ∧ steps.length ≤ s.maxRounds

/-- The steps finish at spots that no other finishing chain of the same length comes before. -/
def IsFirst (s : Search) (v : Value) (steps : List Step) : Prop :=
  ∃ spots, s.Finishes v spots steps ∧
    ∀ spots' steps', s.Finishes v spots' steps' → steps'.length = steps.length → spots ≤ spots'

/-- The steps of the first of the shortest chains that end in a finished value. -/
structure IsFirstShortest (s : Search) (v : Value) (steps : List Step) : Prop where
  first : s.IsFirst v steps
  shortest : ∀ spots' steps', s.Finishes v spots' steps' → steps.length ≤ steps'.length
  unfinished : ∀ k < steps.length,
    (Solution.mk v (steps.take k)).current.isFinished s.mode = false

variable {s : Search} {v : Value} {sol : Solution} {k r : ℕ}

/-- Two chains that are first among those of their length are one. -/
theorem IsFirst.unique {steps steps' : List Step} (h : s.IsFirst v steps)
    (h' : s.IsFirst v steps') (hlength : steps.length = steps'.length) : steps = steps' := by
  obtain ⟨spots, finishes, least⟩ := h
  obtain ⟨spots', finishes', least'⟩ := h'
  obtain rfl : spots = spots' :=
    le_antisymm (least _ _ finishes' hlength.symm) (least' _ _ finishes hlength)
  obtain ⟨w, chain, -⟩ := finishes
  obtain ⟨w', chain', -⟩ := finishes'
  exact chain.unique chain'

theorem IsFirstShortest.unique {steps steps' : List Step} (h : s.IsFirstShortest v steps)
    (h' : s.IsFirstShortest v steps') : steps = steps' := by
  obtain ⟨spots, finishes, -⟩ := h.first
  obtain ⟨spots', finishes', -⟩ := h'.first
  exact h.first.unique h'.first
    (le_antisymm (h.shortest _ _ finishes') (h'.shortest _ _ finishes))

/-! ## One round -/

/-- The solutions of a frontier that are finished are the finishing chains of its length. -/
theorem mem_spottedFrontier_and_finished (sol : Solution) {spots : List Spot} :
    (spots, sol) ∈ s.spottedFrontier v k ∧ sol.current.isFinished s.mode = true ↔
      sol.input = v ∧ sol.steps.length = k ∧ s.Finishes v spots sol.steps := by
  obtain ⟨w, steps⟩ := sol
  rw [mem_spottedFrontier]
  constructor
  · rintro ⟨⟨rfl, hlength, u, chain⟩, finished⟩
    rw [chain.current] at finished
    exact ⟨rfl, hlength, u, chain, finished⟩
  · rintro ⟨rfl, hlength, u, chain, finished⟩
    refine ⟨⟨rfl, hlength, u, chain⟩, ?_⟩
    rwa [chain.current]

/-- The first finished solution of a frontier is the first finishing chain of its length. -/
theorem find?_frontier_eq_some
    (h : (s.frontier v k).find? (fun sol => sol.current.isFinished s.mode) = some sol) :
    sol.input = v ∧ sol.steps.length = k ∧ s.IsFirst v sol.steps := by
  rw [← spottedFrontier_snd, List.find?_map, Option.map_eq_some_iff] at h
  obtain ⟨⟨spots, sol⟩, hfind, rfl⟩ := h
  obtain ⟨finished, before, after, split, unfinished⟩ := List.find?_eq_some_iff_append.mp hfind
  have found : (spots, sol) ∈ s.spottedFrontier v k := List.mem_of_find?_eq_some hfind
  obtain ⟨hinput, hlength, finishes⟩ := (mem_spottedFrontier_and_finished _).mp ⟨found, finished⟩
  refine ⟨hinput, hlength, spots, finishes, ?_⟩
  intro spots' steps' finishes' hlength'
  obtain ⟨found', finished'⟩ := (mem_spottedFrontier_and_finished ⟨v, steps'⟩).mpr
    ⟨rfl, hlength'.trans hlength, finishes'⟩
  -- the other chain is not among those before the first finished one
  have sorted := spottedFrontier_sorted s v k
  rw [split] at found' sorted
  rcases List.mem_append.mp found' with earlier | later
  · have := unfinished _ earlier
    simp [finished'] at this
  · rcases List.mem_cons.mp later with same | later
    · rw [(Prod.mk.inj same).1]
    · have tail := (List.pairwise_append.mp sorted).2.1
      exact le_of_lt (List.rel_of_pairwise_cons tail later)

theorem find?_frontier_eq_none :
    (s.frontier v k).find? (fun sol => sol.current.isFinished s.mode) = none ↔
      ∀ spots steps, s.Finishes v spots steps → steps.length ≠ k := by
  rw [← spottedFrontier_snd, List.find?_map, Option.map_eq_none_iff, List.find?_eq_none]
  constructor
  · intro none spots steps finishes hlength
    obtain ⟨found, finished⟩ := (mem_spottedFrontier_and_finished ⟨v, steps⟩).mpr
      ⟨rfl, hlength, finishes⟩
    exact none _ found finished
  · rintro none ⟨spots, sol⟩ found finished
    obtain ⟨-, hlength, finishes⟩ := (mem_spottedFrontier_and_finished _).mp ⟨found, finished⟩
    exact none _ _ finishes hlength

/-- What a round can end the search with. -/
theorem conclude?_frontier_eq_some {finding : Finding}
    (h : s.conclude? (s.frontier v k) k = some finding) :
    (∃ sol, finding = .solved sol ∧ sol.input = v ∧ sol.steps.length = k ∧
        s.IsFirst v sol.steps) ∨
      (finding = .unsolved k .exhausted ∧ s.NoChain v k) := by
  unfold conclude? at h
  cases hfind : (s.frontier v k).find? fun sol => sol.current.isFinished s.mode with
  | some sol =>
      rw [hfind] at h
      exact .inl ⟨sol, (Option.some.inj h).symm, find?_frontier_eq_some hfind⟩
  | none =>
      rw [hfind] at h
      by_cases empty : (s.frontier v k).isEmpty = true
      · simp only [empty, if_true, Option.some.injEq] at h
        exact .inr ⟨h.symm, frontier_eq_nil_iff.mp (List.isEmpty_iff.mp empty)⟩
      · simp [empty] at h

/-- A round that does not end the search has no finished chain, but some chain. -/
theorem conclude?_frontier_eq_none (h : s.conclude? (s.frontier v k) k = none) :
    (∀ spots steps, s.Finishes v spots steps → steps.length ≠ k) ∧ ¬ s.NoChain v k := by
  unfold conclude? at h
  cases hfind : (s.frontier v k).find? fun sol => sol.current.isFinished s.mode with
  | some sol => simp [hfind] at h
  | none =>
      rw [hfind] at h
      refine ⟨find?_frontier_eq_none.mp hfind, ?_⟩
      intro none
      simp [List.isEmpty_iff.mpr (frontier_eq_nil_iff.mpr none)] at h

/-! ## All rounds -/

/-- The rounds end with the first one that concludes, or at the cap if none does. -/
theorem rounds_frontier (s : Search) (v : Value) (k left : ℕ) :
    (∃ j finding, k ≤ j ∧ j ≤ k + left ∧
        (∀ i, k ≤ i → i < j → s.conclude? (s.frontier v i) i = none) ∧
        s.conclude? (s.frontier v j) j = some finding ∧
        s.rounds (s.frontier v k) k left = finding) ∨
      ((∀ i, k ≤ i → i ≤ k + left → s.conclude? (s.frontier v i) i = none) ∧
        s.rounds (s.frontier v k) k left = .unsolved (k + left) .roundCap) := by
  induction left generalizing k with
  | zero =>
      cases concluded : s.conclude? (s.frontier v k) k with
      | some finding =>
          exact .inl ⟨k, finding, le_rfl, le_rfl, fun i hi hik => absurd hik (by omega),
            concluded, by rw [rounds, concluded]; rfl⟩
      | none =>
          refine .inr ⟨fun i hi hik => ?_, by rw [rounds, concluded]; rfl⟩
          obtain rfl : i = k := by omega
          exact concluded
  | succ left ih =>
      cases concluded : s.conclude? (s.frontier v k) k with
      | some finding =>
          exact .inl ⟨k, finding, le_rfl, by omega, fun i hi hik => absurd hik (by omega),
            concluded, by rw [rounds, concluded]⟩
      | none =>
          have next : s.rounds (s.frontier v k) k (left + 1) =
              s.rounds (s.frontier v (k + 1)) (k + 1) left := by
            rw [rounds, concluded]
            rfl
          have here : ∀ i, k ≤ i → (k + 1 ≤ i → s.conclude? (s.frontier v i) i = none) →
              s.conclude? (s.frontier v i) i = none := by
            intro i hi later
            rcases Nat.eq_or_lt_of_le hi with rfl | hlt
            · exact concluded
            · exact later hlt
          rw [next]
          rcases ih (k + 1) with ⟨j, finding, hkj, hj, before, found, hrounds⟩ | ⟨all, hrounds⟩
          · exact .inl ⟨j, finding, by omega, by omega,
              fun i hi hij => here i hi fun hi' => before i hi' hij, found, hrounds⟩
          · exact .inr ⟨fun i hi hij => here i hi fun hi' => all i hi' (by omega),
              by rw [hrounds]; congr 1; omega⟩

/-- Rounds without a conclusion have no finishing chain of their length. -/
theorem Finishes.length_le {spots : List Spot} {steps : List Step}
    (finishes : s.Finishes v spots steps) {j : ℕ}
    (before : ∀ i < j, s.conclude? (s.frontier v i) i = none) : j ≤ steps.length := by
  by_contra short
  exact (conclude?_frontier_eq_none (before steps.length (by omega))).1 spots steps finishes rfl

theorem unfinished_take {steps : List Step} {spots : List Spot} {w : Value}
    (chain : s.Chain v spots steps w)
    (shortest : ∀ spots' steps', s.Finishes v spots' steps' → steps.length ≤ steps'.length)
    {k : ℕ} (hk : k < steps.length) :
    (Solution.mk v (steps.take k)).current.isFinished s.mode = false := by
  obtain ⟨u, shorter⟩ := chain.take k
  by_contra finished
  rw [Bool.not_eq_false, shorter.current] at finished
  have := shortest _ _ ⟨u, shorter, finished⟩
  rw [List.length_take] at this
  omega

/-- The three ways in which a search ends, each with what it says about all chains. -/
theorem run_cases (s : Search) (v : Value) :
    (∃ sol, s.run v = .solved sol ∧ sol.input = v ∧ sol.steps.length ≤ s.maxRounds ∧
        s.IsFirstShortest v sol.steps) ∨
      (∃ r, s.run v = .unsolved r .exhausted ∧ ¬ s.Solvable v ∧ r ≤ s.maxRounds ∧
        IsLeast {k | s.NoChain v k} r) ∨
      (s.run v = .unsolved s.maxRounds .roundCap ∧ ¬ s.Solvable v ∧
        ∀ k ≤ s.maxRounds, ¬ s.NoChain v k) := by
  rcases rounds_frontier s v 0 s.maxRounds with
    ⟨j, finding, -, hj, before, concluded, hrun⟩ | ⟨all, hrun⟩
  · have before : ∀ i < j, s.conclude? (s.frontier v i) i = none :=
      fun i hi => before i (Nat.zero_le i) hi
    rcases conclude?_frontier_eq_some concluded with
      ⟨sol, rfl, hinput, hlength, first⟩ | ⟨rfl, none⟩
    · -- a shorter chain would have ended an earlier round
      have shortest : ∀ spots' steps', s.Finishes v spots' steps' →
          sol.steps.length ≤ steps'.length := by
        intro spots' steps' finishes
        rw [hlength]
        exact finishes.length_le before
      obtain ⟨spots, ⟨w, chain, -⟩, -⟩ := id first
      exact .inl ⟨sol, hrun, hinput, by omega, first, shortest,
        fun k hk => unfinished_take chain shortest hk⟩
    · refine .inr (.inl ⟨j, hrun, ?_, by omega, none, ?_⟩)
      · -- a finishing chain would have to be longer than the longest chain
        rintro ⟨spots, steps, finishes, -⟩
        have hlength := finishes.length_le before
        obtain ⟨w, chain, -⟩ := finishes
        obtain ⟨u, shorter⟩ := chain.take j
        refine none _ _ _ shorter ?_
        rw [List.length_take]
        omega
      · intro k hk
        by_contra short
        exact (conclude?_frontier_eq_none (before k (by omega))).2 hk
  · have all : ∀ i < s.maxRounds + 1, s.conclude? (s.frontier v i) i = none :=
      fun i hi => all i (Nat.zero_le i) (by omega)
    rw [Nat.zero_add] at hrun
    refine .inr (.inr ⟨hrun, ?_, ?_⟩)
    · rintro ⟨spots, steps, finishes, hlength⟩
      have := finishes.length_le all
      omega
    · intro k hk
      exact (conclude?_frontier_eq_none (all k (by omega))).2

theorem IsFirstShortest.solvable {steps : List Step} (h : s.IsFirstShortest v steps)
    (hlength : steps.length ≤ s.maxRounds) : s.Solvable v := by
  obtain ⟨spots, finishes, -⟩ := h.first
  exact ⟨spots, steps, finishes, hlength⟩

theorem run_eq_solved_iff :
    s.run v = .solved sol ↔
      sol.input = v ∧ sol.steps.length ≤ s.maxRounds ∧ s.IsFirstShortest v sol.steps := by
  constructor
  · intro hrun
    rcases run_cases s v with ⟨sol', hrun', h⟩ | ⟨r, hrun', -⟩ | ⟨hrun', -⟩
    · obtain rfl := Finding.solved.inj (hrun.symm.trans hrun')
      exact h
    · cases hrun.symm.trans hrun'
    · cases hrun.symm.trans hrun'
  · rintro ⟨hinput, hlength, first⟩
    rcases run_cases s v with ⟨sol', hrun, hinput', -, first'⟩ | ⟨r, -, unsolvable, -⟩ |
      ⟨-, unsolvable, -⟩
    · obtain ⟨w, steps⟩ := sol
      obtain ⟨w', steps'⟩ := sol'
      obtain rfl : steps = steps' := first.unique first'
      obtain rfl : w = w' := hinput.trans hinput'.symm
      exact hrun
    · exact absurd (first.solvable hlength) unsolvable
    · exact absurd (first.solvable hlength) unsolvable

theorem run_eq_exhausted_iff :
    s.run v = .unsolved r .exhausted ↔
      ¬ s.Solvable v ∧ r ≤ s.maxRounds ∧ IsLeast {k | s.NoChain v k} r := by
  constructor
  · intro hrun
    rcases run_cases s v with ⟨sol, hrun', -⟩ | ⟨r', hrun', h⟩ | ⟨hrun', -⟩
    · cases hrun.symm.trans hrun'
    · obtain ⟨rfl, -⟩ := Finding.unsolved.inj (hrun.symm.trans hrun')
      exact h
    · cases hrun.symm.trans hrun'
  · rintro ⟨unsolvable, hr, least⟩
    rcases run_cases s v with ⟨sol, -, -, hlength, first⟩ | ⟨r', hrun, -, -, least'⟩ |
      ⟨-, -, chains⟩
    · exact absurd (first.solvable hlength) unsolvable
    · rw [hrun, least.unique least']
    · exact absurd least.1 (chains r hr)

theorem run_eq_roundCap_iff :
    s.run v = .unsolved r .roundCap ↔
      ¬ s.Solvable v ∧ r = s.maxRounds ∧ ∀ k ≤ s.maxRounds, ¬ s.NoChain v k := by
  constructor
  · intro hrun
    rcases run_cases s v with ⟨sol, hrun', -⟩ | ⟨r', hrun', -⟩ | ⟨hrun', unsolvable, chains⟩
    · cases hrun.symm.trans hrun'
    · cases hrun.symm.trans hrun'
    · obtain ⟨rfl, -⟩ := Finding.unsolved.inj (hrun.symm.trans hrun')
      exact ⟨unsolvable, rfl, chains⟩
  · rintro ⟨unsolvable, rfl, chains⟩
    rcases run_cases s v with ⟨sol, -, -, hlength, first⟩ | ⟨r', -, -, hr', least⟩ | ⟨hrun, -⟩
    · exact absurd (first.solvable hlength) unsolvable
    · exact absurd least.1 (chains r' hr')
    · exact hrun

theorem run_isSolved_iff : (∃ sol, s.run v = .solved sol) ↔ s.Solvable v := by
  constructor
  · rintro ⟨sol, hrun⟩
    obtain ⟨-, hlength, first⟩ := run_eq_solved_iff.mp hrun
    exact first.solvable hlength
  · intro solvable
    rcases run_cases s v with ⟨sol, hrun, -⟩ | ⟨r, -, unsolvable, -⟩ | ⟨-, unsolvable, -⟩
    · exact ⟨sol, hrun⟩
    · exact absurd solvable unsolvable
    · exact absurd solvable unsolvable

/-- A search is a complete search for a shortest chain to a finished value: it is solved exactly
when there is one within the cap, by the first of the shortest; it is exhausted after the least
number of steps that no chain has, if that is within the cap; and it is capped otherwise. -/
theorem run_is_shortest_search (s : Search) (v : Value) :
    ((∃ sol, s.run v = .solved sol) ↔
        ∃ spots steps, s.Finishes v spots steps ∧ steps.length ≤ s.maxRounds) ∧
      (∀ sol, s.run v = .solved sol ↔
        sol.input = v ∧ sol.steps.length ≤ s.maxRounds ∧ s.IsFirstShortest v sol.steps) ∧
      (∀ r, s.run v = .unsolved r .exhausted ↔
        ¬ s.Solvable v ∧ r ≤ s.maxRounds ∧ IsLeast {k | s.NoChain v k} r) ∧
      (∀ r, s.run v = .unsolved r .roundCap ↔
        ¬ s.Solvable v ∧ r = s.maxRounds ∧ ∀ k ≤ s.maxRounds, ¬ s.NoChain v k) :=
  ⟨run_isSolved_iff, fun _ => run_eq_solved_iff, fun _ => run_eq_exhausted_iff,
    fun _ => run_eq_roundCap_iff⟩

end StepAlgebra.Search
