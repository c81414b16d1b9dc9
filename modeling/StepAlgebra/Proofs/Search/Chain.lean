import Mathlib.Data.List.Lex
import Mathlib.Data.Prod.Lex
import StepAlgebra.Search.Solver

/-!
# Chains of steps

A chain is any sequence of steps in which each step picks a rule of the roster and a part of the
current value, scores there above the threshold, and succeeds. Chains know nothing of rounds or
frontiers. Each step of a chain has a *spot*, the place of its rule in the roster and the place of
its part among the parts of the rule's level, and chains are ordered by their spots.

* `mem_spottedFrontier` — after `k` rounds the frontier holds exactly the chains of `k` steps;
* `spottedFrontier_sorted` — it holds them in the order of their spots.
-/

namespace StepAlgebra

/-- The place of a rule in the roster, then that of a part among those of the rule's level. -/
abbrev Spot := ℕ ×ₗ ℕ

namespace Search

/-- `step` is what the rule and the part at a spot give in `v`, with the whole value as result. -/
def Takes (s : Search) (v : Value) (spot : Spot) (step : Step) : Prop :=
  ∃ rule path part raw result,
    s.roster[(ofLex spot).1]? = some rule ∧
    (v.resources rule.level)[(ofLex spot).2]? = some (path, part) ∧
    s.threshold < rule.score part ∧
    rule.apply s.rounding part = .ok raw ∧
    v.splice path raw.result = .ok result ∧
    step = { raw with result }

/-- `Chain s v spots steps w` — the steps, taken at these spots one after the other, lead from
`v` to `w`. -/
inductive Chain (s : Search) : Value → List Spot → List Step → Value → Prop
  | stop (v : Value) : Chain s v [] [] v
  | go {v w : Value} {spot : Spot} {step : Step} {spots : List Spot} {steps : List Step} :
      s.Takes v spot step → Chain s step.result spots steps w →
      Chain s v (spot :: spots) (step :: steps) w

/-- The frontier after `k` rounds, as far as no earlier round ends the search. -/
def frontier (s : Search) (v : Value) : ℕ → List Solution
  | 0 => [Solution.start v]
  | k + 1 => s.expand (s.frontier v k)

variable {s : Search} {v w : Value} {spot : Spot} {step : Step} {spots : List Spot}
  {steps : List Step}

/-! ## Chains from the end -/

theorem Chain.length_spots (chain : s.Chain v spots steps w) : spots.length = steps.length := by
  induction chain with
  | stop => rfl
  | go _ _ ih => rw [List.length_cons, List.length_cons, ih]

/-- The value at the end of a chain is the current value of the solution with these steps. -/
theorem Chain.current (chain : s.Chain v spots steps w) :
    (Solution.mk v steps).current = w := by
  induction chain with
  | stop => rfl
  | @go v w spot step spots steps _ _ ih =>
      rw [← ih]
      cases steps with
      | nil => rfl
      | cons next rest => simp [Solution.current, List.getLast?_cons]

theorem Chain.snoc (chain : s.Chain v spots steps w) (takes : s.Takes w spot step) :
    s.Chain v (spots ++ [spot]) (steps ++ [step]) step.result := by
  induction chain with
  | stop => exact .go takes (.stop _)
  | go first _ ih => exact .go first (ih takes)

theorem Chain.append {u : Value} {spots' : List Spot} {steps' : List Step}
    (chain : s.Chain v spots steps w) (next : s.Chain w spots' steps' u) :
    s.Chain v (spots ++ spots') (steps ++ steps') u := by
  induction chain with
  | stop => exact next
  | go first _ ih => exact .go first (ih next)

/-- A chain that is not empty is a shorter one with a last step. -/
theorem Chain.last (chain : s.Chain v spots steps w) (nonempty : steps ≠ []) :
    ∃ spots' spot steps' step u, spots = spots' ++ [spot] ∧ steps = steps' ++ [step] ∧
      s.Chain v spots' steps' u ∧ s.Takes u spot step ∧ w = step.result := by
  induction chain with
  | stop => exact absurd rfl nonempty
  | @go v w spot step spots steps takes rest ih =>
      cases rest with
      | stop => exact ⟨[], spot, [], step, v, rfl, rfl, .stop v, takes, rfl⟩
      | go takes' rest' =>
          obtain ⟨spots', last, steps', lastStep, u, hspots, hsteps, chain', takesLast, hw⟩ :=
            ih (List.cons_ne_nil _ _)
          exact ⟨spot :: spots', last, step :: steps', lastStep, u, by rw [hspots]; rfl,
            by rw [hsteps]; rfl, .go takes chain', takesLast, hw⟩

/-- What is left of a chain after its last steps is a chain. -/
theorem Chain.take (chain : s.Chain v spots steps w) (k : ℕ) :
    ∃ u, s.Chain v (spots.take k) (steps.take k) u := by
  induction chain generalizing k with
  | stop v => exact ⟨v, by simpa using Chain.stop v⟩
  | @go v _ _ _ _ _ takes _ ih =>
      cases k with
      | zero => exact ⟨v, .stop v⟩
      | succ k =>
          obtain ⟨u, chain⟩ := ih k
          exact ⟨u, .go takes chain⟩

/-- The spot decides the step. -/
theorem Takes.unique {step' : Step} (h : s.Takes v spot step) (h' : s.Takes v spot step') :
    step = step' := by
  obtain ⟨rule, path, part, raw, result, hrule, hpart, _, hraw, hresult, rfl⟩ := h
  obtain ⟨rule', path', part', raw', result', hrule', hpart', _, hraw', hresult', rfl⟩ := h'
  obtain rfl : rule = rule' := Option.some.inj (hrule.symm.trans hrule')
  obtain ⟨rfl, rfl⟩ : path = path' ∧ part = part' :=
    Prod.mk.inj (Option.some.inj (hpart.symm.trans hpart'))
  obtain rfl : raw = raw' := Except.ok.inj (hraw.symm.trans hraw')
  obtain rfl : result = result' := Except.ok.inj (hresult.symm.trans hresult')
  rfl

/-- The spots decide the steps. -/
theorem Chain.unique {steps' : List Step} {w' : Value} (chain : s.Chain v spots steps w)
    (chain' : s.Chain v spots steps' w') : steps = steps' := by
  induction chain generalizing steps' with
  | stop => cases chain'; rfl
  | go takes _ ih =>
      cases chain' with
      | go takes' rest' =>
          obtain rfl := takes.unique takes'
          rw [ih rest']

/-! ## Steps with their spots -/

theorem stepAt_eq_ok {rule : Rule} {path : Path} {part : Value} :
    s.stepAt rule v path part = .ok step ↔
      ∃ raw result, rule.apply s.rounding part = .ok raw ∧
        v.splice path raw.result = .ok result ∧ step = { raw with result } := by
  unfold stepAt
  cases hraw : rule.apply s.rounding part with
  | error failure => simp
  | ok raw =>
      cases hresult : v.splice path raw.result with
      | error failure => simp [hresult, Except.map]
      | ok result => simp [hresult, Except.map, eq_comm]

theorem step?_eq_some {rule : Rule} {path : Path} {part : Value} :
    s.step? rule v path part = some step ↔
      s.threshold < rule.score part ∧ s.stepAt rule v path part = .ok step := by
  unfold step?
  split
  · next scores =>
    cases s.stepAt rule v path part with
    | error failure => simp
    | ok taken => simp [scores]
  · next low => simp [low]

/-- Every step from a value with its spot, in the order of the spots. -/
def spottedSteps (s : Search) (v : Value) : List (Spot × Step) :=
  s.roster.zipIdx.flatMap fun (rule, i) =>
    (v.resources rule.level).zipIdx.filterMap fun ((path, part), j) =>
      (s.step? rule v path part).map fun step => (toLex (i, j), step)

theorem spottedSteps_snd (s : Search) (v : Value) :
    (s.spottedSteps v).map Prod.snd = s.steps v := by
  unfold spottedSteps steps
  rw [List.map_flatMap]
  conv_rhs => rw [← List.zipIdx_map_fst 0 s.roster, List.flatMap_map]
  congr 1
  funext ⟨rule, i⟩
  rw [List.map_filterMap]
  conv_rhs => rw [← List.zipIdx_map_fst 0 (v.resources rule.level), List.filterMap_map]
  congr 1
  funext ⟨⟨path, part⟩, j⟩
  simp [Function.comp_def]

theorem mem_spottedSteps : (spot, step) ∈ s.spottedSteps v ↔ s.Takes v spot step := by
  simp only [spottedSteps, List.mem_flatMap, List.mem_filterMap, Prod.exists,
    List.mem_zipIdx_iff_getElem?, Option.map_eq_some_iff, Prod.mk.injEq]
  constructor
  · rintro ⟨rule, i, hrule, path, part, j, hpart, step, hstep, rfl, rfl⟩
    obtain ⟨scores, taken⟩ := step?_eq_some.mp hstep
    obtain ⟨raw, result, hraw, hresult, rfl⟩ := stepAt_eq_ok.mp taken
    exact ⟨rule, path, part, raw, result, hrule, hpart, scores, hraw, hresult, rfl⟩
  · rintro ⟨rule, path, part, raw, result, hrule, hpart, scores, hraw, hresult, rfl⟩
    refine ⟨rule, (ofLex spot).1, hrule, path, part, (ofLex spot).2, hpart, _, ?_, rfl, rfl⟩
    exact step?_eq_some.mpr ⟨scores, stepAt_eq_ok.mpr ⟨raw, result, hraw, hresult, rfl⟩⟩

private theorem zipIdx_sorted {α : Type} (l : List α) :
    l.zipIdx.Pairwise fun a b => a.2 < b.2 := by
  rw [← List.pairwise_map (f := Prod.snd) (R := (· < ·)), List.zipIdx_map_snd]
  exact List.pairwise_lt_range' 1

theorem spottedSteps_sorted (s : Search) (v : Value) :
    (s.spottedSteps v).Pairwise fun a b => a.1 < b.1 := by
  unfold spottedSteps
  rw [List.pairwise_flatMap]
  constructor
  · rintro ⟨rule, i⟩ -
    rw [List.pairwise_filterMap]
    refine (zipIdx_sorted _).imp ?_
    rintro ⟨⟨path, part⟩, j⟩ ⟨⟨path', part'⟩, j'⟩ hj b hb b' hb'
    obtain ⟨_, -, rfl⟩ := Option.map_eq_some_iff.mp hb
    obtain ⟨_, -, rfl⟩ := Option.map_eq_some_iff.mp hb'
    exact Prod.Lex.toLex_lt_toLex.mpr (.inr ⟨rfl, hj⟩)
  · refine (zipIdx_sorted _).imp ?_
    rintro ⟨rule, i⟩ ⟨rule', i'⟩ hi b hb b' hb'
    obtain ⟨⟨⟨path, part⟩, j⟩, -, hb⟩ := List.mem_filterMap.mp hb
    obtain ⟨⟨⟨path', part'⟩, j'⟩, -, hb'⟩ := List.mem_filterMap.mp hb'
    obtain ⟨_, -, rfl⟩ := Option.map_eq_some_iff.mp hb
    obtain ⟨_, -, rfl⟩ := Option.map_eq_some_iff.mp hb'
    exact Prod.Lex.toLex_lt_toLex.mpr (.inl hi)

/-! ## Frontiers with their spots -/

/-- The frontier after `k` rounds, each solution with the spots of its steps. -/
def spottedFrontier (s : Search) (v : Value) : ℕ → List (List Spot × Solution)
  | 0 => [([], Solution.start v)]
  | k + 1 => (s.spottedFrontier v k).flatMap fun (spots, solution) =>
      (s.spottedSteps solution.current).map fun (spot, step) =>
        (spots ++ [spot], solution.push step)

theorem spottedFrontier_snd (s : Search) (v : Value) (k : ℕ) :
    (s.spottedFrontier v k).map Prod.snd = s.frontier v k := by
  induction k with
  | zero => rfl
  | succ k ih =>
      rw [spottedFrontier, frontier, ← ih, expand, List.map_flatMap, List.flatMap_map]
      congr 1
      funext ⟨spots, solution⟩
      rw [← spottedSteps_snd, List.map_map, List.map_map]
      rfl

/-- After `k` rounds the frontier holds the chains of `k` steps and nothing else. -/
theorem mem_spottedFrontier {k : ℕ} :
    (spots, ⟨w, steps⟩) ∈ s.spottedFrontier v k ↔
      w = v ∧ steps.length = k ∧ ∃ u, s.Chain v spots steps u := by
  -- a chain of `k + 1` steps is one of `k` steps and a last one, as a round adds it
  induction k generalizing spots steps with
  | zero =>
      simp only [spottedFrontier, Solution.start, List.mem_singleton, Prod.mk.injEq,
        Solution.mk.injEq, List.length_eq_zero_iff]
      constructor
      · rintro ⟨rfl, rfl, rfl⟩
        exact ⟨rfl, rfl, _, .stop _⟩
      · rintro ⟨rfl, rfl, u, chain⟩
        cases chain
        exact ⟨rfl, rfl, rfl⟩
  | succ k ih =>
      simp only [spottedFrontier, List.mem_flatMap, List.mem_map, Prod.exists, Prod.mk.injEq]
      constructor
      · rintro ⟨spots, ⟨w', steps⟩, found, spot, step, taken, rfl, hsolution⟩
        obtain ⟨rfl, rfl⟩ := Solution.mk.inj hsolution
        obtain ⟨rfl, hlength, u, chain⟩ := ih.mp found
        have takes := mem_spottedSteps.mp taken
        rw [chain.current] at takes
        exact ⟨rfl, by simp [hlength], _, chain.snoc takes⟩
      · rintro ⟨rfl, hlength, u, chain⟩
        obtain ⟨spots', spot, steps', step, u', rfl, rfl, chain', takes, rfl⟩ :=
          chain.last (List.ne_nil_of_length_eq_add_one hlength)
        refine ⟨spots', ⟨w, steps'⟩, ih.mpr ⟨rfl, by simpa using hlength, u', chain'⟩,
          spot, step, mem_spottedSteps.mpr ?_, rfl, rfl⟩
        rwa [chain'.current]

/-- Appending to a list that comes earlier, and is as long, gives one that comes earlier. -/
private theorem append_lt_append {a b : List Spot} (hlength : a.length = b.length) (h : a < b)
    (c d : List Spot) : a ++ c < b ++ d := by
  induction a generalizing b with
  | nil =>
      obtain rfl : b = [] := List.length_eq_zero_iff.mp hlength.symm
      exact absurd h (lt_irrefl _)
  | cons x xs ih =>
      cases b with
      | nil => simp at hlength
      | cons y ys =>
          rcases List.cons_lt_cons_iff.mp h with hxy | ⟨rfl, hrest⟩
          · exact List.cons_lt_cons_iff.mpr (.inl hxy)
          · exact List.cons_lt_cons_iff.mpr (.inr ⟨rfl, ih (by simpa using hlength) hrest⟩)

/-- The frontier holds its chains in the order of their spots. -/
theorem spottedFrontier_sorted (s : Search) (v : Value) (k : ℕ) :
    (s.spottedFrontier v k).Pairwise fun a b => a.1 < b.1 := by
  induction k with
  | zero => exact List.pairwise_singleton _ _
  | succ k ih =>
      rw [spottedFrontier, List.pairwise_flatMap]
      constructor
      · -- among the solutions that go on from one, the last spot decides
        rintro ⟨spots, solution⟩ -
        rw [List.pairwise_map]
        refine (spottedSteps_sorted s _).imp ?_
        rintro ⟨spot, step⟩ ⟨spot', step'⟩ hlt
        exact List.Lex.append_left _ (List.cons_lt_cons_iff.mpr (.inl hlt)) spots
      · -- of two that go on from different ones the order is known, both being as long
        refine ih.imp_of_mem ?_
        rintro ⟨spots, w, steps⟩ ⟨spots', w', steps'⟩ mem mem' hlt a ha b hb
        obtain ⟨_, -, rfl⟩ := List.mem_map.mp ha
        obtain ⟨_, -, rfl⟩ := List.mem_map.mp hb
        obtain ⟨-, hlength, _, chain⟩ := mem_spottedFrontier.mp mem
        obtain ⟨-, hlength', _, chain'⟩ := mem_spottedFrontier.mp mem'
        refine append_lt_append ?_ hlt _ _
        rw [chain.length_spots, chain'.length_spots, hlength, hlength']

/-- A frontier is empty exactly when no chain has that many steps. -/
theorem frontier_eq_nil_iff {k : ℕ} :
    s.frontier v k = [] ↔ ∀ spots steps w, s.Chain v spots steps w → steps.length ≠ k := by
  rw [← spottedFrontier_snd, List.map_eq_nil_iff, List.eq_nil_iff_forall_not_mem]
  constructor
  · intro none spots steps w chain hlength
    exact none _ (mem_spottedFrontier.mpr ⟨rfl, hlength, w, chain⟩)
  · rintro none ⟨spots, w, steps⟩ found
    obtain ⟨-, hlength, u, chain⟩ := mem_spottedFrontier.mp found
    exact none spots steps u chain hlength

end Search

end StepAlgebra
