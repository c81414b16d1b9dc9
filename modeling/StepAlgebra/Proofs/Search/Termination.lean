import StepAlgebra.Proofs.Search.Shortest
import StepAlgebra.Proofs.Step.Weight

/-!
# Searches end

Every step of the two rules makes the whole value lighter, so a chain has at most as many steps as
the input weighs. A search with more rounds than that is never stopped by the cap.

* `Search.Chain.weight_le` — a chain uses up weight with every step;
* `Search.weight_bounds_search` — what this says about steps, chains and searches together.
-/

namespace StepAlgebra

open Particle

variable {policy : Rounding} {deep : Bool} {v w : Value} {path : Path}

/-- A step of the roster makes the value lighter in which it is taken. -/
theorem Value.weight_lt_of_step {rule : Rule} {part : Value} {step : Step}
    (hrule : rule ∈ Rule.roster) (hpart : (path, part) ∈ v.resources rule.level)
    (hscore : 0 < rule.score part) (happly : rule.apply policy part = .ok step)
    (hsplice : v.splice path step.result = .ok w) : w.weight deep < v.weight deep := by
  refine Changed.weight_lt ?_
  exact changed_of_step Swap.weight_lt (fun rewritten => rewritten.weight_lt deep) hrule hpart
    hscore happly hsplice

namespace Search

variable {s : Search} {spot : Spot} {step : Step} {spots : List Spot} {steps : List Step}

theorem Takes.weight_lt (roster : s.roster = Rule.roster) (takes : s.Takes v spot step)
    (deep : Bool) :
    step.result.weight deep < v.weight deep := by
  obtain ⟨rule, path, part, raw, result, hrule, hpart, hscore, happly, hsplice, rfl⟩ := takes
  have hmem : rule ∈ Rule.roster := roster ▸ List.mem_of_getElem? hrule
  exact Value.weight_lt_of_step hmem (List.mem_of_getElem? hpart) (Nat.zero_lt_of_lt hscore) happly
    hsplice

/-- A chain uses up weight with every step. -/
theorem Chain.weight_le (roster : s.roster = Rule.roster) (chain : s.Chain v spots steps w)
    (deep : Bool) :
    steps.length + w.weight deep ≤ v.weight deep := by
  induction chain with
  | stop => rw [List.length_nil, Nat.zero_add]
  | go takes _ ih =>
      have lighter := takes.weight_lt roster deep
      rw [List.length_cons]
      omega

/-- No chain has more steps than its input weighs. -/
theorem noChain_of_weight_lt (roster : s.roster = Rule.roster) (deep : Bool) {k : ℕ}
    (h : v.weight deep < k) : s.NoChain v k := by
  intro spots steps w chain hlength
  have used := chain.weight_le roster deep
  omega

/-- The weight of a value falls with every step of the roster that succeeds, at whatever part and
under whatever policy. So it bounds the length of chains, a search with more rounds is not capped,
and one that is exhausted is so after at most one round more. -/
theorem weight_bounds_search (deep : Bool) :
    (∀ (policy : Rounding) (v w : Value) (rule : Rule) (path : Path) (part : Value) (step : Step),
      rule ∈ Rule.roster → (path, part) ∈ v.resources rule.level → 0 < rule.score part →
      rule.apply policy part = .ok step → v.splice path step.result = .ok w →
      w.weight deep < v.weight deep) ∧
    ∀ (s : Search) (v : Value), s.roster = Rule.roster →
      (∀ spots steps w, s.Chain v spots steps w →
        steps.length + w.weight deep ≤ v.weight deep) ∧
      (v.weight deep < s.maxRounds → ∀ r, s.run v ≠ .unsolved r .roundCap) ∧
      ∀ r, s.run v = .unsolved r .exhausted → r ≤ v.weight deep + 1 := by
  constructor
  · intro policy v w rule path part step
    exact Value.weight_lt_of_step
  · intro s v roster
    have none : s.NoChain v (v.weight deep + 1) :=
      noChain_of_weight_lt roster deep (Nat.lt_succ_self _)
    refine ⟨fun spots steps w chain => chain.weight_le roster deep, ?_, ?_⟩
    · -- at the cap there are chains of any length up to it
      intro rounds r hrun
      obtain ⟨-, -, chains⟩ := run_eq_roundCap_iff.mp hrun
      exact chains _ rounds none
    · intro r hrun
      obtain ⟨-, -, least⟩ := run_eq_exhausted_iff.mp hrun
      exact least.2 none

/-- The two sides of `xx=y` weigh one together, so two rounds are enough to look for a solution;
one step leads to `x²=y`. -/
theorem weight_bounds_search_of_square :
    let x := (Body.symbol 'x').plain
    let y := (Body.symbol 'y').plain
    let v := Value.equation (Body.term [x, x]).plain y
    let w := Value.equation (x.withExponent 2) y
    let s : Search := { mode := .solve, maxRounds := 2 }
    w.weight true < v.weight true ∧ (∀ r, s.run v ≠ .unsolved r .roundCap) ∧
      ∀ r, s.run v = .unsolved r .exhausted → r ≤ v.weight true + 1 := by
  intro x y v w s
  obtain ⟨step, run⟩ := weight_bounds_search true
  refine ⟨?_, (run s v rfl).2.1 (by decide), (run s v rfl).2.2⟩
  have part : ([0], .particle (Body.term [x, x]).plain) ∈ v.resources .term :=
    List.mem_cons_self
  exact step .decimals v w .multiply [0] _ _ (List.mem_cons_of_mem _ List.mem_cons_self) part
    (by decide) rfl rfl

end Search

end StepAlgebra
