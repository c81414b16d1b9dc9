import StepAlgebra.Proofs.Search.Shortest
import StepAlgebra.Proofs.Step.Meaning

/-!
# Solutions keep what the input means

Every value that a search comes to means what its input does, provided that no number is ever
rounded: the policy is `scientific` and no number is written with a power of ten, or the policy is
`decimals` and every number is whole. Both are kept by every step.

* `Search.Chain.keeps` — all steps of a chain keep the meaning;
* `Search.solutions_keep_meaning` — so do all solutions in all frontiers.
-/

namespace StepAlgebra

open Particle

namespace Value

variable {policy : Rounding} {a : Assignment} {u v w : Value}

/-- Every exponent of a value is at least one and every numeral in it fits the policy. -/
def IsExact (policy : Rounding) : Value → Prop
  | particle p => p.IsExact policy
  | equation left right => left.IsExact policy ∧ right.IsExact policy

/-- Two particles mean the same, or two equations do side by side. -/
def MeansSame (a : Assignment) : Value → Value → Prop
  | particle p, particle q => p.meaning a = q.meaning a
  | equation left right, equation left' right' =>
      left.meaning a = left'.meaning a ∧ right.meaning a = right'.meaning a
  | _, _ => False

theorem MeansSame.trans (h : MeansSame a u v) (h' : MeansSame a v w) : MeansSame a u w := by
  cases u <;> cases v <;> cases w <;> simp only [MeansSame] at h h' ⊢
  · exact Eq.trans h h'
  · exact ⟨h.1.trans h'.1, h.2.trans h'.2⟩

/-- What keeps the meaning of one particle keeps that of the value around it. -/
theorem Changed.keeps (h : Changed (Keeps policy a) v w) (hv : v.IsExact policy) :
    w.IsExact policy ∧ v.MeansSame a w := by
  cases h with
  | particle h => exact ⟨(h hv).exact, (h hv).meaning.symm⟩
  | left right h => exact ⟨⟨(h hv.1).exact, hv.2⟩, (h hv.1).meaning.symm, rfl⟩
  | right left h => exact ⟨⟨hv.1, (h hv.2).exact⟩, rfl, (h hv.2).meaning.symm⟩

end Value

namespace Search

variable {s : Search} {a : Assignment} {v w : Value} {spot : Spot} {step : Step}
  {spots : List Spot} {steps : List Step}

theorem Takes.keeps (takes : s.Takes v spot step) (roster : s.roster = Rule.roster)
    (exact : s.rounding.IsExact) (hv : v.IsExact s.rounding) :
    step.result.IsExact s.rounding ∧ v.MeansSame a step.result := by
  obtain ⟨rule, path, part, raw, result, hrule, hpart, hscore, happly, hsplice, rfl⟩ := takes
  have hmem : rule ∈ Rule.roster := roster ▸ List.mem_of_getElem? hrule
  refine Value.Changed.keeps ?_ hv
  exact Value.changed_of_step Swap.keeps (fun rewritten => rewritten.keeps exact) hmem
    (List.mem_of_getElem? hpart) (Nat.zero_lt_of_lt hscore) happly hsplice

/-- All steps of a chain from an exact value lead to exact values of the same meaning. -/
theorem Chain.keeps (chain : s.Chain v spots steps w) (roster : s.roster = Rule.roster)
    (exact : s.rounding.IsExact) (hv : v.IsExact s.rounding) :
    ∀ step ∈ steps, step.result.IsExact s.rounding ∧ v.MeansSame a step.result := by
  -- exactness has to be kept along with the meaning, for the next step to keep it
  induction chain with
  | stop =>
      intro step hstep
      cases hstep
  | go takes _ ih =>
      obtain ⟨hexact, hmeaning⟩ := takes.keeps (a := a) roster exact hv
      intro step hstep
      rcases List.mem_cons.mp hstep with rfl | later
      · exact ⟨hexact, hmeaning⟩
      · obtain ⟨hexact', hmeaning'⟩ := ih hexact step later
        exact ⟨hexact', hmeaning.trans hmeaning'⟩

/-- A search that never rounds keeps the meaning of its input through every step of every solution,
in each of its frontiers and in what it finds, for whatever the variables and roots stand for. -/
theorem solutions_keep_meaning (s : Search) (v : Value) (roster : s.roster = Rule.roster)
    (exact : s.rounding = .scientific ∨ s.rounding = .decimals) (hv : v.IsExact s.rounding)
    (a : Assignment) :
    (∀ k, ∀ sol ∈ s.frontier v k, ∀ step ∈ sol.steps, v.MeansSame a step.result) ∧
      ∀ sol, s.run v = .solved sol → ∀ step ∈ sol.steps, v.MeansSame a step.result := by
  constructor
  · intro k sol hsol step hstep
    rw [← spottedFrontier_snd] at hsol
    obtain ⟨⟨spots, input, steps⟩, hspotted, rfl⟩ := List.mem_map.mp hsol
    obtain ⟨rfl, -, w, chain⟩ := mem_spottedFrontier.mp hspotted
    exact (chain.keeps roster exact hv step hstep).2
  · intro sol hrun step hstep
    obtain ⟨-, -, first⟩ := run_eq_solved_iff.mp hrun
    obtain ⟨spots, ⟨w, chain, -⟩, -⟩ := first.first
    exact (chain.keeps roster exact hv step hstep).2

/-- The only step from `xx=2` leads to `x²=2`, which means the same on both sides. -/
theorem solutions_keep_meaning_of_square :
    let x := (Body.symbol 'x').plain
    let two := (Body.number (.ofNat 2)).plain
    let v := Value.equation (Body.term [x, x]).plain two
    let s : Search := { mode := .solve }
    ∃ sol ∈ s.frontier v 1, ∃ step ∈ sol.steps,
      step.result = .equation (x.withExponent 2) two ∧ ∀ a, v.MeansSame a step.result := by
  intro x two v s
  have one : (1 : UInt32) ≠ 0 := by decide
  have hx : x.IsExact s.rounding := isExact_iff.mpr ⟨one, by simp [x, Body.plain, Body.numeral?],
    by simp [x, Body.plain, Body.parts]⟩
  have hv : v.IsExact s.rounding :=
    ⟨isExact_term.mpr ⟨one, by simpa [RowIsExact] using hx⟩, isExact_number rfl⟩
  obtain ⟨sol, step, hfrontier, hsteps, hresult⟩ : ∃ sol step, s.frontier v 1 = [sol] ∧
      sol.steps = [step] ∧ step.result = .equation (x.withExponent 2) two :=
    ⟨_, _, rfl, rfl, rfl⟩
  have hsol : sol ∈ s.frontier v 1 := hfrontier ▸ List.mem_cons_self
  have hstep : step ∈ sol.steps := hsteps ▸ List.mem_cons_self
  refine ⟨sol, hsol, step, hstep, hresult, fun a => ?_⟩
  exact (solutions_keep_meaning s v rfl (.inr rfl) hv a).1 1 sol hsol step hstep

end Search

end StepAlgebra
