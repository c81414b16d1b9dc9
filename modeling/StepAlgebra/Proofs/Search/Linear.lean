import StepAlgebra.Proofs.Search.Shortest
import StepAlgebra.Proofs.Step.Linear
import StepAlgebra.Proofs.Value.Paths

/-!
# Linear input is finished

A search finds a shortest chain to a finished value, so that it is solved within some steps is
shown by one chain that long. A linear sum takes one step at most, wherever it stands, and an
equation has two sides.

* `Search.LeadsTo` — the values that are reached by so many steps;
* `Search.leadsTo_isSimplified` — a linear sum is simplified where it stands;
* `Search.run_linear` — what this says about searches.
-/

namespace StepAlgebra.Search

open Particle

variable {s : Search} {u v w : Value} {j k : ℕ}

/-! ## Values that are reached -/

/-- A chain of at most `k` steps leads from one value to the other. -/
def LeadsTo (s : Search) (v w : Value) (k : ℕ) : Prop :=
  ∃ spots steps, s.Chain v spots steps w ∧ steps.length ≤ k

theorem LeadsTo.refl (s : Search) (v : Value) (k : ℕ) : s.LeadsTo v v k :=
  ⟨[], [], .stop v, Nat.zero_le k⟩

theorem LeadsTo.trans (h : s.LeadsTo v w j) (h' : s.LeadsTo w u k) : s.LeadsTo v u (j + k) := by
  obtain ⟨spots, steps, chain, length⟩ := h
  obtain ⟨spots', steps', chain', length'⟩ := h'
  refine ⟨spots ++ spots', steps ++ steps', chain.append chain', ?_⟩
  rw [List.length_append]
  exact Nat.add_le_add length length'

/-- A rule that scores and succeeds at a part leads to the value with its result there. -/
theorem leadsTo_of_apply {rule : Rule} {path : Path} {part : Value} {step : Step}
    (hrule : rule ∈ s.roster) (hpart : (path, part) ∈ v.resources rule.level)
    (scores : s.threshold < rule.score part) (happly : rule.apply s.rounding part = .ok step)
    (hsplice : v.splice path step.result = .ok w) : s.LeadsTo v w 1 := by
  obtain ⟨i, hi⟩ := List.mem_iff_getElem?.mp hrule
  obtain ⟨j, hj⟩ := List.mem_iff_getElem?.mp hpart
  have takes : s.Takes v (toLex (i, j)) { step with result := w } :=
    ⟨rule, path, part, step, w, hi, hj, scores, happly, hsplice, rfl⟩
  exact ⟨_, _, .go takes (.stop w), Nat.le_refl 1⟩

/-- A search that can reach a finished value within some steps is solved within these. -/
theorem run_of_leadsTo (h : s.LeadsTo v w k) (rounds : k ≤ s.maxRounds)
    (finished : w.isFinished s.mode = true) :
    ∃ sol, s.run v = .solved sol ∧ sol.steps.length ≤ k := by
  obtain ⟨spots, steps, chain, length⟩ := h
  have finishes : s.Finishes v spots steps := ⟨w, chain, finished⟩
  obtain ⟨sol, hrun⟩ := run_isSolved_iff.mpr ⟨spots, steps, finishes, length.trans rounds⟩
  obtain ⟨-, -, first⟩ := run_eq_solved_iff.mp hrun
  exact ⟨sol, hrun, (first.shortest spots steps finishes).trans length⟩

/-! ## Linear sums -/

/-- One step at most simplifies a linear sum, whatever value it stands in. -/
theorem leadsTo_isSimplified {x : Char} {p : Particle} {path : Path} {f : Particle → Value}
    (h : IsLinearSum x p) (adds : Rule.combineLikeTerms ∈ s.roster) (low : s.threshold < 7)
    (hget : (f p).get? path = some (.particle p))
    (hsplice : ∀ q, (f p).splice path (.particle q) = .ok (f q)) :
    ∃ q, q.isSimplified = true ∧ s.LeadsTo (f p) (f q) 1 := by
  by_cases finished : p.isSimplified = true
  · exact ⟨p, finished, .refl s _ 1⟩
  · obtain ⟨level, score, step, q, happly, hresult, simplified⟩ :=
      Value.combineLikeTerms_of_isLinearSum h finished s.rounding
    have hpart : (path, .particle p) ∈ (f p).resources .expression :=
      Value.mem_resources_iff.mpr ⟨hget, level⟩
    refine ⟨q, simplified, leadsTo_of_apply adds hpart (low.trans_le score) happly ?_⟩
    rw [hresult]
    exact hsplice q

/-- Linear input is finished under every rounding policy: a linear sum is simplified with one step
at most, and an equation of two linear sums, each in a variable of its own, is solved with two. -/
theorem run_linear (policy : Rounding) :
    (∀ (x : Char) (p : Particle), IsLinearSum x p →
      ∃ sol, ({ mode := .simplify, rounding := policy } : Search).run (.particle p) = .solved sol ∧
        sol.steps.length ≤ 1) ∧
    ∀ (x y : Char) (p q : Particle), IsLinearSum x p → IsLinearSum y q →
      ∃ sol, ({ mode := .solve, rounding := policy } : Search).run (.equation p q) = .solved sol ∧
        sol.steps.length ≤ 2 := by
  have adds : Rule.combineLikeTerms ∈ Rule.roster := List.mem_cons_self
  have low : (3 : ℕ) < 7 := by decide
  constructor
  · intro x p h
    let s : Search := { mode := .simplify, rounding := policy }
    obtain ⟨q, simplified, leads⟩ := leadsTo_isSimplified (s := s) (f := .particle) h adds low
      (Value.get?_self _) fun _ => rfl
    have rounds : 1 ≤ 25 := by decide
    exact run_of_leadsTo leads rounds simplified
  · intro x y p q hp hq
    let s : Search := { mode := .solve, rounding := policy }
    obtain ⟨p', simplifiedP, leadsP⟩ := leadsTo_isSimplified (s := s) (f := (.equation · q))
      hp adds low (Value.get?_left p q) fun _ => rfl
    obtain ⟨q', simplifiedQ, leadsQ⟩ := leadsTo_isSimplified (s := s) (f := (.equation p'))
      hq adds low (Value.get?_right p' q) fun _ => rfl
    have rounds : 1 + 1 ≤ 25 := by decide
    refine run_of_leadsTo (leadsP.trans leadsQ) rounds ?_
    show (p'.same q' || (p'.isSimplified && q'.isSimplified)) = true
    rw [simplifiedP, simplifiedQ, Bool.and_self, Bool.or_true]

/-- Both sides of `2.5x+3-x=1-y-y` are linear sums. -/
theorem run_linear_of_two_variables :
    let number := fun (whole : Digit) (places : Option Digits) =>
      (Body.number ⟨[whole], places, none⟩).plain
    let x := (Body.symbol 'x').plain
    let y := (Body.symbol 'y').plain
    let p := (Body.expression [(Body.term [number 2 (some [5]), x]).plain, number 3 none,
      x.negate]).plain
    let q := (Body.expression [number 1 none, y.negate, y.negate]).plain
    (∃ sol, ({ mode := .simplify, rounding := .always } : Search).run (.particle p) =
        .solved sol ∧ sol.steps.length ≤ 1) ∧
      ∃ sol, ({ mode := .solve, rounding := .always } : Search).run (.equation p q) =
        .solved sol ∧ sol.steps.length ≤ 2 := by
  intro number x y p q
  have plain : ∀ (whole : Digit) (places : Option Digits), (places.getD []).length ≤ 4096 →
      Numeral.IsPlain ⟨[whole], places, none⟩ := fun _ _ few => ⟨rfl, few⟩
  have hp : IsLinearSum 'x' p := by
    refine .sum (by decide) fun r hr => ?_
    simp only [List.mem_cons, List.not_mem_nil, or_false] at hr
    rcases hr with rfl | rfl | rfl
    · exact .term (plain 2 _ (by decide))
    · exact .number (plain 3 _ (by decide))
    · exact .symbol
  have hq : IsLinearSum 'y' q := by
    refine .sum (by decide) fun r hr => ?_
    simp only [List.mem_cons, List.not_mem_nil, or_false] at hr
    rcases hr with rfl | rfl | rfl
    · exact .number (plain 1 _ (by decide))
    · exact .symbol
    · exact .symbol
  exact ⟨(run_linear .always).1 'x' p hp, (run_linear .always).2 'x' 'y' p q hp hq⟩

end StepAlgebra.Search
