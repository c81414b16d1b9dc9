import StepAlgebra.Proofs.Particle.Formed
import StepAlgebra.Proofs.Step.Rewriting

/-!
# Values around a new part

A new part leaves the particles around it as they were, with one exception: the term whose only
factor it takes the place of. That term is no longer readable if the new factor is bare.

* `Value.StandsAlone` — a path to the only factor of a term;
* `Value.isComplete_of_splice` — a complete value stays complete around a complete part;
* `Value.isReadable_splice_iff` — when a readable value stays readable.
-/

namespace StepAlgebra

namespace Particle

variable {p q old new child : Particle} {path : Path} {i : Nat}

/-! ## Inside a particle -/

theorem Swap.old_mem (h : Swap old new p q) : old ∈ p.body.parts := by
  cases h <;> simp [Body.parts]

/-- A property of a particle and its parts holds of what a path leads to. -/
theorem Everywhere.get? {good : Particle → Prop} (h : p.Everywhere good)
    (hget : p.get? path = some q) : q.Everywhere good := by
  induction path generalizing p with
  | nil => exact Option.some.inj hget ▸ h
  | cons i path ih =>
      simp only [Particle.get?, Option.bind_eq_some_iff] at hget
      obtain ⟨child, hchild, hget⟩ := hget
      exact ih (h.part (mem_parts_of_mem_children (List.mem_of_getElem? hchild))) hget

/-- Tells whether a path leads to the only factor of a term. -/
def StandsAlone (p : Particle) (path : Path) : Prop :=
  ∃ (outer : Path) (s : Bool) (factor : Particle) (e : UInt32),
    path = outer ++ [0] ∧ p.get? outer = some ⟨s, .term [factor], e⟩

theorem not_standsAlone_nil : ¬ p.StandsAlone [] := by
  rintro ⟨outer, -, -, -, hpath, -⟩
  cases outer <;> cases hpath

theorem standsAlone_child (hchild : p.children[i]? = some child) :
    p.StandsAlone [i] ↔ p.body = .term [child] := by
  constructor
  · rintro ⟨outer, s, factor, e, hpath, hget⟩
    cases outer with
    | nil =>
        obtain rfl := Option.some.inj hget
        obtain rfl : i = 0 := List.head_eq_of_cons_eq hpath
        obtain rfl : factor = child := Option.some.inj hchild
        rfl
    | cons j outer => cases outer <;> cases hpath
  · intro alone
    obtain ⟨s, b, e⟩ := p
    obtain rfl : b = .term [child] := alone
    have hi : i < [child].length := (List.getElem?_eq_some_iff.mp hchild).1
    obtain rfl : i = 0 := Nat.lt_one_iff.mp hi
    exact ⟨[], s, child, e, rfl, rfl⟩

theorem standsAlone_under (hchild : p.children[i]? = some child) {j : Nat} :
    p.StandsAlone (i :: j :: path) ↔ child.StandsAlone (j :: path) := by
  have inside : ∀ outer, p.get? (i :: outer) = child.get? outer := by
    intro outer
    rw [Particle.get?, hchild, Option.bind_some]
  constructor
  · rintro ⟨outer, s, factor, e, hpath, hget⟩
    cases outer with
    | nil => cases hpath
    | cons k outer =>
        obtain rfl := (List.cons.inj hpath).1
        exact ⟨outer, s, factor, e, (List.cons.inj hpath).2, (inside outer).symm.trans hget⟩
  · rintro ⟨outer, s, factor, e, hpath, hget⟩
    exact ⟨i :: outer, s, factor, e, congrArg (List.cons i) hpath, (inside outer).trans hget⟩

/-! ## One child -/

theorem Swap.isBare_iff (h : Swap old new p q) : q.IsBare ↔ p.IsBare := by
  cases h <;> exact Iff.rfl

/-- The parts that are not swapped stay as they were. -/
theorem Swap.forall_parts_iff {good : Particle → Prop} (h : Swap old new p q)
    (parts : ∀ r ∈ p.body.parts, good r) : (∀ r ∈ q.body.parts, good r) ↔ good new := by
  cases h with
  | top s bottom e | bottom s top e | radicand s index e =>
      simp only [Body.parts, List.forall_mem_cons] at parts ⊢
      tauto
  | factor s before after e | term s before after e =>
      simp only [Body.parts, List.forall_mem_append, List.forall_mem_cons] at parts ⊢
      tauto

/-- A complete particle stays so around another child that is complete. -/
theorem Swap.isComplete (h : Swap old new p q) (hnew : new.IsComplete) (hp : p.IsComplete) :
    q.IsComplete := by
  refine everywhere_iff.mpr ⟨?_, (h.forall_parts_iff fun _ hr => hp.part hr).mpr hnew⟩
  have node : p.IsCompleteNode := hp.here
  cases h with
  | top | bottom | radicand => exact node
  | factor | term =>
      simpa only [IsCompleteNode, List.length_append, List.length_cons] using node

/-- Of the nodes around a child only a term of that one factor depends on it. -/
theorem Swap.isReadableNode_iff (h : Swap old new p q) :
    q.IsReadableNode ↔ (p.body = .term [old] → ¬ new.IsBare) := by
  cases h with
  | top | bottom | radicand | term =>
      refine iff_of_true ⟨trivial, trivial⟩ fun lone => ?_
      cases lone
  | factor s before after e =>
      match before, after with
      | [], [] => exact ⟨fun node _ => node.1, fun apart => ⟨apart rfl, trivial⟩⟩
      | [], _ :: _ =>
          refine iff_of_true ⟨trivial, trivial⟩ fun lone => ?_
          cases lone
      | b :: before, after =>
          have several : 2 ≤ (b :: before ++ new :: after).length := by
            simp only [List.length_append, List.length_cons]
            omega
          refine iff_of_true ⟨isReducedNode_of_several several, trivial⟩ fun lone => ?_
          simp at lone

theorem IsReadable.not_isBare_of_lone (h : p.IsReadable) (lone : p.body = .term [child]) :
    ¬ child.IsBare := by
  obtain ⟨s, b, e⟩ := p
  obtain rfl : b = .term [child] := lone
  exact h.here.1

theorem Swap.isReadable_iff (h : Swap old new p q) (hp : p.IsReadable) :
    q.IsReadable ↔ new.IsReadable ∧ (p.body = .term [old] → ¬ new.IsBare) := by
  have parts : (∀ r ∈ q.body.parts, r.IsReadable) ↔ new.IsReadable :=
    h.forall_parts_iff fun _ hr => hp.part hr
  rw [Particle.isReadable_iff, h.isReadableNode_iff, parts, and_comm]

/-! ## Any path -/

/-- What is around a new part keeps its sign and exponent. -/
theorem isBare_replaceAt?_iff (hreplace : p.replaceAt? (i :: path) new = some q) :
    q.IsBare ↔ p.IsBare := by
  simp only [replaceAt?, Option.bind_eq_some_iff, Option.map_eq_some_iff] at hreplace
  obtain ⟨child, hchild, child', -, rfl⟩ := hreplace
  exact (swap_withChildren_set hchild child').isBare_iff

/-- A readable particle stays so around a readable part, unless that is a bare lone factor. -/
theorem isReadable_replaceAt?_iff (hreplace : p.replaceAt? path new = some q)
    (hp : p.IsReadable) :
    q.IsReadable ↔ new.IsReadable ∧ (p.StandsAlone path → ¬ new.IsBare) := by
  -- by induction on the path: the first child is the new part itself, or was as bare before
  induction path generalizing p q with
  | nil =>
      obtain rfl := Option.some.inj hreplace
      exact ⟨fun readable => ⟨readable, fun alone => absurd alone not_standsAlone_nil⟩, And.left⟩
  | cons i path ih =>
      simp only [replaceAt?, Option.bind_eq_some_iff, Option.map_eq_some_iff] at hreplace
      obtain ⟨child, hchild, child', hreplace, rfl⟩ := hreplace
      have swap := swap_withChildren_set hchild child'
      rw [swap.isReadable_iff hp]
      cases path with
      | nil =>
          obtain rfl := Option.some.inj hreplace
          rw [standsAlone_child hchild]
      | cons j path =>
          have apart : p.body = .term [child] → ¬ child'.IsBare := by
            rw [isBare_replaceAt?_iff hreplace]
            exact hp.not_isBare_of_lone
          rw [standsAlone_under hchild, ih hreplace (hp.part swap.old_mem)]
          exact and_iff_left apart

end Particle

/-! ## Whole values -/

namespace Value

open Particle

variable {v w : Value} {path : Path} {old new : Particle}

/-- Tells whether a path leads to the only factor of a term. -/
def StandsAlone (v : Value) (path : Path) : Prop :=
  ∃ (outer : Path) (s : Bool) (factor : Particle) (e : UInt32),
    path = outer ++ [0] ∧ v.get? outer = some (.particle ⟨s, .term [factor], e⟩)

/-- A bare particle; equations are not. -/
def IsBare : Value → Prop
  | .particle p => p.IsBare
  | .equation _ _ => False

theorem standsAlone_particle {p : Particle} :
    (Value.particle p).StandsAlone path ↔ p.StandsAlone path := by
  simp only [StandsAlone, Particle.StandsAlone, get?_particle, map_particle_eq_some]

theorem standsAlone_side {left right side : Particle} {i : Nat}
    (hside : [left, right][i]? = some side) :
    (Value.equation left right).StandsAlone (i :: path) ↔ side.StandsAlone path := by
  have inside : ∀ outer, (Value.equation left right).get? (i :: outer) =
      (side.get? outer).map .particle := by
    intro outer
    rw [get?, hside, Option.bind_some]
  constructor
  · rintro ⟨outer, s, factor, e, hpath, hget⟩
    cases outer with
    | nil => cases hget
    | cons k outer =>
        obtain rfl := (List.cons.inj hpath).1
        rw [inside, map_particle_eq_some] at hget
        exact ⟨outer, s, factor, e, (List.cons.inj hpath).2, hget⟩
  · rintro ⟨outer, s, factor, e, hpath, hget⟩
    refine ⟨i :: outer, s, factor, e, congrArg (List.cons i) hpath, ?_⟩
    rw [inside, map_particle_eq_some]
    exact hget

/-- Every part of a canonical value is canonical. -/
theorem isCanonical_of_get? (hold : v.get? path = some (.particle old))
    (hv : v.IsCanonical) : old.IsCanonical := by
  rcases get?_eq_some_particle hold with
    ⟨p, rfl, hget⟩ | ⟨left, right, rfl, ⟨rest, rfl, hget⟩ | ⟨rest, rfl, hget⟩⟩
  · exact Everywhere.get? hv hget
  · exact Everywhere.get? hv.1 hget
  · exact Everywhere.get? hv.2 hget

/-- A complete value stays complete around a complete part. -/
theorem isComplete_of_splice (hold : v.get? path = some (.particle old))
    (hsplice : v.splice path (.particle new) = .ok w) (hnew : new.IsComplete)
    (hv : v.IsComplete) : w.IsComplete := by
  have changed : Changed (fun p q => p.IsComplete → q.IsComplete) v w :=
    changed_of_splice (fun swap inside hp => swap.isComplete (inside (hp.part swap.old_mem)) hp)
      hold hsplice fun _ => hnew
  cases changed with
  | particle h => exact h hv
  | left right h => exact ⟨h hv.1, hv.2⟩
  | right left h => exact ⟨hv.1, h hv.2⟩

/-- A readable value stays readable around a readable part, unless that is a bare lone factor. -/
theorem isReadable_splice_iff (hold : v.get? path = some (.particle old))
    (hsplice : v.splice path (.particle new) = .ok w) (hv : v.IsReadable) :
    w.IsReadable ↔ new.IsReadable ∧ (v.StandsAlone path → ¬ new.IsBare) := by
  have hreplace := splice_eq_ok_iff.mp hsplice
  rcases get?_eq_some_particle hold with
    ⟨p, rfl, -⟩ | ⟨left, right, rfl, ⟨rest, rfl, -⟩ | ⟨rest, rfl, -⟩⟩
  · rw [replaceAt?_particle] at hreplace
    obtain ⟨q, hq, rfl⟩ := Option.map_eq_some_iff.mp hreplace
    rw [standsAlone_particle]
    exact isReadable_replaceAt?_iff hq hv
  · obtain ⟨q, hq, rfl⟩ := Option.map_eq_some_iff.mp hreplace
    rw [standsAlone_side rfl]
    exact (and_iff_left hv.2).trans (isReadable_replaceAt?_iff hq hv.1)
  · obtain ⟨q, hq, rfl⟩ := Option.map_eq_some_iff.mp hreplace
    rw [standsAlone_side rfl]
    exact (and_iff_right hv.1).trans (isReadable_replaceAt?_iff hq hv.2)

end Value

end StepAlgebra
