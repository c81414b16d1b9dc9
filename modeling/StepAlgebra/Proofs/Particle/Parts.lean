import StepAlgebra.Value.Path

/-!
# Parts of a particle

The tree under a particle, seen through the list of its immediate parts. Unlike `children` that
list holds the top and bottom of a mixed number, which no path leads to.

* `Particle.induct` — induction over the tree, with one case for all bodies;
* `Particle.Everywhere` — a property of a particle and of every part of it;
* `Particle.Swap` — two particles that differ in one child, and `replaceAt?_rel`, by which what a
  swap keeps is kept by a replacement at any path;
* `Particle.mem_nodes_iff` — the nodes are what the paths lead to.
-/

namespace StepAlgebra

/-- The particles that a body is made of. -/
def Body.parts : Body → List Particle
  | .number _ | .symbol _ => []
  | .fraction top bottom | .mixed _ top bottom => [top, bottom]
  | .term ps | .expression ps => ps
  | .root _ radicand => [radicand]

/-- The numeral that a body writes itself. -/
def Body.numeral? : Body → Option Numeral
  | .number n | .mixed n _ _ => some n
  | _ => none

namespace Particle

/-- Induction over the tree: a property that comes up from the parts holds everywhere. -/
@[elab_as_elim]
theorem induct {motive : Particle → Prop}
    (node : ∀ p, (∀ q ∈ p.body.parts, motive q) → motive p) (p : Particle) : motive p :=
  (@Body.rec (fun b => ∀ s e, motive ⟨s, b, e⟩) motive (fun ps => ∀ q ∈ ps, motive q)
    (fun _ s e => node ⟨s, .number _, e⟩ (by simp [Body.parts]))
    (fun _ _ top bottom s e => node ⟨s, .fraction _ _, e⟩ (by simp [Body.parts, top, bottom]))
    (fun _ _ _ top bottom s e => node ⟨s, .mixed _ _ _, e⟩ (by simp [Body.parts, top, bottom]))
    (fun _ s e => node ⟨s, .symbol _, e⟩ (by simp [Body.parts]))
    (fun _ row s e => node ⟨s, .term _, e⟩ row)
    (fun _ row s e => node ⟨s, .expression _, e⟩ row)
    (fun _ _ radicand s e => node ⟨s, .root _ _, e⟩ (by simp [Body.parts, radicand]))
    (fun s _ e body => body s e)
    (by simp)
    (fun _ _ head tail => by simpa using ⟨head, tail⟩)
    p.body : ∀ s e, motive ⟨s, p.body, e⟩) p.positive p.exponent

theorem mem_parts_of_mem_children {p q : Particle} (h : q ∈ p.children) : q ∈ p.body.parts := by
  obtain ⟨s, b, e⟩ := p
  cases b with
  | number | mixed | symbol => cases h
  | fraction | term | expression | root => exact h

theorem plainNumber?_eq_some {p : Particle} {s : Bool} {n : Numeral}
    (h : p.plainNumber? = some (s, n)) : p = ⟨s, .number n, 1⟩ := by
  obtain ⟨s', b, e⟩ := p
  cases b with
  | number m =>
      simp only [plainNumber?, Option.ite_none_right_eq_some, Option.some.injEq,
        Prod.mk.injEq] at h
      obtain ⟨rfl, rfl, rfl⟩ := h
      rfl
  | _ => simp [plainNumber?] at h

/-! ## Properties of every part -/

mutual

/-- A property holds of a particle and of every part of it. -/
def Everywhere (good : Particle → Prop) : Particle → Prop
  | ⟨s, b, e⟩ => good ⟨s, b, e⟩ ∧ EverywhereInBody good b

/-- A property holds of every part of a body. -/
def EverywhereInBody (good : Particle → Prop) : Body → Prop
  | .number _ | .symbol _ => True
  | .fraction top bottom | .mixed _ top bottom => Everywhere good top ∧ Everywhere good bottom
  | .term ps | .expression ps => EverywhereInRow good ps
  | .root _ radicand => Everywhere good radicand

/-- A property holds of the particles in a row and of every part of them. -/
def EverywhereInRow (good : Particle → Prop) : List Particle → Prop
  | [] => True
  | p :: ps => Everywhere good p ∧ EverywhereInRow good ps

end

variable {good : Particle → Prop}

theorem everywhereInRow_iff {ps : List Particle} :
    EverywhereInRow good ps ↔ ∀ p ∈ ps, p.Everywhere good := by
  induction ps with
  | nil => simp [EverywhereInRow]
  | cons p ps ih => simp [EverywhereInRow, ih]

theorem everywhere_iff {p : Particle} :
    p.Everywhere good ↔ good p ∧ ∀ q ∈ p.body.parts, q.Everywhere good := by
  obtain ⟨s, b, e⟩ := p
  cases b <;> simp [Everywhere, EverywhereInBody, Body.parts, everywhereInRow_iff]

theorem Everywhere.here {p : Particle} (h : p.Everywhere good) : good p :=
  (everywhere_iff.mp h).1

theorem Everywhere.part {p q : Particle} (h : p.Everywhere good) (hq : q ∈ p.body.parts) :
    q.Everywhere good :=
  (everywhere_iff.mp h).2 q hq

theorem Everywhere.imp {good' : Particle → Prop} (weaken : ∀ p, good p → good' p) {p : Particle}
    (h : p.Everywhere good) : p.Everywhere good' := by
  induction p using Particle.induct with
  | node p ih => exact everywhere_iff.mpr ⟨weaken p h.here, fun q hq => ih q hq (h.part hq)⟩

/-- Another sign and exponent matter to the outermost particle only. -/
theorem Everywhere.withHead {p : Particle} {s : Bool} {e : UInt32} (h : p.Everywhere good)
    (head : good ⟨s, p.body, e⟩) : Everywhere good ⟨s, p.body, e⟩ :=
  everywhere_iff.mpr ⟨head, fun _ hq => h.part hq⟩

/-! ## Replacing a child -/

/-- Two particles that differ in one child. -/
inductive Swap (old new : Particle) : Particle → Particle → Prop
  | top (s : Bool) (bottom : Particle) (e : UInt32) :
      Swap old new ⟨s, .fraction old bottom, e⟩ ⟨s, .fraction new bottom, e⟩
  | bottom (s : Bool) (top : Particle) (e : UInt32) :
      Swap old new ⟨s, .fraction top old, e⟩ ⟨s, .fraction top new, e⟩
  | factor (s : Bool) (before after : List Particle) (e : UInt32) :
      Swap old new ⟨s, .term (before ++ old :: after), e⟩ ⟨s, .term (before ++ new :: after), e⟩
  | term (s : Bool) (before after : List Particle) (e : UInt32) :
      Swap old new ⟨s, .expression (before ++ old :: after), e⟩
        ⟨s, .expression (before ++ new :: after), e⟩
  | radicand (s : Bool) (index : UInt32) (e : UInt32) :
      Swap old new ⟨s, .root index old, e⟩ ⟨s, .root index new, e⟩

private theorem exists_split_of_getElem? {ps : List Particle} {i : Nat} {old : Particle}
    (h : ps[i]? = some old) (new : Particle) :
    ∃ before after, ps = before ++ old :: after ∧ ps.set i new = before ++ new :: after := by
  obtain ⟨hi, rfl⟩ := List.getElem?_eq_some_iff.mp h
  refine ⟨ps.take i, ps.drop (i + 1), ?_, ?_⟩
  · rw [← List.drop_eq_getElem_cons hi, List.take_append_drop]
  · rw [List.set_eq_take_append_cons_drop, if_pos hi]

/-- Setting a child is a swap. -/
theorem swap_withChildren_set {p old : Particle} {i : Nat} (h : p.children[i]? = some old)
    (new : Particle) : Swap old new p (p.withChildren (p.children.set i new)) := by
  obtain ⟨s, b, e⟩ := p
  cases b with
  | number | mixed | symbol => simp [children] at h
  | fraction top bottom =>
      match i with
      | 0 =>
          obtain rfl : top = old := by simpa [children] using h
          exact .top s bottom e
      | 1 =>
          obtain rfl : bottom = old := by simpa [children] using h
          exact .bottom s top e
      | i + 2 => simp [children] at h
  | term factors =>
      obtain ⟨before, after, split, set⟩ := exists_split_of_getElem? h new
      simp only [children] at split set
      simp only [children, withChildren, set]
      rw [split]
      exact .factor s before after e
  | expression terms =>
      obtain ⟨before, after, split, set⟩ := exists_split_of_getElem? h new
      simp only [children] at split set
      simp only [children, withChildren, set]
      rw [split]
      exact .term s before after e
  | root index radicand =>
      match i with
      | 0 =>
          obtain rfl : radicand = old := by simpa [children] using h
          exact .radicand s index e
      | i + 1 => simp [children] at h

/-- What every swap keeps, a replacement at any path keeps. -/
theorem replaceAt?_rel {R : Particle → Particle → Prop}
    (congr : ∀ {old new p q}, Swap old new p q → R old new → R p q) {path : Path}
    {p q old new : Particle} (hget : p.get? path = some old)
    (hreplace : p.replaceAt? path new = some q) (h : R old new) : R p q := by
  -- by induction on the path: `congr` carries `R` from each child to the particle around it
  induction path generalizing p q with
  | nil =>
      obtain rfl : p = old := Option.some.inj hget
      obtain rfl : new = q := Option.some.inj hreplace
      exact h
  | cons i path ih =>
      simp only [get?, Option.bind_eq_some_iff] at hget
      obtain ⟨child, hchild, hget⟩ := hget
      simp only [replaceAt?, hchild, Option.bind_some, Option.map_eq_some_iff] at hreplace
      obtain ⟨child', hreplace, rfl⟩ := hreplace
      exact congr (swap_withChildren_set hchild child') (ih hget hreplace)

/-! ## Nodes and paths -/

theorem mem_under {α : Type} {i : Nat} {below : List (Path × α)} {path : Path} {part : α} :
    (path, part) ∈ Path.under i below ↔ ∃ rest, path = i :: rest ∧ (rest, part) ∈ below := by
  simp only [Path.under, List.mem_map, Prod.exists, Prod.mk.injEq]
  constructor
  · rintro ⟨rest, part, found, rfl, rfl⟩
    exact ⟨rest, rfl, found⟩
  · rintro ⟨rest, rfl, found⟩
    exact ⟨rest, part, found, rfl, rfl⟩

theorem mem_nodesOfRow {ps : List Particle} {k : Nat} {path : Path} {part : Particle} :
    (path, part) ∈ nodesOfRow k ps ↔
      ∃ i rest p, path = (k + i) :: rest ∧ ps[i]? = some p ∧ (rest, part) ∈ p.nodes := by
  induction ps generalizing k with
  | nil => simp [nodesOfRow]
  | cons q qs ih =>
      rw [nodesOfRow, List.mem_append, mem_under, ih]
      constructor
      · rintro (⟨rest, rfl, found⟩ | ⟨i, rest, p, rfl, hi, found⟩)
        · exact ⟨0, rest, q, rfl, rfl, found⟩
        · exact ⟨i + 1, rest, p, by rw [Nat.add_right_comm, Nat.add_assoc], hi, found⟩
      · rintro ⟨i, rest, p, rfl, hi, found⟩
        cases i with
        | zero =>
            obtain rfl : q = p := Option.some.inj hi
            exact .inl ⟨rest, rfl, found⟩
        | succ i => exact .inr ⟨i, rest, p, by rw [Nat.add_right_comm, Nat.add_assoc], hi, found⟩

/-- The nodes of a particle are itself and, child by child, the nodes of its children. -/
theorem nodes_eq (p : Particle) : p.nodes = ([], p) :: nodesOfRow 0 p.children := by
  obtain ⟨s, b, e⟩ := p
  cases b <;> simp [nodes, nodesOfBody, nodesOfRow, children]

theorem nil_notMem_nodesOfRow {ps : List Particle} {k : Nat} {part : Particle} :
    ([], part) ∉ nodesOfRow k ps := by
  simp [mem_nodesOfRow]

theorem cons_mem_nodesOfRow {ps : List Particle} {i : Nat} {path : Path} {part : Particle} :
    (i :: path, part) ∈ nodesOfRow 0 ps ↔ ∃ p, ps[i]? = some p ∧ (path, part) ∈ p.nodes := by
  rw [mem_nodesOfRow]
  constructor
  · rintro ⟨j, rest, p, hpath, hp, inside⟩
    obtain ⟨rfl, rfl⟩ := List.cons.inj hpath
    exact ⟨p, by rwa [Nat.zero_add], inside⟩
  · rintro ⟨p, hp, inside⟩
    exact ⟨i, path, p, by rw [Nat.zero_add], hp, inside⟩

/-- The nodes are what the paths lead to. -/
theorem mem_nodes_iff {p : Particle} {path : Path} {part : Particle} :
    (path, part) ∈ p.nodes ↔ p.get? path = some part := by
  induction path generalizing p with
  | nil =>
      rw [nodes_eq, List.mem_cons, or_iff_left nil_notMem_nodesOfRow, get?]
      simp [eq_comm]
  | cons i path ih =>
      rw [nodes_eq, List.mem_cons, or_iff_right (by simp), cons_mem_nodesOfRow, get?,
        Option.bind_eq_some_iff]
      simp only [ih]

end Particle

end StepAlgebra
