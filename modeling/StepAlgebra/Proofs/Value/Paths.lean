import StepAlgebra.Failure
import StepAlgebra.Proofs.Lens
import StepAlgebra.Proofs.Particle.Parts

/-!
# Paths lead to places

A path leads to a place: what stands there can be looked up and exchanged, and both agree on every
index at every depth. Children are places, since a particle is made anew from as many children as
it has, and so are the sides of an equation; a longer path leads to a place inside a place.

* `Particle.place`, `Value.place` — the place that a path leads to, with the laws of a lens;
* `Particle.place_apart` — paths that do not go through one another lead to places that are apart;
* `Value.mem_nodes_iff` — the nodes of a value are the parts that paths lead to;
* `Value.paths_obey_lens_laws` — looking up and splicing at the end of any path.
-/

namespace StepAlgebra

/-- Neither path leads through what the other leads to. -/
def Path.Apart (path other : Path) : Prop :=
  ¬ path <+: other ∧ ¬ other <+: path

instance (path other : Path) : Decidable (path.Apart other) :=
  inferInstanceAs (Decidable (¬ path <+: other ∧ ¬ other <+: path))

theorem Path.apart_cons {i j : Nat} {path other : Path} (h : Path.Apart (i :: path) (j :: other)) :
    i ≠ j ∨ i = j ∧ path.Apart other := by
  rw [Apart, List.cons_prefix_cons, List.cons_prefix_cons] at h
  by_cases same : i = j
  · exact .inr ⟨same, fun within => h.1 ⟨same, within⟩, fun within => h.2 ⟨same.symm, within⟩⟩
  · exact .inl same

namespace Particle

theorem children_withChildren {p : Particle} {cs : List Particle}
    (h : cs.length = p.children.length) : (p.withChildren cs).children = cs := by
  obtain ⟨s, b, e⟩ := p
  cases b with
  | number | mixed | symbol => exact (List.length_eq_zero_iff.mp h).symm
  | fraction =>
      obtain ⟨top, bottom, rfl⟩ := List.length_eq_two.mp h
      rfl
  | term | expression => rfl
  | root =>
      obtain ⟨radicand, rfl⟩ := List.length_eq_one_iff.mp h
      rfl

theorem withChildren_withChildren {p : Particle} {cs ds : List Particle}
    (hcs : cs.length = p.children.length) (hds : ds.length = p.children.length) :
    (p.withChildren cs).withChildren ds = p.withChildren ds := by
  obtain ⟨s, b, e⟩ := p
  cases b with
  | number | mixed | symbol | term | expression => rfl
  | fraction =>
      obtain ⟨top, bottom, rfl⟩ := List.length_eq_two.mp hcs
      obtain ⟨top', bottom', rfl⟩ := List.length_eq_two.mp hds
      rfl
  | root =>
      obtain ⟨radicand, rfl⟩ := List.length_eq_one_iff.mp hcs
      obtain ⟨radicand', rfl⟩ := List.length_eq_one_iff.mp hds
      rfl

theorem withChildren_children (p : Particle) : p.withChildren p.children = p := by
  obtain ⟨s, b, e⟩ := p
  cases b <;> rfl

/-- A particle and its children. -/
def branching : Branching Particle Particle where
  children := children
  withChildren := withChildren
  children_withChildren := children_withChildren
  withChildren_withChildren := withChildren_withChildren
  withChildren_children := withChildren_children

/-- The place that a path leads to. -/
def place : Path → Lens Particle Particle
  | [] => .whole Particle
  | i :: path => (branching.child i).comp (place path)

theorem place_get? (p : Particle) (path : Path) : (place path).get? p = p.get? path := by
  induction path generalizing p with
  | nil => rfl
  | cons i path ih =>
      show (p.children[i]?).bind (place path).get? = _
      rw [get?, funext ih]

theorem place_set? (p : Particle) (path : Path) (new : Particle) :
    (place path).set? p new = p.replaceAt? path new := by
  induction path generalizing p with
  | nil => rfl
  | cons i path ih =>
      rw [place, Branching.child_comp_set?]
      simp only [ih]
      rfl

theorem place_apart {path other : Path} (h : path.Apart other) :
    (place path).Apart (place other) := by
  -- by induction on the path: where the two part, the children are apart, and with them all places
  -- inside them
  induction path generalizing other with
  | nil => exact absurd List.nil_prefix h.1
  | cons i path ih =>
      cases other with
      | nil => exact absurd List.nil_prefix h.2
      | cons j other =>
          rcases Path.apart_cons h with different | ⟨rfl, inside⟩
          · exact (branching.child_apart different).inside _ _
          · exact (ih inside).under _

end Particle

/-! ## Values -/

namespace Value

/-- The children of a particle, or the sides of an equation. -/
def children : Value → List Particle
  | particle p => p.children
  | equation left right => [left, right]

/-- The value with other children or sides; the right number of them is expected. -/
def withChildren : Value → List Particle → Value
  | particle p, ps => particle (p.withChildren ps)
  | equation _ _, [left, right] => equation left right
  | v, _ => v

/-- A value and its children or sides. -/
def branching : Branching Value Particle where
  children := children
  withChildren := withChildren
  children_withChildren {v ps} h := by
    cases v with
    | particle p => exact Particle.children_withChildren h
    | equation left right =>
        obtain ⟨left', right', rfl⟩ := List.length_eq_two.mp h
        rfl
  withChildren_withChildren {v ps qs} hps hqs := by
    cases v with
    | particle p => exact congrArg particle (Particle.withChildren_withChildren hps hqs)
    | equation left right =>
        obtain ⟨left', right', rfl⟩ := List.length_eq_two.mp hps
        obtain ⟨left'', right'', rfl⟩ := List.length_eq_two.mp hqs
        rfl
  withChildren_children v := by
    cases v with
    | particle p => exact congrArg particle p.withChildren_children
    | equation left right => rfl

/-- The place that a path leads to which starts at a child or side. -/
def place (i : Nat) (path : Path) : Lens Value Particle :=
  (branching.child i).comp (Particle.place path)

theorem place_apart {i j : Nat} {path other : Path} (h : Path.Apart (i :: path) (j :: other)) :
    (place i path).Apart (place j other) := by
  rcases Path.apart_cons h with different | ⟨rfl, inside⟩
  · exact (branching.child_apart different).inside _ _
  · exact (Particle.place_apart inside).under _

variable {v w u part : Value} {path other : Path} {i : Nat}

theorem get?_self (v : Value) : v.get? [] = some v :=
  rfl

theorem get?_left (left right : Particle) :
    (equation left right).get? [0] = some (particle left) :=
  rfl

theorem get?_right (left right : Particle) :
    (equation left right).get? [1] = some (particle right) :=
  rfl

theorem place_get? (v : Value) (i : Nat) (path : Path) :
    (place i path).get? v = v.children[i]?.bind fun child => child.get? path := by
  show v.children[i]?.bind (Particle.place path).get? = _
  rw [funext fun child => Particle.place_get? child path]

theorem get?_cons (v : Value) (i : Nat) (path : Path) :
    v.get? (i :: path) = ((place i path).get? v).map particle := by
  rw [place_get?]
  cases v with
  | particle p => rfl
  | equation left right => exact Option.map_bind.symm

theorem get?_particle (p : Particle) (path : Path) :
    (particle p).get? path = (p.get? path).map particle := by
  cases path <;> rfl

theorem map_particle_eq_some {found : Option Particle} {p : Particle} :
    found.map particle = some (particle p) ↔ found = some p := by
  cases found <;> simp

/-- A particle that a path leads to is a part of a particle, or of a side of an equation. -/
theorem get?_eq_some_particle {p : Particle} (h : v.get? path = some (particle p)) :
    (∃ whole, v = particle whole ∧ whole.get? path = some p) ∨
      ∃ left right, v = equation left right ∧
        ((∃ rest, path = 0 :: rest ∧ left.get? rest = some p) ∨
          ∃ rest, path = 1 :: rest ∧ right.get? rest = some p) := by
  cases v with
  | particle whole =>
      rw [get?_particle, map_particle_eq_some] at h
      exact .inl ⟨whole, rfl, h⟩
  | equation left right =>
      cases path with
      | nil => cases h
      | cons i rest =>
          rw [get?_cons, place_get?, map_particle_eq_some] at h
          refine .inr ⟨left, right, rfl, ?_⟩
          rcases i with _ | _ | i
          · exact .inl ⟨rest, rfl, h⟩
          · exact .inr ⟨rest, rfl, h⟩
          · cases h

theorem replaceAt?_particle (p : Particle) (path : Path) (new : Particle) :
    (particle p).replaceAt? path (particle new) = (p.replaceAt? path new).map particle := by
  cases path <;> rfl

theorem replaceAt?_cons (v : Value) (i : Nat) (path : Path) (new : Particle) :
    v.replaceAt? (i :: path) (particle new) = (place i path).set? v new := by
  rw [place, Branching.child_comp_set?]
  simp only [Particle.place_set?]
  cases v with
  | particle p =>
      rw [replaceAt?_particle, Particle.replaceAt?, Option.map_bind]
      exact congrArg (Option.bind _) (funext fun child => Option.map_map ..)
  | equation left right =>
      rcases i with _ | _ | i
      · rfl
      · rfl
      · rfl

theorem replaceAt?_equation (v : Value) (i : Nat) (path : Path) (left right : Particle) :
    v.replaceAt? (i :: path) (equation left right) = none :=
  rfl

/-! ## Nodes -/

/-- The nodes of a value are itself and, child by child, the nodes of its children or sides. -/
theorem nodes_eq (v : Value) : v.nodes =
    ([], v) :: (Particle.nodesOfRow 0 v.children).map fun (path, part) => (path, particle part) := by
  cases v with
  | particle p => rw [nodes, Particle.nodes_eq, List.map_cons]; rfl
  | equation left right => simp [nodes, children, Particle.nodesOfRow]

/-- The nodes are what the paths lead to. -/
theorem mem_nodes_iff : (path, part) ∈ v.nodes ↔ v.get? path = some part := by
  rw [nodes_eq, List.mem_cons]
  simp only [List.mem_map, Prod.mk.injEq, Prod.exists]
  cases path with
  | nil =>
      rw [get?, or_iff_left (by simp [Particle.nil_notMem_nodesOfRow])]
      simp [eq_comm]
  | cons i path =>
      rw [get?_cons, Option.map_eq_some_iff, place_get?, or_iff_right (by simp)]
      simp only [Option.bind_eq_some_iff, ← Particle.mem_nodes_iff, ← Particle.cons_mem_nodesOfRow]
      constructor
      · rintro ⟨_, p, there, rfl, hp⟩
        exact ⟨p, there, hp⟩
      · rintro ⟨p, there, hp⟩
        exact ⟨i :: path, p, there, rfl, hp⟩

/-- The resources of a level are the parts of that level that paths lead to. -/
theorem mem_resources_iff {level : Level} :
    (path, part) ∈ v.resources level ↔ v.get? path = some part ∧ part.level = level := by
  rw [resources, List.mem_filter, mem_nodes_iff, beq_iff_eq]

/-! ## Splices -/

theorem splice_eq_ok_iff {new : Value} :
    v.splice path new = .ok w ↔ v.replaceAt? path new = some w := by
  unfold splice
  cases v.replaceAt? path new <;> simp

theorem splice_eq_error_iff {new : Value} {failure : Failure} :
    v.splice path new = .error failure ↔
      failure = .invalidSplice path v ∧ ¬∃ w, v.splice path new = .ok w := by
  unfold splice
  cases v.replaceAt? path new <;> simp [eq_comm]

/-- At the end of a path that is not empty only a particle is spliced, and it is put into the place
that the path leads to. -/
theorem splice_cons_eq_ok {new : Value} : v.splice (i :: path) new = .ok w ↔
    ∃ p, new = particle p ∧ (place i path).set? v p = some w := by
  rw [splice_eq_ok_iff]
  cases new with
  | particle p => simp [replaceAt?_cons]
  | equation left right => simp [replaceAt?_equation]

/-- Where a value can be put: in place of the whole, or a particle in place of a part. -/
def Admits (v : Value) (path : Path) (new : Value) : Prop :=
  path = [] ∨ new.isEquation = false ∧ ∃ part, v.get? path = some part

theorem exists_splice_iff {new : Value} :
    (∃ w, v.splice path new = .ok w) ↔ v.Admits path new := by
  cases path with
  | nil => exact iff_of_true ⟨new, splice_eq_ok_iff.mpr rfl⟩ (.inl rfl)
  | cons i path =>
      rw [Admits, get?_cons, or_iff_right (List.cons_ne_nil i path)]
      cases new with
      | particle p =>
          simp only [splice_cons_eq_ok, particle.injEq, exists_eq_left', isEquation, true_and,
            (place i path).exists_set?, Option.map_eq_some_iff]
          constructor
          · rintro ⟨q, hq⟩
            exact ⟨particle q, q, hq, rfl⟩
          · rintro ⟨_, q, hq, -⟩
            exact ⟨q, hq⟩
      | equation left right => simp [splice_cons_eq_ok, isEquation]

/-- What is known of a value with another part at the end of a path. -/
structure IsSpliced (v : Value) (path : Path) (new w : Value) : Prop where
  /-- The new part is there. -/
  get?_self : w.get? path = some new
  /-- A further part there gives the same value as without this one. -/
  splice_self : ∀ later u, w.splice path later = .ok u ↔ v.splice path later = .ok u
  /-- Whatever is neither around nor inside the new part is as it was. -/
  get?_apart : ∀ other, path.Apart other → w.get? other = v.get? other

theorem isSpliced_of_splice {new : Value} (h : v.splice path new = .ok w) :
    v.IsSpliced path new w := by
  cases path with
  | nil =>
      obtain rfl : new = w := Option.some.inj (splice_eq_ok_iff.mp h)
      exact ⟨rfl, fun later u => by simp [splice_eq_ok_iff, replaceAt?], fun other apart =>
        absurd List.nil_prefix apart.1⟩
  | cons i path =>
      obtain ⟨p, rfl, hset⟩ := splice_cons_eq_ok.mp h
      refine ⟨?_, fun later u => ?_, fun other apart => ?_⟩
      · rw [get?_cons, (place i path).get?_set? hset, Option.map_some]
      · simp only [splice_cons_eq_ok, (place i path).set?_set? hset]
      · cases other with
        | nil => exact absurd List.nil_prefix apart.2
        | cons j other =>
            rw [get?_cons, get?_cons, (place_apart apart).hidden hset]

/-- What a path leads to can be put back. -/
theorem splice_get? (h : v.get? path = some part) :
    v.splice path part = .ok v := by
  cases path with
  | nil =>
      obtain rfl : v = part := Option.some.inj h
      exact splice_eq_ok_iff.mpr rfl
  | cons i path =>
      rw [get?_cons] at h
      obtain ⟨p, hp, rfl⟩ := Option.map_eq_some_iff.mp h
      exact splice_cons_eq_ok.mpr ⟨p, rfl, (place i path).set?_get? hp⟩

/-- Splices at paths that are apart can be made in either order. -/
theorem splice_comm {new later : Value} (apart : path.Apart other)
    (hw : v.splice path new = .ok w) (hu : v.splice other later = .ok u) :
    ∃ both, w.splice other later = .ok both ∧ u.splice path new = .ok both := by
  cases path with
  | nil => exact absurd List.nil_prefix apart.1
  | cons i path =>
      cases other with
      | nil => exact absurd List.nil_prefix apart.2
      | cons j other =>
          obtain ⟨p, rfl, hp⟩ := splice_cons_eq_ok.mp hw
          obtain ⟨q, rfl, hq⟩ := splice_cons_eq_ok.mp hu
          obtain ⟨both, h₁, h₂⟩ := (place_apart apart).comm hp hq
          exact ⟨both, splice_cons_eq_ok.mpr ⟨q, rfl, h₁⟩, splice_cons_eq_ok.mpr ⟨p, rfl, h₂⟩⟩

/-- Looking up and splicing at the end of a path obey the laws of a lens. A splice succeeds exactly
where the path and the new part admit it, and is an invalid splice otherwise; it is seen at the end
of its path and nowhere apart from it, hides what was spliced there before, and changes nothing if
it puts back what was there. Splices at paths that are apart can be made in either order. -/
theorem paths_obey_lens_laws (v : Value) (path : Path) :
    (∀ new, (∃ w, v.splice path new = .ok w) ↔ v.Admits path new) ∧
    (∀ new failure, v.splice path new = .error failure ↔
      failure = .invalidSplice path v ∧ ¬v.Admits path new) ∧
    (∀ new w, v.splice path new = .ok w → v.IsSpliced path new w) ∧
    (∀ part, v.get? path = some part → v.splice path part = .ok v) ∧
    (∀ other, path.Apart other → ∀ new later w u,
      v.splice path new = .ok w → v.splice other later = .ok u →
      ∃ both, w.splice other later = .ok both ∧ u.splice path new = .ok both) := by
  refine ⟨fun new => exists_splice_iff, fun new failure => ?_, fun new w => isSpliced_of_splice,
    fun part => splice_get?, fun other apart new later w u => splice_comm apart⟩
  rw [splice_eq_error_iff, exists_splice_iff]

/-- In `x+y=3` a splice at the first term of the left side leaves the second term and the right
side as they were, and can be made before or after one at the right side. -/
theorem paths_obey_lens_laws_of_equation :
    let x := (Body.symbol 'x').plain
    let y := (Body.symbol 'y').plain
    let z := (Body.symbol 'z').plain
    let three := (Body.number ⟨[3], none, none⟩).plain
    let v := equation (Body.expression [x, y]).plain three
    ∃ w u, v.splice [0, 0] (particle z) = .ok w ∧ v.IsSpliced [0, 0] (particle z) w ∧
      w.get? [0, 1] = some (particle y) ∧ w.get? [1] = some (particle three) ∧
      v.splice [1] (particle x) = .ok u ∧
      ∃ both, w.splice [1] (particle x) = .ok both ∧ u.splice [0, 0] (particle z) = .ok both := by
  intro x y z three v
  obtain ⟨admitted, -, spliced, -, comm⟩ := paths_obey_lens_laws v [0, 0]
  obtain ⟨w, hw⟩ := (admitted (particle z)).mpr (.inr ⟨rfl, particle x, rfl⟩)
  obtain ⟨u, hu⟩ : ∃ u, v.splice [1] (particle x) = .ok u := ⟨_, rfl⟩
  have frame := (spliced _ w hw).get?_apart
  exact ⟨w, u, hw, spliced _ w hw, frame [0, 1] (by decide), frame [1] (by decide), hu,
    comm [1] (by decide) _ _ w u hw hu⟩

end Value

end StepAlgebra
