import Mathlib.Data.List.Lex
import StepAlgebra.Proofs.Value.Paths

/-!
# Parts in the order of their paths

The nodes of a value are its parts, each with the one path that leads to it, in the lexicographic
order of the paths: a part comes before the parts inside it, and these before the next part. So the
resources of a level are all parts of that level in this order, and what is found is at the first
of all paths that lead to a part like the target.

* `find?_eq_some_iff_least` — the first entry that passes a test is the one with the least key;
* `Value.nodes_inOrder` — the nodes are in the order of their paths;
* `Value.parts_are_enumerated` — resources, finding and replacing.
-/

namespace StepAlgebra

/-- Among entries in the order of their keys, the first that passes a test is the one with the
least key. -/
theorem find?_eq_some_iff_least {κ β : Type} [Preorder κ] (test : β → Bool)
    {entries : List (κ × β)} (sorted : entries.Pairwise fun x y => x.1 < y.1) {k : κ} {b : β} :
    (entries.find? fun x => test x.2) = some (k, b) ↔
      ((k, b) ∈ entries ∧ test b = true) ∧
        ∀ k' < k, ∀ b', (k', b') ∈ entries → ¬test b' = true := by
  constructor
  · intro found
    obtain ⟨passes, before, after, rfl, none⟩ := List.find?_eq_some_iff_append.mp found
    refine ⟨⟨by simp, passes⟩, fun k' less b' there => ?_⟩
    rcases List.mem_append.mp there with there | there
    · simpa using none _ there
    · -- what is not before the entry has no smaller key
      have notLess := (List.pairwise_append.mp sorted).2.1
      rcases List.mem_cons.mp there with same | there
      · exact absurd (congrArg Prod.fst same) less.ne
      · exact absurd (List.rel_of_pairwise_cons notLess there) less.asymm
  · rintro ⟨⟨there, passes⟩, least⟩
    obtain ⟨before, after, rfl⟩ := List.append_of_mem there
    refine List.find?_eq_some_iff_append.mpr ⟨passes, before, after, rfl, fun x hx => ?_⟩
    have less : x.1 < k := (List.pairwise_append.mp sorted).2.2 x hx _ List.mem_cons_self
    simpa using least x.1 less x.2 (List.mem_append_left _ hx)

/-- Entries in the lexicographic order of their paths, in which a path comes before those that go
on from it. No path occurs twice. -/
def Path.InOrder {α : Type} (entries : List (Path × α)) : Prop :=
  entries.Pairwise fun x y => x.1 < y.1

namespace Particle

theorem nil_lt_of_mem_nodesOfRow {ps : List Particle} {k : Nat} {x : Path × Particle}
    (h : x ∈ nodesOfRow k ps) : [] < x.1 := by
  obtain ⟨i, rest, -, hpath, -⟩ := mem_nodesOfRow.mp h
  rw [hpath]
  exact List.nil_lt_cons _ _

/-- The nodes of a row are in order if those of its particles are. -/
theorem nodesOfRow_inOrder {ps : List Particle}
    (inOrder : ∀ p ∈ ps, Path.InOrder p.nodes) (k : Nat) : Path.InOrder (nodesOfRow k ps) := by
  induction ps generalizing k with
  | nil => exact .nil
  | cons p ps ih =>
      obtain ⟨first, later⟩ := List.forall_mem_cons.mp inOrder
      rw [nodesOfRow, Path.InOrder, List.pairwise_append]
      refine ⟨?_, ih later (k + 1), ?_⟩
      -- inside one particle the rest of the path decides, between two their numbers in the row
      · rw [Path.under, List.pairwise_map]
        exact first.imp fun h => List.cons_lt_cons_iff.mpr (.inr ⟨rfl, h⟩)
      · rintro ⟨path, part⟩ here ⟨path', part'⟩ there
        obtain ⟨rest, rfl, -⟩ := mem_under.mp here
        obtain ⟨i, rest', -, rfl, -⟩ := mem_nodesOfRow.mp there
        exact List.cons_lt_cons_iff.mpr (.inl (by omega))

theorem nodes_inOrder (p : Particle) : Path.InOrder p.nodes := by
  induction p using Particle.induct with
  | node p ih =>
      rw [nodes_eq, Path.InOrder, List.pairwise_cons]
      exact ⟨fun _ => nil_lt_of_mem_nodesOfRow,
        nodesOfRow_inOrder (fun q hq => ih q (mem_parts_of_mem_children hq)) 0⟩

end Particle

namespace Value

open Particle

variable {v w : Value} {path : Path} {target : Value}

theorem nodes_inOrder (v : Value) : Path.InOrder v.nodes := by
  rw [nodes_eq, Path.InOrder, List.pairwise_cons, List.pairwise_map]
  refine ⟨?_, nodesOfRow_inOrder (fun p _ => p.nodes_inOrder) 0⟩
  intro x hx
  obtain ⟨y, hy, rfl⟩ := List.mem_map.mp hx
  exact nil_lt_of_mem_nodesOfRow hy

theorem resources_inOrder (v : Value) (level : Level) : Path.InOrder (v.resources level) :=
  v.nodes_inOrder.filter _

/-- A path leads to a part that is the same as the target. -/
def LeadsTo (v : Value) (path : Path) (target : Value) : Prop :=
  ∃ part, v.get? path = some part ∧ part.same target = true

/-- What is found is at the first of the paths that lead to the target. -/
theorem find?_eq_some_iff : v.find? target = some path ↔
    v.LeadsTo path target ∧ ∀ earlier < path, ¬v.LeadsTo earlier target := by
  rw [find?, Option.map_eq_some_iff]
  simp only [Prod.exists, exists_and_right, exists_eq_right]
  simp only [find?_eq_some_iff_least (fun part => part.same target) v.nodes_inOrder,
    mem_nodes_iff, LeadsTo, not_exists, not_and, exists_and_right]

theorem find?_eq_none_iff : v.find? target = none ↔ ∀ path, ¬v.LeadsTo path target := by
  rw [find?, Option.map_eq_none_iff, List.find?_eq_none]
  simp only [Prod.forall, mem_nodes_iff, LeadsTo, not_exists, not_and]

/-- Where the target is found, it is replaced by a splice, if one can be made there. -/
theorem replace?_eq_some_iff {old new : Value} : v.replace? old new = some w ↔
    ∃ path, v.find? old = some path ∧ v.splice path new = .ok w := by
  simp only [replace?, Option.bind_eq_some_iff, splice_eq_ok_iff]

theorem replace?_eq_none_iff {old new : Value} : v.replace? old new = none ↔
    v.find? old = none ∨
      ∃ path, v.find? old = some path ∧ v.splice path new = .error (.invalidSplice path v) := by
  rw [replace?, Option.bind_eq_none_iff]
  cases v.find? old with
  | none => simp
  | some path => simp [splice_eq_error_iff, splice_eq_ok_iff, Option.eq_none_iff_forall_ne_some]

/-- Resources, finding and replacing follow the paths. The resources of a level are the parts of
that level that paths lead to, in the order of the paths and each path once; a target is found at
the first path that leads to it, and nowhere if none does; and it is replaced where it is found,
unless the splice there is invalid. -/
theorem parts_are_enumerated (v : Value) :
    (∀ level, (∀ path part, (path, part) ∈ v.resources level ↔
        v.get? path = some part ∧ part.level = level) ∧ Path.InOrder (v.resources level)) ∧
    (∀ target, (∀ path, v.find? target = some path ↔
        v.LeadsTo path target ∧ ∀ earlier < path, ¬v.LeadsTo earlier target) ∧
      (v.find? target = none ↔ ∀ path, ¬v.LeadsTo path target)) ∧
    (∀ old new, (∀ w, v.replace? old new = some w ↔
        ∃ path, v.find? old = some path ∧ v.splice path new = .ok w) ∧
      (v.replace? old new = none ↔ v.find? old = none ∨
        ∃ path, v.find? old = some path ∧ v.splice path new = .error (.invalidSplice path v))) :=
  ⟨fun level => ⟨fun _ _ => mem_resources_iff, v.resources_inOrder level⟩,
    fun _ => ⟨fun _ => find?_eq_some_iff, find?_eq_none_iff⟩,
    fun _ _ => ⟨fun _ => replace?_eq_some_iff, replace?_eq_none_iff⟩⟩

/-- In `x+y=x` the variables are at `[0, 0]`, `[0, 1]` and `[1]` in this order. Since `x` is found at
the first of them, it is replaced there and left on the right side. -/
theorem parts_are_enumerated_of_equation :
    let x := (Body.symbol 'x').plain
    let y := (Body.symbol 'y').plain
    let v := equation (Body.expression [x, y]).plain x
    let w := equation (Body.expression [y, y]).plain x
    (([1], particle x) ∈ v.resources .symbol ∧ Path.InOrder (v.resources .symbol)) ∧
      v.find? (particle x) = some [0, 0] ∧ (∀ earlier < [0, 0], ¬v.LeadsTo earlier (particle x)) ∧
      v.replace? (particle x) (particle y) = some w := by
  intro x y v w
  obtain ⟨resources, found, replaced⟩ := parts_are_enumerated v
  obtain ⟨members, inOrder⟩ := resources .symbol
  have first : v.find? (particle x) = some [0, 0] := by decide
  refine ⟨⟨(members [1] (particle x)).mpr ⟨rfl, rfl⟩, inOrder⟩, first,
    (((found (particle x)).1 [0, 0]).mp first).2, ?_⟩
  exact ((replaced (particle x) (particle y)).1 w).mpr ⟨[0, 0], first, rfl⟩

end Value

end StepAlgebra
