import Mathlib.Data.List.FinRange
import Mathlib.Order.Fin.Basic
import StepAlgebra.Proofs.Particle.Equality
import StepAlgebra.Proofs.Step.Grouping
import StepAlgebra.Step.LikeFactors
import StepAlgebra.Step.LikeTerms

/-!
# Grouping is the greedy partition

Items may be equal, so what grouping does to them is told by their places. Each place goes to one
class; the classes and their members keep the order of the places; and a place is in the first
class that does not refuse it, where what refuses is the first member. The test need not be
symmetric or transitive. Only one row of classes is like that, so this describes grouping in full.

* `Class.IsPartition` — rows of classes of places that are like that;
* `Class.isPartition_iff` — the one that grouping gives;
* `Particle.classes_are_partitions` — like terms and like factors.
-/

namespace StepAlgebra.Class

/-- The class of the images of the members. -/
def map {α β : Type} (f : α → β) (c : Class α) : Class β :=
  ⟨f c.first, c.others.map f⟩

/-- A row of classes that the places, one by one, have joined or started. -/
@[mk_iff isPartition_iff_and]
structure IsPartition {ι : Type} [LT ι] (related : ι → ι → Bool) (places : List ι)
    (classes : List (Class ι)) : Prop where
  /-- Every place is in one class, and is there once. -/
  covers : (classes.flatMap members).Perm places
  /-- Members are in the order of the places. -/
  ordered : ∀ c ∈ classes, c.members.Pairwise (· < ·)
  /-- Classes are in the order of their first members. -/
  started : classes.Pairwise fun c d => c.first < d.first
  /-- The first member of a class takes every one of its members. -/
  takes : ∀ c ∈ classes, ∀ i ∈ c.members, related c.first i = true
  /-- The first member of a class refuses the members of all later classes. -/
  refuses : classes.Pairwise fun c d => ∀ i ∈ d.members, related c.first i = false

/-! ## One more place -/

section

variable {ι : Type} [Preorder ι] {related : ι → ι → Bool} {places : List ι} {last : ι}
  {classes inserted : List (Class ι)} {c : Class ι}

theorem IsPartition.mem_places (h : IsPartition related places classes) (hc : c ∈ classes) {i : ι}
    (hi : i ∈ c.members) : i ∈ places :=
  h.covers.subset (List.mem_flatMap.mpr ⟨c, hc, hi⟩)

/-- Putting in a place after all others makes a partition of a partition, and of nothing else. -/
theorem Inserted.isPartition_iff (h : Inserted related last classes inserted)
    (greatest : ∀ i ∈ places, i < last) (takesItself : related last last = true) :
    IsPartition related (places ++ [last]) inserted ↔ IsPartition related places classes := by
  rw [isPartition_iff_and, isPartition_iff_and, h.members_perm.congr_left,
    List.perm_append_right_iff]
  refine and_congr_right fun covers => ?_
  have below : ∀ c ∈ classes, ∀ i ∈ c.members, i < last := fun c hc i hi =>
    greatest i (covers.subset (List.mem_flatMap.mpr ⟨c, hc, hi⟩))
  cases h with
  | @joins before after c refused joins =>
      have ordered : (c.push last).members.Pairwise (· < ·) ↔ c.members.Pairwise (· < ·) := by
        simpa [members_push, List.pairwise_append] using fun _ => below c (by simp)
      have taken : (∀ i ∈ (c.push last).members, related c.first i = true) ↔
          ∀ i ∈ c.members, related c.first i = true := by
        simp [members_push, or_imp, forall_and, joins]
      have refuse : ∀ d ∈ before, (∀ i ∈ (c.push last).members, related d.first i = false) ↔
          ∀ i ∈ c.members, related d.first i = false := by
        simp +contextual [members_push, or_imp, refused]
      have refusals : (∀ d ∈ before, ∀ e ∈ c.push last :: after, ∀ i ∈ e.members,
          related d.first i = false) ↔
          ∀ d ∈ before, ∀ e ∈ c :: after, ∀ i ∈ e.members, related d.first i = false :=
        forall₂_congr fun d hd => by
          rw [List.forall_mem_cons, List.forall_mem_cons, refuse d hd]
      simp only [List.forall_mem_append, List.pairwise_append, refusals]
      simp only [List.forall_mem_cons, List.pairwise_cons, first_push, ordered, taken]
  | starts refused =>
      have first : ∀ c ∈ classes, c.first < last := fun c hc =>
        below c hc c.first List.mem_cons_self
      refine and_congr ?_ (and_congr ?_ (and_congr ?_ ?_))
      · simp [members, or_imp, forall_and]
      · simpa [List.pairwise_append] using fun _ => first
      · simp [members, or_imp, forall_and, takesItself]
      · simpa [List.pairwise_append, members] using fun _ => refused

/-- No member of a partition is beyond its greatest place. -/
theorem IsPartition.not_gt (h : IsPartition related (places ++ [last]) classes)
    (greatest : ∀ i ∈ places, i < last) (hc : c ∈ classes) {i : ι} (hi : i ∈ c.members) :
    ¬last < i := by
  rcases List.mem_append.mp (h.mem_places hc hi) with earlier | here
  · exact (greatest i earlier).not_gt
  · rw [List.mem_singleton.mp here]
    exact lt_irrefl last

/-- The greatest place is the last member of its class, and the only one if it is the first. -/
theorem IsPartition.eq_or_exists_push (h : IsPartition related (places ++ [last]) classes)
    (greatest : ∀ i ∈ places, i < last) (hc : c ∈ classes) (hlast : last ∈ c.members) :
    c = ⟨last, []⟩ ∨ ∃ d : Class ι, c = d.push last := by
  have ordered := h.ordered c hc
  obtain ⟨first, others⟩ := c
  rcases List.eq_nil_or_concat' others with rfl | ⟨others, i, rfl⟩
  · rw [List.mem_singleton.mp hlast]
    exact .inl rfl
  · have split : members ⟨first, others ++ [i]⟩ = members ⟨first, others⟩ ++ [i] := rfl
    have hi : i ∈ members ⟨first, others ++ [i]⟩ := by simp [split]
    rw [split] at ordered hlast
    rcases List.mem_append.mp hlast with earlier | here
    · have beyond : last < i :=
        (List.pairwise_append.mp ordered).2.2 last earlier i List.mem_cons_self
      exact absurd beyond (h.not_gt greatest hc hi)
    · rw [List.mem_singleton.mp here]
      exact .inr ⟨⟨first, others⟩, rfl⟩

/-- A partition that ends with the greatest place comes from one without it. -/
theorem IsPartition.exists_inserted (h : IsPartition related (places ++ [last]) inserted)
    (greatest : ∀ i ∈ places, i < last) : ∃ classes, Inserted related last classes inserted := by
  have mem : last ∈ inserted.flatMap members := h.covers.symm.subset (by simp)
  obtain ⟨c, hc, hlast⟩ := List.mem_flatMap.mp mem
  obtain ⟨before, after, rfl⟩ := List.append_of_mem hc
  have refused : ∀ d ∈ before, related d.first last = false := fun d hd =>
    (List.pairwise_append.mp h.refuses).2.2 d hd c List.mem_cons_self last hlast
  rcases h.eq_or_exists_push greatest hc hlast with rfl | ⟨d, rfl⟩
  · -- a class that starts with the greatest place is the last class
    have started := (List.pairwise_append.mp h.started).2.1
    have none : after = [] := by
      rw [List.eq_nil_iff_forall_not_mem]
      intro d hd
      have hd' := List.mem_append_right before (List.mem_cons_of_mem ⟨last, []⟩ hd)
      exact h.not_gt greatest hd' List.mem_cons_self ((List.pairwise_cons.mp started).1 d hd)
    rw [none]
    exact ⟨before, .starts refused⟩
  · exact ⟨_, .joins refused (h.takes _ hc last hlast)⟩

/-! ## All places -/

theorem isPartition_nil_iff : IsPartition related [] classes ↔ classes = [] := by
  constructor
  · intro h
    rw [List.eq_nil_iff_forall_not_mem]
    intro c hc
    exact List.not_mem_nil (h.mem_places hc List.mem_cons_self)
  · rintro rfl
    exact ⟨.nil, List.forall_mem_nil _, .nil, List.forall_mem_nil _, .nil⟩

/-- Grouping places that follow each other partitions them, and nothing else does. -/
theorem isPartition_iff (itself : ∀ i, related i i = true) (ascending : places.Pairwise (· < ·)) :
    IsPartition related places classes ↔ classes = group related places := by
  -- from the end, where the greatest place is put in
  induction places using List.reverseRecOn generalizing classes with
  | nil => exact isPartition_nil_iff
  | append_singleton places last ih =>
      obtain ⟨earlier, -, greatest⟩ := List.pairwise_append.mp ascending
      have greatest : ∀ i ∈ places, i < last := fun i hi => greatest i hi last List.mem_cons_self
      have ih : ∀ {classes}, IsPartition related places classes ↔
          classes = group related places := ih earlier
      rw [group_append_singleton]
      constructor
      · intro h
        obtain ⟨before, put⟩ := h.exists_inserted greatest
        rw [put.eq_insert, ih.mp ((put.isPartition_iff greatest (itself last)).mp h)]
      · rintro rfl
        exact ((inserted_insert _ _ _).isPartition_iff greatest (itself last)).mpr (ih.mpr rfl)

end

/-! ## Items at places -/

section

variable {α β : Type}

theorem insert_map (f : α → β) (related : β → β → Bool) (item : α) (classes : List (Class α)) :
    insert related (f item) (classes.map (map f)) =
      (insert (fun x y => related (f x) (f y)) item classes).map (map f) := by
  induction classes with
  | nil => rfl
  | cons c cs ih =>
      have push : (c.map f).push (f item) = (c.push item).map f := by
        simp [Class.push, map]
      rw [List.map_cons, insert, insert, ih, push, apply_ite (List.map (map f))]
      rfl

/-- Images are grouped as what they are images of. -/
theorem group_map (f : α → β) (related : β → β → Bool) (items : List α) :
    group related (items.map f) =
      (group (fun x y => related (f x) (f y)) items).map (map f) := by
  induction items using List.reverseRecOn with
  | nil => rfl
  | append_singleton items item ih =>
      rw [List.map_append, List.map_singleton, group_append_singleton, group_append_singleton, ih,
        insert_map]

/-- The classes of items are those of their places, which are a partition and the only one. -/
theorem exists_isPartition {related : α → α → Bool} (itself : ∀ x, related x x = true)
    (items : List α) :
    ∃ places, group related items = places.map (map items.get) ∧ ∀ classes,
      IsPartition (fun i j => related (items.get i) (items.get j)) (List.finRange items.length)
        classes ↔ classes = places := by
  refine ⟨_, ?_, fun classes =>
    isPartition_iff (fun i => itself (items.get i)) (List.pairwise_lt_finRange _)⟩
  rw [← group_map, List.map_get_finRange]

end

end StepAlgebra.Class

namespace StepAlgebra.Particle

theorem areLikeTerms_self (p : Particle) : areLikeTerms p p = true := by
  have same : p.body.same p.body = true := (same_iff.mp (same_refl p)).2.2
  simp [areLikeTerms, agreeUpToSign, same]

theorem areMultipliable_self (p : Particle) : areMultipliable p p = true := by
  have same : p.body.same p.body = true := (same_iff.mp (same_refl p)).2.2
  simp [areMultipliable, same]

/-- Like terms and like factors are the classes of a partition of the places of the terms or
factors, the only one there is. -/
theorem classes_are_partitions (items : List Particle) :
    (∃ places, likeTerms items = places.map (Class.map items.get) ∧ ∀ classes,
      Class.IsPartition (fun i j => areLikeTerms (items.get i) (items.get j))
        (List.finRange items.length) classes ↔ classes = places) ∧
    ∃ places, likeFactors items = places.map (Class.map items.get) ∧ ∀ classes,
      Class.IsPartition (fun i j => areMultipliable (items.get i) (items.get j))
        (List.finRange items.length) classes ↔ classes = places :=
  ⟨Class.exists_isPartition areLikeTerms_self items,
    Class.exists_isPartition areMultipliable_self items⟩

/-- In `2(1)/(4)-2+1(1)/(4)` both other terms go to the class of the first, though they are not
alike. -/
example :
    let number := fun (d : Digit) => (Body.number ⟨[d], none, none⟩).plain
    let mixed := fun (d : Digit) => (Body.mixed ⟨[d], none, none⟩ (number 1) (number 4)).plain
    (likeTerms [mixed 2, (number 2).negate, mixed 1]).map (·.members.length) = [3] ∧
      areLikeTerms (number 2).negate (mixed 1) = false := by
  decide +kernel

end StepAlgebra.Particle
