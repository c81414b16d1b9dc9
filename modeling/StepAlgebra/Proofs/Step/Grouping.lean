import Mathlib.Data.List.Induction
import Mathlib.Data.List.Perm.Basic
import StepAlgebra.Step.Grouping

/-!
# Classes of items

What grouping keeps of a list, for any test of being related: the items are rearranged and none is
lost, every member of a class is related to its first, and no first member is related to a later
one. The results of a row of operations that may fail are described along with the row.

* `Class.Inserted` — how one item is put in;
* `Class.members_group_perm`, `Class.related_of_mem_group`, `Class.unrelated_group` — all items.
-/

namespace StepAlgebra

/-! ## Operations that may fail -/

variable {ε α β : Type}

theorem map_eq_ok_iff {f : α → β} {x : Except ε α} {b : β} :
    x.map f = .ok b ↔ ∃ a, x = .ok a ∧ f a = b := by
  cases x <;> simp [Except.map]

theorem exists_ok_of_isOk {x : Except ε α} (h : x.isOk = true) : ∃ a, x = .ok a := by
  cases x with
  | ok a => exact ⟨a, rfl⟩
  | error => cases h

/-- A row of operations succeeds when each does, with the row of their results. -/
theorem mapM_eq_ok_iff {f : α → Except ε β} {as : List α} {bs : List β} :
    as.mapM f = .ok bs ↔ List.Forall₂ (fun a b => f a = .ok b) as bs := by
  induction as generalizing bs with
  | nil =>
      rw [List.mapM_nil, List.forall₂_nil_left_iff]
      exact ⟨fun h => (Except.ok.inj h).symm, fun h => h ▸ rfl⟩
  | cons a as ih =>
      rw [List.mapM_cons, List.forall₂_cons_left_iff]
      constructor
      · intro h
        cases hb : f a with
        | error e => rw [hb] at h; cases h
        | ok b =>
            cases hbs : as.mapM f with
            | error e => rw [hb, hbs] at h; cases h
            | ok bs' =>
                rw [hb, hbs] at h
                exact ⟨b, bs', rfl, ih.mp hbs, (Except.ok.inj h).symm⟩
      · rintro ⟨b, bs', hb, hbs, rfl⟩
        rw [hb, ih.mpr hbs]
        rfl

/-! ## Rows of partners -/

section

variable {R : α → β → Prop} {as : List α} {bs : List β}

/-- Where each has a partner, the row has a row of partners. -/
theorem exists_forall₂ (h : ∀ a ∈ as, ∃ b, R a b) : ∃ bs, List.Forall₂ R as bs := by
  induction as with
  | nil => exact ⟨[], .nil⟩
  | cons a as ih =>
      obtain ⟨⟨b, hb⟩, h⟩ := List.forall_mem_cons.mp h
      obtain ⟨bs, hbs⟩ := ih h
      exact ⟨b :: bs, .cons hb hbs⟩

/-- Rows of one each, put together. -/
theorem forall₂_flatten {S : α → List β → Prop} {rows : List (List β)}
    (rel : List.Forall₂ S as rows) (each : ∀ a ∈ as, ∀ row, S a row → ∃ b, row = [b] ∧ R a b) :
    List.Forall₂ R as rows.flatten := by
  induction rel with
  | nil => exact .nil
  | cons here _ ih =>
      obtain ⟨each, later⟩ := List.forall_mem_cons.mp each
      obtain ⟨b, rfl, hb⟩ := each _ here
      exact .cons hb (ih later)

theorem exists_of_forall₂_mem (h : List.Forall₂ R as bs) {b : β} (hb : b ∈ bs) :
    ∃ a ∈ as, R a b := by
  induction h with
  | nil => cases hb
  | cons here _ ih =>
      rcases List.mem_cons.mp hb with rfl | hb
      · exact ⟨_, List.mem_cons_self, here⟩
      · obtain ⟨a, ha, hr⟩ := ih hb
        exact ⟨a, List.mem_cons_of_mem _ ha, hr⟩

/-- What holds between any two of a row carries over to the row of partners. -/
theorem pairwise_of_forall₂ {S : α → α → Prop} {T : β → β → Prop} (h : List.Forall₂ R as bs)
    (carry : ∀ a a' b b', R a b → R a' b' → S a a' → T b b') (pairs : as.Pairwise S) :
    bs.Pairwise T := by
  induction h with
  | nil => exact .nil
  | cons here rest ih =>
      obtain ⟨first, later⟩ := List.pairwise_cons.mp pairs
      refine List.pairwise_cons.mpr ⟨fun b' hb' => ?_, ih later⟩
      obtain ⟨a', ha', partner⟩ := exists_of_forall₂_mem rest hb'
      exact carry _ a' _ b' here partner (first a' ha')

end

/-! ## Operations that fail -/

theorem map_eq_error_iff {f : α → β} {x : Except ε α} {e : ε} :
    x.map f = .error e ↔ x = .error e := by
  cases x <;> simp [Except.map]

theorem bind_eq_error_iff {x : Except ε α} {f : α → Except ε β} {e : ε} :
    (x >>= f) = .error e ↔ x = .error e ∨ ∃ a, x = .ok a ∧ f a = .error e := by
  cases x <;> simp [bind, Except.bind]

/-- A row of operations fails as the first of them that does. -/
theorem mapM_eq_error_iff {f : α → Except ε β} {as : List α} {e : ε} :
    as.mapM f = .error e ↔ ∃ before a after, as = before ++ a :: after ∧
      (∀ b ∈ before, ∃ r, f b = .ok r) ∧ f a = .error e := by
  induction as with
  | nil => simp [pure, Except.pure]
  | cons a as ih =>
      simp only [List.mapM_cons, bind_eq_error_iff, ih, pure, Except.pure, reduceCtorEq, and_false,
        exists_false, or_false]
      constructor
      · rintro (failed | ⟨r, hr, before, x, after, rfl, fine, failed⟩)
        · exact ⟨[], a, as, rfl, by simp, failed⟩
        · exact ⟨a :: before, x, after, rfl, List.forall_mem_cons.mpr ⟨⟨r, hr⟩, fine⟩, failed⟩
      · rintro ⟨before, x, after, split, fine, failed⟩
        cases before with
        | nil =>
            obtain ⟨rfl, rfl⟩ := List.cons.inj split
            exact .inl failed
        | cons b before =>
            obtain ⟨rfl, rfl⟩ := List.cons.inj split
            obtain ⟨⟨r, hr⟩, fine⟩ := List.forall_mem_cons.mp fine
            exact .inr ⟨r, hr, before, x, after, rfl, fine, failed⟩

/-- Items are joined from left to right up to the first that cannot be. -/
theorem foldlM_eq_error_iff {f : β → α → Except ε β} {as : List α} {b : β} {e : ε} :
    as.foldlM f b = .error e ↔ ∃ before a after joined, as = before ++ a :: after ∧
      before.foldlM f b = .ok joined ∧ f joined a = .error e := by
  induction as generalizing b with
  | nil => simp [pure, Except.pure]
  | cons a as ih =>
      simp only [List.foldlM_cons, bind_eq_error_iff, ih]
      constructor
      · rintro (failed | ⟨next, hnext, before, x, after, joined, rfl, fine, failed⟩)
        · exact ⟨[], a, as, b, rfl, rfl, failed⟩
        · refine ⟨a :: before, x, after, joined, rfl, ?_, failed⟩
          rw [List.foldlM_cons, hnext]
          exact fine
      · rintro ⟨before, x, after, joined, split, fine, failed⟩
        cases before with
        | nil =>
            obtain ⟨rfl, rfl⟩ := List.cons.inj split
            obtain rfl := Except.ok.inj fine
            exact .inl failed
        | cons y before =>
            obtain ⟨rfl, rfl⟩ := List.cons.inj split
            rw [List.foldlM_cons] at fine
            cases hnext : f b a with
            | error e' =>
                rw [hnext] at fine
                cases fine
            | ok next =>
                rw [hnext] at fine
                exact .inr ⟨next, rfl, before, x, after, joined, rfl, fine, failed⟩

namespace Class

variable {related : α → α → Bool} {item : α} {items : List α} {classes inserted : List (Class α)}

theorem members_push (c : Class α) : (c.push item).members = c.members ++ [item] :=
  rfl

@[simp] theorem first_push (c : Class α) : (c.push item).first = c.first :=
  rfl

/-! ## Putting in one item -/

/-- The ways in which an item is put in: it joins the first class that does not refuse it, or
starts one after classes that all do. -/
inductive Inserted (related : α → α → Bool) (item : α) : List (Class α) → List (Class α) → Prop
  | joins {before after : List (Class α)} {c : Class α} :
      (∀ d ∈ before, related d.first item = false) → related c.first item = true →
      Inserted related item (before ++ c :: after) (before ++ c.push item :: after)
  | starts {classes : List (Class α)} : (∀ c ∈ classes, related c.first item = false) →
      Inserted related item classes (classes ++ [⟨item, []⟩])

theorem inserted_insert (related : α → α → Bool) (item : α) (classes : List (Class α)) :
    Inserted related item classes (insert related item classes) := by
  induction classes with
  | nil => exact .starts (List.forall_mem_nil _)
  | cons c cs ih =>
      rw [insert]
      split
      · next takes => exact @Inserted.joins _ _ _ [] cs c (List.forall_mem_nil _) takes
      · next refuses =>
        have refuses := Bool.eq_false_iff.mpr refuses
        generalize insert related item cs = ds at ih
        cases ih with
        | @joins before after d refused takes =>
            exact @Inserted.joins _ _ _ (c :: before) after d
              (List.forall_mem_cons.mpr ⟨refuses, refused⟩) takes
        | starts refused => exact .starts (List.forall_mem_cons.mpr ⟨refuses, refused⟩)

theorem insert_of_refused {before : List (Class α)}
    (refused : ∀ d ∈ before, related d.first item = false) (rest : List (Class α)) :
    insert related item (before ++ rest) = before ++ insert related item rest := by
  induction before with
  | nil => rfl
  | cons d before ih =>
      obtain ⟨here, later⟩ := List.forall_mem_cons.mp refused
      rw [List.cons_append, insert, if_neg (Bool.eq_false_iff.mp here), ih later]
      rfl

namespace Inserted

/-- An item can be put in one way only. -/
theorem eq_insert (h : Inserted related item classes inserted) :
    inserted = insert related item classes := by
  cases h with
  | joins refused joins => rw [insert_of_refused refused, insert, if_pos joins]
  | starts refused =>
      have appended := insert_of_refused refused []
      rw [List.append_nil] at appended
      exact appended.symm

theorem members_perm (h : Inserted related item classes inserted) :
    (inserted.flatMap members).Perm (classes.flatMap members ++ [item]) := by
  cases h with
  | joins =>
      simp only [List.flatMap_append, List.flatMap_cons, members_push, List.append_assoc]
      exact .append_left _ (.append_left _ List.perm_append_comm)
  | starts =>
      rw [List.flatMap_append, List.flatMap_singleton]
      rfl

/-- The classes that were there keep their first members. -/
theorem firsts (h : Inserted related item classes inserted) :
    inserted.map first = classes.map first ∨
      inserted.map first = classes.map first ++ [item] ∧
        ∀ c ∈ classes, related c.first item = false := by
  cases h with
  | joins => exact .inl (by simp)
  | starts refused => exact .inr ⟨List.map_append, refused⟩

theorem alike (h : Inserted related item classes inserted)
    (members : ∀ c ∈ classes, ∀ x ∈ c.others, related c.first x = true) :
    ∀ c ∈ inserted, ∀ x ∈ c.others, related c.first x = true := by
  cases h with
  | @joins before after c _ joins =>
      simp only [List.forall_mem_append, List.forall_mem_cons] at members ⊢
      obtain ⟨left, here, right⟩ := members
      refine ⟨left, ?_, right⟩
      exact List.forall_mem_append.mpr ⟨here, List.forall_mem_singleton.mpr joins⟩
  | starts =>
      exact List.forall_mem_append.mpr
        ⟨members, List.forall_mem_singleton.mpr (List.forall_mem_nil _)⟩

end Inserted

/-! ## Grouping all items -/

theorem group_append_singleton :
    group related (items ++ [item]) = insert related item (group related items) := by
  rw [group, List.foldl_append]
  rfl

/-- Grouping rearranges the items and loses none. -/
theorem members_group_perm (related : α → α → Bool) (items : List α) :
    ((group related items).flatMap members).Perm items := by
  -- from the end of the list, where grouping inserts its last item
  induction items using List.reverseRecOn with
  | nil => exact .refl _
  | append_singleton items item ih =>
      rw [group_append_singleton]
      exact (inserted_insert related item _).members_perm.trans (ih.append_right _)

/-- Every other member of a class is related to its first. -/
theorem related_of_mem_group {c : Class α} (hc : c ∈ group related items) {x : α}
    (hx : x ∈ c.others) : related c.first x = true := by
  induction items using List.reverseRecOn generalizing c x with
  | nil => cases hc
  | append_singleton items item ih =>
      rw [group_append_singleton] at hc
      exact (inserted_insert related item _).alike (fun c hc x hx => ih hc hx) c hc x hx

/-- The first member of a class is unrelated to the first ones of all classes before it. -/
theorem unrelated_group (related : α → α → Bool) (items : List α) :
    (group related items).Pairwise fun c d => related c.first d.first = false := by
  rw [← List.pairwise_map (f := first) (R := fun x y => related x y = false)]
  induction items using List.reverseRecOn with
  | nil => exact .nil
  | append_singleton items item ih =>
      rw [group_append_singleton]
      rcases (inserted_insert related item (group related items)).firsts with same | ⟨new, refused⟩
      · rw [same]
        exact ih
      · rw [new, List.pairwise_append]
        refine ⟨ih, List.pairwise_singleton _ _, ?_⟩
        simpa using refused

/-- Items of which no two are related are in classes of their own. -/
theorem group_of_unrelated (h : items.Pairwise fun x y => related x y = false) :
    group related items = items.map fun x => ⟨x, []⟩ := by
  induction items using List.reverseRecOn with
  | nil => rfl
  | append_singleton items item ih =>
      obtain ⟨earlier, -, refused⟩ := List.pairwise_append.mp h
      have alone : ∀ c ∈ items.map fun x => (⟨x, []⟩ : Class α), related c.first item = false := by
        simpa using fun x hx => refused x hx item List.mem_cons_self
      rw [group_append_singleton, ih earlier, ← (Inserted.starts alone).eq_insert, List.map_append,
        List.map_singleton]

/-- Classes are there as soon as anything is. -/
theorem length_group_pos (h : 0 < items.length) : 0 < (group related items).length := by
  have members := (members_group_perm related items).length_eq
  cases hgroup : group related items with
  | nil =>
      rw [hgroup, List.flatMap_nil, List.length_nil] at members
      omega
  | cons => exact Nat.succ_pos _

end Class

end StepAlgebra
