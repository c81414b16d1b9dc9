import Mathlib.Data.List.Basic

/-!
# Lenses

A place in a larger whole is known by looking up what stands there and by putting something else
there. Not every whole has the place. The laws of the two are part of a place, so places inside
places are places again.

* `Lens` — places with their laws;
* `Lens.Apart` — two places that have nothing to do with each other;
* `Branching.child` — the places of the children of a node.
-/

namespace StepAlgebra

/-- A place for a `β` in an `α`: what stands there, and the whole with something else there. Not
every whole has the place. -/
structure Lens (α β : Type) where
  get? : α → Option β
  set? : α → β → Option α
  /-- Something can be put exactly where something stands. -/
  exists_set? : ∀ {a : α} (b : β), (∃ a', set? a b = some a') ↔ ∃ b', get? a = some b'
  /-- What is put there stands there. -/
  get?_set? : ∀ {a a' : α} {b : β}, set? a b = some a' → get? a' = some b
  /-- What was put there before does not matter. -/
  set?_set? : ∀ {a a' : α} {b : β}, set? a b = some a' → ∀ c, set? a' c = set? a c
  /-- What stands there can be put back. -/
  set?_get? : ∀ {a : α} {b : β}, get? a = some b → set? a b = some a

namespace Lens

variable {α β γ δ ε : Type} {a a' : α}

/-- The whole itself. -/
def whole (α : Type) : Lens α α where
  get? := some
  set? _ b := some b
  exists_set? _ := ⟨fun _ => ⟨_, rfl⟩, fun _ => ⟨_, rfl⟩⟩
  get?_set? h := h.symm
  set?_set? _ _ := rfl
  set?_get? h := h.symm ▸ rfl

/-- A place inside what stands at a place. -/
def comp (l : Lens α β) (m : Lens β γ) : Lens α γ where
  get? a := (l.get? a).bind m.get?
  set? a c := (l.get? a).bind fun b => (m.set? b c).bind (l.set? a)
  exists_set? {a} c := by
    simp only [Option.bind_eq_some_iff]
    constructor
    · rintro ⟨_, b, hb, b', hb', _⟩
      obtain ⟨c', hc'⟩ := (m.exists_set? c).mp ⟨b', hb'⟩
      exact ⟨c', b, hb, hc'⟩
    · rintro ⟨c', b, hb, hc'⟩
      obtain ⟨b', hb'⟩ := (m.exists_set? c).mpr ⟨c', hc'⟩
      obtain ⟨a', ha'⟩ := (l.exists_set? b').mpr ⟨b, hb⟩
      exact ⟨a', b, hb, b', hb', ha'⟩
  get?_set? h := by
    simp only [Option.bind_eq_some_iff] at h ⊢
    obtain ⟨b, _, b', hb', ha'⟩ := h
    exact ⟨b', l.get?_set? ha', m.get?_set? hb'⟩
  set?_set? h c := by
    simp only [Option.bind_eq_some_iff] at h
    obtain ⟨b, hb, b', hb', ha'⟩ := h
    rw [l.get?_set? ha', hb, Option.bind_some, Option.bind_some, m.set?_set? hb',
      funext (l.set?_set? ha')]
  set?_get? h := by
    simp only [Option.bind_eq_some_iff] at h ⊢
    obtain ⟨b, hb, hc⟩ := h
    exact ⟨b, hb, b, m.set?_get? hc, l.set?_get? hb⟩

theorem comp_set?_eq_some {l : Lens α β} {m : Lens β γ} {c : γ} :
    (l.comp m).set? a c = some a' ↔
      ∃ b, l.get? a = some b ∧ ∃ b', m.set? b c = some b' ∧ l.set? a b' = some a' := by
  simp only [comp, Option.bind_eq_some_iff]

/-- What is put at the one place cannot be seen at the other. -/
def Hides (l : Lens α β) (m : Lens α γ) : Prop :=
  ∀ ⦃a a' : α⦄ ⦃b : β⦄, l.set? a b = some a' → m.get? a' = m.get? a

/-- Two places that have nothing to do with each other. -/
structure Apart (l : Lens α β) (m : Lens α γ) : Prop where
  hidden : l.Hides m
  hides : m.Hides l
  /-- What is put at both places can be put there in either order. -/
  comm : ∀ {a a₁ a₂ : α} {b : β} {c : γ}, l.set? a b = some a₁ → m.set? a c = some a₂ →
    ∃ a₃, m.set? a₁ c = some a₃ ∧ l.set? a₂ b = some a₃

theorem Hides.inside {l : Lens α β} {m : Lens α γ} (h : l.Hides m) (l' : Lens β δ)
    (m' : Lens γ ε) : (l.comp l').Hides (m.comp m') := by
  intro a a' d hset
  obtain ⟨b, -, b', -, ha'⟩ := comp_set?_eq_some.mp hset
  show (m.get? a').bind m'.get? = (m.get? a).bind m'.get?
  rw [h ha']

/-- Places inside two that are apart are apart. -/
theorem Apart.inside {l : Lens α β} {m : Lens α γ} (h : l.Apart m) (l' : Lens β δ)
    (m' : Lens γ ε) : (l.comp l').Apart (m.comp m') where
  hidden := h.hidden.inside l' m'
  hides := h.hides.inside m' l'
  comm hl hm := by
    obtain ⟨b, hb, b', hb', ha₁⟩ := comp_set?_eq_some.mp hl
    obtain ⟨c, hc, c', hc', ha₂⟩ := comp_set?_eq_some.mp hm
    obtain ⟨a₃, h₁, h₂⟩ := h.comm ha₁ ha₂
    exact ⟨a₃, comp_set?_eq_some.mpr ⟨c, (h.hidden ha₁).trans hc, c', hc', h₁⟩,
      comp_set?_eq_some.mpr ⟨b, (h.hides ha₂).trans hb, b', hb', h₂⟩⟩

theorem Hides.under {m : Lens β γ} {m' : Lens β δ} (h : m.Hides m') (l : Lens α β) :
    (l.comp m).Hides (l.comp m') := by
  intro a a' c hset
  obtain ⟨b, hb, b', hb', ha'⟩ := comp_set?_eq_some.mp hset
  show (l.get? a').bind m'.get? = (l.get? a).bind m'.get?
  rw [l.get?_set? ha', hb, Option.bind_some, Option.bind_some, h hb']

/-- Places that are apart stay so inside the same place. -/
theorem Apart.under {m : Lens β γ} {m' : Lens β δ} (h : m.Apart m') (l : Lens α β) :
    (l.comp m).Apart (l.comp m') where
  hidden := h.hidden.under l
  hides := h.hides.under l
  comm {a a₁ a₂ c d} hm hm' := by
    obtain ⟨b, hb, b₁, hb₁, ha₁⟩ := comp_set?_eq_some.mp hm
    obtain ⟨_, hb', b₂, hb₂, ha₂⟩ := comp_set?_eq_some.mp hm'
    -- both are put into the same part, and what comes of it can be put where that part stands
    obtain rfl := Option.some.inj (hb.symm.trans hb')
    obtain ⟨b₃, h₁, h₂⟩ := h.comm hb₁ hb₂
    obtain ⟨a₃, ha₃⟩ := (l.exists_set? b₃).mpr ⟨b, hb⟩
    refine ⟨a₃, comp_set?_eq_some.mpr ⟨b₁, l.get?_set? ha₁, b₃, h₁, ?_⟩,
      comp_set?_eq_some.mpr ⟨b₂, l.get?_set? ha₂, b₃, h₂, ?_⟩⟩
    · rw [l.set?_set? ha₁, ha₃]
    · rw [l.set?_set? ha₂, ha₃]

end Lens

/-- A way to take something apart into children, and to make it anew from as many of them. -/
structure Branching (α β : Type) where
  children : α → List β
  withChildren : α → List β → α
  children_withChildren : ∀ {a : α} {bs : List β}, bs.length = (children a).length →
    children (withChildren a bs) = bs
  withChildren_withChildren : ∀ {a : α} {bs cs : List β}, bs.length = (children a).length →
    cs.length = (children a).length → withChildren (withChildren a bs) cs = withChildren a cs
  withChildren_children : ∀ a : α, withChildren a (children a) = a

namespace Branching

variable {α β γ : Type} (t : Branching α β) {a a' : α} {b : β} {i j : Nat}

/-- The place of one child. -/
def child (i : Nat) : Lens α β where
  get? a := (t.children a)[i]?
  set? a b := (t.children a)[i]?.map fun _ => t.withChildren a ((t.children a).set i b)
  exists_set? _ := by simp
  get?_set? h := by
    obtain ⟨b', hb', rfl⟩ := Option.map_eq_some_iff.mp h
    obtain ⟨hi, -⟩ := List.getElem?_eq_some_iff.mp hb'
    rw [t.children_withChildren List.length_set, List.getElem?_set_self hi]
  set?_set? h c := by
    obtain ⟨b', hb', rfl⟩ := Option.map_eq_some_iff.mp h
    obtain ⟨hi, -⟩ := List.getElem?_eq_some_iff.mp hb'
    rw [t.children_withChildren List.length_set, List.getElem?_set_self hi, hb', Option.map_some,
      Option.map_some, List.set_set,
      t.withChildren_withChildren List.length_set List.length_set]
  set?_get? {a b} h := by
    obtain ⟨hi, rfl⟩ := List.getElem?_eq_some_iff.mp h
    rw [h, Option.map_some, List.set_getElem_self, t.withChildren_children]

theorem child_set?_eq_some : (t.child i).set? a b = some a' ↔
    i < (t.children a).length ∧ t.withChildren a ((t.children a).set i b) = a' := by
  rw [child, Option.map_eq_some_iff]
  constructor
  · rintro ⟨b', hb', h⟩
    exact ⟨(List.getElem?_eq_some_iff.mp hb').1, h⟩
  · rintro ⟨hi, h⟩
    exact ⟨(t.children a)[i], List.getElem?_eq_getElem hi, h⟩

/-- Inside a child the child is exchanged for the one that has something else inside it. -/
theorem child_comp_set? (m : Lens β γ) (a : α) (c : γ) :
    ((t.child i).comp m).set? a c = (t.children a)[i]?.bind fun b =>
      (m.set? b c).map fun b' => t.withChildren a ((t.children a).set i b') := by
  show ((t.children a)[i]?.bind fun b => (m.set? b c).bind fun b' =>
    (t.children a)[i]?.map fun _ => t.withChildren a ((t.children a).set i b')) = _
  cases (t.children a)[i]? with
  | none => rfl
  | some b => exact Option.map_eq_bind.symm

theorem child_hides (h : i ≠ j) : (t.child i).Hides (t.child j) := by
  intro a a' b hset
  obtain ⟨-, rfl⟩ := t.child_set?_eq_some.mp hset
  show (t.children (t.withChildren a _))[j]? = (t.children a)[j]?
  rw [t.children_withChildren List.length_set, List.getElem?_set_ne h]

/-- Different children are apart. -/
theorem child_apart (h : i ≠ j) : (t.child i).Apart (t.child j) where
  hidden := t.child_hides h
  hides := t.child_hides h.symm
  comm {a a₁ a₂ b c} hi hj := by
    obtain ⟨iLt, rfl⟩ := t.child_set?_eq_some.mp hi
    obtain ⟨jLt, rfl⟩ := t.child_set?_eq_some.mp hj
    refine ⟨t.withChildren a (((t.children a).set i b).set j c), ?_, ?_⟩
    · rw [child_set?_eq_some, t.children_withChildren List.length_set,
        t.withChildren_withChildren List.length_set (by simp)]
      exact ⟨by simpa using jLt, rfl⟩
    · rw [child_set?_eq_some, t.children_withChildren List.length_set,
        t.withChildren_withChildren List.length_set (by simp), List.set_comm _ _ h]
      exact ⟨by simpa using iLt, rfl⟩

end Branching

end StepAlgebra
