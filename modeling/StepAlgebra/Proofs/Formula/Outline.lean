import Mathlib.Data.List.Basic
import StepAlgebra.Formula.Basic
import StepAlgebra.Proofs.Token.Lexer

/-!
# Outlines

The places of a tree, apart from what its nodes are. An outline covers a row of tokens if it runs
from the first to the last of them and its parts cover rows among them, one in front of the other.
Nothing more is needed for the places to be nested and in order, since the tokens of a text are.

* `Token.AreOrdered` — tokens one after the other, as a text is cut into them;
* `Outline` — the places of a tree;
* `Outline.Covers` — the tokens that an outline is of;
* `Outline.isPlaced_of_covers` — over tokens in order, all places are nested and in order;
* `Formula.outline`, `Statement.outline` — the places of formulas and statements.
-/

namespace StepAlgebra

/-! ## Rows of tokens -/

namespace Token

/-- The place of a row of tokens, from the first to the last. -/
def rowSpan (row : List Token) : Span :=
  match row.head?, row.getLast? with
  | some first, some last => first.span.through last.span
  | _, _ => Span.point 0

/-- Tokens that take some room each and stand one after the other. -/
structure AreOrdered (row : List Token) : Prop where
  nonempty : ∀ t ∈ row, t.span.start < t.span.stop
  inOrder : row.Pairwise fun t u => t.span.stop ≤ u.span.start

variable {a b : List Token} {t : Token}

/-- The place of a row depends on its ends alone. -/
theorem rowSpan_append (skipped : List Token) (ha : a ≠ []) (hb : b ≠ []) :
    rowSpan (a ++ (skipped ++ b)) = (rowSpan a).through (rowSpan b) := by
  have later : skipped ++ b ≠ [] := List.append_ne_nil_of_right_ne_nil skipped hb
  simp only [rowSpan, List.head?_append_of_ne_nil a ha, List.getLast?_append_of_ne_nil a later,
    List.getLast?_append_of_ne_nil skipped hb, List.head?_eq_some_head ha,
    List.head?_eq_some_head hb, List.getLast?_eq_some_getLast ha, List.getLast?_eq_some_getLast hb]
  rfl

/-- A row runs from its first token to its last. -/
theorem exists_rowSpan (ha : a ≠ []) :
    ∃ first last, a.head? = some first ∧ a.getLast? = some last ∧
      rowSpan a = first.span.through last.span := by
  refine ⟨a.head ha, a.getLast ha, List.head?_eq_some_head ha, List.getLast?_eq_some_getLast ha, ?_⟩
  simp only [rowSpan, List.head?_eq_some_head ha, List.getLast?_eq_some_getLast ha]

theorem AreOrdered.sublist (h : AreOrdered b) (sub : a.Sublist b) : AreOrdered a :=
  ⟨fun t ht => h.nonempty t (sub.subset ht), h.inOrder.sublist sub⟩

/-- Every token of a row is within its place. -/
theorem AreOrdered.within (h : AreOrdered a) (ht : t ∈ a) :
    (rowSpan a).start ≤ t.span.start ∧ t.span.stop ≤ (rowSpan a).stop := by
  obtain ⟨first, last, hfirst, hlast, place⟩ := exists_rowSpan (List.ne_nil_of_mem ht)
  rw [place]
  constructor
  · obtain ⟨more, rfl⟩ := List.head?_eq_some_iff.mp hfirst
    rcases List.mem_cons.mp ht with rfl | later
    · exact Nat.le_refl _
    · have before := List.rel_of_pairwise_cons h.inOrder later
      exact Nat.le_trans (Nat.le_of_lt (h.nonempty first List.mem_cons_self)) before
  · obtain ⟨front, rfl⟩ := List.getLast?_eq_some_iff.mp hlast
    rcases List.mem_append.mp ht with earlier | here
    · have before := (List.pairwise_append.mp h.inOrder).2.2 t earlier last (by simp)
      exact Nat.le_trans before (Nat.le_of_lt (h.nonempty last (by simp)))
    · rw [List.mem_singleton.mp here]
      exact Nat.le_refl _

theorem AreOrdered.span_ne_point (h : AreOrdered a) (ht : t ∈ a) (offset : Nat) :
    t.span ≠ Span.point offset := by
  intro same
  have room := h.nonempty t ht
  rw [same] at room
  exact Nat.lt_irrefl offset room

/-- The tokens of a text take some room each and stand one after the other. -/
theorem areOrdered_scan (offset : Nat) (cs : List Char) :
    AreOrdered (Lexer.scan offset cs) ∧ ∀ t ∈ Lexer.scan offset cs, offset ≤ t.span.start := by
  induction offset, cs using Lexer.scan.induct with
  | case1 offset =>
      rw [Lexer.scan_nil]
      exact ⟨⟨List.forall_mem_nil _, .nil⟩, List.forall_mem_nil _⟩
  | case2 offset c cs lexeme stop ih =>
      obtain ⟨ordered, later⟩ := ih
      have room : offset < stop := by
        have written := List.ne_nil_of_length_pos (Lexer.piece_lexeme_pos c cs)
        have size : lexeme.utf8ByteSize ≠ 0 := fun empty =>
          written (String.ofList_eq_empty_iff.mp (String.utf8ByteSize_eq_zero_iff.mp empty))
        exact Nat.lt_add_of_pos_right (Nat.pos_of_ne_zero size)
      rw [Lexer.scan]
      refine ⟨⟨List.forall_mem_cons.mpr ⟨room, ordered.nonempty⟩, .cons later ordered.inOrder⟩, ?_⟩
      exact List.forall_mem_cons.mpr ⟨Nat.le_refl _, fun t ht =>
        Nat.le_trans (Nat.le_of_lt room) (later t ht)⟩

theorem areOrdered_visible (input : String) : AreOrdered ((scan input).filter (!·.isBlank)) :=
  (areOrdered_scan 0 input.toList).1.sublist List.filter_sublist

end Token

/-! ## Outlines -/

/-- The places of a tree: that of a node, and the outlines of its parts from left to right. -/
inductive Outline where
  | node (place : Span) (parts : List Outline)

namespace Outline

open Token

def place : Outline → Span
  | node place _ => place

def parts : Outline → List Outline
  | node _ parts => parts

mutual

/-- An outline and those of all nodes under it. -/
def nodes : Outline → List Outline
  | node place parts => node place parts :: nodesOfRow parts

/-- The nodes of a row of outlines. -/
def nodesOfRow : List Outline → List Outline
  | [] => []
  | part :: parts => part.nodes ++ nodesOfRow parts

end

mutual

/-- An outline runs from the first to the last of some tokens, and its parts are among them. -/
def Covers : Outline → List Token → Prop
  | node place parts, a => a ≠ [] ∧ place = rowSpan a ∧ AreAmong parts a

/-- Each outline covers some of the tokens in front of those of the next. -/
def AreAmong : List Outline → List Token → Prop
  | [], _ => True
  | part :: parts, a => ∃ skipped b c, a = skipped ++ (b ++ c) ∧ part.Covers b ∧ AreAmong parts c

end

/-- A node starts and ends with a token and is not empty, and its parts are within it, one after
the other. -/
structure IsPlaced (o : Outline) (tokens : List Token) : Prop where
  ends : ∃ first ∈ tokens, ∃ last ∈ tokens, o.place = first.span.through last.span
  nonempty : o.place.start < o.place.stop
  within : ∀ part ∈ o.parts, o.place.start ≤ part.place.start ∧ part.place.stop ≤ o.place.stop
  inOrder : o.parts.Pairwise fun p q => p.place.stop ≤ q.place.start

variable {o : Outline} {os os' : List Outline} {a b : List Token}

theorem Covers.nonempty (h : o.Covers a) : a ≠ [] := by
  cases o
  exact h.1

theorem Covers.place_eq (h : o.Covers a) : o.place = rowSpan a := by
  cases o
  exact h.2.1

theorem Covers.areAmong_parts (h : o.Covers a) : AreAmong o.parts a := by
  cases o
  exact h.2.2

/-- A token on its own is covered by its place. -/
theorem covers_singleton (t : Token) : (node t.span []).Covers [t] :=
  ⟨List.cons_ne_nil _ _, rfl, trivial⟩

theorem Covers.areAmong (h : o.Covers a) : AreAmong [o] a :=
  ⟨[], a, [], by simp, h, trivial⟩

theorem AreAmong.behind (h : AreAmong os a) (skipped : List Token) :
    AreAmong os (skipped ++ a) := by
  cases os with
  | nil => trivial
  | cons o os =>
      obtain ⟨before, b, c, rfl, covers, others⟩ := h
      exact ⟨skipped ++ before, b, c, by simp, covers, others⟩

theorem AreAmong.append (h : AreAmong os a) (h' : AreAmong os' b) :
    AreAmong (os ++ os') (a ++ b) := by
  induction os generalizing a with
  | nil => exact h'.behind a
  | cons o os ih =>
      obtain ⟨skipped, c, d, rfl, covers, others⟩ := h
      exact ⟨skipped, c, d ++ b, by simp, covers, ih others⟩

/-- A node that starts with a token of its own and ends as its only part does. -/
theorem Covers.behind (h : o.Covers a) (lead : Token) (skipped : List Token) :
    (node (lead.span.through o.place) [o]).Covers ([lead] ++ (skipped ++ a)) := by
  refine ⟨List.cons_ne_nil _ _, ?_, (h.areAmong.behind skipped).behind [lead]⟩
  rw [rowSpan_append skipped (List.cons_ne_nil lead []) h.nonempty, h.place_eq]
  rfl

/-- A node of two parts that starts as the first does and ends as the second. -/
theorem Covers.followedBy {o' : Outline} (h : o.Covers a) (between : List Token)
    (h' : o'.Covers b) :
    (node (o.place.through o'.place) [o, o']).Covers (a ++ (between ++ b)) := by
  refine ⟨List.append_ne_nil_of_left_ne_nil h.nonempty _, ?_,
    h.areAmong.append (h'.areAmong.behind between)⟩
  rw [rowSpan_append between h.nonempty h'.nonempty, h.place_eq, h'.place_eq]

/-! ### Over tokens in order -/

/-- Each of the parts starts and ends with a token. -/
theorem AreAmong.ends (h : AreAmong os a) :
    ∀ part ∈ os, ∃ first ∈ a, ∃ last ∈ a, part.place = first.span.through last.span := by
  induction os generalizing a with
  | nil => exact List.forall_mem_nil _
  | cons o os ih =>
      obtain ⟨skipped, b, c, rfl, covers, others⟩ := h
      refine List.forall_mem_cons.mpr ⟨?_, fun part hpart => ?_⟩
      · obtain ⟨first, last, hfirst, hlast, place⟩ := exists_rowSpan covers.nonempty
        exact ⟨first, by simp [List.mem_of_head? hfirst], last,
          by simp [List.mem_of_getLast? hlast], covers.place_eq.trans place⟩
      · obtain ⟨first, hfirst, last, hlast, place⟩ := ih others part hpart
        exact ⟨first, by simp [hfirst], last, by simp [hlast], place⟩

/-- The parts follow one another as their tokens do. -/
theorem AreAmong.inOrder (h : AreAmong os a) (ordered : AreOrdered a) :
    os.Pairwise fun p q => p.place.stop ≤ q.place.start := by
  induction os generalizing a with
  | nil => exact .nil
  | cons o os ih =>
      obtain ⟨skipped, b, c, rfl, covers, others⟩ := h
      have pair := ordered.sublist (List.sublist_append_right skipped (b ++ c))
      have before := (List.pairwise_append.mp pair.inOrder).2.2
      refine .cons (fun part hpart => ?_) (ih others (pair.sublist (List.sublist_append_right b c)))
      obtain ⟨_, last, -, hlast, run⟩ := exists_rowSpan covers.nonempty
      obtain ⟨first, hfirst, _, -, run'⟩ := others.ends part hpart
      rw [covers.place_eq, run, run']
      exact before last (List.mem_of_getLast? hlast) first hfirst

theorem Covers.isPlaced (h : o.Covers a) (ordered : AreOrdered a) : o.IsPlaced a where
  ends := by
    obtain ⟨first, last, hfirst, hlast, place⟩ := exists_rowSpan h.nonempty
    exact ⟨first, List.mem_of_head? hfirst, last, List.mem_of_getLast? hlast,
      h.place_eq.trans place⟩
  nonempty := by
    obtain ⟨t, ht⟩ := List.exists_mem_of_ne_nil a h.nonempty
    have within := ordered.within ht
    have room := ordered.nonempty t ht
    rw [h.place_eq]
    omega
  within := by
    intro part hpart
    obtain ⟨first, hfirst, last, hlast, place⟩ := h.areAmong_parts.ends part hpart
    rw [h.place_eq, place]
    exact ⟨(ordered.within hfirst).1, (ordered.within hlast).2⟩
  inOrder := h.areAmong_parts.inOrder ordered

theorem IsPlaced.among (h : o.IsPlaced a) (sub : a ⊆ b) : o.IsPlaced b where
  ends := by
    obtain ⟨first, hfirst, last, hlast, place⟩ := h.ends
    exact ⟨first, sub hfirst, last, sub hlast, place⟩
  nonempty := h.nonempty
  within := h.within
  inOrder := h.inOrder

mutual

/-- Over tokens in order every node is placed well. -/
theorem isPlaced_of_covers : (o : Outline) → {a : List Token} → o.Covers a → AreOrdered a →
    ∀ n ∈ o.nodes, n.IsPlaced a
  | node place parts, a, h, ordered => by
      rw [nodes]
      exact List.forall_mem_cons.mpr ⟨h.isPlaced ordered, isPlaced_of_areAmong parts h.2.2 ordered⟩

theorem isPlaced_of_areAmong : (os : List Outline) → {a : List Token} → AreAmong os a →
    AreOrdered a → ∀ n ∈ nodesOfRow os, n.IsPlaced a
  | [], _, _, _ => List.forall_mem_nil _
  | part :: parts, _, h, ordered => by
      obtain ⟨skipped, b, c, rfl, covers, others⟩ := h
      have here : (b ++ c).Sublist (skipped ++ (b ++ c)) := List.sublist_append_right _ _
      have first : b.Sublist (skipped ++ (b ++ c)) := (List.sublist_append_left b c).trans here
      have later : c.Sublist (skipped ++ (b ++ c)) := (List.sublist_append_right b c).trans here
      rw [nodesOfRow]
      intro n hn
      rcases List.mem_append.mp hn with hn | hn
      · exact (isPlaced_of_covers part covers (ordered.sublist first) n hn).among first.subset
      · exact (isPlaced_of_areAmong parts others (ordered.sublist later) n hn).among later.subset

end

end Outline

/-! ## Outlines of formulas -/

namespace Formula

open Outline

mutual

/-- The places of a formula. The whole number and the fraction of a mixed number are nodes of their
own, and so is an exponent. -/
def outline : Formula → Outline
  | literal _ span | symbol _ span => .node span []
  | fraction top bottom span => .node span [top.outline, bottom.outline]
  | mixed _ numeralSpan top bottom fractionSpan span =>
      .node span [.node numeralSpan [], .node fractionSpan [top.outline, bottom.outline]]
  | root _ inner span | group inner span | signed _ inner span => .node span [inner.outline]
  | power base _ exponentSpan span => .node span [base.outline, .node exponentSpan []]
  | product row span | sum row span => .node span (outlines row)

/-- The outlines of the formulas of a row. -/
def outlines : List Formula → List Outline
  | [] => []
  | f :: fs => f.outline :: outlines fs

end

/-- A formula covers some tokens: it runs from the first to the last, and its parts are among
them. -/
def Covers (f : Formula) (a : List Token) : Prop :=
  f.outline.Covers a

/-- The formulas of a row cover some tokens, up to signs between them. -/
inductive RowCovers : List Formula → List Token → Prop
  | single {f : Formula} {a : List Token} : f.Covers a → RowCovers [f] a
  | cons {f : Formula} {fs : List Formula} {a b : List Token} (between : List Token) :
      f.Covers a → RowCovers fs b → RowCovers (f :: fs) (a ++ (between ++ b))

variable {f : Formula} {fs : List Formula} {a : List Token}

theorem place_outline (f : Formula) : f.outline.place = f.span := by
  cases f <;> rfl

theorem Covers.nonempty (h : f.Covers a) : a ≠ [] :=
  Outline.Covers.nonempty h

theorem Covers.span_eq (h : f.Covers a) : f.span = Token.rowSpan a := by
  rw [← place_outline, Outline.Covers.place_eq h]

theorem RowCovers.nonempty (h : RowCovers fs a) : fs ≠ [] ∧ a ≠ [] := by
  cases h with
  | single covers => exact ⟨List.cons_ne_nil _ _, covers.nonempty⟩
  | cons between covers others =>
      exact ⟨List.cons_ne_nil _ _, List.append_ne_nil_of_left_ne_nil covers.nonempty _⟩

theorem RowCovers.areAmong (h : RowCovers fs a) : AreAmong (outlines fs) a := by
  induction h with
  | single covers => exact ⟨[], _, [], by simp, covers, trivial⟩
  | cons between covers others ih => exact ⟨[], _, _, rfl, covers, ih.behind between⟩

theorem rowSpan_cons (f : Formula) (more : fs ≠ []) :
    rowSpan (f :: fs) = f.span.through (rowSpan fs) := by
  obtain ⟨g, fs, rfl⟩ := List.exists_cons_of_ne_nil more
  simp only [rowSpan, List.head?_cons, List.getLast?_cons_cons,
    List.getLast?_eq_some_getLast (List.cons_ne_nil g fs)]
  rfl

theorem RowCovers.span_eq (h : RowCovers fs a) : rowSpan fs = Token.rowSpan a := by
  induction h with
  | single covers => exact covers.span_eq
  | cons between covers others ih =>
      rw [rowSpan_cons _ others.nonempty.1, covers.span_eq, ih,
        Token.rowSpan_append between covers.nonempty others.nonempty.2]

/-- A product covers what its factors do. -/
theorem RowCovers.ofFactors (h : RowCovers fs a) : (ofFactors fs).Covers a := by
  cases h with
  | single covers => exact covers
  | cons between covers others =>
      obtain ⟨g, fs, rfl⟩ := List.exists_cons_of_ne_nil others.nonempty.1
      have row := RowCovers.cons between covers others
      exact ⟨row.nonempty.2, row.span_eq, row.areAmong⟩

/-- A sum covers what its terms do. -/
theorem RowCovers.ofTerms (h : RowCovers fs a) : (ofTerms fs).Covers a := by
  cases h with
  | single covers => exact covers
  | cons between covers others =>
      obtain ⟨g, fs, rfl⟩ := List.exists_cons_of_ne_nil others.nonempty.1
      have row := RowCovers.cons between covers others
      exact ⟨row.nonempty.2, row.span_eq, row.areAmong⟩

end Formula

/-- The places of a statement. The sides of an equation are its parts. -/
def Statement.outline : Statement → Outline
  | formula f => f.outline
  | equation left right span => .node span [left.outline, right.outline]

theorem Statement.place_outline (s : Statement) : s.outline.place = s.span := by
  cases s with
  | formula f => exact f.place_outline
  | equation left right span => rfl

end StepAlgebra
