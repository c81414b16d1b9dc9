/-!
# Grouping

Items are sorted into classes by a test for being related. Each joins the first class whose first
member it is related to, or starts a class of its own, so the order of the items is kept inside
each class and among the first members.
-/

namespace StepAlgebra

/-- One or more items, in order. -/
structure Class (α : Type) where
  first : α
  others : List α := []

namespace Class

variable {α : Type}

/-- All members of a class, in order. -/
def members (c : Class α) : List α :=
  c.first :: c.others

/-- The class with another member at the end. -/
def push (c : Class α) (item : α) : Class α :=
  { c with others := c.others ++ [item] }

/-- Puts an item into the first class whose first member it is related to. -/
def insert (related : α → α → Bool) (item : α) : List (Class α) → List (Class α)
  | [] => [⟨item, []⟩]
  | c :: cs => if related c.first item then c.push item :: cs else c :: insert related item cs

/-- Sorts items into classes. -/
def group (related : α → α → Bool) (items : List α) : List (Class α) :=
  items.foldl (fun classes item => insert related item classes) []

/-- Joins the members of a class into one from left to right. -/
def join {ε : Type} (step : α → α → Except ε α) (c : Class α) : Except ε α :=
  c.others.foldlM step c.first

end Class

end StepAlgebra
