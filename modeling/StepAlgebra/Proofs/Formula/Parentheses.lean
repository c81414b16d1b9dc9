import StepAlgebra.Proofs.Formula.Blame

/-!
# Which parentheses are blamed

A text can be refused for an opening parenthesis that is never closed, or for a closing one that
closes nothing. The reader decides this by the next token, while whether parentheses match depends
on all tokens. So a parenthesis that is blamed has no match, or the reading came to a halt between
it and its match: behind a sum that does not go on, or behind a sign, a `*` or an opening
parenthesis that no product follows.

* `Token.depth` — how many parentheses are open;
* `Token.IsPair` — an opening and a closing parenthesis that match;
* `Grammar.Derives.depth_eq` — what is derived is balanced;
* `Value.blamed_parentheses` — the parentheses that a refusal points at;
* `Value.exists_matched_parenthesis_blamed` — some of them do match.
-/

namespace StepAlgebra

namespace Token

/-- The number of open parentheses behind a token, if so many are open in front of it; there is
none behind a parenthesis that closes nothing. -/
def turn (n : Nat) (t : Token) : Option Nat :=
  match t.kind with
  | .openParen => some (n + 1)
  | .closeParen => if n = 0 then none else some (n - 1)
  | _ => some n

/-- The number of open parentheses behind a row of tokens. -/
def depth (n : Nat) (row : List Token) : Option Nat :=
  row.foldlM turn n

/-- Every parenthesis of a row matches another. -/
def IsBalanced (row : List Token) : Prop :=
  depth 0 row = some 0

/-- Two parentheses match: the row between them is balanced. -/
def IsPair (tokens : List Token) (opening : Token) (inside : List Token) (closing : Token) : Prop :=
  ∃ before after, tokens = before ++ opening :: (inside ++ closing :: after) ∧
    opening.kind = .openParen ∧ closing.kind = .closeParen ∧ IsBalanced inside

/-- An opening parenthesis stands at a place, and no closing one matches it. -/
def IsUnclosed (tokens : List Token) (place : Span) : Prop :=
  ∃ opening ∈ tokens, opening.kind = .openParen ∧ opening.span = place ∧
    ∀ inside closing, ¬ IsPair tokens opening inside closing

/-- A closing parenthesis stands at a place, and no opening one matches it. -/
def IsUnopened (tokens : List Token) (place : Span) : Prop :=
  ∃ closing ∈ tokens, closing.kind = .closeParen ∧ closing.span = place ∧
    ∀ opening inside, ¬ IsPair tokens opening inside closing

variable {a b inside after tokens : List Token} {t opening closing : Token} {n m : Nat}

@[simp] theorem depth_nil (n : Nat) : depth n [] = some n :=
  rfl

@[simp] theorem depth_cons (n : Nat) (t : Token) (a : List Token) :
    depth n (t :: a) = (turn n t).bind (depth · a) :=
  rfl

@[simp] theorem depth_append (n : Nat) (a b : List Token) :
    depth n (a ++ b) = (depth n a).bind (depth · b) :=
  List.foldlM_append

theorem turn_of_openParen (h : t.kind = .openParen) (n : Nat) : turn n t = some (n + 1) := by
  simp only [turn, h]

theorem turn_of_closeParen (h : t.kind = .closeParen) (n : Nat) : turn (n + 1) t = some n := by
  simp only [turn, h]
  rfl

theorem turn_zero_of_closeParen (h : t.kind = .closeParen) : turn 0 t = none := by
  simp only [turn, h]
  rfl

theorem turn_of_ne (hopen : t.kind ≠ .openParen) (hclose : t.kind ≠ .closeParen) (n : Nat) :
    turn n t = some n := by
  unfold turn
  split
  · next h => exact absurd h hopen
  · next h => exact absurd h hclose
  · rfl

theorem turn_of_isSign (h : t.IsSign) (n : Nat) : turn n t = some n := by
  rcases h with h | h <;> exact turn_of_ne (by simp [h]) (by simp [h]) n

/-- More open parentheses in front of a row are more behind it. -/
theorem depth_add (h : depth n a = some m) (k : Nat) : depth (n + k) a = some (m + k) := by
  induction a generalizing n with
  | nil => rw [Option.some.inj h, depth_nil]
  | cons t a ih =>
      rw [depth_cons] at h ⊢
      obtain ⟨l, hturn, later⟩ := Option.bind_eq_some_iff.mp h
      have shifted : turn (n + k) t = some (l + k) := by
        by_cases hopen : t.kind = .openParen
        · rw [turn_of_openParen hopen] at hturn ⊢
          rw [← Option.some.inj hturn]
          congr 1
          omega
        by_cases hclose : t.kind = .closeParen
        · cases n with
          | zero =>
              rw [turn_zero_of_closeParen hclose] at hturn
              cases hturn
          | succ n =>
              rw [turn_of_closeParen hclose] at hturn
              rw [← Option.some.inj hturn, Nat.succ_add, turn_of_closeParen hclose]
        · rw [turn_of_ne hopen hclose] at hturn ⊢
          rw [Option.some.inj hturn]
      rw [shifted, Option.bind_some]
      exact ih later

theorem isBalanced_nil : IsBalanced [] :=
  rfl

/-- A balanced row leaves the number of open parentheses as it is. -/
theorem IsBalanced.depth_eq (h : IsBalanced a) (n : Nat) : depth n a = some n := by
  simpa using depth_add h n

/-- Behind a row with an open parenthesis that is not closed in it, some are open. -/
theorem not_isBalanced_of_open (hopening : opening.kind = .openParen) (h : IsBalanced inside) :
    ¬ IsBalanced (a ++ opening :: inside) := by
  intro balanced
  rw [IsBalanced, depth_append, Option.bind_eq_some_iff] at balanced
  obtain ⟨n, -, later⟩ := balanced
  rw [depth_cons, turn_of_openParen hopening, Option.bind_some, h.depth_eq] at later
  cases later

/-- No parenthesis in a balanced row closes what stands in front of it. -/
theorem not_isBalanced_of_close (hclosing : closing.kind = .closeParen) (h : IsBalanced a) :
    ¬ IsBalanced (a ++ closing :: b) := by
  intro balanced
  rw [IsBalanced, depth_append, h, Option.bind_some, depth_cons,
    turn_zero_of_closeParen hclosing] at balanced
  cases balanced

/-- What follows the start of a row inside two parentheses, if both are balanced. -/
theorem exists_inside_of_balanced (ha : IsBalanced a) (hinside : IsBalanced inside)
    (hclosing : closing.kind = .closeParen) (h : a ++ b = inside ++ closing :: after) :
    ∃ m, inside = a ++ m ∧ b = m ++ closing :: after := by
  rcases List.append_eq_append_iff.mp h with ⟨m, rfl, hb⟩ | ⟨m, rfl, hafter⟩
  · exact ⟨m, rfl, hb⟩
  · cases m with
    | nil => exact ⟨[], by simp, by simpa using hafter.symm⟩
    | cons t m =>
        obtain ⟨rfl, -⟩ := List.cons.inj hafter
        exact absurd ha (not_isBalanced_of_close hclosing hinside)

/-! ## Places of parentheses -/

theorem AreOrdered.nodup_spans (h : AreOrdered tokens) : (tokens.map span).Nodup := by
  refine List.pairwise_map.mpr (h.inOrder.imp_of_mem ?_)
  intro t u ht _ before same
  have room := h.nonempty t ht
  rw [same] at room before
  exact Nat.not_le_of_lt room before

/-- A token of a text is known by its place. -/
theorem AreOrdered.eq_of_span_eq {u : Token} (h : AreOrdered tokens) (ht : t ∈ tokens)
    (hu : u ∈ tokens) (same : t.span = u.span) : t = u :=
  List.inj_on_of_nodup_map h.nodup_spans ht hu same

/-- A token of a text stands there once. -/
theorem AreOrdered.split_unique {a' b' : List Token} (h : AreOrdered (a ++ t :: b))
    (same : a ++ t :: b = a' ++ t :: b') : a = a' ∧ b = b' := by
  have once := List.nodup_middle.mp (same ▸ List.Nodup.of_map _ h.nodup_spans)
  have apart : t ∉ a' ++ b' := (List.nodup_cons.mp once).1
  rw [List.mem_append, not_or] at apart
  obtain ⟨front, -, back⟩ := (List.append_cons_inj_of_notMem apart.1 apart.2).mp same.symm
  exact ⟨front.symm, back.symm⟩

end Token

/-! ## What is derived -/

/-- The parentheses that are derived match. -/
theorem Grammar.Derives.depth_eq {k : Production} {a : List Token} (h : Derives k a) (n : Nat) :
    Token.depth n a = some n := by
  induction h generalizing n with
  | group hopening _ hclosing ih | numericGroup hopening _ hclosing ih =>
      -- the closing parenthesis takes back what the opening one adds
      rw [Token.depth_cons, Token.turn_of_openParen hopening, Option.bind_some,
        Token.depth_append, ih, Option.bind_some, Token.depth_cons,
        Token.turn_of_closeParen hclosing, Option.bind_some, Token.depth_nil]
  | signedSum hsign _ _ ih ih' | term hsign _ _ ih ih' =>
      rw [Token.depth_cons, Token.turn_of_isSign hsign, Option.bind_some, Token.depth_append, ih,
        Option.bind_some, ih']
  | signed hsign _ ih => rw [Token.depth_cons, Token.turn_of_isSign hsign, Option.bind_some, ih]
  | _ => simp_all [Token.turn]

theorem Grammar.Derives.isBalanced {k : Production} {a : List Token} (h : Derives k a) :
    Token.IsBalanced a :=
  h.depth_eq 0

/-! ## What is blamed -/

namespace Token

open Grammar Cursor

variable {a b inside tokens : List Token} {opening closing : Token}

/-- A parenthesis with a match is not unclosed. -/
theorem IsPair.not_isUnclosed (h : IsPair tokens opening inside closing)
    (ordered : AreOrdered tokens) : ¬ IsUnclosed tokens opening.span := by
  have shape := h
  obtain ⟨before, after, split, -⟩ := shape
  rintro ⟨t, ht, -, same, none⟩
  rw [ordered.eq_of_span_eq ht (by simp [split]) same] at none
  exact none inside closing h

theorem IsPair.not_isUnopened (h : IsPair tokens opening inside closing)
    (ordered : AreOrdered tokens) : ¬ IsUnopened tokens closing.span := by
  have shape := h
  obtain ⟨before, after, split, -⟩ := shape
  rintro ⟨t, ht, -, same, none⟩
  rw [ordered.eq_of_span_eq ht (by simp [split]) same] at none
  exact none opening inside h

/-- An opening parenthesis in front of a balanced row that no closing one follows has no match, or
something else follows the row inside the group. -/
theorem isUnclosed_or_exists_stopper (ordered : AreOrdered tokens)
    (split : tokens = a ++ opening :: (inside ++ b)) (hopening : opening.kind = .openParen)
    (balanced : IsBalanced inside) (ends : Ends stoppers b) :
    IsUnclosed tokens opening.span ∨ ∃ stopper rest closing,
      IsPair tokens opening (inside ++ stopper :: rest) closing ∧ stopper.kind ∈ stoppers := by
  by_cases none : ∀ inside closing, ¬ IsPair tokens opening inside closing
  · exact .inl ⟨opening, by simp [split], hopening, rfl, none⟩
  · push Not at none
    obtain ⟨group, closing, pair⟩ := none
    have shape := pair
    obtain ⟨before, after, split', -, hclosing, balanced'⟩ := shape
    subst split
    obtain ⟨-, follow⟩ := ordered.split_unique split'
    obtain ⟨m, rfl, rfl⟩ := exists_inside_of_balanced balanced balanced' hclosing follow
    cases m with
    | nil =>
        have stops := ends closing rfl
        rw [hclosing] at stops
        exact absurd stops (by decide)
    | cons stopper m => exact .inr ⟨stopper, m, closing, pair, ends stopper rfl⟩

/-- A closing parenthesis has no match if everything in front of it is balanced. Where a product has
to follow it may have one, and then the group is empty or ends with a sign or a `*`. -/
theorem isUnopened_or_exists_opening (ordered : AreOrdered tokens)
    (split : tokens = a ++ closing :: b) (hclosing : closing.kind = .closeParen)
    (front : IsBalanced a ∨ ∀ t ∈ a.getLast?, t.kind ∈ leads) :
    IsUnopened tokens closing.span ∨ ∃ opening inside, IsPair tokens opening inside closing ∧
      ∀ t ∈ inside.getLast?, t.kind = .plus ∨ t.kind = .minus ∨ t.kind = .times := by
  by_cases none : ∀ opening inside, ¬ IsPair tokens opening inside closing
  · exact .inl ⟨closing, by simp [split], hclosing, rfl, none⟩
  · push Not at none
    obtain ⟨opening, inside, pair⟩ := none
    have shape := pair
    obtain ⟨before, after, split', hopening, -, balanced⟩ := shape
    subst split
    rw [← List.cons_append, ← List.append_assoc] at split'
    obtain ⟨rfl, -⟩ := ordered.split_unique split'
    refine .inr ⟨opening, inside, pair, fun t ht => ?_⟩
    rcases front with even | lead
    · exact absurd even (not_isBalanced_of_open hopening balanced)
    · obtain ⟨inner, rfl⟩ := List.getLast?_eq_some_iff.mp ht
      have among : t.kind ∈ leads :=
        lead t (List.getLast?_eq_some_iff.mpr ⟨before ++ opening :: inner, by simp⟩)
      have other : t.kind ≠ .openParen := fun hopen =>
        not_isBalanced_of_open hopen isBalanced_nil balanced
      simpa [leads, other] using among

end Token

namespace Grammar

open Token Cursor

variable {finish place : Span} {ts : List Token}

theorem Blames.exists_opening (h : Blames finish ts (.unclosedParen place)) :
    ∃ a opening inside b, ts = a ++ opening :: (inside ++ b) ∧ opening.kind = .openParen ∧
      opening.span = place ∧ Derives .sum inside ∧ Ends stoppers b := by
  cases h with
  | unclosedParen hopening derives ends => exact ⟨_, _, _, _, rfl, hopening, rfl, derives, ends⟩

theorem Blames.exists_closing {front : List Token} (h : Blames finish ts (.unopenedParen place))
    (even : IsBalanced front) :
    ∃ a closing b, front ++ ts = a ++ closing :: b ∧ closing.kind = .closeParen ∧
      closing.span = place ∧ (IsBalanced a ∨ ∀ t ∈ a.getLast?, t.kind ∈ leads) := by
  cases h with
  | @unopenedParen a b closing hclosing lead =>
      refine ⟨front ++ a, closing, b, by simp, hclosing, rfl, ?_⟩
      cases a with
      | nil => exact .inl (by simpa using even)
      | cons t a =>
          rw [List.getLast?_append_of_ne_nil front (List.cons_ne_nil t a)]
          exact .inr lead

theorem Refuses.exists_opening (h : Refuses finish ts (.unclosedParen place)) :
    ∃ a opening inside b, ts = a ++ opening :: (inside ++ b) ∧ opening.kind = .openParen ∧
      opening.span = place ∧ Derives .sum inside ∧ Ends stoppers b := by
  cases h with
  | left bad => exact bad.exists_opening
  | @right side _ equals _ _ _ bad =>
      obtain ⟨a, opening, inside, b, rfl, here⟩ := bad.exists_opening
      exact ⟨side ++ equals :: a, opening, inside, b, by simp, here⟩

theorem Refuses.exists_closing (h : Refuses finish ts (.unopenedParen place)) :
    ∃ a closing b, ts = a ++ closing :: b ∧ closing.kind = .closeParen ∧ closing.span = place ∧
      (IsBalanced a ∨ ∀ t ∈ a.getLast?, t.kind ∈ leads) := by
  cases h with
  | left bad => exact bad.exists_closing isBalanced_nil
  | @right side _ equals _ derives hequals bad =>
      have even : IsBalanced (side ++ [equals]) := by
        rw [IsBalanced, depth_append, derives.depth_eq, Option.bind_some, depth_cons,
          turn_of_ne (by simp [hequals]) (by simp [hequals])]
        rfl
      simpa using bad.exists_closing even
  | unopenedParen derives hclosing =>
      exact ⟨_, _, _, rfl, hclosing, rfl, .inl derives.isBalanced⟩

end Grammar

/-- An opening parenthesis that is blamed has no match, or else the sum behind it goes on with a
token that fits nowhere, in front of its match. A closing parenthesis that is blamed has no match,
or else the group that it closes is empty or ends with a sign or a `*`. -/
theorem Value.blamed_parentheses (input : String) (place : Span) :
    let tokens := (Token.scan input).filter (!·.isBlank)
    (Value.read input = .error (.unclosedParen place) →
      Token.IsUnclosed tokens place ∨ ∃ opening inside stopper rest closing,
        Token.IsPair tokens opening (inside ++ stopper :: rest) closing ∧ opening.span = place ∧
        Grammar.Derives .sum inside ∧ stopper.kind ∈ Cursor.stoppers) ∧
    (Value.read input = .error (.unopenedParen place) →
      Token.IsUnopened tokens place ∨ ∃ opening inside closing,
        Token.IsPair tokens opening inside closing ∧ closing.span = place ∧
        ∀ t ∈ inside.getLast?, t.kind = .plus ∨ t.kind = .minus ∨ t.kind = .times) := by
  intro tokens
  have ordered : Token.AreOrdered tokens := Token.areOrdered_visible input
  constructor
  · intro h
    obtain ⟨a, opening, inside, b, split, hopening, rfl, derives, ends⟩ :=
      (refuses_of_read h).exists_opening
    refine (Token.isUnclosed_or_exists_stopper ordered split hopening derives.isBalanced
      ends).imp_right ?_
    rintro ⟨stopper, rest, closing, pair, stops⟩
    exact ⟨opening, inside, stopper, rest, closing, pair, rfl, derives, stops⟩
  · intro h
    obtain ⟨a, closing, b, split, hclosing, rfl, front⟩ := (refuses_of_read h).exists_closing
    refine (Token.isUnopened_or_exists_opening ordered split hclosing front).imp_right ?_
    rintro ⟨opening, inside, pair, last⟩
    exact ⟨opening, inside, closing, pair, rfl, last⟩

/-- The parenthesis of `2(x+1` is never closed, that of `x)` never opened. -/
theorem Value.blamed_parentheses_of_unmatched :
    Value.read "2(x+1" = .error (.unclosedParen ⟨1, 2⟩) ∧
    Token.IsUnclosed ((Token.scan "2(x+1").filter (!·.isBlank)) ⟨1, 2⟩ ∧
    Value.read "x)" = .error (.unopenedParen ⟨1, 2⟩) ∧
    Token.IsUnopened ((Token.scan "x)").filter (!·.isBlank)) ⟨1, 2⟩ := by
  have unclosed : Value.read "2(x+1" = .error (.unclosedParen ⟨1, 2⟩) :=
    refusal?_eq_some_iff.mp (by decide +kernel)
  have unopened : Value.read "x)" = .error (.unopenedParen ⟨1, 2⟩) :=
    refusal?_eq_some_iff.mp (by decide +kernel)
  refine ⟨unclosed, ?_, unopened, ?_⟩
  · refine ((blamed_parentheses _ _).1 unclosed).resolve_right ?_
    rintro ⟨opening, inside, stopper, rest, closing, ⟨before, after, split, -, hclosing, -⟩, -⟩
    have none : ∀ t ∈ (Token.scan "2(x+1").filter (!·.isBlank), t.kind ≠ .closeParen := by
      decide +kernel
    exact none closing (by rw [split]; simp) hclosing
  · refine ((blamed_parentheses _ _).2 unopened).resolve_right ?_
    rintro ⟨opening, inside, closing, ⟨before, after, split, hopening, -⟩, -⟩
    have none : ∀ t ∈ (Token.scan "x)").filter (!·.isBlank), t.kind ≠ .openParen := by
      decide +kernel
    exact none opening (by rw [split]; simp) hopening

/-- The parentheses of `(x=y)` and of `()` match, but they are blamed. -/
theorem Value.exists_matched_parenthesis_blamed :
    (¬ ∀ (input : String) (place : Span), Value.read input = .error (.unclosedParen place) →
      Token.IsUnclosed ((Token.scan input).filter (!·.isBlank)) place) ∧
    ¬ ∀ (input : String) (place : Span), Value.read input = .error (.unopenedParen place) →
      Token.IsUnopened ((Token.scan input).filter (!·.isBlank)) place := by
  constructor
  · intro unclosed
    have tokens : (Token.scan "(x=y)").filter (!·.isBlank) = [⟨.openParen, "(", ⟨0, 1⟩⟩,
        ⟨.name, "x", ⟨1, 2⟩⟩, ⟨.equals, "=", ⟨2, 3⟩⟩, ⟨.name, "y", ⟨3, 4⟩⟩,
        ⟨.closeParen, ")", ⟨4, 5⟩⟩] := by decide +kernel
    have pair : Token.IsPair ((Token.scan "(x=y)").filter (!·.isBlank)) ⟨.openParen, "(", ⟨0, 1⟩⟩
        [⟨.name, "x", ⟨1, 2⟩⟩, ⟨.equals, "=", ⟨2, 3⟩⟩, ⟨.name, "y", ⟨3, 4⟩⟩]
        ⟨.closeParen, ")", ⟨4, 5⟩⟩ := ⟨[], [], tokens, rfl, rfl, rfl⟩
    refine pair.not_isUnclosed (Token.areOrdered_visible _) (unclosed "(x=y)" ⟨0, 1⟩ ?_)
    exact refusal?_eq_some_iff.mp (by decide +kernel)
  · intro unopened
    have tokens : (Token.scan "()").filter (!·.isBlank) =
        [⟨.openParen, "(", ⟨0, 1⟩⟩, ⟨.closeParen, ")", ⟨1, 2⟩⟩] := by decide +kernel
    have pair : Token.IsPair ((Token.scan "()").filter (!·.isBlank)) ⟨.openParen, "(", ⟨0, 1⟩⟩ []
        ⟨.closeParen, ")", ⟨1, 2⟩⟩ := ⟨[], [], tokens, rfl, rfl, rfl⟩
    refine pair.not_isUnopened (Token.areOrdered_visible _) (unopened "()" ⟨1, 2⟩ ?_)
    exact refusal?_eq_some_iff.mp (by decide +kernel)

end StepAlgebra
