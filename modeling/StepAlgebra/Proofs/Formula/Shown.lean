import StepAlgebra.Proofs.Formula.Cursor
import StepAlgebra.Proofs.Formula.Spelling

/-!
# What a cursor shows

A cursor shows the tokens in front of it that are not blank. What it reads depends on these alone,
and every one that it passes is taken off the front.

* `Cursor.Shows` — the tokens in front of a cursor;
* `Cursor.advance_gives_of_shows`, `Cursor.expect_gives_of_shows` — one token is passed;
* `Outcome.Passes` — which tokens were passed if an attempt succeeds.
-/

namespace StepAlgebra

namespace Cursor

variable {c : Cursor} {t : Token} {ts : List Token} {kind : TokenKind}

/-- The tokens in front of a cursor that are not blank, all spelled as their kinds are. -/
structure Shows (c : Cursor) (ts : List Token) : Prop where
  rest : c.rest.filter (!·.isBlank) = ts
  spelled : ∀ t ∈ ts, t.IsSpelled

theorem shows_ofText (input : String) :
    (ofText input).Shows ((Token.scan input).filter (!·.isBlank)) :=
  ⟨rfl, fun _ ht => Token.isSpelled_of_mem_scan (List.mem_filter.mp ht).1⟩

theorem Faces.shows {cs : List Char} (faces : c.Faces cs) :
    c.Shows (c.rest.filter (!·.isBlank)) := by
  obtain ⟨offset, hrest⟩ := faces
  refine ⟨rfl, fun t ht => ?_⟩
  rw [hrest] at ht
  exact Token.isSpelled_of_mem_scan (List.mem_filter.mp ht).1

theorem Shows.head_isSpelled (h : c.Shows (t :: ts)) : t.IsSpelled :=
  h.spelled t List.mem_cons_self

theorem Shows.visible (h : c.Shows ts) (ht : t ∈ ts) : t.kind ≠ .blank := by
  rw [← h.rest] at ht
  simpa [Token.isBlank] using (List.mem_filter.mp ht).2

theorem ahead_of_shows (h : c.Shows ts) : c.ahead = ts.head? := by
  rw [ahead, ← h.rest, List.head?_filter]

theorem span_of_shows_cons (h : c.Shows (t :: ts)) : c.span = t.span := by
  rw [Cursor.span, ahead_of_shows h]
  rfl

theorem span_of_shows_nil (h : c.Shows []) : c.span = c.finish := by
  rw [Cursor.span, ahead_of_shows h]
  rfl

theorem peek_of_shows (h : c.Shows ts) : c.peek = ts.head?.map Token.kind := by
  rw [peek, ahead_of_shows h]

theorem peek_of_shows_cons (h : c.Shows (t :: ts)) : c.peek = some t.kind :=
  peek_of_shows h

theorem peek_of_shows_nil (h : c.Shows []) : c.peek = none :=
  peek_of_shows h

theorem exists_cons_of_peek (h : c.Shows ts) (hpeek : c.peek = some kind) :
    ∃ t b, ts = t :: b ∧ t.kind = kind := by
  rw [peek_of_shows h, Option.map_eq_some_iff] at hpeek
  obtain ⟨t, ht, hkind⟩ := hpeek
  obtain ⟨b, rfl⟩ := List.head?_eq_some_iff.mp ht
  exact ⟨t, b, rfl, hkind⟩

theorem advance_fails_of_shows (h : c.Shows []) : c.advance.Fails := by
  -- by induction on the tokens that are left, all of them blank
  induction hn : c.remaining generalizing c with
  | zero =>
      rw [advance]
      split
      · trivial
      · next hrest =>
        rw [remaining, hrest] at hn
        cases hn
  | succ n ih =>
      rw [advance]
      split
      · trivial
      · next first rest hrest =>
        have hfilter := h.rest
        rw [hrest] at hfilter
        have blank : first.isBlank = true := by
          by_contra visible
          rw [List.filter_cons_of_pos (by simpa using visible)] at hfilter
          cases hfilter
        rw [List.filter_cons_of_neg (by simp [blank])] at hfilter
        have later : (c.past first rest).advance.Fails := by
          refine ih ⟨hfilter, List.forall_mem_nil _⟩ ?_
          simpa [remaining, past, hrest] using hn
        obtain ⟨cause, after, hadvance⟩ := later.eq_failed
        simp only [blank, if_true, hadvance]
        trivial

/-- The next token that is shown is passed. -/
theorem advance_gives_of_shows (h : c.Shows (t :: ts)) :
    c.advance.Gives fun token d => token = t ∧ d.Shows ts := by
  -- by induction on the tokens that are left, of which each blank takes one away
  induction hn : c.remaining generalizing c with
  | zero =>
      have hfilter := h.rest
      rw [List.eq_nil_of_length_eq_zero hn] at hfilter
      cases hfilter
  | succ n ih =>
      rw [advance]
      split
      · next hrest =>
        rw [remaining, hrest] at hn
        cases hn
      · next first rest hrest =>
        have hfilter := h.rest
        rw [hrest] at hfilter
        by_cases blank : first.isBlank = true
        · rw [List.filter_cons_of_neg (by simp [blank])] at hfilter
          have later : (c.past first rest).advance.Gives fun token d => token = t ∧ d.Shows ts := by
            refine ih ⟨hfilter, h.spelled⟩ ?_
            simpa [remaining, past, hrest] using hn
          obtain ⟨token, d, shorter, hadvance, here⟩ := later.eq_ok
          simp only [blank, if_true, hadvance]
          exact here
        · rw [List.filter_cons_of_pos (by simpa using blank)] at hfilter
          obtain ⟨rfl, hrest'⟩ := List.cons.inj hfilter
          simp only [blank, if_false, Bool.false_eq_true]
          exact ⟨rfl, hrest', fun t ht => h.spelled t (List.mem_cons_of_mem _ ht)⟩

/-- A token of the expected kind is passed. -/
theorem expect_gives_of_shows (h : c.Shows (t :: ts)) (hkind : t.kind = kind) :
    (c.expect kind).Gives fun token d => token = t ∧ d.Shows ts := by
  obtain ⟨token, d, shorter, hadvance, rfl, shows⟩ := (advance_gives_of_shows h).eq_ok
  simp only [expect, hadvance, hkind, if_true]
  exact ⟨rfl, shows⟩

end Cursor

namespace Outcome

variable {c : Cursor} {α β : Type} {ts : List Token} {o : Outcome c α}
  {good : α → List Token → Prop} {good' : β → List Token → Prop}

/-- If the attempt succeeds, it passed the first of these tokens, and they are good for the value
that was read. -/
def Passes (ts : List Token) (good : α → List Token → Prop) : Outcome c α → Prop
  | ok value after _ => ∃ a b, ts = a ++ b ∧ after.Shows b ∧ good value a
  | failed _ _ => True

theorem Passes.of_eq_ok {value : α} {after : Cursor} {shorter : after.remaining < c.remaining}
    (h : o.Passes ts good) (ho : o = .ok value after shorter) :
    ∃ a b, ts = a ++ b ∧ after.Shows b ∧ good value a := by
  rw [ho] at h
  exact h

theorem Passes.imp {weaker : α → List Token → Prop} (h : o.Passes ts good)
    (weaken : ∀ value a, good value a → weaker value a) : o.Passes ts weaker := by
  cases o with
  | ok value after shorter =>
      obtain ⟨a, b, split, shows, here⟩ := h
      exact ⟨a, b, split, shows, weaken value a here⟩
  | failed => trivial

theorem Passes.allows (h : o.Passes ts good) : o.Allows fun value _ => ∃ a, good value a := by
  cases o with
  | ok value after shorter =>
      obtain ⟨a, b, -, -, here⟩ := h
      exact ⟨a, here⟩
  | failed cause after => exact trivial

theorem Passes.map {f : α → β} (h : o.Passes ts fun value a => good' (f value) a) :
    (o.map f).Passes ts good' := by
  cases o <;> exact h

theorem Passes.orBack (h : o.Passes ts good) : o.orBack.Passes ts good := by
  cases o with
  | ok => exact h
  | failed => trivial

theorem Passes.orBlame (h : o.Passes ts good) (cause : ReadError) :
    (o.orBlame cause).Passes ts good := by
  cases o with
  | ok => exact h
  | failed => trivial

theorem Passes.orElse {second : Outcome c α} (h : o.Passes ts good)
    (h' : second.Passes ts good) : (o.orElse second).Passes ts good := by
  cases o with
  | ok => exact h
  | failed => exact h'

/-- A value is accepted only where nothing is shown after it. -/
theorem eq_ok_of_entire {value : α} (h : o.entire.toExcept = .ok value) :
    ∃ after shorter, o = .ok value after shorter ∧ after.peek = none := by
  cases o with
  | failed => cases h
  | ok value' after shorter =>
      simp only [entire] at h
      split at h
      · next hpeek => exact ⟨after, shorter, by rw [Except.ok.inj h], hpeek⟩
      · cases h
      · cases h

/-- A value that is accepted was read from all tokens that were shown. -/
theorem Passes.of_entire {value : α} (h : o.Passes ts good) (ho : o.entire.toExcept = .ok value) :
    good value ts := by
  obtain ⟨after, shorter, read, hpeek⟩ := eq_ok_of_entire ho
  obtain ⟨a, b, rfl, shows, here⟩ := h.of_eq_ok read
  rw [Cursor.peek_of_shows shows, Option.map_eq_none_iff, List.head?_eq_none_iff] at hpeek
  rw [hpeek, List.append_nil]
  exact here

/-- Two attempts pass the tokens of the first and then those of the second. -/
theorem Passes.andThen {f : α → (d : Cursor) → d.remaining < c.remaining → Outcome d β}
    (h : o.Passes ts good)
    (next : ∀ value d shorter a b, good value a → d.Shows b →
      (f value d shorter).Passes b fun result more => good' result (a ++ more)) :
    (o.andThen f).Passes ts good' := by
  cases o with
  | failed => trivial
  | ok value d shorter =>
      obtain ⟨a, b, rfl, shows, here⟩ := h
      have there := next value d shorter a b here shows
      simp only [Outcome.andThen]
      cases hsecond : f value d shorter with
      | failed => trivial
      | ok result after shorter' =>
          obtain ⟨a', b', rfl, shows', there⟩ := there.of_eq_ok hsecond
          exact ⟨a ++ a', b', (List.append_assoc a a' b').symm, shows', there⟩

end Outcome

namespace Cursor

variable {c : Cursor} {ts : List Token} {kind : TokenKind}

theorem advance_passes (h : c.Shows ts) :
    c.advance.Passes ts fun token a =>
      c.peek = some token.kind ∧ token.IsSpelled ∧ a = [token] := by
  cases ts with
  | nil =>
      obtain ⟨cause, after, hadvance⟩ := (advance_fails_of_shows h).eq_failed
      rw [hadvance]
      trivial
  | cons t ts =>
      obtain ⟨token, d, shorter, hadvance, rfl, shows⟩ := (advance_gives_of_shows h).eq_ok
      rw [hadvance]
      exact ⟨[token], ts, rfl, shows, peek_of_shows_cons h, h.head_isSpelled, rfl⟩

theorem expect_passes (h : c.Shows ts) (kind : TokenKind) :
    (c.expect kind).Passes ts fun token a =>
      token.kind = kind ∧ token.IsSpelled ∧ a = [token] := by
  unfold expect
  split
  · trivial
  · next token after shorter hadvance =>
    obtain ⟨a, b, rfl, shows, -, spelled, rfl⟩ := (advance_passes h).of_eq_ok hadvance
    split
    · next expected => exact ⟨[token], b, rfl, shows, expected, spelled, rfl⟩
    · trivial

end Cursor

end StepAlgebra
