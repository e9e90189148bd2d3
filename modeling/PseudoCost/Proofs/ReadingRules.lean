import PseudoCost.Token.Reading

/-!
# Rules for readers

`Reads r c c' Q` says that a reader succeeds: from the cursor `c` it gives a value that satisfies
`Q` and leaves the cursor `c'`. There is one rule for sequencing, `Reads.bind`; a primitive reader
at the front of a sequence is carried out by rewriting, so that a reader over known tokens runs in
a proof as far as the next reader that is not primitive.
-/

namespace PseudoCost

open Reading

/-- From the cursor `c` the reader gives a value that satisfies `Q` and leaves the cursor `c'`. -/
def Reads {α : Type} (r : Reading α) (c c' : Token.Cursor) (Q : α → Prop) : Prop :=
  ∃ a, r.run c = .ok (a, c') ∧ Q a

/-! ## Cursors -/

namespace Token.Cursor

variable (t u : Token) (ts : List Token) (stop : Token)

@[simp] theorem peek_cons : (⟨t :: ts, stop⟩ : Cursor).peek = t := rfl

@[simp] theorem kind_cons : (⟨t :: ts, stop⟩ : Cursor).kind = t.kind := rfl

@[simp] theorem kind_nil : (⟨[], stop⟩ : Cursor).kind = stop.kind := rfl

@[simp] theorem nextKind_cons : (⟨t :: u :: ts, stop⟩ : Cursor).nextKind = u.kind := rfl

@[simp] theorem advance_cons : (⟨t :: ts, stop⟩ : Cursor).advance = ⟨ts, stop⟩ := rfl

/-- The cursor after all tokens of some kinds that stand in front. -/
def skipAll (c : Cursor) (kinds : List Kind) : Cursor :=
  { c with rest := c.rest.dropWhile (kinds.contains ·.kind) }

theorem skipAll_of_not_mem {c : Cursor} {kinds : List Kind} (h : c.kind ∉ kinds) :
    c.skipAll kinds = c := by
  obtain ⟨ts, stop⟩ := c
  cases ts with
  | nil => rfl
  | cons t ts => rw [skipAll, List.dropWhile_cons_of_neg (by simpa using h)]

theorem skipAll_of_mem {c : Cursor} {kinds : List Kind} (h : c.kind ∈ kinds) :
    c.skipAll kinds = c.advance.skipAll kinds := by
  obtain ⟨ts, stop⟩ := c
  cases ts with
  | nil => rfl
  | cons t ts =>
      rw [skipAll, List.dropWhile_cons_of_pos (by simpa using h)]
      rfl

theorem kind_skipAll {c : Cursor} {kinds : List Kind} (hkinds : .eof ∉ kinds)
    (hstop : c.stop.kind = .eof) : (c.skipAll kinds).kind ∉ kinds := by
  obtain ⟨ts, stop⟩ := c
  induction ts with
  | nil =>
      rw [skipAll, List.dropWhile_nil, kind_nil, hstop]
      exact hkinds
  | cons t ts ih =>
      by_cases hmem : t.kind ∈ kinds
      · rw [skipAll_of_mem hmem]
        exact ih hstop
      · rwa [skipAll_of_not_mem hmem]

theorem ofTokens_append {ts : List Token} {stop : Token} (hts : ∀ t ∈ ts, t.kind ≠ .eof)
    (hstop : stop.kind = .eof) : ofTokens (ts ++ [stop]) = ⟨ts, stop⟩ := by
  have hrest : (ts ++ [stop]).takeWhile (·.kind != .eof) = ts := by
    rw [List.takeWhile_append_of_pos (by simpa using hts)]
    simp [hstop]
  have hfind : (ts ++ [stop]).find? (·.kind == .eof) = some stop := by
    rw [List.find?_append, List.find?_eq_none.mpr (by simpa using hts)]
    simp [hstop]
  rw [ofTokens, hrest, hfind]
  rfl

end Token.Cursor

/-! ## Sequencing -/

section Rules

variable {α β : Type} {r : Reading α} {f : α → Reading β} {c c' c'' : Token.Cursor}
  {Q : α → Prop} {P : β → Prop}

theorem run_bind_ok {a : α} (h : r.run c = .ok (a, c')) :
    (r >>= f).run c = (f a).run c' := by
  rw [StateT.run_bind, h]
  rfl

namespace Reads

theorem pure {a : α} (h : Q a) : Reads (Pure.pure a) c c Q := ⟨a, rfl, h⟩

theorem bind (hr : Reads r c c' Q) (hf : ∀ a, Q a → Reads (f a) c' c'' P) :
    Reads (r >>= f) c c'' P := by
  obtain ⟨a, hrun, ha⟩ := hr
  obtain ⟨b, hrun', hb⟩ := hf a ha
  exact ⟨b, by rw [run_bind_ok hrun, hrun'], hb⟩

theorem imp {Q' : α → Prop} (hr : Reads r c c' Q) (h : ∀ a, Q a → Q' a) : Reads r c c' Q' := by
  obtain ⟨a, hrun, ha⟩ := hr
  exact ⟨a, hrun, h a ha⟩

end Reads

/-! ## Primitive readers in front -/

@[simp] theorem reads_pure_iff {a : α} : Reads (pure a) c c' Q ↔ c' = c ∧ Q a := by
  constructor
  · rintro ⟨b, hrun, hb⟩
    obtain ⟨rfl, rfl⟩ : a = b ∧ c = c' := by
      rw [StateT.run_pure] at hrun
      simpa using Except.ok.inj hrun
    exact ⟨rfl, hb⟩
  · rintro ⟨rfl, ha⟩
    exact Reads.pure ha

/-- A primitive reader at the front of a sequence hands its value on. -/
theorem reads_bind_iff {a : α} (h : r.run c = .ok (a, c')) :
    Reads (r >>= f) c c'' P ↔ Reads (f a) c' c'' P := by
  rw [Reads, Reads, run_bind_ok h]

@[simp] theorem reads_kind_bind {f : Token.Kind → Reading β} :
    Reads (kind >>= f) c c' P ↔ Reads (f c.kind) c c' P := reads_bind_iff rfl

@[simp] theorem reads_nextKind_bind {f : Token.Kind → Reading β} :
    Reads (nextKind >>= f) c c' P ↔ Reads (f c.nextKind) c c' P := reads_bind_iff rfl

@[simp] theorem reads_peek_bind {f : Token → Reading β} :
    Reads (peek >>= f) c c' P ↔ Reads (f c.peek) c c' P := reads_bind_iff rfl

@[simp] theorem reads_remaining_bind {f : Nat → Reading β} :
    Reads (remaining >>= f) c c' P ↔ Reads (f c.rest.length) c c' P := reads_bind_iff rfl

@[simp] theorem reads_take_bind {f : Token → Reading β} :
    Reads (take >>= f) c c' P ↔ Reads (f c.peek) c.advance c' P := reads_bind_iff rfl

theorem run_accept {k : Token.Kind} (h : c.kind = k) :
    (accept k).run c = .ok (true, c.advance) := by
  rw [accept, run_bind_ok (rfl : kind.run c = .ok (c.kind, c)), if_pos h]
  rfl

theorem run_accept_of_ne {k : Token.Kind} (h : c.kind ≠ k) : (accept k).run c = .ok (false, c) := by
  rw [accept, run_bind_ok (rfl : kind.run c = .ok (c.kind, c)), if_neg h]
  rfl

theorem run_expect {k : Token.Kind} {expected : Text} (h : c.kind = k) :
    (expect k expected).run c = .ok (c.peek, c.advance) := by
  rw [expect, run_bind_ok (rfl : kind.run c = .ok (c.kind, c)), if_pos h]
  rfl

@[simp] theorem reads_accept_bind {k : Token.Kind} {f : Bool → Reading β} (h : c.kind = k) :
    Reads (accept k >>= f) c c' P ↔ Reads (f true) c.advance c' P := reads_bind_iff (run_accept h)

@[simp] theorem reads_reject_bind {k : Token.Kind} {f : Bool → Reading β} (h : c.kind ≠ k) :
    Reads (accept k >>= f) c c' P ↔ Reads (f false) c c' P := reads_bind_iff (run_accept_of_ne h)

@[simp] theorem reads_expect_bind {k : Token.Kind} {expected : Text} {f : Token → Reading β}
    (h : c.kind = k) : Reads (expect k expected >>= f) c c' P ↔ Reads (f c.peek) c.advance c' P :=
  reads_bind_iff (run_expect h)

/-! ## Skipping -/

variable {kinds : List Token.Kind}

/-- Each round of skipping takes a token, up to one of another kind. -/
theorem run_skipWithin (h : (c.skipAll kinds).kind ∉ kinds) {fuel : Nat}
    (hfuel : c.rest.length < fuel) :
    (skipWithin kinds fuel).run c = .ok ((), c.skipAll kinds) := by
  induction fuel generalizing c with
  | zero => exact absurd hfuel (Nat.not_lt_zero _)
  | succ fuel ih =>
      rw [skipWithin, run_bind_ok (rfl : kind.run c = .ok (c.kind, c))]
      by_cases hmem : c.kind ∈ kinds
      · obtain ⟨ts, stop⟩ := c
        cases ts with
        | nil => exact absurd hmem h
        | cons t ts =>
            rw [if_pos hmem, Token.Cursor.skipAll_of_mem hmem]
            rw [Token.Cursor.skipAll_of_mem hmem] at h
            exact ih h (Nat.lt_of_succ_lt_succ hfuel)
      · rw [if_neg hmem, Token.Cursor.skipAll_of_not_mem hmem]
        rfl

theorem reads_skipAll_bind (h : (c.skipAll kinds).kind ∉ kinds) {f : Unit → Reading β} :
    Reads (skipAll kinds >>= f) c c' P ↔ Reads (f ()) (c.skipAll kinds) c' P :=
  reads_bind_iff (run_skipWithin h (Nat.lt_succ_self _))

/-- Skipping ends at the end of the input at the latest. -/
theorem run_skipAll (hkinds : .eof ∉ kinds) (hstop : c.stop.kind = .eof) :
    (skipAll kinds).run c = .ok ((), c.skipAll kinds) :=
  run_skipWithin (Token.Cursor.kind_skipAll hkinds hstop) (Nat.lt_succ_self _)

/-! ## Primitive readers alone -/

@[simp] theorem reads_map_iff {g : α → β} :
    Reads (g <$> r) c c' P ↔ Reads r c c' fun a => P (g a) := by
  rw [map_eq_pure_bind]
  constructor
  · rintro ⟨b, hrun, hb⟩
    cases h : r.run c with
    | error e =>
        rw [StateT.run_bind, h] at hrun
        cases hrun
    | ok ad =>
        rw [run_bind_ok h] at hrun
        obtain ⟨rfl, rfl⟩ : g ad.1 = b ∧ ad.2 = c' := by
          rw [StateT.run_pure] at hrun
          simpa using Except.ok.inj hrun
        exact ⟨ad.1, h, hb⟩
  · exact fun h => h.bind fun a ha => Reads.pure ha

@[simp] theorem reads_take_iff {Q : Token → Prop} :
    Reads take c c' Q ↔ c' = c.advance ∧ Q c.peek := by
  rw [← bind_pure take, reads_take_bind, reads_pure_iff]

@[simp] theorem reads_expect_iff {k : Token.Kind} {expected : Text} {Q : Token → Prop}
    (h : c.kind = k) : Reads (expect k expected) c c' Q ↔ c' = c.advance ∧ Q c.peek := by
  rw [← bind_pure (expect k expected), reads_expect_bind h, reads_pure_iff]

end Rules

end PseudoCost
