import PseudoCost.Proofs.Forward

/-!
# The tokens a reading takes

A reading that succeeds takes some of the tokens in front and leaves the others. `Takes stop r S`
says that the tokens taken, the tokens left and the value are always in the relation `S`. Only the
tokens taken matter for most readers; the ones left matter where a reader looks at the next token.

A successful run of a sequence is taken apart from the front: `Takes.of_bind` for a reader whose
relation is known, and for a primitive reader rewriting, or the lemma that it found a token.
-/

namespace PseudoCost

open Reading

/-! ## Tokens in front -/

/-- A kind other than that of the end is seen on a token in front only. -/
theorem Token.Cursor.exists_cons {stop : Token} (hstop : stop.kind = .eof) {ts : List Token}
    {k : Token.Kind} (h : Token.Cursor.kind ⟨ts, stop⟩ = k) (hk : k ≠ .eof) :
    ∃ t us, ts = t :: us ∧ t.kind = k := by
  cases ts with
  | nil => exact absurd (h.symm.trans hstop) hk
  | cons t us => exact ⟨t, us, rfl, h⟩

section Runs

variable {α β : Type} {c : Token.Cursor}

@[simp] theorem run_kind_bind {f : Token.Kind → Reading β} :
    (kind >>= f).run c = (f c.kind).run c := rfl

@[simp] theorem run_nextKind_bind {f : Token.Kind → Reading β} :
    (nextKind >>= f).run c = (f c.nextKind).run c := rfl

@[simp] theorem run_peek_bind {f : Token → Reading β} :
    (peek >>= f).run c = (f c.peek).run c := rfl

@[simp] theorem run_remaining_bind {f : Nat → Reading β} :
    (remaining >>= f).run c = (f c.rest.length).run c := rfl

@[simp] theorem run_take_bind {f : Token → Reading β} :
    (take >>= f).run c = (f c.peek).run c.advance := rfl

theorem run_skipAll_bind {kinds : List Token.Kind} (hkinds : .eof ∉ kinds)
    (hstop : c.stop.kind = .eof) {f : Unit → Reading β} :
    (skipAll kinds >>= f).run c = (f ()).run (c.skipAll kinds) :=
  run_bind_ok (run_skipAll hkinds hstop)

theorem run_pure_ok {a b : α} {d : Token.Cursor} :
    (pure a : Reading α).run c = .ok (b, d) ↔ b = a ∧ d = c := by
  rw [StateT.run_pure]
  constructor
  · intro h
    cases h
    exact ⟨rfl, rfl⟩
  · rintro ⟨rfl, rfl⟩
    rfl

theorem run_fail_ne {expected : Text} {b : β} {d : Token.Cursor} :
    (fail expected : Reading β).run c ≠ .ok (b, d) := nofun

variable {stop : Token} {ts : List Token}

/-- An expected token was found in front. -/
theorem exists_of_run_expect (hstop : stop.kind = .eof) {k : Token.Kind} (hk : k ≠ .eof)
    {expected : Text} {f : Token → Reading β} {b : β} {d : Token.Cursor}
    (h : (expect k expected >>= f).run ⟨ts, stop⟩ = .ok (b, d)) :
    ∃ t us, ts = t :: us ∧ t.kind = k ∧ (f t).run ⟨us, stop⟩ = .ok (b, d) := by
  by_cases hkind : Token.Cursor.kind ⟨ts, stop⟩ = k
  · obtain ⟨t, us, rfl, ht⟩ := Token.Cursor.exists_cons hstop hkind hk
    rw [run_bind_ok (run_expect hkind)] at h
    exact ⟨t, us, rfl, ht, h⟩
  · obtain ⟨a, e, hrun, -⟩ := exists_of_run_bind h
    rw [expect, run_kind_bind, if_neg hkind] at hrun
    exact absurd hrun run_fail_ne

/-- A token in question was found in front, or nothing was taken. -/
theorem exists_of_run_accept (hstop : stop.kind = .eof) {k : Token.Kind} (hk : k ≠ .eof)
    {f : Bool → Reading β} {b : β} {d : Token.Cursor}
    (h : (accept k >>= f).run ⟨ts, stop⟩ = .ok (b, d)) :
    (∃ t us, ts = t :: us ∧ t.kind = k ∧ (f true).run ⟨us, stop⟩ = .ok (b, d))
      ∨ Token.Cursor.kind ⟨ts, stop⟩ ≠ k ∧ (f false).run ⟨ts, stop⟩ = .ok (b, d) := by
  by_cases hkind : Token.Cursor.kind ⟨ts, stop⟩ = k
  · obtain ⟨t, us, rfl, ht⟩ := Token.Cursor.exists_cons hstop hkind hk
    rw [run_bind_ok (run_accept hkind)] at h
    exact .inl ⟨t, us, rfl, ht, h⟩
  · rw [run_bind_ok (run_accept_of_ne hkind)] at h
    exact .inr ⟨hkind, h⟩

end Runs

/-! ## Readers and what they take -/

/-- Whenever the reader succeeds before the end token `stop`, it takes some tokens from the front,
and `S` holds of these, of the tokens left and of the value. -/
structure Takes {α : Type} (stop : Token) (r : Reading α)
    (S : List Token → List Token → α → Prop) : Prop where
  of_run : ∀ {ts : List Token} {a : α} {c : Token.Cursor}, r.run ⟨ts, stop⟩ = .ok (a, c) →
    ∃ us rest, ts = us ++ rest ∧ c = ⟨rest, stop⟩ ∧ S us rest a

namespace Takes

variable {α β : Type} {stop : Token} {r : Reading α} {S : List Token → List Token → α → Prop}

/-- A reading that has run out of its bound takes nothing. -/
theorem exhausted : Takes stop Reading.exhausted S := ⟨nofun⟩

theorem imp {S' : List Token → List Token → α → Prop} (h : Takes stop r S)
    (himp : ∀ us rest a, S us rest a → S' us rest a) : Takes stop r S' := by
  refine ⟨fun hrun => ?_⟩
  obtain ⟨us, rest, rfl, rfl, ha⟩ := h.of_run hrun
  exact ⟨us, rest, rfl, rfl, himp _ _ _ ha⟩

/-- The front of a sequence takes its tokens, and the rest of the sequence runs on what is left. -/
theorem of_bind (hr : Takes stop r S) {f : α → Reading β} {ts : List Token} {b : β}
    {c : Token.Cursor} (h : (r >>= f).run ⟨ts, stop⟩ = .ok (b, c)) :
    ∃ us rest a, ts = us ++ rest ∧ S us rest a ∧ (f a).run ⟨rest, stop⟩ = .ok (b, c) := by
  obtain ⟨a, d, hrun, h⟩ := exists_of_run_bind h
  obtain ⟨us, rest, rfl, rfl, ha⟩ := hr.of_run hrun
  exact ⟨us, rest, a, rfl, ha, h⟩

end Takes

end PseudoCost
