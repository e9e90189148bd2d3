import PseudoCost.Proofs.ReadingFailures

/-!
# Readings as scripts

A reader is a function of a whole cursor, so nothing in its type keeps it from looking at the last
token first. A `Script` can do less: it looks at the token in front, or takes it, and decides from
what it has seen how to go on. The token after the one in front shows in four cases only, behind a
point, a range sign, a name or the word `swap`, and then only its kind.

What a script gives is settled by what it has looked at (`Script.walk_append`): lists of tokens that
agree a little further than the place where it ends are walked in the same way. So whatever can be
written as a script decides by prefixes; which readers can is another question.
-/

namespace PseudoCost

/-! ## What a script sees -/

/-- The kinds behind which the next token matters. -/
def opensPair : Token.Kind → Bool
  | .dot | .dotDot | .ident | .swapWord => true
  | _ => false

/-- The kind of the token after the one in front, where it matters. -/
def Token.Cursor.ahead? (c : Cursor) : Option Kind :=
  if opensPair c.kind then some c.nextKind else none

/-- Tokens that settle all a script sees from in front of them, whatever comes after them. -/
def Shown : List Token → Prop
  | [] => False
  | [t] => opensPair t.kind = false
  | _ :: _ :: _ => True

theorem Shown.of_suffix {us ts : List Token} (h : Shown us) (hsuffix : us <:+ ts) : Shown ts := by
  obtain ⟨before, rfl⟩ := hsuffix
  rcases before with _ | ⟨t, _ | ⟨u, before⟩⟩
  · exact h
  · cases us with
    | nil => exact h.elim
    | cons u us => exact trivial
  · exact trivial

/-- From in front of them, two lists that go on differently look the same. -/
theorem Shown.look {ts : List Token} (h : Shown ts) (A B : List Token) (stop stop' : Token) :
    (⟨ts ++ A, stop⟩ : Token.Cursor).peek = (⟨ts ++ B, stop'⟩ : Token.Cursor).peek
      ∧ (⟨ts ++ A, stop⟩ : Token.Cursor).ahead? = (⟨ts ++ B, stop'⟩ : Token.Cursor).ahead? := by
  rcases ts with _ | ⟨t, _ | ⟨u, ts⟩⟩
  · exact h.elim
  · have hkind : opensPair t.kind = false := h
    exact ⟨rfl, by simp [Token.Cursor.ahead?, hkind]⟩
  · exact ⟨rfl, rfl⟩

/-! ## Scripts -/

/-- What a script comes to. -/
inductive Ending (α : Type) where
  | value (a : α)
  | mismatch (expected : Text)
  | numeral (error : Numeral.Error)
  | exhausted

/-- What a reader gives that comes to an ending at a cursor. -/
def Ending.result {α : Type} : Ending α → Token.Cursor → Except Failure (α × Token.Cursor)
  | .value a, c => .ok (a, c)
  | .mismatch expected, c => .error (.mismatch expected c)
  | .numeral e, _ => .error (.numeral e)
  | .exhausted, _ => .error .exhausted

/-- A way of reading tokens one by one: to end, to look at the token in front and at what may show
behind it, or to take the token in front. -/
inductive Script (α : Type) where
  | ends (ending : Ending α)
  | look (next : Token → Option Token.Kind → Script α)
  | take (next : Script α)

namespace Script

variable {α β : Type}

/-- What the script comes to from a cursor, and where. -/
def walk : Script α → Token.Cursor → Ending α × Token.Cursor
  | .ends ending, c => (ending, c)
  | .look next, c => (next c.peek c.ahead?).walk c
  | .take next, c => next.walk c.advance

/-- The cursors from which the script looks, in the order in which it does. -/
def visited : Script α → Token.Cursor → List Token.Cursor
  | .ends _, _ => []
  | .look next, c => c :: (next c.peek c.ahead?).visited c
  | .take next, c => next.visited c.advance

/-- The script as a reader. -/
def run (s : Script α) : Reading α := fun c => (s.walk c).1.result (s.walk c).2

/-- One script after another. -/
def bind : Script α → (α → Script β) → Script β
  | .ends (.value a), f => f a
  | .ends (.mismatch expected), _ => .ends (.mismatch expected)
  | .ends (.numeral e), _ => .ends (.numeral e)
  | .ends .exhausted, _ => .ends .exhausted
  | .look next, f => .look fun t ahead? => (next t ahead?).bind f
  | .take next, f => .take (next.bind f)

theorem run_bind (s : Script α) (f : α → Script β) (c : Token.Cursor) :
    (s.bind f).run c = (s.run c).bind fun ac => (f ac.1).run ac.2 := by
  induction s generalizing c with
  | ends ending => cases ending <;> rfl
  | look next ih => exact ih c.peek c.ahead? c
  | take next ih => exact ih c.advance

/-! ## Scripts move forward -/

theorem after_walk (s : Script α) (c : Token.Cursor) : c.After (s.walk c).2 := by
  induction s generalizing c with
  | ends ending => exact .refl c
  | look next ih => exact ih c.peek c.ahead? c
  | take next ih => exact (Token.Cursor.After.advance c).trans (ih c.advance)

theorem after_visited (s : Script α) (c : Token.Cursor) : ∀ d ∈ s.visited c, c.After d := by
  induction s generalizing c with
  | ends ending => exact List.forall_mem_nil _
  | look next ih => exact List.forall_mem_cons.mpr ⟨.refl c, ih c.peek c.ahead? c⟩
  | take next ih => exact fun d hd => (Token.Cursor.After.advance c).trans (ih c.advance d hd)

/-- A script looks from one cursor after another, and from none past the one at which it ends. -/
theorem pairwise_visited (s : Script α) (c : Token.Cursor) :
    (s.visited c ++ [(s.walk c).2]).Pairwise Token.Cursor.After := by
  induction s generalizing c with
  | ends ending => exact List.pairwise_singleton _ _
  | look next ih =>
      refine List.pairwise_cons.mpr ⟨fun d hd => ?_, ih c.peek c.ahead? c⟩
      rcases List.mem_append.mp hd with hd | hd
      · exact after_visited _ c d hd
      · rw [List.mem_singleton.mp hd]
        exact after_walk _ c
  | take next ih => exact ih c.advance

theorem walk_of_run_ok {s : Script α} {c d : Token.Cursor} {a : α} (h : s.run c = .ok (a, d)) :
    s.walk c = (.value a, d) := by
  rw [run] at h
  generalize s.walk c = ending at h
  obtain ⟨_ | _ | _ | _, e⟩ := ending <;> cases h
  rfl

theorem after_of_run_ok {s : Script α} {c d : Token.Cursor} {a : α} (h : s.run c = .ok (a, d)) :
    c.After d := by
  have hafter := s.after_walk c
  rwa [walk_of_run_ok h] at hafter

theorem walk_of_run_mismatch {s : Script α} {c d : Token.Cursor} {expected : Text}
    (h : s.run c = .error (.mismatch expected d)) : s.walk c = (.mismatch expected, d) := by
  rw [run] at h
  generalize s.walk c = ending at h
  obtain ⟨_ | _ | _ | _, e⟩ := ending <;> cases h
  rfl

theorem run_of_walk {s : Script α} {c d : Token.Cursor} {ending : Ending α}
    (h : s.walk c = (ending, d)) : s.run c = ending.result d := by
  rw [run, h]

/-! ## Scripts decide by prefixes -/

/-- **What a script has not seen does not matter.** Where a walk ends in front of tokens that settle
all it can see from there, other tokens after them change nothing. -/
theorem walk_append {s : Script α} {ts us A B : List Token} {stop stop' : Token} {ending : Ending α}
    (h : s.walk ⟨ts ++ A, stop⟩ = (ending, ⟨us ++ A, stop⟩)) (hus : Shown us) :
    s.walk ⟨ts ++ B, stop'⟩ = (ending, ⟨us ++ B, stop'⟩) := by
  induction s generalizing ts with
  | ends e =>
      obtain ⟨rfl, hrest⟩ := Prod.mk.inj h
      rw [List.append_cancel_right (Token.Cursor.mk.inj hrest).1]
      rfl
  | look next ih =>
      have hafter := (after_walk (.look next) ⟨ts ++ A, stop⟩).rest
      rw [h] at hafter
      have hshown : Shown ts := hus.of_suffix (List.suffix_append_self_iff.mp hafter)
      obtain ⟨hpeek, hahead⟩ := hshown.look A B stop stop'
      rw [walk, ← hpeek, ← hahead]
      exact ih _ _ h
  | take next ih =>
      have hafter := (after_walk next (Token.Cursor.advance ⟨ts ++ A, stop⟩)).rest
      rw [show next.walk _ = _ from h] at hafter
      cases ts with
      | nil =>
          -- The walk would end in front of no more than what comes after the tokens shown.
          have hlength := hafter.length_le
          cases us with
          | nil => exact hus.elim
          | cons u us =>
              simp [Token.Cursor.advance] at hlength
              omega
      | cons t ts => exact ih h

end Script

end PseudoCost
