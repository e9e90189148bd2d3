import PseudoCost.Proofs.UnreachableProcedures

/-!
# Chains of calls

Whether a procedure reaches another can be asked of a search that keeps a stack. It starts with the
callees of the first procedure on the stack. In each round the top is taken off, compared with the
name that is looked for, and, unless it was seen before, replaced by its callees. `Search.step` is
one round.

- *The rounds end.* A search owes a round for every name on its stack and for every edge of a name
  it has not seen; each round pays for one (`owes_step_lt`).
- *The answer is right.* While the search goes on, what is called by a seen name is seen or on the
  stack, every name on the stack is reached, and the name looked for was not seen
  (`Search.Holds`). When the stack is empty, the seen names are closed under calls, so the name is
  not reached at all. One round keeps this (`holds_step`), and so does a run (`holds_iterate`).

`ofProgram_reaches` puts this together with the calls in the program's text: search and `reaches`
agree and decide whether a chain of calls exists, and a procedure is recursive exactly if it lies on
a cycle of calls.
-/

namespace PseudoCost

open Relation (TransGen)

/-- A procedure of the first name calls the second name, which is declared. -/
def Program.Calls (p : Program) (a b : Name) : Prop :=
  (∃ q ∈ p.procedures, q.name = a ∧ ∃ c ∈ q.body.calls, c.callee = b)
    ∧ ∃ q ∈ p.procedures, q.name = b

namespace CallGraph

/-- The edges of a program's graph are the calls in its text. -/
theorem edge_ofProgram (p : Program) : (ofProgram p).Edge = p.Calls := by
  funext a b
  have hdeclared : p.declares b = true ↔ ∃ q ∈ p.procedures, q.name = b := by
    rw [declares_iff, ofProgram, List.mem_map]
  rw [eq_iff_iff, edge_ofProgram_iff, Program.Calls, ← hdeclared]
  constructor
  · rintro ⟨q, hq, hname, hb⟩
    obtain ⟨hcall, hb⟩ := mem_declaredCalls.mp hb
    exact ⟨⟨q, hq, hname, hcall⟩, hb⟩
  · rintro ⟨⟨q, hq, hname, hcall⟩, hb⟩
    exact ⟨q, hq, hname, mem_declaredCalls.mpr ⟨hcall, hb⟩⟩

/-! ## The search -/

/-- A search in the graph: the names seen and the stack of the names to look at, its top first, or
whether the name was found. -/
inductive Search where
  | looking (seen stack : List Name)
  | ended (found : Bool)
deriving Repr, DecidableEq

namespace Search

/-- One round of the search for `target`. The top of the stack is compared first, even if it was
seen before. -/
def step (g : CallGraph) (target : Name) : Search → Search
  | .looking _ [] => .ended false
  | .looking seen (n :: stack) =>
    if n = target then .ended true
    else if seen.contains n then .looking seen stack
    else .looking (n :: seen) ((g.callees n).reverse ++ stack)
  | .ended found => .ended found

/-- The search among what a name calls. Of the callees the last one is on top. -/
def start (g : CallGraph) (n : Name) : Search := .looking [] (g.callees n).reverse

variable {g : CallGraph} {a b : Name}

/-! ### The rounds end -/

/-- The number of rounds a search still owes. -/
def owes (g : CallGraph) : Search → Nat
  | .looking seen stack => stack.length + owed seen g.edges + 1
  | .ended _ => 0

theorem owes_start (g : CallGraph) (a : Name) :
    (start g a).owes g = (g.callees a).length + g.edgeCount + 1 := by
  rw [start, owes, List.length_reverse, owed_nil, edgeCount]

/-- Each round pays for itself. -/
theorem owes_step_lt (seen stack : List Name) :
    (step g b (.looking seen stack)).owes g < (looking seen stack).owes g := by
  cases stack with
  | nil =>
      rw [step, owes, owes]
      omega
  | cons n stack =>
      rw [step, owes, List.length_cons]
      split
      · rw [owes]
        omega
      split
      · rw [owes]
        omega
      · rename_i hn
        -- The edges of `n` become names on the stack, and are owed no more.
        have howed : (g.callees n).length + owed (n :: seen) g.edges ≤ owed seen g.edges :=
          callees_add_owed_le (by simpa using hn) g.edges
        rw [owes, List.length_append, List.length_reverse]
        omega

theorem ended_iterate (found : Bool) (rounds : Nat) :
    (step g b)^[rounds] (.ended found) = .ended found :=
  Function.iterate_fixed rfl rounds

/-- After the rounds it owes a search has ended. -/
theorem exists_ended : ∀ (rounds : Nat) (s : Search), s.owes g ≤ rounds →
    ∃ found, (step g b)^[rounds] s = .ended found
  | rounds, .ended found, _ => ⟨found, ended_iterate found rounds⟩
  | 0, .looking seen stack, h => by
      rw [owes] at h
      omega
  | rounds + 1, .looking seen stack, h => by
      have hlt := owes_step_lt (g := g) (b := b) seen stack
      rw [Function.iterate_succ_apply]
      exact exists_ended rounds _ (by omega)

/-! ### The answer is right -/

/-- What holds of a search from `a` for `b` while it goes on. -/
structure Open (g : CallGraph) (a b : Name) (seen stack : List Name) : Prop where
  /-- What `a` calls has been put on the stack. -/
  starts : ∀ n, g.Edge a n → n ∈ seen ∨ n ∈ stack
  /-- What a seen name calls has been put on the stack. -/
  closed : ∀ m ∈ seen, ∀ n, g.Edge m n → n ∈ seen ∨ n ∈ stack
  reached : ∀ n ∈ stack, TransGen g.Edge a n
  missed : b ∉ seen

/-- What holds of a search from `a` for `b`. -/
def Holds (g : CallGraph) (a b : Name) : Search → Prop
  | .looking seen stack => Open g a b seen stack
  | .ended found => found = true ↔ TransGen g.Edge a b

theorem holds_start : (start g a).Holds g a b where
  starts _ hn := Or.inr (List.mem_reverse.mpr hn)
  closed _ hm := absurd hm List.not_mem_nil
  reached _ hn := .single (List.mem_reverse.mp hn)
  missed := List.not_mem_nil

/-- With nothing left on the stack, everything reached was seen. -/
theorem Open.mem_of_reached {seen : List Name} (h : Open g a b seen []) {n : Name}
    (hn : TransGen g.Edge a n) : n ∈ seen := by
  induction hn with
  | single hn => exact (h.starts _ hn).resolve_right List.not_mem_nil
  | tail _ hmn ih => exact (h.closed _ ih _ hmn).resolve_right List.not_mem_nil

/-- A name that was seen before can be dropped from the stack. -/
theorem Open.skip {seen stack : List Name} {n : Name} (h : Open g a b seen (n :: stack))
    (hn : n ∈ seen) : Open g a b seen stack := by
  have hdrop : ∀ m, m ∈ seen ∨ m ∈ n :: stack → m ∈ seen ∨ m ∈ stack := by
    intro m hm
    rcases hm with hm | hm
    · exact Or.inl hm
    · rcases List.mem_cons.mp hm with rfl | hm
      · exact Or.inl hn
      · exact Or.inr hm
  exact {
    starts := fun m hm => hdrop m (h.starts m hm)
    closed := fun k hk m hm => hdrop m (h.closed k hk m hm)
    reached := fun m hm => h.reached m (List.mem_cons_of_mem n hm)
    missed := h.missed }

/-- A new name is replaced on the stack by what it calls. -/
theorem Open.expand {seen stack : List Name} {n : Name} (h : Open g a b seen (n :: stack))
    (hb : n ≠ b) : Open g a b (n :: seen) ((g.callees n).reverse ++ stack) := by
  have hmove : ∀ m, m ∈ seen ∨ m ∈ n :: stack →
      m ∈ n :: seen ∨ m ∈ (g.callees n).reverse ++ stack := by
    intro m hm
    rcases hm with hm | hm
    · exact Or.inl (List.mem_cons_of_mem n hm)
    · rcases List.mem_cons.mp hm with rfl | hm
      · exact Or.inl List.mem_cons_self
      · exact Or.inr (List.mem_append_right _ hm)
  refine ⟨fun m hm => hmove m (h.starts m hm), ?_, ?_, ?_⟩
  · intro k hk m hm
    rcases List.mem_cons.mp hk with rfl | hk
    · exact Or.inr (List.mem_append_left _ (List.mem_reverse.mpr hm))
    · exact hmove m (h.closed k hk m hm)
  · intro m hm
    rcases List.mem_append.mp hm with hm | hm
    · exact (h.reached n List.mem_cons_self).tail (List.mem_reverse.mp hm)
    · exact h.reached m (List.mem_cons_of_mem n hm)
  · intro hseen
    rcases List.mem_cons.mp hseen with rfl | hseen
    · exact hb rfl
    · exact h.missed hseen

theorem holds_step {s : Search} (h : s.Holds g a b) : (step g b s).Holds g a b := by
  match s, h with
  | .ended _, h => exact h
  | .looking seen [], h =>
      have hmissed : ¬TransGen g.Edge a b := fun hab => h.missed (Open.mem_of_reached h hab)
      simpa [step, Holds] using hmissed
  | .looking seen (n :: stack), h =>
      rw [step]
      split
      · rename_i hnb
        have hreached : TransGen g.Edge a b := hnb ▸ Open.reached h n List.mem_cons_self
        simpa [Holds] using hreached
      split
      · rename_i hn
        exact Open.skip h (List.contains_iff_mem.mp hn)
      · rename_i hnb _
        exact Open.expand h hnb

theorem holds_iterate {s : Search} (h : s.Holds g a b) (rounds : Nat) :
    ((step g b)^[rounds] s).Holds g a b := by
  induction rounds generalizing s with
  | zero => exact h
  | succ rounds ih => exact ih (holds_step h)

/-- A search that is given the rounds it owes ends with the right answer. -/
theorem run_start {rounds : Nat} (hrounds : (g.callees a).length + g.edgeCount < rounds) :
    ∃ found, (step g b)^[rounds] (start g a) = .ended found
      ∧ (found = true ↔ TransGen g.Edge a b) := by
  obtain ⟨found, hfound⟩ := exists_ended (g := g) (b := b) rounds (start g a) (by
    rw [owes_start]
    exact hrounds)
  have hholds := holds_iterate (holds_start (g := g) (a := a) (b := b)) rounds
  rw [hfound] at hholds
  exact ⟨found, hfound, hholds⟩

end Search

/-! ## Reachability -/

/-- **Reachability is exact.** In the graph of a program, the search from one name for another ends
within a number of rounds that the edges bound, and answers as `reaches` does: whether one or more
calls lead from the first name to the second. So a procedure is recursive exactly if it lies on a
cycle of calls, and all procedures of a cycle alike. -/
theorem ofProgram_reaches (p : Program) :
    (∀ a b rounds, ((ofProgram p).callees a).length + (ofProgram p).edgeCount < rounds →
      (Search.step (ofProgram p) b)^[rounds] (.start (ofProgram p) a)
        = .ended ((ofProgram p).reaches a b))
    ∧ (∀ a b, (ofProgram p).reaches a b = true ↔ TransGen p.Calls a b)
    ∧ (∀ n, (ofProgram p).isRecursive n = true ↔ TransGen p.Calls n n)
    ∧ ∀ a b, TransGen p.Calls a b → TransGen p.Calls b a →
        (ofProgram p).isRecursive a = (ofProgram p).isRecursive b := by
  have hreaches : ∀ a b, (ofProgram p).reaches a b = true ↔ TransGen p.Calls a b := by
    intro a b
    rw [reaches_iff (ofProgram_declared p), edge_ofProgram]
  have hrecursive : ∀ n, (ofProgram p).isRecursive n = true ↔ TransGen p.Calls n n :=
    fun n => hreaches n n
  refine ⟨fun a b rounds hrounds => ?_, hreaches, hrecursive, fun a b hab hba => ?_⟩
  · obtain ⟨found, hrun, hfound⟩ := Search.run_start (b := b) hrounds
    rw [edge_ofProgram, ← hreaches a b, ← Bool.eq_iff_iff] at hfound
    rw [hrun, hfound]
  · rw [Bool.eq_iff_iff, hrecursive, hrecursive]
    exact iff_of_true (hab.trans hba) (hba.trans hab)

end CallGraph

end PseudoCost
