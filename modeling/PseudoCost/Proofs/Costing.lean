import PseudoCost.Cost.Structural
import PseudoCost.Proofs.Calls

/-!
# Costs without state

The cost of a block is computed in a monad, because the verdicts on the procedures it calls come
from an engine with a memory. Here that memory is taken out. A computation `Gives` a value when,
from every state that satisfies an invariant, it ends in that value and in a state that satisfies
the invariant again; it does so in every lawful monad, so it does not fail in one that can. If the
verdicts on the callees are given in this sense, so is the cost of the block (`block_gives`), and
its value is the cost over fixed verdicts (`given`).

The second half is the closure principle for costs over fixed verdicts: a property of verdicts
that the few ways of combining them preserve holds of the cost of every block (`Closed.block`).
-/

namespace PseudoCost

/-! ## Computations that give a value -/

/-- From every state that satisfies `I` the computation ends in the value `a` and in a state that
satisfies `I`. -/
def Gives {σ α : Type} {m : Type → Type} [Monad m] (I : σ → Prop) (x : StateT σ m α) (a : α) :
    Prop :=
  ∀ s, I s → ∃ s', x.run s = pure (a, s') ∧ I s'

namespace Gives

variable {σ α β : Type} {m : Type → Type} [Monad m] [LawfulMonad m] {I : σ → Prop}

omit [LawfulMonad m] in
theorem pure (a : α) : Gives I (Pure.pure a : StateT σ m α) a :=
  fun s hs => ⟨s, by simp, hs⟩

theorem bind {x : StateT σ m α} {f : α → StateT σ m β} {a : α} {b : β} (hx : Gives I x a)
    (hf : Gives I (f a) b) : Gives I (x >>= f) b := by
  intro s hs
  obtain ⟨s', hs', hI'⟩ := hx s hs
  obtain ⟨s'', hs'', hI''⟩ := hf s' hI'
  exact ⟨s'', by rw [StateT.run_bind, hs', pure_bind, hs''], hI''⟩

theorem bind_pure {x : StateT σ m α} {a : α} (hx : Gives I x a) (f : α → β) :
    Gives I (x >>= fun y => Pure.pure (f y)) (f a) :=
  hx.bind (Gives.pure (f a))

/-- A fold gives the fold of the values, if every step gives its value. -/
theorem foldlM {f : β → α → StateT σ m β} {f' : β → α → β} :
    ∀ {xs : List α}, (∀ x ∈ xs, ∀ b, Gives I (f b x) (f' b x)) →
      ∀ b, Gives I (xs.foldlM f b) (xs.foldl f' b)
  | [], _, b => Gives.pure b
  | x :: xs, h, b => by
      rw [List.foldlM_cons, List.foldl_cons]
      exact (h x List.mem_cons_self b).bind
        (foldlM (fun y hy => h y (List.mem_cons_of_mem _ hy)) (f' b x))

end Gives

namespace Costing

variable {R : Type} [Scalar R]

/-- Costs over fixed verdicts on the procedures. -/
def given (p : Program) (g : CallGraph) (v : Name → Verdict R) : Costing R Id :=
  ⟨p, g, fun n => pure (v n)⟩

/-- Whether a call from a procedure asks for the verdict on its callee: the callee is declared, and
the call leaves the cycles of its caller. -/
def Asks (p : Program) (g : CallGraph) (caller : Option Name) (c : Call) : Prop :=
  p.declares c.callee = true ∧ (caller.any fun n => g.onCycle n c.callee) = false

/-! ## The cost of a block is given by the verdicts on its callees -/

section Stateful

variable {σ : Type} {m : Type → Type} [Monad m] {I : σ → Prop}
  {p : Program} {g : CallGraph} {callee : Name → StateT σ m (Verdict R)} {v : Name → Verdict R}

theorem call_gives [LawfulMonad m] {ctx : Context} {c : Call}
    (h : Asks p g ctx.caller c → Gives I (callee c.callee) (v c.callee)) (w : Verdict R) :
    Gives I ((⟨p, g, callee⟩ : Costing R (StateT σ m)).call ctx w c)
      ((given p g v).call ctx w c).run := by
  simp only [call, given]
  by_cases hd : p.declares c.callee = true
  · simp only [hd, Bool.not_true, Bool.false_eq_true, if_false]
    by_cases hc : (ctx.caller.any fun n => g.onCycle n c.callee) = true
    · simp only [hc, if_true]
      split <;> exact Gives.pure _
    · simp only [hc, Bool.false_eq_true, if_false]
      exact (h ⟨hd, by simpa using hc⟩).bind (Gives.pure _)
  · simp only [hd]
    exact Gives.pure _

theorem calls_gives [LawfulMonad m] (ctx : Context) (found : List Call)
    (h : ∀ c ∈ found, Asks p g ctx.caller c → Gives I (callee c.callee) (v c.callee)) :
    Gives I ((⟨p, g, callee⟩ : Costing R (StateT σ m)).calls ctx found)
      ((given p g v).calls ctx found).run := by
  have hfold : ((given p g v).calls ctx found).run
      = found.foldl (fun w c => ((given p g v).call ctx w c).run) Verdict.constant := by
    rw [calls, List.idRun_foldlM]
  rw [hfold, calls]
  exact Gives.foldlM (fun c hc w => call_gives (h c hc) w) _

mutual

theorem stmt_gives [LawfulMonad m] (ctx : Context) : ∀ s : Stmt,
    (∀ c ∈ s.costedCalls, Asks p g ctx.caller c → Gives I (callee c.callee) (v c.callee)) →
    Gives I ((⟨p, g, callee⟩ : Costing R (StateT σ m)).stmt ctx s) ((given p g v).stmt ctx s).run
  | .forLoop pos control descending start stop step body, h => by
      rw [stmt, stmt]
      have hstart := calls_gives ctx start.calls fun c hc => h c (by simp [Stmt.costedCalls, hc])
      have hstop := calls_gives ctx.enter stop.calls fun c hc =>
        h c (by simp [Stmt.costedCalls, hc])
      have hbody := block_gives ctx.enter body fun c hc => h c (by simp [Stmt.costedCalls, hc])
      exact hstart.bind (hstop.bind (hbody.bind (Gives.pure _)))
  | .whileLoop pos control cond body, h => by
      rw [stmt, stmt]
      have hcond := calls_gives ctx.enter cond.calls fun c hc =>
        h c (by simp [Stmt.costedCalls, hc])
      have hbody := block_gives ctx.enter body fun c hc => h c (by simp [Stmt.costedCalls, hc])
      exact hcond.bind (hbody.bind (Gives.pure _))
  | .repeatLoop pos control body cond, h => by
      rw [stmt, stmt]
      have hcond := calls_gives ctx.enter cond.calls fun c hc =>
        h c (by simp [Stmt.costedCalls, hc])
      have hbody := block_gives ctx.enter body fun c hc => h c (by simp [Stmt.costedCalls, hc])
      exact hcond.bind (hbody.bind (Gives.pure _))
  | .conditional pos cond thenBlock (some elseBlock), h => by
      rw [stmt, stmt]
      have hcond := calls_gives ctx cond.calls fun c hc => h c (by simp [Stmt.costedCalls, hc])
      have hthen := block_gives ctx thenBlock fun c hc => h c (by simp [Stmt.costedCalls, hc])
      have helse := block_gives ctx elseBlock fun c hc => h c (by simp [Stmt.costedCalls, hc])
      exact hcond.bind (hthen.bind (helse.bind (Gives.pure _)))
  | .conditional pos cond thenBlock none, h => by
      rw [stmt, stmt]
      have hcond := calls_gives ctx cond.calls fun c hc => h c (by simp [Stmt.costedCalls, hc])
      have hthen := block_gives ctx thenBlock fun c hc => h c (by simp [Stmt.costedCalls, hc])
      exact hcond.bind (hthen.bind (Gives.pure _))
  | .assign .., h => by
      rw [stmt, stmt]
      exact calls_gives ctx _ (by simpa only [Stmt.costedCalls] using h)
  | .call .., h => by
      rw [stmt, stmt]
      exact calls_gives ctx _ (by simpa only [Stmt.costedCalls] using h)
  | .give .., h => by
      rw [stmt, stmt]
      exact calls_gives ctx _ (by simpa only [Stmt.costedCalls] using h)

/-- If the verdicts that the calls of a block ask for are given, so is the cost of the block. -/
theorem block_gives [LawfulMonad m] (ctx : Context) : ∀ b : Block,
    (∀ c ∈ b.costedCalls, Asks p g ctx.caller c → Gives I (callee c.callee) (v c.callee)) →
    Gives I ((⟨p, g, callee⟩ : Costing R (StateT σ m)).block ctx b) ((given p g v).block ctx b).run
  | .mk _ _ _ stmts, h => by
      rw [block, block]
      exact list_gives ctx stmts (by simpa [Block.costedCalls] using h) _

theorem list_gives [LawfulMonad m] (ctx : Context) : ∀ ss : List Stmt,
    (∀ c ∈ Stmt.costedCallsOf ss,
      Asks p g ctx.caller c → Gives I (callee c.callee) (v c.callee)) →
    ∀ w, Gives I ((⟨p, g, callee⟩ : Costing R (StateT σ m)).list ctx w ss)
      ((given p g v).list ctx w ss).run
  | [], _, w => by rw [list, list]; exact Gives.pure _
  | s :: ss, h, w => by
      rw [list, list]
      have hs := stmt_gives ctx s fun c hc => h c (by simp [Stmt.costedCallsOf, hc])
      exact hs.bind (list_gives ctx ss (fun c hc => h c (by simp [Stmt.costedCallsOf, hc])) _)

end

end Stateful

/-! ## Properties of costs over fixed verdicts -/

/-- The ways in which the cost of a block is combined preserve a property of verdicts. -/
structure Closed (Q : Verdict R → Prop) : Prop where
  constant : Q Verdict.constant
  insideLoop : ∀ {v : Verdict R} (text : Text) (line : Int),
    Q v → Q ((v.remark .callInsideLoop text line).assume)
  sequence : ∀ {v w : Verdict R}, Q v → Q w → Q (v.sequence w)
  repeated : ∀ {v : Verdict R} (shape : LoopShape) (line : Int), Q v → Q (v.repeated shape line)
  branched : ∀ {c t e : Verdict R}, Q c → Q t → Q e → Q (c.branched t e)

namespace Closed

variable {Q : Verdict R → Prop} {p : Program} {g : CallGraph} {v : Name → Verdict R}

theorem call (hQ : Closed Q) {ctx : Context} {c : Call}
    (h : Asks p g ctx.caller c → Q (v c.callee)) {w : Verdict R} (hw : Q w) :
    Q ((given p g v).call ctx w c).run := by
  simp only [Costing.call, given]
  by_cases hd : p.declares c.callee = true
  · simp only [hd, Bool.not_true, Bool.false_eq_true, if_false]
    by_cases hc : (ctx.caller.any fun n => g.onCycle n c.callee) = true
    · simp only [hc, if_true]
      split
      · exact hQ.insideLoop _ _ hw
      · exact hw
    · simp only [hc, Bool.false_eq_true, if_false]
      exact hQ.sequence hw (h ⟨hd, by simpa using hc⟩)
  · simp only [hd]
    exact hw

theorem foldl_call (hQ : Closed Q) {ctx : Context} : ∀ {found : List Call},
    (∀ c ∈ found, Asks p g ctx.caller c → Q (v c.callee)) → ∀ {w : Verdict R}, Q w →
    Q (found.foldl (fun w c => ((given p g v).call ctx w c).run) w)
  | [], _, _, hw => hw
  | c :: _, h, _, hw =>
      foldl_call hQ (fun k hk => h k (List.mem_cons_of_mem _ hk))
        (hQ.call (h c List.mem_cons_self) hw)

theorem calls (hQ : Closed Q) (ctx : Context) (found : List Call)
    (h : ∀ c ∈ found, Asks p g ctx.caller c → Q (v c.callee)) :
    Q ((given p g v).calls ctx found).run := by
  rw [Costing.calls, List.idRun_foldlM]
  exact hQ.foldl_call h hQ.constant

mutual

theorem stmt (hQ : Closed Q) (ctx : Context) : ∀ s : Stmt,
    (∀ c ∈ s.costedCalls, Asks p g ctx.caller c → Q (v c.callee)) →
    Q ((given p g v).stmt ctx s).run
  | .forLoop pos control descending start stop step body, h => by
      rw [Costing.stmt]
      have hstart := hQ.calls ctx start.calls fun c hc => h c (by simp [Stmt.costedCalls, hc])
      have hstop := hQ.calls ctx.enter stop.calls fun c hc => h c (by simp [Stmt.costedCalls, hc])
      have hbody := block hQ ctx.enter body fun c hc => h c (by simp [Stmt.costedCalls, hc])
      exact hQ.repeated _ _ (hQ.sequence hbody (hQ.sequence hstart hstop))
  | .whileLoop pos control cond body, h => by
      rw [Costing.stmt]
      have hcond := hQ.calls ctx.enter cond.calls fun c hc => h c (by simp [Stmt.costedCalls, hc])
      have hbody := block hQ ctx.enter body fun c hc => h c (by simp [Stmt.costedCalls, hc])
      exact hQ.repeated _ _ (hQ.sequence hbody hcond)
  | .repeatLoop pos control body cond, h => by
      rw [Costing.stmt]
      have hcond := hQ.calls ctx.enter cond.calls fun c hc => h c (by simp [Stmt.costedCalls, hc])
      have hbody := block hQ ctx.enter body fun c hc => h c (by simp [Stmt.costedCalls, hc])
      exact hQ.repeated _ _ (hQ.sequence hbody hcond)
  | .conditional pos cond thenBlock (some elseBlock), h => by
      rw [Costing.stmt]
      have hcond := hQ.calls ctx cond.calls fun c hc => h c (by simp [Stmt.costedCalls, hc])
      have hthen := block hQ ctx thenBlock fun c hc => h c (by simp [Stmt.costedCalls, hc])
      have helse := block hQ ctx elseBlock fun c hc => h c (by simp [Stmt.costedCalls, hc])
      exact hQ.branched hcond hthen helse
  | .conditional pos cond thenBlock none, h => by
      rw [Costing.stmt]
      have hcond := hQ.calls ctx cond.calls fun c hc => h c (by simp [Stmt.costedCalls, hc])
      have hthen := block hQ ctx thenBlock fun c hc => h c (by simp [Stmt.costedCalls, hc])
      exact hQ.branched hcond hthen hQ.constant
  | .assign .., h => by
      rw [Costing.stmt]
      exact hQ.calls ctx _ (by simpa only [Stmt.costedCalls] using h)
  | .call .., h => by
      rw [Costing.stmt]
      exact hQ.calls ctx _ (by simpa only [Stmt.costedCalls] using h)
  | .give .., h => by
      rw [Costing.stmt]
      exact hQ.calls ctx _ (by simpa only [Stmt.costedCalls] using h)

/-- A closed property of the verdicts that the calls of a block ask for is one of the cost of the
block. -/
theorem block (hQ : Closed Q) (ctx : Context) : ∀ b : Block,
    (∀ c ∈ b.costedCalls, Asks p g ctx.caller c → Q (v c.callee)) →
    Q ((given p g v).block ctx b).run
  | .mk _ _ _ stmts, h => by
      rw [Costing.block]
      exact list hQ ctx stmts (by simpa [Block.costedCalls] using h) hQ.constant

theorem list (hQ : Closed Q) (ctx : Context) : ∀ ss : List Stmt,
    (∀ c ∈ Stmt.costedCallsOf ss, Asks p g ctx.caller c → Q (v c.callee)) →
    ∀ {w : Verdict R}, Q w → Q ((given p g v).list ctx w ss).run
  | [], _, w, hw => by rw [Costing.list]; exact hw
  | s :: ss, h, w, hw => by
      rw [Costing.list]
      have hs := stmt hQ ctx s fun c hc => h c (by simp [Stmt.costedCallsOf, hc])
      exact list hQ ctx ss (fun c hc => h c (by simp [Stmt.costedCallsOf, hc])) (hQ.sequence hw hs)

end

end Closed

end Costing

end PseudoCost
