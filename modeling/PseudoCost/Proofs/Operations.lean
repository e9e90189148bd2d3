import PseudoCost.Proofs.Transparency

/-!
# Sequences of operations on one engine

An engine is asked for verdicts and is given solved costs, in any order. Its history
shows in no answer, apart from the solved costs in force: after any operations an engine answers
like a fresh one that was given only those. Nor does an operation ever meet a procedure that is
being judged already: an engine that fails there gives the same answers.

The invariant is `Faithful`: the engine is about its program, and keeps nothing but verdicts under
the solved costs it was given. Each operation ends in the answer that these determine and keeps
the invariant (`performWith_faithful`); runs follow by induction. That an operation ends at all is
part of its definition: the recursion of `judge` goes down in the number of procedures that are
not being judged.
-/

namespace PseudoCost

namespace Engine

variable {R : Type} [Scalar R]

/-! ## Operations and their answers -/

/-- What can be asked of an engine, and the one instruction it takes. -/
inductive Operation (R : Type) where
  | analyze
  | procedure (n : Name)
  | entryCostIs (n : Name)
  | useSolved (n : Name) (cases : Cases R)

/-- What an engine answers; to the instruction, nothing. -/
inductive Answer (R : Type) where
  | verdict (v : Verdict R)
  | truth (b : Bool)
  | done

namespace Operation

/-- Performs an operation. -/
def perform : Operation R → StateM (Engine R) (Answer R)
  | .analyze => return .verdict (← Engine.analyze)
  | .procedure n => return .verdict (← Engine.procedure n)
  | .entryCostIs n => return .truth (← Engine.entryCostIs n)
  | .useSolved n cases => do
    Engine.useSolved n cases
    return .done

/-- Performs an operation, with `again` done at a procedure that is being judged already. -/
def performWith {m : Type → Type} [Monad m] (again : m (Verdict R)) :
    Operation R → StateT (Engine R) m (Answer R)
  | .analyze => return .verdict (← run fun e => e.costOfProgram again)
  | .procedure n => return .verdict (← run fun e => e.costOf again n)
  | .entryCostIs n => return .truth (← costAgrees again n)
  | .useSolved n cases => do
    Engine.useSolved n cases
    return .done

theorem perform_eq (op : Operation R) :
    op.perform = op.performWith (m := Id) Verdict.constant := by
  cases op <;> rfl

/-- The answer to an operation under given solved costs. -/
def answer (p : Program) (solved : Name → Option (Cases R)) : Operation R → Answer R
  | .analyze => .verdict (programVerdict p solved)
  | .procedure n => .verdict (verdictOn p solved n)
  | .entryCostIs n =>
    .truth (p.declares n && (programVerdict p solved).cases.agrees (verdictOn p solved n).cases)
  | .useSolved .. => .done

/-- The solved costs given so far, the latest first, after one more operation. -/
def give (given : List (Name × Cases R)) : Operation R → List (Name × Cases R)
  | .useSolved n cases => (n, cases) :: given
  | _ => given

/-- The solved costs in force after some operations: for each name the last one given. -/
def inForce (ops : List (Operation R)) : List (Name × Cases R) :=
  ops.foldl (fun costs op =>
    match op with
    | .useSolved n cases => (n, cases) :: costs.filter (·.1 != n)
    | _ => costs) []

end Operation

/-- The engine of a program after some operations. -/
def after (p : Program) (ops : List (Operation R)) : Engine R :=
  ops.foldl (fun e op => (op.perform.run e).run.2) (ofProgram p)

/-- An engine of a program that was given some solved costs and nothing else. -/
def fresh (p : Program) (costs : List (Name × Cases R)) : Engine R :=
  costs.foldr (fun c e => ((useSolved (m := Id) c.1 c.2).run e).run.2) (ofProgram p)

/-- The cost of a procedure, as a fresh engine answers it. -/
def casesOf (p : Program) (n : Name) : Cases R :=
  ((procedure n).run (ofProgram p)).run.1.cases

/-! ## Faithful engines -/

/-- The engine is about the program, was given these solved costs, and keeps nothing but verdicts
under them. -/
structure Faithful (p : Program) (given : List (Name × Cases R)) (e : Engine R) : Prop where
  program : e.program = p
  graph : e.graph = CallGraph.ofProgram p
  solved : e.solved = given
  memo : Kept p e.solvedCost e.memo

theorem faithful_ofProgram (p : Program) : Faithful p [] (ofProgram p : Engine R) :=
  ⟨rfl, rfl, rfl, kept_nil⟩

theorem faithful_useSolved {p : Program} {given : List (Name × Cases R)} {e : Engine R}
    (he : Faithful p given e) (n : Name) (cases : Cases R) :
    Faithful p ((n, cases) :: given) { e with solved := (n, cases) :: e.solved, memo := [] } :=
  ⟨he.program, he.graph, by rw [he.solved], kept_nil⟩

section Run

variable {m : Type → Type} [Monad m] [LawfulMonad m] {p : Program}
  {given : List (Name × Cases R)} (again : m (Verdict R))

/-- A computation on the kept verdicts that gives a value does so on a faithful engine. -/
theorem run_gives {α : Type} {act : Engine R → StateT (Memo R) m α} {a : α}
    (h : ∀ e : Engine R, Faithful p given e → Gives (Kept p e.solvedCost) (act e) a) :
    Gives (Faithful p given) (run act) a := by
  intro e he
  obtain ⟨s', hs', hk⟩ := h e he e.memo he.memo
  refine ⟨{ e with memo := s' }, ?_, ⟨he.program, he.graph, he.solved, hk⟩⟩
  show (act e e.memo >>= fun r => pure (r.1, { e with memo := r.2 })) = _
  rw [show act e e.memo = pure (a, s') from hs', pure_bind]

theorem solvedCost_eq {e : Engine R} (he : Faithful p given e) :
    e.solvedCost = fun n => given.lookup n := by
  funext n
  rw [solvedCost, he.solved]

theorem costOf_gives {e : Engine R} (he : Faithful p given e) (n : Name) :
    Gives (Kept p e.solvedCost) (e.costOf again n) (verdictOn p (fun n => given.lookup n) n) := by
  rw [costOf, he.program, he.graph, ← solvedCost_eq he]
  exact judge_gives n m again [] (fun _ ha => absurd ha List.not_mem_nil)

theorem costOfProgram_gives {e : Engine R} (he : Faithful p given e) :
    Gives (Kept p e.solvedCost) (e.costOfProgram again)
      (programVerdict p fun n => given.lookup n) := by
  rw [costOfProgram, programVerdict, he.program, he.graph]
  cases p.entry? with
  | some main => exact Costing.block_gives {} main fun c _ _ => costOf_gives again he c.callee
  | none =>
      refine Gives.foldlM (fun n _ v => ?_) (Verdict.constant : Verdict R)
      exact (costOf_gives again he n).bind_pure v.sequence

theorem runProcedure_gives (n : Name) :
    Gives (Faithful p given) (run fun e => e.costOf again n)
      (verdictOn p (fun n => given.lookup n) n) :=
  run_gives fun _ he => costOf_gives again he n

theorem runProgram_gives :
    Gives (Faithful p given) (run fun e => e.costOfProgram again)
      (programVerdict p fun n => given.lookup n) :=
  run_gives fun _ he => costOfProgram_gives again he

theorem costAgrees_gives (n : Name) :
    Gives (Faithful p given) (costAgrees again n)
      (p.declares n && (programVerdict p fun n => given.lookup n).cases.agrees
        (verdictOn p (fun n => given.lookup n) n).cases) := by
  intro e he
  rw [costAgrees, StateT.run_bind, StateT.run_get, pure_bind, he.program]
  cases p.declares n with
  | false => exact ⟨e, rfl, he⟩
  | true =>
      exact (runProgram_gives again).bind ((runProcedure_gives again n).bind_pure fun v =>
        (programVerdict p fun n => given.lookup n).cases.agrees v.cases) e he

/-- Every operation on a faithful engine ends in the answer that the solved costs given so far
determine, and in a faithful engine. -/
theorem performWith_faithful (op : Operation R) {e : Engine R} (he : Faithful p given e) :
    ∃ e', (op.performWith again).run e
        = pure (op.answer p fun n => given.lookup n, e')
      ∧ Faithful p (op.give given) e' := by
  cases op with
  | analyze => exact (runProgram_gives again).bind_pure Answer.verdict e he
  | procedure n => exact (runProcedure_gives again n).bind_pure Answer.verdict e he
  | entryCostIs n => exact (costAgrees_gives again n).bind_pure Answer.truth e he
  | useSolved n cases =>
      refine ⟨{ e with solved := (n, cases) :: e.solved, memo := [] }, ?_,
        faithful_useSolved he n cases⟩
      simp [Operation.performWith, useSolved, Operation.answer]

end Run

/-- A fresh engine answers with the verdict on a procedure. -/
theorem casesOf_eq (p : Program) (n : Name) :
    (casesOf p n : Cases R) = (verdictOn p (fun _ => none) n).cases := by
  obtain ⟨_, h, -⟩ := runProcedure_gives (m := Id) Verdict.constant n _
    (faithful_ofProgram (R := R) p)
  rw [casesOf, procedure, h]
  rfl

/-- A fresh engine answers with the verdict on the whole program. -/
theorem analyze_ofProgram (p : Program) :
    (analyze.run (ofProgram p : Engine R)).run.1 = programVerdict p fun _ => none := by
  obtain ⟨_, h, -⟩ := runProgram_gives (m := Id) Verdict.constant _ (faithful_ofProgram (R := R) p)
  rw [analyze, h]
  rfl

/-! ## Runs -/

theorem faithful_foldl {p : Program} : ∀ (ops : List (Operation R))
    {given : List (Name × Cases R)} {e : Engine R}, Faithful p given e →
    Faithful p (ops.foldl Operation.give given)
      (ops.foldl (fun e op => (op.perform.run e).run.2) e)
  | [], _, _, he => he
  | op :: ops, given, e, he => by
      obtain ⟨e', hrun, he'⟩ := performWith_faithful (m := Id) Verdict.constant op he
      rw [List.foldl_cons, List.foldl_cons, op.perform_eq, hrun]
      exact faithful_foldl ops he'

theorem faithful_fresh {p : Program} : ∀ costs : List (Name × Cases R),
    Faithful p costs (fresh p costs)
  | [] => faithful_ofProgram p
  | c :: costs => faithful_useSolved (faithful_fresh costs) c.1 c.2

theorem lookup_filter_ne {β : Type} {n k : Name} (hk : k ≠ n) :
    ∀ l : List (Name × β), (l.filter (·.1 != n)).lookup k = l.lookup k
  | [] => rfl
  | (a, b) :: l => by
      by_cases ha : a = n
      · have hkn : (k == n) = false := by simpa using hk
        simp [ha, List.lookup_cons, hkn, lookup_filter_ne hk l]
      · simp [ha, List.lookup_cons, lookup_filter_ne hk l]

omit [Scalar R] in
/-- Of the solved costs given for one name only the last one counts. -/
theorem lookup_inForce (ops : List (Operation R)) (n : Name) :
    (Operation.inForce ops).lookup n = (ops.foldl Operation.give []).lookup n := by
  have h : ∀ (ops : List (Operation R)) (l l' : List (Name × Cases R)),
      (∀ n, l.lookup n = l'.lookup n) → ∀ n,
      (ops.foldl (fun costs op =>
        match op with
        | .useSolved n cases => (n, cases) :: costs.filter (·.1 != n)
        | _ => costs) l).lookup n = (ops.foldl Operation.give l').lookup n := by
    intro ops
    induction ops with
    | nil => exact fun l l' hl => hl
    | cons op ops ih =>
        intro l l' hl
        rw [List.foldl_cons, List.foldl_cons]
        refine ih _ _ ?_
        cases op with
        | useSolved k cases =>
            intro n
            by_cases hn : n = k
            · simp [hn, Operation.give]
            · have hnk : (n == k) = false := by simpa using hn
              simp [Operation.give, List.lookup_cons, hnk, lookup_filter_ne hn, hl n]
        | _ => exact hl
  exact h ops [] [] (fun _ => rfl) n

/-- **An engine's history does not show.** After any operations, an operation is answered exactly
as by a fresh engine that was given only the solved costs in force. The same answer comes from an
engine that fails when it meets a procedure that is being judged already, so it meets none. -/
theorem perform_after (p : Program) (ops : List (Operation R)) (op : Operation R) :
    (op.perform.run (after p ops)).run.1
        = (op.perform.run (fresh p (Operation.inForce ops))).run.1
      ∧ ((op.performWith none).run (after p ops)).map Prod.fst
        = some (op.perform.run (after p ops)).run.1 := by
  have hafter := faithful_foldl ops (faithful_ofProgram p)
  obtain ⟨_, h, -⟩ := performWith_faithful (m := Id) Verdict.constant op hafter
  obtain ⟨_, hfresh, -⟩ := performWith_faithful (m := Id) Verdict.constant op
    (faithful_fresh (p := p) (Operation.inForce ops))
  obtain ⟨_, hstrict, -⟩ := performWith_faithful (m := Option) none op hafter
  constructor
  · rw [op.perform_eq, after, h, hfresh, funext (lookup_inForce ops)]
    rfl
  · rw [op.perform_eq, after, h, hstrict]
    rfl

end Engine

end PseudoCost
