import PseudoCost.Proofs.BoundedSearches
import PseudoCost.Proofs.CheckedStages

/-!
# A program that can be read always gets a report

The whole analysis of a program, put together from checked stages: it fails where a stage reads
something that is not there, where a search uses up its bound, or where the engine meets a procedure
that it is judging already. `Analysis.examine_checked` says that it never fails, and that its report
is the report of the analysis. There is nothing to assume of the program, and nothing of the
options: what the stages rely on holds of every relation that is derived from a procedure.

Only the samples and the shifts depend on the scalars, whose arithmetic is taken to be exact.
-/

namespace PseudoCost

open Recurrence

/-! ## The engine -/

section Engine

variable {R : Type} [Scalar R]

/-- The verdict on a procedure from the verdict on its body, with its pattern read. -/
def Verdict.checkedOfBody (g : CallGraph) (p : Procedure) (own : Verdict R) : Option (Verdict R) :=
  if g.isRecursive p.name then own.checkedRecursive g p else some own

theorem Verdict.checkedOfBody_eq (g : CallGraph) (p : Procedure) (own : Verdict R) :
    checkedOfBody g p own = some (ofBody g p own) := by
  rw [checkedOfBody, ofBody, checkedRecursive_eq]
  split <;> rfl

namespace Engine

/-- The verdict on a procedure, with the patterns read. It fails at a procedure that is being judged
already. -/
def checkedJudge (p : Program) (g : CallGraph) (solved : Name → Option (Cases R))
    (active : List Name) (n : Name) : StateT (Memo R) Option (Verdict R) := do
  match (← get).lookup n with
  | some v => return v
  | none =>
    match _hq : p.find? n with
    | none => return Verdict.constant
    | some q =>
      if _hn : active.contains n then (none : Option (Verdict R))
      else
        let env : Costing R (StateT (Memo R) Option) :=
          ⟨p, g, checkedJudge p g solved (n :: active)⟩
        let own ← env.block { caller := some n } q.body
        let v := (← Verdict.checkedOfBody g q own).withSolved (solved n)
        modify ((n, v) :: ·)
        return v
termination_by (idle p active).length
decreasing_by exact idle_lt ‹_› ‹_›

section Step

variable {p : Program} {g : CallGraph} {solved : Name → Option (Cases R)} {active : List Name}
  {n : Name} {s : Memo R}

theorem checkedJudge_of_kept {v : Verdict R} (hs : s.lookup n = some v) :
    (checkedJudge p g solved active n).run s = some (v, s) := by
  rw [checkedJudge]
  simp [hs]

theorem checkedJudge_of_unknown (hs : s.lookup n = none) (hq : p.find? n = none) :
    (checkedJudge p g solved active n).run s = some (Verdict.constant, s) := by
  rw [checkedJudge]
  simp only [StateT.run_bind, StateT.run_get, pure_bind, hs]
  split
  · rfl
  · simp_all

theorem checkedJudge_of_declared {q : Procedure} (hs : s.lookup n = none)
    (hq : p.find? n = some q) :
    (checkedJudge p g solved active n).run s
      = if active.contains n then none
        else StateT.run (do
          let env : Costing R (StateT (Memo R) Option) :=
            ⟨p, g, checkedJudge p g solved (n :: active)⟩
          let own ← env.block { caller := some n } q.body
          let v := (← Verdict.checkedOfBody g q own).withSolved (solved n)
          modify ((n, v) :: ·)
          return v) s := by
  rw [checkedJudge]
  simp only [StateT.run_bind, StateT.run_get, pure_bind, hs]
  split
  · simp_all
  · rename_i q' hq'
    obtain rfl : q = q' := Option.some.inj (hq.symm.trans hq')
    split <;> rfl

end Step

/-- The induction is on the number of procedures that are not being judged yet. -/
theorem checkedJudge_eq (p : Program) (g : CallGraph) (solved : Name → Option (Cases R))
    (active : List Name) (n : Name) :
    checkedJudge p g solved active n = judge (m := Option) none p g solved active n := by
  induction h : (idle p active).length using Nat.strongRecOn generalizing active n with
  | _ k ih =>
    subst h
    refine StateT.ext fun s => ?_
    cases hs : s.lookup n with
    | some v => rw [checkedJudge_of_kept hs, judge_of_kept hs]; rfl
    | none =>
        cases hq : p.find? n with
        | none => rw [checkedJudge_of_unknown hs hq, judge_of_unknown hs hq]; rfl
        | some q =>
            rw [checkedJudge_of_declared hs hq, judge_of_declared hs hq]
            by_cases hn : active.contains n
            · rw [if_pos hn, if_pos hn]
              rfl
            · have hbelow : checkedJudge p g solved (n :: active)
                  = judge (m := Option) none p g solved (n :: active) :=
                funext fun k => ih _ (idle_lt hq hn) (n :: active) k rfl
              rw [if_neg hn, if_neg hn, hbelow]
              simp only [Verdict.checkedOfBody_eq]
              rfl

/-- The cost of a procedure of the engine's program, with the patterns read. -/
def checkedCost (e : Engine R) (n : Name) : StateT (Memo R) Option (Verdict R) :=
  checkedJudge e.program e.graph e.solvedCost [] n

/-- The cost of the whole program, with the patterns read. -/
def checkedProgramCost (e : Engine R) : StateT (Memo R) Option (Verdict R) :=
  match e.program.entry? with
  | some main => Costing.block ⟨e.program, e.graph, e.checkedCost⟩ {} main
  | none =>
    let entries := if e.graph.roots.isEmpty then e.graph.order else e.graph.roots
    entries.foldlM (fun v n => return v.sequence (← e.checkedCost n)) Verdict.constant

/-- Whether the whole program costs exactly what a procedure costs, with the patterns read. -/
def checkedAgrees (n : Name) : StateT (Engine R) Option Bool := do
  if (← get).program.declares n then
    let whole ← run fun e => e.checkedProgramCost
    return whole.cases.agrees (← run fun e => e.checkedCost n).cases
  else return false

theorem checkedCost_eq (e : Engine R) : e.checkedCost = e.costOf (m := Option) none :=
  funext fun n => checkedJudge_eq e.program e.graph e.solvedCost [] n

theorem checkedProgramCost_eq (e : Engine R) :
    e.checkedProgramCost = e.costOfProgram (m := Option) none := by
  rw [checkedProgramCost, checkedCost_eq]
  rfl

theorem checkedAgrees_eq (n : Name) :
    checkedAgrees (R := R) n = costAgrees (m := Option) none n := by
  simp only [checkedAgrees, costAgrees, checkedCost_eq, checkedProgramCost_eq]

end Engine

end Engine

/-! ## The relation of the primary procedure -/

/-- The procedure whose recurrence decides the cost of a program, if the search for it is allowed
for. -/
def Program.checkedPrimary (p : Program) : Option (Option Name) := do
  let g := CallGraph.ofProgram p
  match p.entry? with
  | some _ => g.checkedNearest g.mainCalls
  | none => return (← g.checkedNearest g.roots).or (g.order.find? g.callsSelf)

theorem Program.checkedPrimary_eq (p : Program) : p.checkedPrimary = some p.primary? := by
  rw [checkedPrimary, primary?, CallGraph.checkedNearest_eq, CallGraph.checkedNearest_eq]
  cases p.entry? <;> rfl

namespace Recurrence

variable {R : Type} [Scalar R]

/-- The cost of a procedure outside its recursive calls, with the patterns read. -/
def checkedLocalCost (program : Program) (source : Text) (p : Procedure) : Option (Growth R) := do
  let own := (LineCost.ofProcedure p source).foldl (fun f row => f.max row.cost) Growth.constant
  let helped : StateT (Engine R) Option (Growth R) :=
    (helpers (CallGraph.ofProgram program) p.name).foldlM
      (fun f n => return f.max (← Engine.run fun e => e.checkedCost n).cases.worst) own
  let (f, _) ← helped.run (Engine.ofProgram program)
  return f

theorem checkedLocalCost_eq (program : Program) (source : Text) (p : Procedure) :
    checkedLocalCost program source p = some (localCost program source p : Growth R) := by
  have hgives (f : Growth R) (names : List Name) : Gives (Engine.Faithful program [])
      (names.foldlM (fun f n => do
        return f.max (← Engine.run (m := Option) fun e => e.checkedCost n).cases.worst) f)
      (names.foldl (fun f n => f.max (Engine.verdictOn program (fun _ => none) n).cases.worst)
        f) := by
    refine Gives.foldlM (fun n _ g => ?_) f
    simp only [Engine.checkedCost_eq]
    exact (Engine.runProcedure_gives (m := Option) none n).bind_pure fun v => g.max v.cases.worst
  rw [localCost, largestWorst_run]
  obtain ⟨e, he, -⟩ := hgives _ (helpers (CallGraph.ofProgram program) p.name) _
    (Engine.faithful_ofProgram program)
  simp only [checkedLocalCost]
  rw [he]
  rfl

/-- The relation of a procedure with a given cost outside its recursive calls. -/
def Relation.withLocalCost (p : Procedure) (f : Growth R) : Relation R :=
  let terms : List (Term R) := worstTerms p
  let (base, baseNotes) := Recurrence.baseCase p
  { procedure := p.display
    equation := equationText terms f
    baseCase := base
    notes := pathNotes p ++ baseNotes ++ kindNotes terms
    terms := terms
    localCost := f
    explanation := explanationText p.display terms f }

/-- The relation of the primary procedure of a program, with the patterns read. -/
def checkedPrimaryRelation (p : Program) (source : Text) :
    Option (Option (Name × Relation R)) := do
  match ← p.checkedPrimary with
  | none => return none
  | some n =>
    match (p.find? n).filter fun q => q.body.callsTo q.name with
    | none => return none
    | some q => return some (n, .withLocalCost q (← checkedLocalCost p source q))

theorem checkedPrimaryRelation_eq (p : Program) (source : Text) :
    checkedPrimaryRelation p source
      = some (Analysis.primaryRelation? p source : Option (Name × Relation R)) := by
  rw [checkedPrimaryRelation, p.checkedPrimary_eq, Analysis.primaryRelation?]
  cases p.primary? with
  | none => rfl
  | some n =>
      simp only [Option.bind_eq_bind, Option.bind_some, Relation.ofName?]
      cases (p.find? n).filter fun q => q.body.callsTo q.name with
      | none => rfl
      | some q =>
          dsimp only
          rw [checkedLocalCost_eq]
          rfl

/-- Every term of the relation of the primary procedure stands for a call. -/
theorem positive_of_primaryRelation? {p : Program} {source : Text} {n : Name} {rel : Relation R}
    (h : Analysis.primaryRelation? p source = some (n, rel)) : Positive rel.terms := by
  obtain ⟨k, -, hk⟩ := Option.bind_eq_some_iff.mp h
  obtain ⟨rel', hrel', heq⟩ := Option.map_eq_some_iff.mp hk
  obtain ⟨q, -, rfl⟩ := Option.map_eq_some_iff.mp hrel'
  cases heq
  exact worstTerms_positive q

end Recurrence

/-! ## The analysis -/

namespace Analysis

section Checked

variable {R : Type} [Scalar R]

/-- Judges a program in view of a solved procedure, with the patterns read. -/
def checkedPlace (n : Name) (s : Solution R) (v : Verdict R) :
    StateT (Engine R) Option (Verdict R × Bool) := do
  if ← Engine.checkedAgrees n then return (v, true)
  else
    let own := (← Engine.run fun e => e.checkedCost n).cases
    Engine.useSolved n (Cases.widened s.bound own)
    return (← Engine.run fun e => e.checkedProgramCost, false)

/-- The recursion tree of a relation, if one is asked for, with everything it looks at read. -/
def checkedDraw (options : Options) (rel : Relation R) : Option (Option (CallTree R)) :=
  if options.buildTree then
    some <$> ({ relation := rel, maxDepth := options.treeDepth } : TreePlan R).checkedTree
  else some none

/-- The report on a program and its primary procedure, from checked stages. -/
def checkedJudge (options : Options) (source : Text) (p : Program) : Option (Report R) := do
  let (first, engine) ← (Engine.run fun e => e.checkedProgramCost).run (Engine.ofProgram p)
  match ← checkedPrimaryRelation p source with
  | none => Report.checkedResolve first none none none true
  | some (n, rel) =>
    let outcome ← checkedSolve rel
    let tree ← checkedDraw options rel
    let (v, programLevel) ←
      match outcome with
      | .solved s => Prod.fst <$> (checkedPlace n s first).run engine
      | .unsolvable .. => pure (first, true)
    Report.checkedResolve v (some rel) (some outcome) tree programLevel

/-- The report on a program, from checked stages. -/
def checkedExamine (options : Options) (source : Text) (tokens : List Token) (p : Program) :
    Option (Report R) := do
  let rows := LineCost.ofProgram p source
  let report ← checkedJudge options source p
  return { report with
    tokens := tokens
    outline := p.outline.text
    lineCosts := rows
    statementCount := p.statementCount
    warnings := warnings p }

theorem checkedPlace_run {p : Program} (n : Name) (s : Solution R) (v : Verdict R) {e : Engine R}
    (he : Engine.Faithful p [] e) :
    Prod.fst <$> (checkedPlace n s v).run e = some (placed p n s v) := by
  simp only [checkedPlace, Engine.checkedAgrees_eq, Engine.checkedCost_eq,
    Engine.checkedProgramCost_eq]
  -- One engine is handed on through all the questions, and stays faithful to the program.
  obtain ⟨e₁, h₁, he₁⟩ := Engine.costAgrees_gives (m := Option) none n e he
  obtain ⟨e₂, h₂, he₂⟩ := Engine.runProcedure_gives (m := Option) none n e₁ he₁
  have he₃ := Engine.faithful_useSolved he₂ n
    (Cases.widened s.bound (Engine.verdictOn p (fun _ => none) n).cases)
  obtain ⟨e₄, h₄, -⟩ := Engine.runProgram_gives (m := Option) none _ he₃
  rw [placed, StateT.run_bind, h₁]
  change Prod.fst <$> ((if wholeCostIs R p n then _ else _ : StateT (Engine R) Option _).run e₁) = _
  cases wholeCostIs R p n with
  | true => rfl
  | false =>
      show Prod.fst <$> ((Engine.run (m := Option) fun e => e.costOf none n) >>= _).run e₁ = _
      rw [StateT.run_bind, h₂]
      exact congrArg (fun r : Option (Verdict R × Engine R) =>
        Prod.fst <$> r.bind fun r => some ((r.1, false), r.2)) h₄

theorem checkedDraw_eq (options : Options) {rel : Relation R} (hpos : Positive rel.terms) :
    checkedDraw options rel = some (treeOf options rel) := by
  rw [checkedDraw, treeOf, TreePlan.checkedTree_eq hpos]
  split <;> rfl

end Checked

variable {ε : ℝ}

theorem checkedJudge_eq (options : Options) (source : Text) (p : Program) :
    checkedJudge options source p
      = some (reportOn p options (primaryRelation? p source) : Report (Tolerant ε)) := by
  obtain ⟨e, he, hfaithful⟩ := Engine.runProgram_gives (m := Option) none _
    (Engine.faithful_ofProgram (R := Tolerant ε) p)
  simp only [checkedJudge, Engine.checkedProgramCost_eq]
  rw [he, checkedPrimaryRelation_eq]
  cases hrel : (primaryRelation? p source : Option (Name × Relation (Tolerant ε))) with
  | none => exact Report.checkedResolve_eq ..
  | some pair =>
      obtain ⟨n, rel⟩ := pair
      have hpos := positive_of_primaryRelation? hrel
      dsimp only [Option.bind_eq_bind, Option.bind_some, Option.pure_def, reportOn]
      rw [checkedSolve_eq hpos, Option.bind_some, checkedDraw_eq options hpos, Option.bind_some]
      cases Recurrence.solve rel with
      | solved s =>
          dsimp only
          rw [checkedPlace_run n s _ hfaithful]
          exact Report.checkedResolve_eq ..
      | unsolvable reason steps => exact Report.checkedResolve_eq ..

/-- **A program that can be read always gets a report.** Whatever the program and the options are,
what a procedure reaches is found within the bound of the visit, and no stage after the reading
reads anything that is not there: the analysis put together from checked stages gives the report. -/
theorem examine_checked (options : Options) (source : Text) (tokens : List Token) (p : Program) :
    (∀ n, (CallGraph.ofProgram p).checkedReachable n = some ((CallGraph.ofProgram p).reachable n))
      ∧ checkedExamine options source tokens p
        = some (Id.run (examine (R := Tolerant ε) Probe.silent options source tokens p)) := by
  refine ⟨CallGraph.checkedReachable_eq (CallGraph.ofProgram_declared p), ?_⟩
  rw [checkedExamine, checkedJudge_eq, ← judge_run]
  rfl

end Analysis

end PseudoCost
