import PseudoCost.Proofs.Assumptions
import PseudoCost.Proofs.LocalCost
import PseudoCost.Proofs.Renaming

/-!
# Costs do not depend on the names of variables

A program and a renamed copy of it are analysed alike: their loops make the same progress, their
self-calls change the size in the same way, their verdicts have the same cases and remarks of the
same kinds, and their recursive procedures have the same relations (`analyze_rename`).

The call graph of the two is the same graph, since calls are not renamed. Verdicts differ in the
texts of their remarks, which show how variables are spelled. These texts decide only whether a
remark is said twice, never whether a verdict has one of its kind (`Remark.anyOf_add`), so verdicts
are compared by `Verdict.Alike`, which every way of combining costs respects.

A renaming is an injection of all names. This is no loss: a program has finitely many variables, and
an injective renaming of these extends to all names.
-/

namespace PseudoCost

open Recurrence

/-! ## Verdicts up to the texts of remarks -/

namespace Verdict

variable {R : Type} [Scalar R] {v v' w w' : Verdict R}

/-- Two verdicts agree in all but the texts, lines and order of their remarks. -/
structure Alike (v w : Verdict R) : Prop where
  cases : v.cases = w.cases
  assumed : v.assumed = w.assumed
  has : ∀ kind, v.has kind = w.has kind

namespace Alike

omit [Scalar R] in
theorem refl (v : Verdict R) : v.Alike v := ⟨rfl, rfl, fun _ => rfl⟩

omit [Scalar R] in
theorem remark (h : v.Alike w) (kind : RemarkKind) (text text' : Text) (line line' : Int) :
    (v.remark kind text line).Alike (w.remark kind text' line') where
  cases := h.cases
  assumed := h.assumed
  has k := by
    have hk : Remark.anyOf v.remarks k = Remark.anyOf w.remarks k := h.has k
    simp only [Verdict.has, Verdict.remark, Remark.anyOf_add, hk]

omit [Scalar R] in
theorem assume (h : v.Alike w) : v.assume.Alike w.assume := ⟨h.cases, rfl, h.has⟩

omit [Scalar R] in
theorem merge (h : v.Alike w) (h' : v'.Alike w') : (v.merge v').Alike (w.merge w') where
  cases := h.cases
  assumed := by rw [Verdict.merge, Verdict.merge, h.assumed, h'.assumed]
  has k := by
    have hk : Remark.anyOf v.remarks k = Remark.anyOf w.remarks k := h.has k
    have hk' : Remark.anyOf v'.remarks k = Remark.anyOf w'.remarks k := h'.has k
    simp only [Verdict.has, Verdict.merge, Remark.anyOf_addAll, hk, hk']

omit [Scalar R] in
theorem withCases (h : v.Alike w) {c d : Cases R} (hc : c = d) :
    Alike { v with cases := c } { w with cases := d } := ⟨hc, h.assumed, h.has⟩

omit [Scalar R] in
theorem onto (h : v.Alike w) {c d : Cases R} (hc : c = d) : (onto c v).Alike (onto d w) := by
  subst hc
  exact (refl _).merge h

theorem sequence (h : v.Alike w) (h' : v'.Alike w') : (v.sequence v').Alike (w.sequence w') :=
  (h.merge h').withCases (by rw [h.cases, h'.cases])

theorem branched (h : v.Alike w) {t t' e e' : Verdict R} (ht : t.Alike t') (he : e.Alike e') :
    (v.branched t e).Alike (w.branched t' e') :=
  h.sequence ((ht.onto (by rw [ht.cases, he.cases])).merge he)

omit [Scalar R] in
theorem remarkProgress (h : v.Alike w) {shape shape' : LoopShape} (hs : shape.Alike shape')
    (line : Int) : (v.remarkProgress shape line).Alike (w.remarkProgress shape' line) := by
  rw [Verdict.remarkProgress, Verdict.remarkProgress, hs.1]
  cases shape'.progress with
  | logarithmic => exact h.remark _ _ _ _ _
  | unresolved => exact (h.remark _ _ _ _ _).assume
  | flagControlled => exact (h.remark _ _ _ _ _).assume
  | constant => exact h
  | linear => exact h

theorem repeated (h : v.Alike w) {shape shape' : LoopShape} (hs : shape.Alike shape')
    (line : Int) : (v.repeated shape line).Alike (w.repeated shape' line) := by
  simp only [Verdict.repeated, hs.1, hs.2, h.cases]
  split
  · exact ((h.onto rfl).remarkProgress hs line).remark _ _ _ _ _
  · exact (h.onto rfl).remarkProgress hs line

omit [Scalar R] in
theorem pattern (h : v.Alike w) (p : Procedure) (text : Text) :
    (v.pattern p text).Alike (w.pattern p text) := h.remark _ _ _ _ _

theorem linearDepth (h : v.Alike w) (p : Procedure) (why : Text) :
    (v.linearDepth p why).Alike (w.linearDepth p why) :=
  (h.onto (by rw [h.cases])).assume.pattern p _

theorem splitting (h : v.Alike w) (p : Procedure) (calls : Int) :
    (v.splitting p calls).Alike (w.splitting p calls) := by
  simp only [Verdict.splitting, h.cases]
  exact ((h.onto rfl).remark _ _ _ _ _).pattern p _

theorem dividing (h : v.Alike w) (p : Procedure) (calls : Int) (terms : List (Term R)) :
    (v.dividing p calls terms).Alike (w.dividing p calls terms) := by
  simp only [Verdict.dividing, h.cases]
  split <;> exact ((h.onto rfl).remark _ _ _ _ _).pattern p _

theorem subtracting (h : v.Alike w) (p : Procedure) (calls : Int) (terms : List (Term R)) :
    (v.subtracting p calls terms).Alike (w.subtracting p calls terms) := by
  simp only [Verdict.subtracting, h.cases]
  split
  · exact (h.onto rfl).pattern p _
  · split
    · exact (h.onto rfl).pattern p _
    · split <;> exact (h.onto rfl).pattern p _

/-- A recursion is judged by the cases of its own work and by whether that work has a call inside a
loop. -/
theorem recursive (h : v.Alike w) (g : CallGraph) (p : Procedure) :
    (v.recursive g p).Alike (w.recursive g p) := by
  simp only [Verdict.recursive, h.has]
  split
  · exact (h.onto rfl).assume.pattern p _
  · split
    · exact (h.onto (by rw [h.cases])).assume.pattern p _
    · split
      · exact h.linearDepth p _
      · split
        · exact h.splitting p _
        · split
          · exact h.dividing p _ _
          · split
            · exact h.subtracting p _ _
            · exact h.linearDepth p _

theorem ofBody (h : v.Alike w) (g : CallGraph) (p : Procedure) :
    (ofBody g p v).Alike (ofBody g p w) := by
  rw [Verdict.ofBody, Verdict.ofBody]
  split
  · exact h.recursive g p
  · exact h

omit [Scalar R] in
theorem withSolved (h : v.Alike w) (solved : Option (Cases R)) :
    (v.withSolved solved).Alike (w.withSolved solved) := by
  cases solved with
  | none => exact h
  | some cases => exact h.withCases rfl

end Alike

end Verdict

/-! ## Paths -/

namespace Recurrence

namespace PathAlgebra

variable {V : Type} (alg : PathAlgebra V) (ρ : Name → Name)

/-- Keeps of a path what `alg` keeps of the path with its calls renamed. -/
def renamed : PathAlgebra V where
  __ := alg
  ofCalls cs := alg.ofCalls (cs.map (Call.rename ρ))

mutual

theorem ofStmt_rename : ∀ s : Stmt, alg.ofStmt (s.rename ρ) = (alg.renamed ρ).ofStmt s
  | .forLoop pos control descending start stop step body => by
      rw [Stmt.rename, ofStmt, ofStmt, Expr.calls_rename, Expr.calls_rename, ofBlock_rename body]
      rfl
  | .whileLoop pos control cond body => by
      rw [Stmt.rename, ofStmt, ofStmt, Expr.calls_rename, ofBlock_rename body]
      rfl
  | .repeatLoop pos control body cond => by
      rw [Stmt.rename, ofStmt, ofStmt, Expr.calls_rename, ofBlock_rename body]
      rfl
  | .conditional pos cond thenBlock (some elseBlock) => by
      rw [Stmt.rename, ofStmt, ofStmt, Expr.calls_rename, ofBlock_rename thenBlock,
        ofBlock_rename elseBlock]
      rfl
  | .conditional pos cond thenBlock none => by
      rw [Stmt.rename, ofStmt, ofStmt, Expr.calls_rename, ofBlock_rename thenBlock]
      rfl
  | .assign pos target value => by
      rw [Stmt.rename, ofStmt, ofStmt, Stmt.calls_assign_rename]
      rfl
  | .call pos callee explicit args => by
      rw [Stmt.rename, ofStmt, ofStmt, Stmt.calls_call_rename]
      rfl
  | .give pos value => by
      rw [Stmt.rename, ofStmt, ofStmt, Stmt.calls_give_rename]
      rfl

theorem ofBlock_rename : ∀ b : Block, alg.ofBlock (b.rename ρ) = (alg.renamed ρ).ofBlock b
  | .mk _ _ _ stmts => by
      rw [Block.rename, ofBlock, ofBlock, Stmt.renameOf_eq, ofList_map stmts]
      rfl

theorem ofList_map : ∀ (ss : List Stmt) (before : Flow V),
    alg.ofList before (ss.map (Stmt.rename ρ)) = (alg.renamed ρ).ofList before ss
  | [], _ => by rw [List.map_nil, ofList, ofList]
  | s :: ss, before => by
      rw [List.map_cons, ofList, ofList, ofStmt_rename s]
      cases before.falls with
      | none => rfl
      | some prior => exact ofList_map ss _

end

theorem ofProcedure_rename (p : Procedure) :
    alg.ofProcedure (p.rename ρ) = (alg.renamed ρ).ofProcedure p := by
  rw [ofProcedure, ofProcedure, Procedure.rename, ofBlock_rename]
  rfl

end PathAlgebra

theorem countSelfCalls_rename (ρ : Name → Name) (p : Procedure) :
    countSelfCalls (p.rename ρ) = countSelfCalls p := by
  have halg : (countAlgebra p.name).renamed ρ = countAlgebra p.name := by
    simp only [PathAlgebra.renamed, countAlgebra, List.countP_map]
    rfl
  rw [countSelfCalls, PathAlgebra.ofProcedure_rename]
  exact congrArg (fun alg : PathAlgebra CallCount => alg.ofProcedure p) halg

theorem worstTerms_rename {R : Type} [Scalar R] (ρ : Name ↪ Name) (p : Procedure) :
    (worstTerms (p.rename ρ) : List (Term R)) = worstTerms p := by
  have halg : (termAlgebra (R := R) (p.rename ρ) ((SizeFacts.ofProcedure p).rename ρ)).renamed ρ
      = termAlgebra p (SizeFacts.ofProcedure p) := by
    simp only [PathAlgebra.renamed, termAlgebra, List.filter_map, List.map_map, Function.comp_def,
      SizeChange.ofCall_rename]
    rfl
  rw [worstTerms, PathAlgebra.ofProcedure_rename, SizeFacts.ofProcedure_rename, halg, worstTerms]

end Recurrence

/-- A recursive procedure is judged by its terms and counts of calls, which are not renamed. -/
theorem Verdict.ofBody_rename {R : Type} [Scalar R] (ρ : Name ↪ Name) (g : CallGraph)
    (p : Procedure) (own : Verdict R) : ofBody g (p.rename ρ) own = ofBody g p own := by
  simp only [Verdict.ofBody, Verdict.recursive, worstTerms_rename, Verdict.dividing,
    countSelfCalls_rename]
  rfl

/-! ## Programs and their call graphs -/

section Graph

variable (ρ : Name → Name)

@[simp] theorem Program.find?_rename (p : Program) (n : Name) :
    (p.rename ρ).find? n = (p.find? n).map (Procedure.rename ρ) := by
  rw [Program.find?, Program.find?, Program.rename, List.find?_map]
  rfl

@[simp] theorem Program.declares_rename (p : Program) (n : Name) :
    (p.rename ρ).declares n = p.declares n := by
  rw [Program.declares, Program.declares, Program.find?_rename, Option.isSome_map]

theorem Block.stmts_rename (b : Block) : (b.rename ρ).stmts = b.stmts.map (Stmt.rename ρ) := by
  obtain ⟨pos, explicit, close, stmts⟩ := b
  exact Stmt.renameOf_eq ρ stmts

theorem Program.entry?_rename (p : Program) :
    Program.entry? (p.rename ρ) = p.entry?.map (Block.rename ρ) := by
  unfold Program.entry?
  rw [Program.rename, Option.filter_map]
  simp [Function.comp_def, Block.stmts_rename]

theorem CallGraph.declaredCalls_rename (p : Program) (b : Block) :
    declaredCalls (p.rename ρ) (b.rename ρ) = declaredCalls p b := by
  rw [declaredCalls, declaredCalls, Block.calls_rename, List.map_map,
    funext (Program.declares_rename ρ p)]
  rfl

theorem CallGraph.callsOf_rename (p : Program) (n : Name) :
    callsOf (p.rename ρ) n = callsOf p n := by
  rw [callsOf, callsOf]
  show ((p.procedures.map (Procedure.rename ρ)).filter _).flatMap _ = _
  rw [List.filter_map, List.flatMap_map]
  exact List.flatMap_congr fun q _ => declaredCalls_rename ρ p q.body

@[simp] theorem CallGraph.ofProgram_rename (p : Program) :
    ofProgram (p.rename ρ) = ofProgram p := by
  have horder : (p.rename ρ).procedures.map Procedure.name = p.procedures.map Procedure.name := by
    rw [Program.rename, List.map_map]
    rfl
  have hmain : (p.rename ρ).main.toList.flatMap (declaredCalls (p.rename ρ))
      = p.main.toList.flatMap (declaredCalls p) := by
    show (p.main.map (Block.rename ρ)).toList.flatMap _ = _
    rw [Option.toList_map, List.flatMap_map]
    exact List.flatMap_congr fun b _ => declaredCalls_rename ρ p b
  simp only [ofProgram, horder, hmain, callsOf_rename]

end Graph

/-! ## Costs -/

namespace Costing

variable {R : Type} [Scalar R] (ρ : Name ↪ Name) {p : Program} {g : CallGraph}
  {v v' : Name → Verdict R}

theorem call_rename {ctx : Context} {c : Call}
    (h : Asks p g ctx.caller c → (v' c.callee).Alike (v c.callee)) {w w' : Verdict R}
    (hw : w'.Alike w) :
    ((given (p.rename ρ) g v').call ctx w' (c.rename ρ)).run.Alike
      ((given p g v).call ctx w c).run := by
  simp only [call, given, Call.rename, Program.declares_rename]
  by_cases hd : p.declares c.callee = true
  · simp only [hd, Bool.not_true, Bool.false_eq_true, if_false]
    by_cases hc : (ctx.caller.any fun n => g.onCycle n c.callee) = true
    · simp only [hc, if_true]
      split
      · exact (hw.remark _ _ _ _ _).assume
      · exact hw
    · simp only [hc, Bool.false_eq_true, if_false]
      exact hw.sequence (h ⟨hd, by simpa using hc⟩)
  · simp only [hd]
    exact hw

theorem calls_map (ctx : Context) (found : List Call)
    (h : ∀ c ∈ found, Asks p g ctx.caller c → (v' c.callee).Alike (v c.callee)) :
    ((given (p.rename ρ) g v').calls ctx (found.map (Call.rename ρ))).run.Alike
      ((given p g v).calls ctx found).run := by
  rw [calls, calls, List.idRun_foldlM, List.idRun_foldlM, List.foldl_map]
  have hfold : ∀ (found : List Call),
      (∀ c ∈ found, Asks p g ctx.caller c → (v' c.callee).Alike (v c.callee)) →
      ∀ {w w' : Verdict R}, w'.Alike w →
        (found.foldl (fun w c => ((given (p.rename ρ) g v').call ctx w (c.rename ρ)).run) w').Alike
          (found.foldl (fun w c => ((given p g v).call ctx w c).run) w) := by
    intro found
    induction found with
    | nil => exact fun _ _ _ hw => hw
    | cons c cs ih =>
        intro h w w' hw
        exact ih (fun k hk => h k (List.mem_cons_of_mem _ hk))
          (call_rename ρ (h c List.mem_cons_self) hw)
  exact hfold found h (.refl _)

mutual

theorem stmt_rename (ctx : Context) : ∀ s : Stmt,
    (∀ c ∈ s.costedCalls, Asks p g ctx.caller c → (v' c.callee).Alike (v c.callee)) →
    ((given (p.rename ρ) g v').stmt ctx (s.rename ρ)).run.Alike ((given p g v).stmt ctx s).run
  | .forLoop pos control descending start stop step body, h => by
      rw [Stmt.rename, stmt, stmt, Expr.calls_rename, Expr.calls_rename]
      have hstart := calls_map ρ ctx start.calls fun c hc => h c (by simp [Stmt.costedCalls, hc])
      have hstop := calls_map ρ ctx.enter stop.calls fun c hc =>
        h c (by simp [Stmt.costedCalls, hc])
      have hbody := block_rename ctx.enter body fun c hc => h c (by simp [Stmt.costedCalls, hc])
      exact (hbody.sequence (hstart.sequence hstop)).repeated (LoopShape.ofFor_rename ρ ..) _
  | .whileLoop pos control cond body, h => by
      rw [Stmt.rename, stmt, stmt, Expr.calls_rename]
      have hcond := calls_map ρ ctx.enter cond.calls fun c hc =>
        h c (by simp [Stmt.costedCalls, hc])
      have hbody := block_rename ctx.enter body fun c hc => h c (by simp [Stmt.costedCalls, hc])
      exact (hbody.sequence hcond).repeated (LoopShape.ofCondition_rename ρ ..) _
  | .repeatLoop pos control body cond, h => by
      rw [Stmt.rename, stmt, stmt, Expr.calls_rename]
      have hcond := calls_map ρ ctx.enter cond.calls fun c hc =>
        h c (by simp [Stmt.costedCalls, hc])
      have hbody := block_rename ctx.enter body fun c hc => h c (by simp [Stmt.costedCalls, hc])
      exact (hbody.sequence hcond).repeated (LoopShape.ofCondition_rename ρ ..) _
  | .conditional pos cond thenBlock (some elseBlock), h => by
      rw [Stmt.rename, stmt, stmt, Expr.calls_rename]
      have hcond := calls_map ρ ctx cond.calls fun c hc => h c (by simp [Stmt.costedCalls, hc])
      have hthen := block_rename ctx thenBlock fun c hc => h c (by simp [Stmt.costedCalls, hc])
      have helse := block_rename ctx elseBlock fun c hc => h c (by simp [Stmt.costedCalls, hc])
      exact hcond.branched hthen helse
  | .conditional pos cond thenBlock none, h => by
      rw [Stmt.rename, stmt, stmt, Expr.calls_rename]
      have hcond := calls_map ρ ctx cond.calls fun c hc => h c (by simp [Stmt.costedCalls, hc])
      have hthen := block_rename ctx thenBlock fun c hc => h c (by simp [Stmt.costedCalls, hc])
      exact hcond.branched hthen (.refl _)
  | .assign pos target value, h => by
      rw [Stmt.rename, stmt, stmt, Stmt.calls_assign_rename]
      exact calls_map ρ ctx _ (by simpa only [Stmt.costedCalls] using h)
  | .call pos callee explicit args, h => by
      rw [Stmt.rename, stmt, stmt, Stmt.calls_call_rename]
      exact calls_map ρ ctx _ (by simpa only [Stmt.costedCalls] using h)
  | .give pos value, h => by
      rw [Stmt.rename, stmt, stmt, Stmt.calls_give_rename]
      exact calls_map ρ ctx _ (by simpa only [Stmt.costedCalls] using h)

/-- If the verdicts that the calls of a block ask for are alike, so is the cost of the block. -/
theorem block_rename (ctx : Context) : ∀ b : Block,
    (∀ c ∈ b.costedCalls, Asks p g ctx.caller c → (v' c.callee).Alike (v c.callee)) →
    ((given (p.rename ρ) g v').block ctx (b.rename ρ)).run.Alike ((given p g v).block ctx b).run
  | .mk _ _ _ stmts, h => by
      rw [Block.rename, block, block, Stmt.renameOf_eq]
      exact list_map ctx stmts (by simpa only [Block.costedCalls] using h) (.refl _)

theorem list_map (ctx : Context) : ∀ ss : List Stmt,
    (∀ c ∈ Stmt.costedCallsOf ss, Asks p g ctx.caller c → (v' c.callee).Alike (v c.callee)) →
    ∀ {w w' : Verdict R}, w'.Alike w →
      ((given (p.rename ρ) g v').list ctx w' (ss.map (Stmt.rename ρ))).run.Alike
        ((given p g v).list ctx w ss).run
  | [], _, _, _, hw => by
      rw [List.map_nil, list, list]
      exact hw
  | s :: ss, h, _, _, hw => by
      rw [List.map_cons, list, list]
      have hs := stmt_rename ctx s fun c hc => h c (by simp [Stmt.costedCallsOf, hc])
      exact list_map ctx ss (fun c hc => h c (by simp [Stmt.costedCallsOf, hc])) (hw.sequence hs)

end

end Costing

namespace Engine

variable {R : Type} [Scalar R] (ρ : Name ↪ Name) (p : Program)

/-- The verdicts on a procedure are alike. The induction is on the number of procedures that it
reaches. -/
theorem verdictOn_rename (solved : Name → Option (Cases R)) (n : Name) :
    (verdictOn (p.rename ρ) solved n).Alike (verdictOn p solved n) := by
  induction hrank : (CallGraph.ofProgram p).rank n using Nat.strongRecOn generalizing n with
  | _ k ih =>
    subst hrank
    cases hq : p.find? n with
    | none =>
        have hq' : (p.rename ρ).find? n = none := by rw [Program.find?_rename, hq, Option.map_none]
        rw [verdictOn_of_unknown hq, verdictOn_of_unknown hq']
        exact .refl _
    | some q =>
        have hq' : (p.rename ρ).find? n = some (q.rename ρ) := by
          rw [Program.find?_rename, hq, Option.map_some]
        have hname : q.name = n := by simpa using List.find?_some hq
        have hdecl : n ∈ (CallGraph.ofProgram p).order :=
          CallGraph.declares_iff.mp (by simp [Program.declares, hq])
        have hown : (ownVerdict (p.rename ρ) solved (q.rename ρ)).Alike
            (ownVerdict p solved q) := by
          rw [ownVerdict, ownVerdict, CallGraph.ofProgram_rename]
          refine Costing.block_rename ρ _ q.body fun c hc hask => ?_
          have hedge := CallGraph.edge_of_call hq (q.body.costedCalls_subset hc) hask.1
          obtain ⟨hne, hbelow⟩ := (CallGraph.onCycle_eq_false_iff
            (CallGraph.ofProgram_declared p) hedge).mp (by rw [← hname]; exact hask.2)
          exact ih _ (CallGraph.rank_lt (CallGraph.ofProgram_declared p) hdecl hne hbelow) _ rfl
        rw [verdictOn_eq hq, verdictOn_eq hq', CallGraph.ofProgram_rename, Verdict.ofBody_rename]
        exact (hown.ofBody _ q).withSolved _

theorem programVerdict_rename (solved : Name → Option (Cases R)) :
    (programVerdict (p.rename ρ) solved).Alike (programVerdict p solved) := by
  rw [programVerdict, programVerdict, Program.entry?_rename, CallGraph.ofProgram_rename]
  cases p.entry? with
  | some main =>
      exact Costing.block_rename ρ _ main fun c _ _ => verdictOn_rename ρ p solved c.callee
  | none =>
      dsimp only [Option.map_none]
      generalize (if (CallGraph.ofProgram p).roots.isEmpty then _ else _) = entries
      have hfold : ∀ (entries : List Name) {v v' : Verdict R}, v'.Alike v →
          (entries.foldl (fun v n => v.sequence (verdictOn (p.rename ρ) solved n)) v').Alike
            (entries.foldl (fun v n => v.sequence (verdictOn p solved n)) v) := by
        intro entries
        induction entries with
        | nil => exact fun hv => hv
        | cons n entries ih => exact fun hv => ih (hv.sequence (verdictOn_rename ρ p solved n))
      exact hfold entries (.refl _)

/-- A fresh engine answers with the verdict under the solved costs it was given. -/
theorem analyze_fresh (costs : List (Name × Cases R)) :
    (analyze.run (fresh p costs)).run.1 = programVerdict p fun n => costs.lookup n := by
  obtain ⟨_, h, -⟩ := runProgram_gives (m := Id) Verdict.constant _ (faithful_fresh (p := p) costs)
  rw [analyze, h]
  rfl

end Engine

/-! ## Relations -/

namespace LineCost

variable {R : Type} [Scalar R] (ρ : Name ↪ Name) (scope : Scope)

mutual

theorem entriesOf_rename (cost : Growth R) (loops : Nat) : ∀ s : Stmt,
    List.Forall₂ Entry.Alike (entriesOf scope cost loops (s.rename ρ))
      (entriesOf scope cost loops s)
  | .forLoop pos control descending start stop step body => by
      have hshape := (Stmt.forLoop pos control descending start stop step body).loopShape_rename ρ
      rw [Stmt.rename] at hshape
      rw [Stmt.rename, entriesOf, entriesOf, hshape.1]
      exact .cons ⟨rfl, rfl⟩ (blockEntries_rename _ _ body)
  | .whileLoop pos control cond body => by
      have hshape := (Stmt.whileLoop pos control cond body).loopShape_rename ρ
      rw [Stmt.rename] at hshape
      rw [Stmt.rename, entriesOf, entriesOf, hshape.1]
      exact .cons ⟨rfl, rfl⟩ (blockEntries_rename _ _ body)
  | .repeatLoop pos control body cond => by
      have hshape := (Stmt.repeatLoop pos control body cond).loopShape_rename ρ
      rw [Stmt.rename] at hshape
      rw [Stmt.rename, entriesOf, entriesOf, hshape.1]
      exact .cons ⟨rfl, rfl⟩ (blockEntries_rename _ _ body)
  | .conditional pos cond thenBlock (some elseBlock) => by
      rw [Stmt.rename, entriesOf, entriesOf]
      exact .cons ⟨rfl, rfl⟩ (List.rel_append (blockEntries_rename _ _ thenBlock)
        (blockEntries_rename _ _ elseBlock))
  | .conditional pos cond thenBlock none => by
      rw [Stmt.rename, entriesOf, entriesOf]
      exact .cons ⟨rfl, rfl⟩ (blockEntries_rename _ _ thenBlock)
  | .assign .. | .call .. | .give .. => by
      rw [Stmt.rename, entriesOf, entriesOf]
      exact .cons ⟨rfl, rfl⟩ .nil

theorem blockEntries_rename (cost : Growth R) (loops : Nat) : ∀ b : Block,
    List.Forall₂ Entry.Alike (blockEntries scope cost loops (b.rename ρ))
      (blockEntries scope cost loops b)
  | .mk _ _ _ stmts => by
      rw [Block.rename, blockEntries, blockEntries, Stmt.renameOf_eq]
      exact listEntries_map _ _ stmts

theorem listEntries_map (cost : Growth R) (loops : Nat) : ∀ ss : List Stmt,
    List.Forall₂ Entry.Alike (listEntries scope cost loops (ss.map (Stmt.rename ρ)))
      (listEntries scope cost loops ss)
  | [] => by
      rw [List.map_nil, listEntries]
      exact .nil
  | s :: ss => by
      rw [List.map_cons, listEntries, listEntries]
      exact List.rel_append (entriesOf_rename _ _ s) (listEntries_map _ _ ss)

end

end LineCost

namespace Recurrence

variable {R : Type} [Scalar R] (ρ : Name ↪ Name)

theorem localCost_rename (p : Program) (q : Procedure) (source source' : Text) :
    (localCost (p.rename ρ) source' (q.rename ρ) : Growth R) = localCost p source q := by
  refine localCost_congr (LineCost.blockEntries_rename ρ _ _ _ q.body) ?_ (fun n _ => ?_) _ _
  · rw [CallGraph.ofProgram_rename]
    rfl
  · rw [(Engine.verdictOn_rename ρ p _ n).cases]

/-- What a relation says apart from how variables are spelled: terms, local cost, equation. -/
def Relation.essence (r : Relation R) : List (Term R) × Growth R × Text :=
  (r.terms, r.localCost, r.equation)

theorem ofName?_rename (p : Program) (n : Name) (source source' : Text) :
    (Relation.ofName? (p.rename ρ) source' n : Option (Relation R)).map Relation.essence
      = (Relation.ofName? p source n).map Relation.essence := by
  have hself : ((p.rename ρ).find? n).filter (fun q => q.body.callsTo q.name)
      = ((p.find? n).filter fun q => q.body.callsTo q.name).map (Procedure.rename ρ) := by
    rw [Program.find?_rename, Option.filter_map]
    congr 2
    funext q
    exact Block.callsTo_rename ρ q.body q.name
  rw [Relation.ofName?, Relation.ofName?, hself, Option.map_map, Option.map_map, Option.map_map]
  congr 1
  funext q
  simp only [Function.comp_apply, Relation.ofProcedure, Relation.essence, worstTerms_rename,
    localCost_rename ρ p q source source']

/-- The changes of size that the self-calls of a procedure make, in reading order. -/
def selfChanges (p : Procedure) : List (SizeChange R) :=
  (p.body.calls.filter (·.callee == p.name)).map (SizeChange.ofCall p (SizeFacts.ofProcedure p))

theorem selfChanges_rename (p : Procedure) :
    (selfChanges (p.rename ρ) : List (SizeChange R)) = selfChanges p := by
  have hcalls : (p.rename ρ).body.calls = p.body.calls.map (Call.rename ρ) :=
    Block.calls_rename ρ p.body
  rw [selfChanges, selfChanges, hcalls, List.filter_map, List.map_map,
    SizeFacts.ofProcedure_rename]
  exact List.map_congr_left fun c _ => SizeChange.ofCall_rename ρ p _ c

end Recurrence

namespace Engine

variable {R : Type} [Scalar R]

/-- **The analysis does not depend on the names of variables.** Renaming them injectively changes
neither the progress of a loop and whether it can be left early, nor the change of size that a
self-call makes, nor the cases of the verdict on a program, whether it rests on a guess and the
kinds of its remarks, under any solved costs, nor the terms, the local cost and the equation of a
relation. The empty name, which stands for no control variable, need not be kept. -/
theorem analyze_rename (ρ : Name ↪ Name) (p : Program) (costs : List (Name × Cases R))
    (source source' : Text) :
    (∀ s : Stmt, (s.rename ρ).loopShape.progress = s.loopShape.progress
        ∧ (s.rename ρ).loopShape.earlyExit = s.loopShape.earlyExit)
      ∧ (∀ q : Procedure, (selfChanges (q.rename ρ) : List (SizeChange R)) = selfChanges q)
      ∧ ((analyze.run (fresh (p.rename ρ) costs)).run.1).Alike (analyze.run (fresh p costs)).run.1
      ∧ ∀ n, (Relation.ofName? (p.rename ρ) source' n : Option (Relation R)).map Relation.essence
        = (Relation.ofName? p source n).map Relation.essence := by
  refine ⟨fun s => s.loopShape_rename ρ, selfChanges_rename ρ, ?_, fun n => ?_⟩
  · rw [analyze_fresh, analyze_fresh]
    exact programVerdict_rename ρ p _
  · exact ofName?_rename ρ p n source source'

end Engine

end PseudoCost
