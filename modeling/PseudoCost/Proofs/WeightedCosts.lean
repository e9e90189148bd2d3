import PseudoCost.Proofs.CalleeBound
import PseudoCost.Proofs.LargestLine

/-!
# The cost of a block, outside in

The structural analysis works from the inside out: it takes the larger of two costs and multiplies
by the iterations of a loop on the way out of it. The rows of a procedure are made from the outside
in: the multiplier is carried into the loops, and every statement costs what it has become there.
`Costing.block_key_le_iff` says that the two agree, apart from calls. A bound is above the cost of
a block that runs `m` times exactly if it is above `m`, above every entry of the block and above
every callee that is asked for, taken as often as its call is made (`Block.weightedCalls`).

The multiplier is general in the induction, since a loop changes it for its body. Stating bounds
instead of maxima makes the two sides meet: on a grid the larger of two growths is below a bound if
both are, also after a multiplication (`Growth.key_max_times`), and nothing has to be said about
which of them was the larger one.
-/

namespace PseudoCost

open Tolerant

variable {ε : ℝ} {G : Grid ε}

/-! ## Products with numbers of iterations -/

namespace Growth

variable {f g h k : Growth (Tolerant ε)}

theorem times_times (hε : 0 ≤ ε) (hh : h.isExponential = false) (hk : k.isExponential = false) :
    (g.times h).times k = g.times (h.times k) := by
  have hhk : (h.times k).isExponential = false := by rw [isExponential_times hε hk, hh]
  have hdegree : ((g.times h).times k).degree = (g.times (h.times k)).degree :=
    Tolerant.ext (add_assoc ..)
  have hlog : ((g.times h).times k).logPower = (g.times (h.times k)).logPower := add_assoc ..
  have hbase : ((g.times h).times k).expBase = (g.times (h.times k)).expBase := by
    rw [expBase_times hk, expBase_times hhk, isExponential_times hε hh, expBase_times hh]
    cases g.isExponential <;> rfl
  exact (Growth.mk.injEq ..).mpr ⟨hdegree, hlog, hbase⟩

theorem times_comm (hh : h.isExponential = false) (hk : k.isExponential = false) :
    h.times k = k.times h := by
  have hdegree : (h.times k).degree = (k.times h).degree := Tolerant.ext (add_comm ..)
  have hlog : (h.times k).logPower = (k.times h).logPower := add_comm ..
  have hbase : (h.times k).expBase = (k.times h).expBase := by
    rw [expBase_times hk, expBase_times hh, hh, hk]
    rfl
  exact (Growth.mk.injEq ..).mpr ⟨hdegree, hlog, hbase⟩

theorem key_times_constant (hε : 0 ≤ ε) : (g.times constant).key = g.key := by
  have hconstant : (constant : Growth (Tolerant ε)).isExponential = false :=
    isExponential_polynomial hε _ _
  rw [key_times hε hconstant, key]
  simp [constant, polynomial]

theorem key_constant_times (hε : 0 ≤ ε) (hg : g.isExponential = false) :
    (constant.times g).key = g.key := by
  have hconstant : (constant : Growth (Tolerant ε)).isExponential = false :=
    isExponential_polynomial hε _ _
  rw [times_comm hconstant hg, key_times_constant hε]

/-- The larger of two growths is still the larger one after a multiplication. -/
theorem key_max_times (hf : G.Holds f) (hg : G.Holds g) (hh : h.isExponential = false) :
    ((f.max g).times h).key = Max.max (f.times h).key (g.times h).key := by
  rw [max]
  split
  · rename_i hge
    have hkey := (isGE_compare_iff hf hg).mp hge
    exact (max_eq_left (key_times_le G.nonneg hh hkey)).symm
  · rename_i hge
    rw [isGE_compare_iff hf hg, not_le] at hge
    exact (max_eq_right (key_times_le G.nonneg hh hge.le)).symm

end Growth

/-! ## Calls with how often they are made -/

section Weights

variable {R : Type} [Scalar R]

mutual

/-- The calls that count in a statement that runs `m` times, each with how often it is made. The
bounds of a loop are taken as often as its body. -/
def Stmt.weightedCalls (m : Growth R) : Stmt → List (Growth R × Call)
  | .forLoop pos control descending start stop step body =>
    let s := Stmt.forLoop pos control descending start stop step body
    let inner := m.times s.loopShape.progress.iterations
    start.calls.map (inner, ·) ++ stop.calls.map (inner, ·) ++ body.weightedCalls inner
  | .whileLoop pos control cond body =>
    let inner := m.times (Stmt.whileLoop pos control cond body).loopShape.progress.iterations
    cond.calls.map (inner, ·) ++ body.weightedCalls inner
  | .repeatLoop pos control body cond =>
    let inner := m.times (Stmt.repeatLoop pos control body cond).loopShape.progress.iterations
    body.weightedCalls inner ++ cond.calls.map (inner, ·)
  | .conditional _ cond thenBlock (some elseBlock) =>
    cond.calls.map (m, ·) ++ thenBlock.weightedCalls m ++ elseBlock.weightedCalls m
  | .conditional _ cond thenBlock none => cond.calls.map (m, ·) ++ thenBlock.weightedCalls m
  | .assign pos target value => (Stmt.assign pos target value).calls.map (m, ·)
  | .call pos callee explicit args => (Stmt.call pos callee explicit args).calls.map (m, ·)
  | .give pos value => (Stmt.give pos value).calls.map (m, ·)

/-- The calls that count in a block that runs `m` times. -/
def Block.weightedCalls (m : Growth R) : Block → List (Growth R × Call)
  | .mk _ _ _ stmts => Stmt.weightedCallsOf m stmts

/-- The calls that count in a list of statements that runs `m` times. -/
def Stmt.weightedCallsOf (m : Growth R) : List Stmt → List (Growth R × Call)
  | [] => []
  | s :: ss => s.weightedCalls m ++ Stmt.weightedCallsOf m ss

end

mutual

theorem Stmt.map_weightedCalls : ∀ (s : Stmt) (m : Growth R),
    (s.weightedCalls m).map Prod.snd = s.costedCalls
  | .forLoop .., m => by
      simp [Stmt.weightedCalls, Stmt.costedCalls, Block.map_weightedCalls]
  | .whileLoop .., m => by
      simp [Stmt.weightedCalls, Stmt.costedCalls, Block.map_weightedCalls]
  | .repeatLoop .., m => by
      simp [Stmt.weightedCalls, Stmt.costedCalls, Block.map_weightedCalls]
  | .conditional _ _ _ (some _), m => by
      simp [Stmt.weightedCalls, Stmt.costedCalls, Block.map_weightedCalls]
  | .conditional _ _ _ none, m => by
      simp [Stmt.weightedCalls, Stmt.costedCalls, Block.map_weightedCalls]
  | .assign .., m | .call .., m | .give .., m => by
      simp [Stmt.weightedCalls, Stmt.costedCalls]

/-- The calls with weights are the calls that count. -/
theorem Block.map_weightedCalls : ∀ (b : Block) (m : Growth R),
    (b.weightedCalls m).map Prod.snd = b.costedCalls
  | .mk _ _ _ stmts, m => by
      rw [Block.weightedCalls, Block.costedCalls, Stmt.map_weightedCallsOf]

theorem Stmt.map_weightedCallsOf : ∀ (ss : List Stmt) (m : Growth R),
    (Stmt.weightedCallsOf m ss).map Prod.snd = Stmt.costedCallsOf ss
  | [], m => rfl
  | s :: ss, m => by
      rw [Stmt.weightedCallsOf, Stmt.costedCallsOf, List.map_append, s.map_weightedCalls,
        Stmt.map_weightedCallsOf ss]

end

section Closed

variable {P : Growth R → Prop}

mutual

theorem Stmt.weightedCalls_closed (htimes : Growth.LoopClosed P) :
    ∀ (s : Stmt) {m : Growth R}, P m → ∀ w ∈ s.weightedCalls m, P w.1
  | .forLoop _ _ _ _ _ _ body, m, hm => by
      rw [Stmt.weightedCalls]
      simp only [List.forall_mem_append, List.forall_mem_map]
      exact ⟨⟨fun _ _ => htimes _ _ hm, fun _ _ => htimes _ _ hm⟩,
        Block.weightedCalls_closed htimes body (htimes _ _ hm)⟩
  | .whileLoop _ _ _ body, m, hm => by
      rw [Stmt.weightedCalls]
      simp only [List.forall_mem_append, List.forall_mem_map]
      exact ⟨fun _ _ => htimes _ _ hm, Block.weightedCalls_closed htimes body (htimes _ _ hm)⟩
  | .repeatLoop _ _ body _, m, hm => by
      rw [Stmt.weightedCalls]
      simp only [List.forall_mem_append, List.forall_mem_map]
      exact ⟨Block.weightedCalls_closed htimes body (htimes _ _ hm), fun _ _ => htimes _ _ hm⟩
  | .conditional _ _ thenBlock (some elseBlock), m, hm => by
      rw [Stmt.weightedCalls]
      simp only [List.forall_mem_append, List.forall_mem_map]
      exact ⟨⟨fun _ _ => hm, Block.weightedCalls_closed htimes thenBlock hm⟩,
        Block.weightedCalls_closed htimes elseBlock hm⟩
  | .conditional _ _ thenBlock none, m, hm => by
      rw [Stmt.weightedCalls]
      simp only [List.forall_mem_append, List.forall_mem_map]
      exact ⟨fun _ _ => hm, Block.weightedCalls_closed htimes thenBlock hm⟩
  | .assign .., m, hm | .call .., m, hm | .give .., m, hm => by
      rw [Stmt.weightedCalls]
      exact List.forall_mem_map.mpr fun _ _ => hm

/-- A property of growths that loops preserve passes from how often a block runs to how often its
calls are made. -/
theorem Block.weightedCalls_closed (htimes : Growth.LoopClosed P) :
    ∀ (b : Block) {m : Growth R}, P m → ∀ w ∈ b.weightedCalls m, P w.1
  | .mk _ _ _ stmts, m, hm => by
      rw [Block.weightedCalls]
      exact Stmt.weightedCallsOf_closed htimes stmts hm

theorem Stmt.weightedCallsOf_closed (htimes : Growth.LoopClosed P) :
    ∀ (ss : List Stmt) {m : Growth R}, P m → ∀ w ∈ Stmt.weightedCallsOf m ss, P w.1
  | [], m, _ => by
      rw [Stmt.weightedCallsOf]
      exact fun _ hw => absurd hw List.not_mem_nil
  | s :: ss, m, hm => by
      rw [Stmt.weightedCallsOf]
      exact List.forall_mem_append.mpr
        ⟨s.weightedCalls_closed htimes hm, Stmt.weightedCallsOf_closed htimes ss hm⟩

end

end Closed

end Weights

/-- Taking a growth on a grid as often as a call is made stays on the grid. -/
theorem Block.weight_holds (G : Grid ε) (b : Block) {w : Growth (Tolerant ε) × Call}
    (hw : w ∈ b.weightedCalls Growth.constant) {g : Growth (Tolerant ε)} (hg : G.Holds g) :
    G.Holds (g.times w.1) := by
  let P (m : Growth (Tolerant ε)) : Prop :=
    m.isExponential = false ∧ ∀ g : Growth (Tolerant ε), G.Holds g → G.Holds (g.times m)
  have hconstant : (Growth.constant : Growth (Tolerant ε)).isExponential = false :=
    Growth.isExponential_polynomial G.nonneg _ _
  have hstart : P Growth.constant :=
    ⟨hconstant, fun g hg => Growth.holds_times hg hconstant (Or.inl val_zero)⟩
  have htimes : ∀ (m : Growth (Tolerant ε)) (progress : Progress), P m →
      P (m.times progress.iterations) := by
    intro m progress hm
    have hit := isExponential_iterations G.nonneg progress
    refine ⟨by rw [Growth.isExponential_times G.nonneg hit, hm.1], fun g hg => ?_⟩
    rw [← Growth.times_times G.nonneg hm.1 hit]
    exact Growth.holds_times (hm.2 g hg) hit (degree_iterations progress)
  exact (b.weightedCalls_closed htimes hstart w hw).2 g hg

/-! ## Bounds -/

namespace Costing

section Bounds

variable (p : Program) (g : CallGraph) (v : Name → Verdict (Tolerant ε)) (caller : Option Name)

/-- Every callee that is asked for, taken as often as its call is made, is below a bound. -/
def CalleesBelow (bound : ℝ ×ₗ (ℝ ×ₗ ℤ)) (calls : List (Growth (Tolerant ε) × Call)) : Prop :=
  ∀ w ∈ calls, Asks p g caller w.2 → ((v w.2.callee).cases.worst.times w.1).key ≤ bound

variable {p g v caller} {bound : ℝ ×ₗ (ℝ ×ₗ ℤ)}

@[simp] theorem calleesBelow_nil : CalleesBelow p g v caller bound [] :=
  fun _ hw => absurd hw List.not_mem_nil

@[simp] theorem calleesBelow_append {calls calls' : List (Growth (Tolerant ε) × Call)} :
    CalleesBelow p g v caller bound (calls ++ calls')
      ↔ CalleesBelow p g v caller bound calls ∧ CalleesBelow p g v caller bound calls' :=
  List.forall_mem_append

theorem calleesBelow_cons {m : Growth (Tolerant ε)} {c : Call}
    {calls : List (Growth (Tolerant ε) × Call)} :
    CalleesBelow p g v caller bound ((m, c) :: calls)
      ↔ (Asks p g caller c → ((v c.callee).cases.worst.times m).key ≤ bound)
        ∧ CalleesBelow p g v caller bound calls :=
  List.forall_mem_cons

end Bounds

/-! ## Verdicts under a bound -/

section Verdicts

variable {v w : Verdict (Tolerant ε)} {m : Growth (Tolerant ε)} {bound : ℝ ×ₗ (ℝ ×ₗ ℤ)}

theorem constant_key_le_iff (hε : 0 ≤ ε) (hm : m.isExponential = false) :
    ((Verdict.constant : Verdict (Tolerant ε)).cases.worst.times m).key ≤ bound
      ↔ m.key ≤ bound := by
  rw [Verdict.cases_constant, Cases.uniform, Growth.key_constant_times hε hm]

theorem sequence_key_le_iff (hm : m.isExponential = false) (hv : v.cases.All G.Holds)
    (hw : w.cases.All G.Holds) :
    ((v.sequence w).cases.worst.times m).key ≤ bound
      ↔ (v.cases.worst.times m).key ≤ bound ∧ (w.cases.worst.times m).key ≤ bound := by
  rw [Verdict.cases_sequence, Cases.max, Growth.key_max_times hv.worst hw.worst hm, max_le_iff]

theorem branched_key_le_iff (hm : m.isExponential = false) {c t e : Verdict (Tolerant ε)}
    (hc : c.cases.All G.Holds) (ht : t.cases.All G.Holds) (he : e.cases.All G.Holds) :
    ((c.branched t e).cases.worst.times m).key ≤ bound
      ↔ (c.cases.worst.times m).key ≤ bound ∧ (t.cases.worst.times m).key ≤ bound
        ∧ (e.cases.worst.times m).key ≤ bound := by
  rw [Verdict.cases_branched, Cases.max, Cases.either,
    Growth.key_max_times hc.worst (Growth.max_of_both ht.worst he.worst) hm,
    Growth.key_max_times ht.worst he.worst hm, max_le_iff, max_le_iff]

theorem inner_polynomial (hε : 0 ≤ ε) (hm : m.isExponential = false) (progress : Progress) :
    (m.times progress.iterations).isExponential = false := by
  rw [Growth.isExponential_times hε (isExponential_iterations hε progress), hm]

/-- A loop that runs `m` times makes `m` times its iterations passes. -/
theorem repeated_times (hε : 0 ≤ ε) (hm : m.isExponential = false) (shape : LoopShape)
    (line : Int) :
    (v.repeated shape line).cases.worst.times m
      = v.cases.worst.times (m.times shape.progress.iterations) := by
  have hit := isExponential_iterations hε shape.progress
  rw [Verdict.cases_repeated, Growth.times_times hε hit hm, Growth.times_comm hit hm]

end Verdicts

/-! ## Blocks under a bound -/

section Blocks

variable {p : Program} {g : CallGraph} {v : Name → Verdict (Tolerant ε)} {scope : LineCost.Scope}
  {bound : ℝ ×ₗ (ℝ ×ₗ ℤ)}

theorem call_key_le_iff (ctx : Context) (c : Call) {m : Growth (Tolerant ε)}
    (hm : m.isExponential = false) {w : Verdict (Tolerant ε)} (hw : w.cases.All G.Holds)
    (hv : (v c.callee).cases.All G.Holds) :
    (((given p g v).call ctx w c).run.cases.worst.times m).key ≤ bound
      ↔ (w.cases.worst.times m).key ≤ bound
        ∧ (Asks p g ctx.caller c → ((v c.callee).cases.worst.times m).key ≤ bound) := by
  by_cases hask : Asks p g ctx.caller c
  · have hcall : ((given p g v).call ctx w c).run = w.sequence (v c.callee) := by
      simp only [call, given, hask.1, hask.2]
      rfl
    rw [hcall, sequence_key_le_iff hm hw hv, imp_iff_right hask]
  · have hcall : ((given p g v).call ctx w c).run.cases = w.cases := by
      simp only [call, given]
      by_cases hd : p.declares c.callee = true
      · have hc : (ctx.caller.any fun n => g.onCycle n c.callee) = true := by
          by_contra hc
          exact hask ⟨hd, by simpa using hc⟩
        simp only [hd, hc, Bool.not_true, Bool.false_eq_true, if_false, if_true]
        split <;> rfl
      · simp only [hd]
        rfl
    rw [hcall]
    exact ⟨fun h => ⟨h, fun hask' => absurd hask' hask⟩, fun h => h.1⟩

/-- The cost of a loop under a bound, from those of its body and of its header. -/
theorem loop_key_le_iff {body header : Verdict (Tolerant ε)} (hbody : body.cases.All G.Holds)
    (hheader : header.cases.All G.Holds) (shape : LoopShape) (line : Int)
    {m : Growth (Tolerant ε)} (hm : m.isExponential = false) :
    (((body.sequence header).repeated shape line).cases.worst.times m).key ≤ bound
      ↔ (body.cases.worst.times (m.times shape.progress.iterations)).key ≤ bound
        ∧ (header.cases.worst.times (m.times shape.progress.iterations)).key ≤ bound := by
  rw [repeated_times G.nonneg hm,
    sequence_key_le_iff (inner_polynomial G.nonneg hm _) hbody hheader]

theorem foldl_call_key_le_iff (hv : ∀ n, (v n).cases.All G.Holds) (ctx : Context)
    {m : Growth (Tolerant ε)} (hm : m.isExponential = false) :
    ∀ (found : List Call) {w : Verdict (Tolerant ε)}, w.cases.All G.Holds →
    (((found.foldl (fun w c => ((given p g v).call ctx w c).run) w).cases.worst.times m).key ≤ bound
      ↔ (w.cases.worst.times m).key ≤ bound
        ∧ CalleesBelow p g v ctx.caller bound (found.map (m, ·)))
  | [], w, _ => by simp
  | c :: found, w, hw => by
      have hcall : ((given p g v).call ctx w c).run.cases.All G.Holds :=
        G.closed.call (fun _ => hv _) hw
      rw [List.foldl_cons, List.map_cons, calleesBelow_cons,
        foldl_call_key_le_iff hv ctx hm found hcall, call_key_le_iff ctx c hm hw (hv _), and_assoc]

theorem calls_key_le_iff (hv : ∀ n, (v n).cases.All G.Holds) (ctx : Context)
    (found : List Call) {m : Growth (Tolerant ε)} (hm : m.isExponential = false) :
    ((((given p g v).calls ctx found).run.cases.worst.times m).key ≤ bound)
      ↔ m.key ≤ bound ∧ CalleesBelow p g v ctx.caller bound (found.map (m, ·)) := by
  rw [calls, List.idRun_foldlM]
  rw [foldl_call_key_le_iff hv ctx hm found G.closed.constant, constant_key_le_iff G.nonneg hm]

mutual

theorem stmt_key_le_iff (hv : ∀ n, (v n).cases.All G.Holds) (ctx : Context)
    (loops : Nat) : ∀ (s : Stmt) {m : Growth (Tolerant ε)}, m.isExponential = false →
    ((((given p g v).stmt ctx s).run.cases.worst.times m).key ≤ bound
      ↔ LineCost.Below bound (LineCost.entriesOf scope m loops s)
        ∧ CalleesBelow p g v ctx.caller bound (s.weightedCalls m))
  | .forLoop pos control descending start stop step body, m, hm => by
      have hinner := inner_polynomial G.nonneg hm
        (Stmt.forLoop pos control descending start stop step body).loopShape.progress
      have hstart := calls_holds p g hv ctx start.calls
      have hstop := calls_holds p g hv ctx.enter stop.calls
      rw [stmt, LineCost.entriesOf, Stmt.weightedCalls, LineCost.below_cons, calleesBelow_append,
        calleesBelow_append]
      refine (loop_key_le_iff (block_holds p g hv ctx.enter body)
        (G.closed.sequence hstart hstop) _ _ hm).trans ?_
      rw [sequence_key_le_iff hinner hstart hstop,
        block_key_le_iff hv ctx.enter (loops + 1) body hinner,
        calls_key_le_iff hv ctx start.calls hinner, calls_key_le_iff hv ctx.enter stop.calls hinner]
      tauto
  | .whileLoop pos control cond body, m, hm => by
      have hinner := inner_polynomial G.nonneg hm
        (Stmt.whileLoop pos control cond body).loopShape.progress
      rw [stmt, LineCost.entriesOf, Stmt.weightedCalls, LineCost.below_cons, calleesBelow_append]
      refine (loop_key_le_iff (block_holds p g hv ctx.enter body)
        (calls_holds p g hv ctx.enter cond.calls) _ _ hm).trans ?_
      rw [block_key_le_iff hv ctx.enter (loops + 1) body hinner,
        calls_key_le_iff hv ctx.enter cond.calls hinner]
      tauto
  | .repeatLoop pos control body cond, m, hm => by
      have hinner := inner_polynomial G.nonneg hm
        (Stmt.repeatLoop pos control body cond).loopShape.progress
      rw [stmt, LineCost.entriesOf, Stmt.weightedCalls, LineCost.below_cons, calleesBelow_append]
      refine (loop_key_le_iff (block_holds p g hv ctx.enter body)
        (calls_holds p g hv ctx.enter cond.calls) _ _ hm).trans ?_
      rw [block_key_le_iff hv ctx.enter (loops + 1) body hinner,
        calls_key_le_iff hv ctx.enter cond.calls hinner]
      tauto
  | .conditional pos cond thenBlock (some elseBlock), m, hm => by
      rw [stmt, LineCost.entriesOf, Stmt.weightedCalls, LineCost.below_cons, LineCost.below_append,
        calleesBelow_append, calleesBelow_append]
      refine (branched_key_le_iff hm (calls_holds p g hv ctx cond.calls)
        (block_holds p g hv ctx thenBlock) (block_holds p g hv ctx elseBlock)).trans ?_
      rw [calls_key_le_iff hv ctx cond.calls hm, block_key_le_iff hv ctx loops thenBlock hm,
        block_key_le_iff hv ctx loops elseBlock hm]
      show _ ↔ (m.key ≤ bound ∧ _) ∧ _
      tauto
  | .conditional pos cond thenBlock none, m, hm => by
      rw [stmt, LineCost.entriesOf, Stmt.weightedCalls, LineCost.below_cons, calleesBelow_append]
      refine (branched_key_le_iff hm (calls_holds p g hv ctx cond.calls)
        (block_holds p g hv ctx thenBlock) G.closed.constant).trans ?_
      rw [calls_key_le_iff hv ctx cond.calls hm, block_key_le_iff hv ctx loops thenBlock hm,
        constant_key_le_iff G.nonneg hm]
      show _ ↔ (m.key ≤ bound ∧ _) ∧ _
      tauto
  | .assign pos target value, m, hm => by
      rw [stmt, LineCost.entriesOf, Stmt.weightedCalls, calls_key_le_iff hv ctx _ hm]
      simp [LineCost.entry]
  | .call pos callee explicit args, m, hm => by
      rw [stmt, LineCost.entriesOf, Stmt.weightedCalls, calls_key_le_iff hv ctx _ hm]
      simp [LineCost.entry]
  | .give pos value, m, hm => by
      rw [stmt, LineCost.entriesOf, Stmt.weightedCalls, calls_key_le_iff hv ctx _ hm]
      simp [LineCost.entry]

/-- The cost of a block that runs `m` times is below a bound exactly if `m`, the entries of the
block and the callees that it asks for are. -/
theorem block_key_le_iff (hv : ∀ n, (v n).cases.All G.Holds) (ctx : Context)
    (loops : Nat) : ∀ (b : Block) {m : Growth (Tolerant ε)}, m.isExponential = false →
    ((((given p g v).block ctx b).run.cases.worst.times m).key ≤ bound
      ↔ m.key ≤ bound ∧ LineCost.Below bound (LineCost.blockEntries scope m loops b)
        ∧ CalleesBelow p g v ctx.caller bound (b.weightedCalls m))
  | .mk _ _ _ stmts, m, hm => by
      rw [block, LineCost.blockEntries, Block.weightedCalls,
        list_key_le_iff hv ctx loops stmts hm G.closed.constant, constant_key_le_iff G.nonneg hm]

theorem list_key_le_iff (hv : ∀ n, (v n).cases.All G.Holds) (ctx : Context)
    (loops : Nat) : ∀ (ss : List Stmt) {m : Growth (Tolerant ε)}, m.isExponential = false →
    ∀ {w : Verdict (Tolerant ε)}, w.cases.All G.Holds →
    ((((given p g v).list ctx w ss).run.cases.worst.times m).key ≤ bound
      ↔ (w.cases.worst.times m).key ≤ bound
        ∧ LineCost.Below bound (LineCost.listEntries scope m loops ss)
        ∧ CalleesBelow p g v ctx.caller bound (Stmt.weightedCallsOf m ss))
  | [], m, _, w, _ => by
      rw [list, LineCost.listEntries, Stmt.weightedCallsOf]
      simp
  | s :: ss, m, hm, w, hw => by
      have hs : ((given p g v).stmt ctx s).run.cases.All G.Holds :=
        G.closed.stmt ctx s fun c _ _ => hv c.callee
      rw [list, LineCost.listEntries, Stmt.weightedCallsOf, LineCost.below_append,
        calleesBelow_append]
      refine (list_key_le_iff hv ctx loops ss hm (G.closed.sequence hw hs)).trans ?_
      rw [sequence_key_le_iff hm hw hs, stmt_key_le_iff hv ctx loops s hm]
      tauto

end

end Blocks

end Costing

end PseudoCost
