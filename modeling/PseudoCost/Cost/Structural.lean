import PseudoCost.Cost
import PseudoCost.Loop
import PseudoCost.CallGraph
import PseudoCost.Recurrence.Paths
import PseudoCost.Recurrence.Master
import PseudoCost.Recurrence.Characteristic

/-!
# Costs from the structure of a program

Statements one after another cost the larger of their costs, a conditional either of its branches,
and a loop its body times its iterations; a loop that can be left early keeps one pass as its best
case. A call costs what its procedure costs. Calls that stay on a call cycle cost nothing in
themselves: the recursion is judged as a whole, by the pattern that the self-calls follow.

An `Engine` answers questions about one program. It keeps the verdicts on procedures that it has
reached, and it can be given the solved costs of procedures, which then replace their computed
cases wherever they are called.
-/

namespace PseudoCost

open Recurrence

variable {R : Type} [Scalar R]

/-! ## Patterns of recursion -/

namespace Verdict

/-- Adds the remark that names the pattern of a recursive procedure. -/
def pattern (v : Verdict R) (p : Procedure) (text : Text) : Verdict R :=
  v.remark .recursivePattern (text ++ " in " ++ p.display) p.pos.line

/-- A recursion of unknown shape: its depth is taken as the input size. -/
def linearDepth (p : Procedure) (own : Verdict R) (why : Text) : Verdict R :=
  ((onto (own.cases.scaled Growth.linear) own).assume).pattern p
    (why ++ ", linear recursion depth assumed")

/-- A recursion that splits at an unknown point. -/
def splitting (p : Procedure) (own : Verdict R) (calls : Int) : Verdict R :=
  let balanced := masterBound (Scalar.ofInt calls) Scalar.two own.cases.worst
  let uneven := Growth.linear.times own.cases.worst
  ((onto ⟨balanced, uneven, balanced⟩ own).remark .divideAndConquer
      ("non-constant split point" ++ Remark.atLine p.pos.line) p.pos.line).pattern p
    (if 2 ≤ calls then "quick-sort pattern" else "quick-select pattern")

/-- The smallest of some amounts. -/
def smallest : List R → R
  | [] => Scalar.one
  | x :: xs => xs.foldl Scalar.min x

/-- A recursion all of whose calls divide the size. -/
def dividing (p : Procedure) (own : Verdict R) (calls : Int) (terms : List (Term R)) : Verdict R :=
  let b := smallest (terms.map (·.change.amount))
  let bound := masterBound (Scalar.ofInt calls) b own.cases.worst
  let remarked (cases : Cases R) : Verdict R :=
    (onto cases own).remark .divideAndConquer
      (Text.ofInt calls ++ " subproblems of size n/" ++ Scalar.text b ++ Remark.atLine p.pos.line)
      p.pos.line
  if calls = 1 then
    let best := if (countSelfCalls p).min = 0 then own.cases.best else bound
    (remarked ⟨best, bound, bound⟩).pattern p "binary-search pattern"
  else
    (remarked (Cases.uniform bound)).pattern p
      (if calls = 2 && Scalar.near b Scalar.two then "merge-sort pattern"
       else "balanced divide and conquer")

/-- Whether two terms are the size less one and the size less two, each once. -/
def isFibonacci (calls : Int) : List (Term R) → Bool
  | [t, u] =>
    calls == 2 && Scalar.near (Scalar.min t.change.amount u.change.amount) Scalar.one
      && Scalar.near (Scalar.max t.change.amount u.change.amount) Scalar.two
  | _ => false

/-- A recursion all of whose calls take something off the size. -/
def subtracting (p : Procedure) (own : Verdict R) (calls : Int) (terms : List (Term R)) :
    Verdict R :=
  let grows (base : R) : Verdict R := onto (Cases.uniform (Growth.exponential base)) own
  if calls = 1 then (onto (own.cases.scaled Growth.linear) own).pattern p "linear recursion"
  else
    match terms with
    | [t] =>
      let k := t.change.amount
      (grows (Scalar.pow (Scalar.ofInt calls) (Scalar.one / k))).pattern p
        (if calls = 2 && Scalar.near k Scalar.one then "hanoi pattern"
         else "multi-branch subtract pattern")
    | _ =>
      if isFibonacci calls terms then (grows Scalar.golden).pattern p "fibonacci pattern"
      else (grows (dominantRoot terms)).pattern p "multi-branch subtract pattern"

/-- The verdict on a recursive procedure, from the verdict on its own work. -/
def recursive (g : CallGraph) (p : Procedure) (own : Verdict R) : Verdict R :=
  if own.has .callInsideLoop then
    ((onto (Cases.uniform (Growth.exponential Scalar.two)) own).assume).pattern p
      "recursion inside a loop, exponential growth assumed"
  else if !g.callsSelf p.name then
    ((onto (own.cases.scaled Growth.linear) own).assume).pattern p
      "mutual recursion, linear depth assumed"
  else
    let terms : List (Term R) := (worstTerms p).filter (·.change.shrinks)
    let calls := totalCalls terms
    if calls = 0 then linearDepth p own "argument change could not be classified"
    else if anyOf .split terms then splitting p own calls
    else if allOf .divide terms then dividing p own calls terms
    else if allOf .subtract terms then subtracting p own calls terms
    else linearDepth p own "mixed subproblem sizes"

end Verdict

/-! ## Statements -/

/-- Where a statement stands: in which procedure, if any, and inside how many loops. -/
structure Context where
  caller : Option Name := none
  loops : Nat := 0
deriving Repr, DecidableEq

/-- One loop further in. -/
def Context.enter (ctx : Context) : Context := { ctx with loops := ctx.loops + 1 }

/-- What the cost of a statement depends on beside the statement: the program, its call graph, and
the verdicts on the procedures it calls. These are computed in a monad `m`, since the engine keeps
what it has found. -/
structure Costing (R : Type) (m : Type → Type) where
  program : Program
  graph : CallGraph
  callee : Name → m (Verdict R)

namespace Costing

variable {m : Type → Type} [Monad m] (env : Costing R m)

/-- Adds the cost of a call. A call on a cycle with its caller only leaves a remark, and only
inside a loop. -/
def call (ctx : Context) (v : Verdict R) (c : Call) : m (Verdict R) := do
  if !env.program.declares c.callee then return v
  else if ctx.caller.any fun n => env.graph.onCycle n c.callee then
    if 0 < ctx.loops then
      return (v.remark .callInsideLoop
        ("recursive call to " ++ c.callee ++ " inside a loop" ++ Remark.atLine c.pos.line)
        c.pos.line).assume
    else return v
  else return v.sequence (← env.callee c.callee)

/-- The cost of some calls. -/
def calls (ctx : Context) (found : List Call) : m (Verdict R) :=
  found.foldlM (env.call ctx) Verdict.constant

end Costing

namespace Verdict

/-- The remark that the progress of a loop deserves, if any. -/
def remarkProgress (v : Verdict R) (shape : LoopShape) (line : Int) : Verdict R :=
  let text := shape.detail ++ Remark.atLine line
  match shape.progress with
  | .logarithmic => v.remark .logarithmicLoop text line
  | .unresolved => (v.remark .unresolvedProgress text line).assume
  | .flagControlled => (v.remark .earlyExit text line).assume
  | .constant | .linear => v

/-- The verdict on a loop, from the verdict on one pass. -/
def repeated (shape : LoopShape) (line : Int) (pass : Verdict R) : Verdict R :=
  let cases := pass.cases.scaled shape.progress.iterations
  let kept := if shape.earlyExit then { cases with best := pass.cases.best } else cases
  let v := (onto kept pass).remarkProgress shape line
  if shape.earlyExit && shape.progress != .flagControlled then
    v.remark .earlyExit ("loop can exit early; best case is one pass" ++ Remark.atLine line) line
  else v

/-- The verdict on a conditional, from those on its condition and its branches. -/
def branched (cond thenCost elseCost : Verdict R) : Verdict R :=
  cond.sequence ((onto (thenCost.cases.either elseCost.cases) thenCost).merge elseCost)

end Verdict

namespace Costing

variable {m : Type → Type} [Monad m] (env : Costing R m)

mutual

/-- The cost of a statement. -/
def stmt (ctx : Context) : Stmt → m (Verdict R)
  | .forLoop pos control descending start stop step body => do
    let first ← env.calls ctx start.calls
    let header := first.sequence (← env.calls ctx.enter stop.calls)
    let pass := (← block ctx.enter body).sequence header
    return pass.repeated
      (Stmt.forLoop pos control descending start stop step body).loopShape pos.line
  | .whileLoop pos control cond body => do
    let header ← env.calls ctx.enter cond.calls
    let pass := (← block ctx.enter body).sequence header
    return pass.repeated (Stmt.whileLoop pos control cond body).loopShape pos.line
  | .repeatLoop pos control body cond => do
    let header ← env.calls ctx.enter cond.calls
    let pass := (← block ctx.enter body).sequence header
    return pass.repeated (Stmt.repeatLoop pos control body cond).loopShape pos.line
  | .conditional _ cond thenBlock (some elseBlock) => do
    let condCost ← env.calls ctx cond.calls
    let thenCost ← block ctx thenBlock
    return condCost.branched thenCost (← block ctx elseBlock)
  | .conditional _ cond thenBlock none => do
    let condCost ← env.calls ctx cond.calls
    return condCost.branched (← block ctx thenBlock) Verdict.constant
  | .assign pos target value => env.calls ctx (Stmt.assign pos target value).calls
  | .call pos callee explicit args => env.calls ctx (Stmt.call pos callee explicit args).calls
  | .give pos value => env.calls ctx (Stmt.give pos value).calls

/-- The cost of a block. -/
def block (ctx : Context) : Block → m (Verdict R)
  | .mk _ _ _ stmts => list ctx Verdict.constant stmts

/-- The cost of statements after the given cost. -/
def list (ctx : Context) (v : Verdict R) : List Stmt → m (Verdict R)
  | [] => return v
  | s :: ss => do list ctx (v.sequence (← stmt ctx s)) ss

end

end Costing

/-! ## Procedures -/

/-- The verdicts on procedures reached so far, the latest first. -/
abbrev Memo (R : Type) := List (Name × Verdict R)

/-- The verdict on a procedure from the verdict on its body: a recursive procedure is judged by its
pattern. -/
def Verdict.ofBody (g : CallGraph) (p : Procedure) (own : Verdict R) : Verdict R :=
  if g.isRecursive p.name then own.recursive g p else own

/-- The verdict with the solved cases of its procedure, if there are any. -/
def Verdict.withSolved (v : Verdict R) : Option (Cases R) → Verdict R
  | some cases => { v with cases := cases }
  | none => v

/-- Answers questions about the costs of one program. -/
structure Engine (R : Type) where
  program : Program
  graph : CallGraph
  /-- The solved costs in force, the latest first. -/
  solved : List (Name × Cases R) := []
  memo : Memo R := []

namespace Engine

/-- The engine of a program, with nothing computed yet. -/
def ofProgram (p : Program) : Engine R := { program := p, graph := CallGraph.ofProgram p }

/-- The solved cost of a procedure, if one is in force. -/
def solvedCost (e : Engine R) (n : Name) : Option (Cases R) := e.solved.lookup n

section Judging

variable {m : Type → Type} [Monad m] (again : m (Verdict R))

/-- The procedures of a program that are not being judged. -/
def idle (p : Program) (active : List Name) : List Procedure :=
  p.procedures.filter (!active.contains ·.name)

theorem idle_lt {p : Program} {active : List Name} {n : Name} {q : Procedure}
    (hq : p.find? n = some q) (hn : ¬active.contains n) :
    (idle p (n :: active)).length < (idle p active).length := by
  have hname : q.name = n := by simpa using List.find?_some hq
  have hmem : q ∈ idle p active := by
    rw [idle, List.mem_filter, hname]
    exact ⟨List.mem_of_find?_eq_some hq, by simpa using hn⟩
  have hsub : idle p (n :: active) = (idle p active).filter (·.name != n) := by
    simp only [idle, List.filter_filter]
    congr 1
    funext r
    by_cases h : r.name = n <;> simp [h]
  rw [hsub]
  exact List.length_filter_lt_length_iff_exists.mpr ⟨q, hmem, by simp [hname]⟩

/-- The verdict on a procedure, given the solved costs and the procedures that are being judged.
What is done at a procedure that is being judged already is up to `again`. -/
def judge (p : Program) (g : CallGraph) (solved : Name → Option (Cases R))
    (active : List Name) (n : Name) : StateT (Memo R) m (Verdict R) := do
  match (← get).lookup n with
  | some v => return v
  | none =>
    match _hq : p.find? n with
    | none => return Verdict.constant
    | some q =>
      if _hn : active.contains n then again
      else
        let env : Costing R (StateT (Memo R) m) := ⟨p, g, judge p g solved (n :: active)⟩
        let own ← env.block { caller := some n } q.body
        let v := (Verdict.ofBody g q own).withSolved (solved n)
        modify ((n, v) :: ·)
        return v
termination_by (idle p active).length
decreasing_by exact idle_lt ‹_› ‹_›

/-- Runs a computation on the verdicts kept by the engine. -/
def run {α : Type} (act : Engine R → StateT (Memo R) m α) : StateT (Engine R) m α := fun e => do
  let (a, memo) ← act e e.memo
  return (a, { e with memo := memo })

/-- The cost of a procedure of the engine's program. -/
def costOf (e : Engine R) (n : Name) : StateT (Memo R) m (Verdict R) :=
  judge again e.program e.graph e.solvedCost [] n

/-- The cost of the whole program: of its main body, or else of the procedures that no other one
calls, or else of all procedures. -/
def costOfProgram (e : Engine R) : StateT (Memo R) m (Verdict R) :=
  match e.program.entry? with
  | some main => Costing.block ⟨e.program, e.graph, e.costOf again⟩ {} main
  | none =>
    let entries := if e.graph.roots.isEmpty then e.graph.order else e.graph.roots
    entries.foldlM (fun v n => return v.sequence (← e.costOf again n)) Verdict.constant

/-- Whether the whole program costs exactly what a procedure costs. -/
def costAgrees (n : Name) : StateT (Engine R) m Bool := do
  if (← get).program.declares n then
    let whole ← run fun e => e.costOfProgram again
    return whole.cases.agrees (← run fun e => e.costOf again n).cases
  else return false

/-- Puts a solved cost in force. Everything computed so far is forgotten. -/
def useSolved (n : Name) (cases : Cases R) : StateT (Engine R) m Unit :=
  modify fun e => { e with solved := (n, cases) :: e.solved, memo := [] }

end Judging

/-- The verdict on a procedure; a constant for an unknown name. A procedure that is being judged
already costs a constant within itself. -/
def procedure (n : Name) : StateM (Engine R) (Verdict R) :=
  run fun e => e.costOf (m := Id) Verdict.constant n

/-- The verdict on the whole program. -/
def analyze : StateM (Engine R) (Verdict R) :=
  run fun e => e.costOfProgram (m := Id) Verdict.constant

/-- Whether the whole program costs exactly what a procedure costs. -/
def entryCostIs (n : Name) : StateM (Engine R) Bool := costAgrees (m := Id) Verdict.constant n

end Engine

end PseudoCost
