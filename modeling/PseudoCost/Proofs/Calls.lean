import Mathlib.Tactic.Tauto
import PseudoCost.Program

/-!
# The calls of a statement

The calls of a statement are those of its own expressions followed by those of its blocks, in
reading order. One equation for each kind of statement; a block has the calls of its statements.

The cost of a loop leaves out the calls in its step, although they are calls of the loop. The calls
that do count are the `costedCalls`, and the others are the `stepCalls`.
-/

namespace PseudoCost

namespace Stmt

variable (pos : Pos)

@[simp] theorem calls_forLoop (control : Name) (descending : Bool) (start stop : Expr)
    (step : Option Expr) (body : Block) :
    (Stmt.forLoop pos control descending start stop step body).calls
      = start.calls ++ stop.calls ++ step.toList.flatMap Expr.calls ++ body.calls := by
  cases step <;> simp [Stmt.calls, Stmt.terms, Expr.calls, Block.calls, Expr.subtermsOf]

@[simp] theorem calls_whileLoop (control : Control) (cond : Expr) (body : Block) :
    (Stmt.whileLoop pos control cond body).calls = cond.calls ++ body.calls := by
  simp [Stmt.calls, Stmt.terms, Expr.calls, Block.calls]

@[simp] theorem calls_repeatLoop (control : Control) (body : Block) (cond : Expr) :
    (Stmt.repeatLoop pos control body cond).calls = body.calls ++ cond.calls := by
  simp [Stmt.calls, Stmt.terms, Expr.calls, Block.calls]

@[simp] theorem calls_conditional (cond : Expr) (thenBlock : Block) (elseBlock : Option Block) :
    (Stmt.conditional pos cond thenBlock elseBlock).calls
      = cond.calls ++ thenBlock.calls ++ elseBlock.toList.flatMap Block.calls := by
  cases elseBlock <;> simp [Stmt.calls, Stmt.terms, Expr.calls, Block.calls]

end Stmt

@[simp] theorem Block.calls_mk (pos close : Pos) (explicit : Bool) (stmts : List Stmt) :
    (Block.mk pos explicit close stmts).calls = stmts.flatMap Stmt.calls := by
  rw [Block.calls, Block.terms]
  induction stmts with
  | nil => simp [Stmt.termsOf]
  | cons s ss ih => simp [Stmt.termsOf, ih, Stmt.calls]

/-! ## Calls that count -/

mutual

/-- The calls of a statement whose cost counts: all but those in the steps of loops. -/
def Stmt.costedCalls : Stmt → List Call
  | .forLoop _ _ _ start stop _ body => start.calls ++ stop.calls ++ body.costedCalls
  | .whileLoop _ _ cond body => cond.calls ++ body.costedCalls
  | .repeatLoop _ _ body cond => body.costedCalls ++ cond.calls
  | .conditional _ cond thenBlock (some elseBlock) =>
    cond.calls ++ thenBlock.costedCalls ++ elseBlock.costedCalls
  | .conditional _ cond thenBlock none => cond.calls ++ thenBlock.costedCalls
  | .assign pos target value => (Stmt.assign pos target value).calls
  | .call pos callee explicit args => (Stmt.call pos callee explicit args).calls
  | .give pos value => (Stmt.give pos value).calls

/-- The calls of a block whose cost counts. -/
def Block.costedCalls : Block → List Call
  | .mk _ _ _ stmts => Stmt.costedCallsOf stmts

/-- The calls of a list of statements whose cost counts. -/
def Stmt.costedCallsOf : List Stmt → List Call
  | [] => []
  | s :: ss => s.costedCalls ++ Stmt.costedCallsOf ss

end

mutual

/-- The calls in the steps of the loops of a statement. -/
def Stmt.stepCalls : Stmt → List Call
  | .forLoop _ _ _ _ _ step body => step.toList.flatMap Expr.calls ++ body.stepCalls
  | .whileLoop _ _ _ body => body.stepCalls
  | .repeatLoop _ _ body _ => body.stepCalls
  | .conditional _ _ thenBlock (some elseBlock) => thenBlock.stepCalls ++ elseBlock.stepCalls
  | .conditional _ _ thenBlock none => thenBlock.stepCalls
  | .assign .. | .call .. | .give .. => []

/-- The calls in the steps of the loops of a block. -/
def Block.stepCalls : Block → List Call
  | .mk _ _ _ stmts => Stmt.stepCallsOf stmts

/-- The calls in the steps of the loops of a list of statements. -/
def Stmt.stepCallsOf : List Stmt → List Call
  | [] => []
  | s :: ss => s.stepCalls ++ Stmt.stepCallsOf ss

end

mutual

theorem Stmt.mem_calls_iff {c : Call} :
    ∀ s : Stmt, c ∈ s.calls ↔ c ∈ s.costedCalls ∨ c ∈ s.stepCalls
  | .forLoop _ _ _ _ _ _ body => by
      simp only [Stmt.costedCalls, Stmt.stepCalls, Stmt.calls_forLoop, List.mem_append,
        body.mem_calls_iff]
      tauto
  | .whileLoop _ _ _ body => by
      simp only [Stmt.costedCalls, Stmt.stepCalls, Stmt.calls_whileLoop, List.mem_append,
        body.mem_calls_iff, or_assoc]
  | .repeatLoop _ _ body _ => by
      simp only [Stmt.costedCalls, Stmt.stepCalls, Stmt.calls_repeatLoop, List.mem_append,
        body.mem_calls_iff, or_right_comm]
  | .conditional _ _ thenBlock (some elseBlock) => by
      simp only [Stmt.costedCalls, Stmt.stepCalls, Stmt.calls_conditional, Option.toList_some,
        List.flatMap_singleton, List.mem_append, thenBlock.mem_calls_iff, elseBlock.mem_calls_iff]
      tauto
  | .conditional _ _ thenBlock none => by
      simp only [Stmt.costedCalls, Stmt.stepCalls, Stmt.calls_conditional, Option.toList_none,
        List.flatMap_nil, List.append_nil, List.mem_append, thenBlock.mem_calls_iff, or_assoc]
  | .assign .. | .call .. | .give .. => by simp [Stmt.costedCalls, Stmt.stepCalls]

/-- The calls of a block either count or stand in a step. -/
theorem Block.mem_calls_iff {c : Call} :
    ∀ b : Block, c ∈ b.calls ↔ c ∈ b.costedCalls ∨ c ∈ b.stepCalls
  | .mk _ _ _ stmts => by
      rw [Block.costedCalls, Block.stepCalls, Block.calls_mk]
      exact Stmt.mem_flatMap_calls_iff stmts

theorem Stmt.mem_flatMap_calls_iff {c : Call} : ∀ ss : List Stmt,
    c ∈ ss.flatMap Stmt.calls ↔ c ∈ Stmt.costedCallsOf ss ∨ c ∈ Stmt.stepCallsOf ss
  | [] => by simp [Stmt.costedCallsOf, Stmt.stepCallsOf]
  | s :: ss => by
      simp only [Stmt.costedCallsOf, Stmt.stepCallsOf, List.flatMap_cons, List.mem_append,
        s.mem_calls_iff, Stmt.mem_flatMap_calls_iff ss]
      tauto

end

theorem Block.costedCalls_subset (b : Block) : b.costedCalls ⊆ b.calls :=
  fun _ hc => b.mem_calls_iff.mpr (Or.inl hc)

end PseudoCost
