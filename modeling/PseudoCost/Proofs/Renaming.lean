import Mathlib.Data.List.Basic
import Mathlib.Logic.Embedding.Basic
import PseudoCost.Loop
import PseudoCost.Recurrence.Paths
import PseudoCost.Proofs.Calls

/-!
# Renaming variables

A renaming `ρ` is applied to every name that stands for a variable: the names in expressions, the
parameters, and the control variables of loops. The names of procedures, callees and fields stay.

Every view of the syntax commutes with a renaming, and what is decided by comparing names is
unchanged when `ρ` is injective. The comparisons are few (`beq_apply`, `contains_map`,
`isName_rename`, `mentions_rename`, `lookup_map`); loops and the arguments of self-calls are
classified by them alone, so that the progress of a loop (`loopShape_rename`) and the change of size
that a call makes (`ofCall_rename`) do not depend on how variables are spelled.
-/

namespace PseudoCost

/-! ## Renaming the syntax -/

mutual

/-- The expression with its variables renamed. -/
def Expr.rename (ρ : Name → Name) : Expr → Expr
  | .number pos value => .number pos value
  | .string pos value => .string pos value
  | .bool pos value => .bool pos value
  | .null pos => .null pos
  | .name pos n => .name pos (ρ n)
  | .call pos callee explicit args => .call pos callee explicit (Expr.renameOf ρ args)
  | .index pos base subscript => .index pos (base.rename ρ) (subscript.rename ρ)
  | .field pos base f => .field pos (base.rename ρ) f
  | .range pos low high => .range pos (low.rename ρ) (high.rename ρ)
  | .binary pos op lhs rhs => .binary pos op (lhs.rename ρ) (rhs.rename ρ)
  | .unary pos op operand => .unary pos op (operand.rename ρ)

/-- Several expressions with their variables renamed. -/
def Expr.renameOf (ρ : Name → Name) : List Expr → List Expr
  | [] => []
  | e :: es => e.rename ρ :: Expr.renameOf ρ es

end

/-- The control of a loop with its variables renamed. -/
def Control.rename (ρ : Name → Name) (c : Control) : Control :=
  ⟨ρ c.variableName, c.bound.map (Expr.rename ρ)⟩

mutual

/-- The statement with its variables renamed. -/
def Stmt.rename (ρ : Name → Name) : Stmt → Stmt
  | .forLoop pos control descending start stop step body =>
    .forLoop pos (ρ control) descending (start.rename ρ) (stop.rename ρ)
      (step.map (Expr.rename ρ)) (body.rename ρ)
  | .whileLoop pos control cond body =>
    .whileLoop pos (control.rename ρ) (cond.rename ρ) (body.rename ρ)
  | .repeatLoop pos control body cond =>
    .repeatLoop pos (control.rename ρ) (body.rename ρ) (cond.rename ρ)
  | .conditional pos cond thenBlock (some elseBlock) =>
    .conditional pos (cond.rename ρ) (thenBlock.rename ρ) (some (elseBlock.rename ρ))
  | .conditional pos cond thenBlock none =>
    .conditional pos (cond.rename ρ) (thenBlock.rename ρ) none
  | .assign pos target value => .assign pos (target.rename ρ) (value.rename ρ)
  | .call pos callee explicit args => .call pos callee explicit (args.map (Expr.rename ρ))
  | .give pos value => .give pos (value.map (Expr.rename ρ))

/-- The block with its variables renamed. -/
def Block.rename (ρ : Name → Name) : Block → Block
  | .mk pos explicit close stmts => .mk pos explicit close (Stmt.renameOf ρ stmts)

/-- Several statements with their variables renamed. -/
def Stmt.renameOf (ρ : Name → Name) : List Stmt → List Stmt
  | [] => []
  | s :: ss => s.rename ρ :: Stmt.renameOf ρ ss

end

/-- The call with its variables renamed. -/
def Call.rename (ρ : Name → Name) (c : Call) : Call := { c with args := c.args.map (Expr.rename ρ) }

/-- The assignment with its variables renamed. -/
def Assignment.rename (ρ : Name → Name) (a : Assignment) : Assignment :=
  { a with target := a.target.rename ρ, value := a.value.rename ρ }

/-- The procedure with its parameters and variables renamed. -/
def Procedure.rename (ρ : Name → Name) (p : Procedure) : Procedure :=
  { p with
    params := p.params.map fun q => { q with name := ρ q.name }
    body := p.body.rename ρ }

/-- The program with its variables renamed. -/
def Program.rename (ρ : Name → Name) (p : Program) : Program :=
  { p with
    procedures := p.procedures.map (Procedure.rename ρ)
    main := p.main.map (Block.rename ρ) }

/-! ## Comparing names -/

section Injective

variable (ρ : Name ↪ Name)

@[simp] theorem beq_apply (n k : Name) : (ρ n == ρ k) = (n == k) := by
  rw [Bool.eq_iff_iff, beq_iff_eq, beq_iff_eq, ρ.injective.eq_iff]

theorem contains_map (ns : List Name) (n : Name) : (ns.map ρ).contains (ρ n) = ns.contains n := by
  rw [Bool.eq_iff_iff, List.contains_iff_mem, List.contains_iff_mem]
  exact List.mem_map_of_injective ρ.injective

theorem lookup_map {β γ : Type} (f : β → γ) (n : Name) : ∀ l : List (Name × β),
    (l.map (Prod.map ρ f)).lookup (ρ n) = (l.lookup n).map f
  | [] => rfl
  | (k, b) :: l => by
      rw [List.map_cons, Prod.map_apply, List.lookup_cons, List.lookup_cons, beq_apply,
        lookup_map f n l]
      cases n == k <;> rfl

end Injective

/-! ## Views of an expression -/

namespace Expr

section Commute

variable (ρ : Name → Name)

@[simp] theorem renameOf_eq : ∀ es : List Expr, renameOf ρ es = es.map (rename ρ)
  | [] => rfl
  | e :: es => by rw [renameOf, renameOf_eq es, List.map_cons]

mutual

theorem subterms_rename : ∀ e : Expr, (e.rename ρ).subterms = e.subterms.map (rename ρ)
  | .number .. | .string .. | .bool .. | .null .. | .name .. => rfl
  | .call pos callee explicit args => by
      simp [rename, subterms, subtermsOf_map args]
  | .index pos base subscript => by
      simp [rename, subterms, base.subterms_rename, subscript.subterms_rename]
  | .field pos base f => by simp [rename, subterms, base.subterms_rename]
  | .range pos low high => by
      simp [rename, subterms, low.subterms_rename, high.subterms_rename]
  | .binary pos op lhs rhs => by
      simp [rename, subterms, lhs.subterms_rename, rhs.subterms_rename]
  | .unary pos op operand => by simp [rename, subterms, operand.subterms_rename]

theorem subtermsOf_map : ∀ es : List Expr,
    subtermsOf (es.map (rename ρ)) = (subtermsOf es).map (rename ρ)
  | [] => rfl
  | e :: es => by
      rw [List.map_cons, subtermsOf, subtermsOf, e.subterms_rename, subtermsOf_map es,
        List.map_append]

end

@[simp] theorem name?_rename (e : Expr) : (e.rename ρ).name? = e.name?.map ρ := by
  cases e <;> rfl

@[simp] theorem call?_rename (e : Expr) : (e.rename ρ).call? = e.call?.map (Call.rename ρ) := by
  cases e <;> simp [rename, call?, Call.rename]

theorem filterMap_call?_map (es : List Expr) :
    (es.map (rename ρ)).filterMap call? = (es.filterMap call?).map (Call.rename ρ) := by
  rw [List.filterMap_map, List.map_filterMap]
  exact List.filterMap_congr fun e _ => call?_rename ρ e

@[simp] theorem names_rename (e : Expr) : (e.rename ρ).names = e.names.map ρ := by
  rw [names, names, subterms_rename, List.filterMap_map, List.map_filterMap]
  exact List.filterMap_congr fun e _ => name?_rename ρ e

@[simp] theorem calls_rename (e : Expr) : (e.rename ρ).calls = e.calls.map (Call.rename ρ) := by
  rw [calls, calls, subterms_rename, filterMap_call?_map]

@[simp] theorem number?_rename : ∀ e : Expr, (e.rename ρ).number? = e.number?
  | .unary pos op operand => by
      cases op <;> simp [rename, number?, number?_rename operand]
  | .number .. | .string .. | .bool .. | .null .. | .name .. | .call .. | .index .. | .field ..
  | .range .. | .binary .. => rfl

@[simp] theorem unrounded_rename : ∀ e : Expr, (e.rename ρ).unrounded = e.unrounded.rename ρ
  | .unary pos op operand => by
      rw [rename, unrounded, unrounded, apply_ite (rename ρ), unrounded_rename operand, rename]
  | .number .. | .string .. | .bool .. | .null .. | .name .. | .call .. | .index .. | .field ..
  | .range .. | .binary .. => rfl

@[simp] theorem applies_rename (p : BinaryOp → Bool) (e : Expr) :
    (e.rename ρ).applies p = e.applies p := by
  cases e <;> rfl

@[simp] theorem halved?_rename (e : Expr) : (e.rename ρ).halved? = e.halved?.map (rename ρ) := by
  cases e with
  | binary pos op lhs rhs =>
      rw [rename, halved?, halved?, isTwo, isTwo, number?_rename, apply_ite (Option.map (rename ρ))]
      rfl
  | _ => rfl

@[simp] theorem isMidpoint_rename (e : Expr) : (e.rename ρ).isMidpoint = e.isMidpoint := by
  rw [isMidpoint, isMidpoint, unrounded_rename, halved?_rename]
  cases e.unrounded.halved? with
  | some whole => simp
  | none =>
      cases e.unrounded with
      | binary pos op lhs rhs => cases op <;> simp [rename, Option.any_map]
      | _ => rfl

end Commute

section Injective

variable (ρ : Name ↪ Name)

@[simp] theorem isName_rename (n : Name) (e : Expr) : (e.rename ρ).isName (ρ n) = e.isName n := by
  rw [isName, isName, name?_rename]
  cases e.name? <;> simp

@[simp] theorem mentions_rename (e : Expr) (n : Name) :
    (e.rename ρ).mentions (ρ n) = e.mentions n := by
  rw [mentions, mentions, names_rename, contains_map]

end Injective

end Expr

/-! ## Views of a statement -/

section Commute

variable (ρ : Name → Name)

@[simp] theorem Stmt.renameOf_eq (ss : List Stmt) :
    Stmt.renameOf ρ ss = ss.map (Stmt.rename ρ) := by
  induction ss with
  | nil => rfl
  | cons s ss ih => rw [Stmt.renameOf, ih, List.map_cons]

mutual

theorem Stmt.terms_rename : ∀ s : Stmt, (s.rename ρ).terms = s.terms.map (Expr.rename ρ)
  | .forLoop pos control descending start stop step body => by
      have hstep : Expr.subtermsOf (step.map (Expr.rename ρ)).toList
          = (Expr.subtermsOf step.toList).map (Expr.rename ρ) := by
        rw [← Expr.subtermsOf_map, Option.toList_map]
      simp [Stmt.rename, Stmt.terms, Expr.subterms_rename, hstep, body.terms_rename]
  | .whileLoop pos control cond body => by
      simp [Stmt.rename, Stmt.terms, Expr.subterms_rename, body.terms_rename]
  | .repeatLoop pos control body cond => by
      simp [Stmt.rename, Stmt.terms, Expr.subterms_rename, body.terms_rename]
  | .conditional pos cond thenBlock (some elseBlock) => by
      simp [Stmt.rename, Stmt.terms, Expr.subterms_rename, thenBlock.terms_rename,
        elseBlock.terms_rename]
  | .conditional pos cond thenBlock none => by
      simp [Stmt.rename, Stmt.terms, Expr.subterms_rename, thenBlock.terms_rename]
  | .assign pos target value => by simp [Stmt.rename, Stmt.terms, Expr.subterms_rename]
  | .call pos callee explicit args => by
      simp [Stmt.rename, Stmt.terms, Expr.subterms, Expr.rename, Expr.subtermsOf_map]
  | .give pos value => by
      rw [Stmt.rename, Stmt.terms, Stmt.terms, ← Expr.subtermsOf_map, Option.toList_map]

theorem Block.terms_rename : ∀ b : Block, (b.rename ρ).terms = b.terms.map (Expr.rename ρ)
  | .mk _ _ _ stmts => by
      rw [Block.rename, Block.terms, Block.terms, Stmt.renameOf_eq, Stmt.termsOf_map stmts]

theorem Stmt.termsOf_map : ∀ ss : List Stmt,
    Stmt.termsOf (ss.map (Stmt.rename ρ)) = (Stmt.termsOf ss).map (Expr.rename ρ)
  | [] => rfl
  | s :: ss => by
      rw [List.map_cons, Stmt.termsOf, Stmt.termsOf, s.terms_rename, Stmt.termsOf_map ss,
        List.map_append]

end

@[simp] theorem Stmt.calls_rename (s : Stmt) :
    (s.rename ρ).calls = s.calls.map (Call.rename ρ) := by
  rw [Stmt.calls, Stmt.calls, Stmt.terms_rename, Expr.filterMap_call?_map]

theorem Stmt.calls_assign_rename (pos : Pos) (target value : Expr) :
    (Stmt.assign pos (target.rename ρ) (value.rename ρ)).calls
      = (Stmt.assign pos target value).calls.map (Call.rename ρ) := by
  rw [← Stmt.calls_rename, Stmt.rename]

theorem Stmt.calls_call_rename (pos : Pos) (callee : Name) (explicit : Bool) (args : List Expr) :
    (Stmt.call pos callee explicit (args.map (Expr.rename ρ))).calls
      = (Stmt.call pos callee explicit args).calls.map (Call.rename ρ) := by
  rw [← Stmt.calls_rename, Stmt.rename]

theorem Stmt.calls_give_rename (pos : Pos) (value : Option Expr) :
    (Stmt.give pos (value.map (Expr.rename ρ))).calls
      = (Stmt.give pos value).calls.map (Call.rename ρ) := by
  rw [← Stmt.calls_rename, Stmt.rename]

@[simp] theorem Block.calls_rename (b : Block) :
    (b.rename ρ).calls = b.calls.map (Call.rename ρ) := by
  rw [Block.calls, Block.calls, Block.terms_rename, Expr.filterMap_call?_map]

@[simp] theorem Block.callsTo_rename (b : Block) (n : Name) :
    (b.rename ρ).callsTo n = b.callsTo n := by
  rw [Block.callsTo, Block.callsTo, Block.calls_rename, List.any_map]
  rfl

mutual

theorem Stmt.nested_rename (depth : Nat) : ∀ s : Stmt,
    (s.rename ρ).nested depth = (s.nested depth).map (Prod.map id (Stmt.rename ρ))
  | .forLoop _ _ _ _ _ _ body => by
      simp [Stmt.rename, Stmt.nested, body.nested_rename]
  | .whileLoop _ _ _ body => by simp [Stmt.rename, Stmt.nested, body.nested_rename]
  | .repeatLoop _ _ body _ => by simp [Stmt.rename, Stmt.nested, body.nested_rename]
  | .conditional _ _ thenBlock (some elseBlock) => by
      simp [Stmt.rename, Stmt.nested, thenBlock.nested_rename, elseBlock.nested_rename]
  | .conditional _ _ thenBlock none => by
      simp [Stmt.rename, Stmt.nested, thenBlock.nested_rename]
  | .assign .. | .call .. | .give .. => rfl

theorem Block.nested_rename (depth : Nat) : ∀ b : Block,
    (b.rename ρ).nested depth = (b.nested depth).map (Prod.map id (Stmt.rename ρ))
  | .mk _ _ _ stmts => by
      rw [Block.rename, Block.nested, Block.nested, Stmt.renameOf_eq, Stmt.nestedOf_map depth stmts]

theorem Stmt.nestedOf_map (depth : Nat) : ∀ ss : List Stmt,
    Stmt.nestedOf depth (ss.map (Stmt.rename ρ))
      = (Stmt.nestedOf depth ss).map (Prod.map id (Stmt.rename ρ))
  | [] => rfl
  | s :: ss => by
      rw [List.map_cons, Stmt.nestedOf, Stmt.nestedOf, s.nested_rename, Stmt.nestedOf_map depth ss,
        List.map_append]

end

theorem Stmt.assignment?_rename (s : Stmt) :
    (s.rename ρ).assignment? = s.assignment?.map (Assignment.rename ρ) := by
  rcases s with _ | _ | _ | ⟨_, _, _, _ | _⟩ | _ | _ | _ <;> rfl

theorem Stmt.isReturn_rename (s : Stmt) : (s.rename ρ).isReturn = s.isReturn := by
  rcases s with _ | _ | _ | ⟨_, _, _, _ | _⟩ | _ | _ | _ <;> rfl

@[simp] theorem Block.assignments_rename (b : Block) :
    (b.rename ρ).assignments = b.assignments.map (Assignment.rename ρ) := by
  rw [Block.assignments, Block.assignments, Block.within, Block.within, Block.nested_rename,
    List.map_map, List.filterMap_map, List.filterMap_map, List.map_filterMap]
  exact List.filterMap_congr fun s _ => s.2.assignment?_rename ρ

@[simp] theorem Block.hasConditionalReturn_rename (b : Block) :
    (b.rename ρ).hasConditionalReturn = b.hasConditionalReturn := by
  rw [Block.hasConditionalReturn, Block.hasConditionalReturn, Block.nested_rename, List.any_map]
  congr 1
  funext s
  simp [Stmt.isReturn_rename]

end Commute

/-! ## Loops -/

namespace LoopShape

variable (ρ : Name ↪ Name)

theorem ofSum_rename (var : Name) (midpoints : List Name) (op : BinaryOp) (lhs rhs : Expr) :
    Update.ofSum (ρ var) (midpoints.map ρ) op (lhs.rename ρ) (rhs.rename ρ)
      = Update.ofSum var midpoints op lhs rhs := by
  have hmid : (lhs.rename ρ).name?.any ((midpoints.map ρ).contains ·)
      = lhs.name?.any (midpoints.contains ·) := by
    rw [Expr.name?_rename, Option.any_map]
    congr 1
    funext n
    exact contains_map ρ midpoints n
  simp only [Update.ofSum, hmid, Expr.isName_rename, Expr.mentions_rename, Expr.number?_rename]

theorem classify_rename (var : Name) (midpoints : List Name) (value : Expr) :
    Update.classify (ρ var) (midpoints.map ρ) (value.rename ρ)
      = Update.classify var midpoints value := by
  rw [Update.classify, Update.classify, Expr.unrounded_rename]
  cases value.unrounded with
  | name pos n => simp only [Expr.rename, contains_map]
  | binary pos op lhs rhs =>
      simp only [Expr.rename, ofSum_rename, isFactor, Expr.number?_rename, Expr.isName_rename]
      cases op <;> rfl
  | _ => rfl

theorem midpointsOf_rename (assignments : List Assignment) :
    midpointsOf (assignments.map (Assignment.rename ρ)) = (midpointsOf assignments).map ρ := by
  rw [midpointsOf, midpointsOf, List.filterMap_map, List.map_filterMap]
  refine List.filterMap_congr fun a _ => ?_
  simp only [Function.comp_apply, Assignment.rename, Expr.isMidpoint_rename, Expr.name?_rename]
  split <;> rfl

theorem updates_rename (cond : Expr) (assignments : List Assignment) :
    updates (cond.rename ρ) (assignments.map (Assignment.rename ρ))
      = (updates cond assignments).map fun (a, n, u) => (a.rename ρ, ρ n, u) := by
  rw [updates, updates, midpointsOf_rename, List.filterMap_map, List.map_filterMap]
  refine List.filterMap_congr fun a _ => ?_
  simp only [Function.comp_apply, Assignment.rename, Expr.name?_rename]
  cases a.target.name? with
  | none => rfl
  | some n =>
      simp only [Option.map_some, Expr.mentions_rename, classify_rename]
      split <;> rfl

theorem isLiteralOnly_rename (e : Expr) : isLiteralOnly (e.rename ρ) = isLiteralOnly e := by
  simp [isLiteralOnly]

/-- Two shapes agree in all but the text that explains them. -/
def Alike (shape shape' : LoopShape) : Prop :=
  shape.progress = shape'.progress ∧ shape.earlyExit = shape'.earlyExit

theorem ofFor_rename (control : Name) (descending : Bool) (start stop : Expr) (body : Block) :
    Alike (ofFor (ρ control) descending (start.rename ρ) (stop.rename ρ) (body.rename ρ))
      (ofFor control descending start stop body) := by
  have hassigned : (body.rename ρ).assignments.find? (·.target.isName (ρ control))
      = (body.assignments.find? (·.target.isName control)).map (Assignment.rename ρ) := by
    rw [Block.assignments_rename, List.find?_map]
    congr 2
    funext a
    exact Expr.isName_rename ρ control a.target
  have hbounds : ((start.rename ρ).names ++ (stop.rename ρ).names).all (· == ρ control)
      = (start.names ++ stop.names).all (· == control) := by
    simp [Function.comp_def]
  rw [ofFor, ofFor, hassigned, hbounds, Block.hasConditionalReturn_rename]
  cases body.assignments.find? (·.target.isName control) with
  | some a => exact ⟨rfl, rfl⟩
  | none =>
      dsimp only [Option.map_none]
      split <;> exact ⟨rfl, rfl⟩

theorem ofCondition_rename (control : Control) (cond : Expr) (body : Block) :
    Alike (ofCondition (control.rename ρ) (cond.rename ρ) (body.rename ρ))
      (ofCondition control cond body) := by
  have hclimbs : ∀ found : List (Assignment × Name × Update),
      (found.map fun (a, n, u) => (a.rename ρ, ρ n, u)).any
          (fun (_, n, u) => n == (control.rename ρ).variableName && u.isIncreasing)
        = found.any fun (_, n, u) => n == control.variableName && u.isIncreasing := by
    intro found
    simp [List.any_map, Function.comp_def, Control.rename]
  have hbound : ∀ climbs : Bool,
      ((control.rename ρ).bound.filter fun bound => climbs && isLiteralOnly bound)
        = (control.bound.filter fun bound => climbs && isLiteralOnly bound).map
            (Expr.rename ρ) := by
    intro climbs
    rw [Control.rename, Option.filter_map]
    simp [Function.comp_def, isLiteralOnly_rename]
  simp only [ofCondition, Block.assignments_rename, updates_rename, hclimbs, hbound,
    List.find?_map, List.any_map, Function.comp_def, Block.hasConditionalReturn_rename]
  cases (updates cond body.assignments).find? fun (_, _, u) => u == .unclear with
  | some found => exact ⟨rfl, rfl⟩
  | none =>
      dsimp only [Option.map_none]
      cases control.bound.filter fun bound =>
        ((updates cond body.assignments).any fun (_, n, u) =>
          n == control.variableName && u.isIncreasing) && isLiteralOnly bound with
      | some bound => exact ⟨rfl, rfl⟩
      | none =>
          dsimp only [Option.map_none]
          split
          · exact ⟨rfl, rfl⟩
          · split
            · exact ⟨rfl, rfl⟩
            · split <;> exact ⟨rfl, rfl⟩

end LoopShape

/-- Whether and how a loop makes progress does not depend on how its variables are spelled. -/
theorem Stmt.loopShape_rename (ρ : Name ↪ Name) :
    ∀ s : Stmt, LoopShape.Alike (s.rename ρ).loopShape s.loopShape
  | .forLoop .. => LoopShape.ofFor_rename ρ ..
  | .whileLoop .. => LoopShape.ofCondition_rename ρ ..
  | .repeatLoop .. => LoopShape.ofCondition_rename ρ ..
  | .conditional _ _ _ (some _) | .conditional _ _ _ none | .assign .. | .call .. | .give .. =>
    ⟨rfl, rfl⟩

/-! ## Changes of size -/

section Sizes

variable (ρ : Name ↪ Name)

@[simp] theorem Procedure.hasParam_rename (p : Procedure) (n : Name) :
    (p.rename ρ).hasParam (ρ n) = p.hasParam n := by
  simp [Procedure.hasParam, Procedure.rename, List.any_map, Function.comp_def]

namespace SizeFacts

/-- What is known about the locals, with their names renamed. -/
def rename (ρ : Name → Name) (facts : SizeFacts) : SizeFacts where
  midpoints := facts.midpoints.map ρ
  splits := facts.splits.map ρ
  fractions := facts.fractions.map (Prod.map ρ (Prod.map ρ id))

theorem fraction?_rename (e : Expr) :
    fraction? (e.rename ρ) = (fraction? e).map (Prod.map ρ id) := by
  rw [fraction?, fraction?, Expr.unrounded_rename]
  cases e.unrounded with
  | binary pos op lhs rhs =>
      simp only [Expr.rename, Expr.name?_rename, Expr.number?_rename]
      cases lhs.name? with
      | none => rfl
      | some n =>
          cases rhs.number? with
          | none => rfl
          | some c =>
              dsimp only [Option.map_some]
              split <;> rfl
  | _ => rfl

theorem isElement_rename (e : Expr) : isElement (e.rename ρ) = isElement e := by
  rw [isElement, isElement, Expr.unrounded_rename]
  cases e.unrounded <;> rfl

theorem add_rename (p : Procedure) (facts : SizeFacts) (a : Assignment) :
    add (p.rename ρ) (facts.rename ρ) (a.rename ρ) = (add p facts a).rename ρ := by
  have hlocal : (a.rename ρ).target.name?.filter (!(p.rename ρ).hasParam ·)
      = (a.target.name?.filter (!p.hasParam ·)).map ρ := by
    rw [Assignment.rename, Expr.name?_rename, Option.filter_map]
    simp [Function.comp_def]
  rw [add, add, hlocal]
  cases a.target.name?.filter (!p.hasParam ·) with
  | none => rfl
  | some n =>
      simp only [Option.map_some, Assignment.rename, Expr.isMidpoint_rename, fraction?_rename,
        isElement_rename, Expr.calls_rename, List.isEmpty_map]
      split
      · rfl
      · cases fraction? a.value with
        | some source => rfl
        | none =>
            dsimp only [Option.map_none]
            split <;> rfl

@[simp] theorem ofProcedure_rename (p : Procedure) :
    ofProcedure (p.rename ρ) = (ofProcedure p).rename ρ := by
  have hfold : ∀ (assignments : List Assignment) (facts : SizeFacts),
      (assignments.map (Assignment.rename ρ)).foldl (add (p.rename ρ)) (facts.rename ρ)
        = (assignments.foldl (add p) facts).rename ρ := by
    intro assignments
    induction assignments with
    | nil => exact fun _ => rfl
    | cons a assignments ih =>
        intro facts
        rw [List.map_cons, List.foldl_cons, List.foldl_cons, add_rename, ih]
  rw [ofProcedure, ofProcedure, ← hfold, ← Block.assignments_rename]
  rfl

end SizeFacts

namespace ArgShape

variable (p : Procedure) (facts : SizeFacts)

theorem ofName_rename (param n : Name) :
    ofName (p.rename ρ) (facts.rename ρ) (ρ param) (ρ n) = ofName p facts param n := by
  have hfraction : ((facts.rename ρ).fractions.lookup (ρ n)).filter (·.1 == ρ param)
      = ((facts.fractions.lookup n).filter (·.1 == param)).map (Prod.map ρ id) := by
    rw [SizeFacts.rename, lookup_map, Option.filter_map]
    simp [Function.comp_def]
  simp only [ofName, ρ.injective.eq_iff, hfraction, Procedure.hasParam_rename]
  rw [SizeFacts.rename, contains_map, contains_map]
  cases (facts.fractions.lookup n).filter (·.1 == param) <;> rfl

theorem ofMention_rename (param : Name) (e : Expr) :
    ofMention (ρ param) (e.rename ρ) = ofMention param e := by
  rw [ofMention, ofMention, Expr.mentions_rename]

theorem divisor?_rename (param : Name) (op : BinaryOp) (lhs rhs : Expr) :
    divisor? (ρ param) op (lhs.rename ρ) (rhs.rename ρ) = divisor? param op lhs rhs := by
  simp only [divisor?, Expr.number?_rename, Expr.unrounded_rename, Expr.isName_rename]

/-- Comparing an argument with a parameter sees names only through comparisons. -/
theorem classify_rename (param : Name) : ∀ e : Expr,
    classify (p.rename ρ) (facts.rename ρ) (ρ param) (e.rename ρ) = classify p facts param e
  | .name pos n => ofName_rename ρ p facts param n
  | .unary pos op operand => by
      have hmention := ofMention_rename ρ param (.unary pos op operand)
      rw [Expr.rename] at hmention
      rw [Expr.rename, classify, classify, hmention, classify_rename param operand]
  | .binary pos op lhs rhs => by
      have hmention := ofMention_rename ρ param (.binary pos op lhs rhs)
      rw [Expr.rename] at hmention
      simp only [Expr.rename, classify, hmention, divisor?_rename, Expr.number?_rename,
        classify_rename param lhs, classify_rename param rhs]
  | .number .. | .string .. | .bool .. | .null .. | .call .. | .index .. | .field .. | .range .. =>
    ofMention_rename ρ param _

end ArgShape

/-- A call changes the size in the same way, however variables are spelled. -/
theorem SizeChange.ofCall_rename {R : Type} [Scalar R] (p : Procedure) (facts : SizeFacts)
    (c : Call) :
    (SizeChange.ofCall (p.rename ρ) (facts.rename ρ) (c.rename ρ) : SizeChange R)
      = SizeChange.ofCall p facts c := by
  simp only [SizeChange.ofCall]
  rw [Procedure.rename, Call.rename, List.zipWith_map]
  congr 1
  refine congrArg (fun f => List.zipWith f p.params c.args) (funext fun q => funext fun e => ?_)
  exact ArgShape.classify_rename ρ p facts q.name e

end Sizes

end PseudoCost
