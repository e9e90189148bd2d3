import PseudoCost.Program
import PseudoCost.Expr.Printer

/-!
# The outline of a program

A listing of a program as an indented tree, one line for each statement, expression and named part.
An outline is a list of lines with their depth; a line is indented by two spaces for each level.
-/

namespace PseudoCost

/-- Lines with the depth at which each stands. -/
abbrev Outline := List (Nat × Text)

/-- The text of an outline. -/
def Outline.text (lines : Outline) : Text :=
  lines.flatMap fun (depth, line) => Text.spaces (2 * depth) ++ line ++ "\n"

mutual

/-- The outline of an expression at a depth. -/
def Expr.outline (depth : Nat) : Expr → Outline
  | .number _ value => [(depth, "NumberLiteral " ++ value.literalText)]
  | .string _ value => [(depth, "StringLiteral \"" ++ value ++ "\"")]
  | .bool _ value => [(depth, "BoolLiteral " ++ (if value then "true" else "false" : Text))]
  | .null _ => [(depth, "NullLiteral")]
  | .name _ n => [(depth, "Identifier " ++ n)]
  | .call _ callee _ args => (depth, "Call " ++ callee) :: Expr.outlineOf (depth + 1) args
  | .index _ base subscript =>
    (depth, "ArrayAccess") :: (base.outline (depth + 1) ++ subscript.outline (depth + 1))
  | .field _ base f => (depth, "FieldAccess ." ++ f) :: base.outline (depth + 1)
  | .range _ low high =>
    (depth, "RangeExpr") :: (low.outline (depth + 1) ++ high.outline (depth + 1))
  | .binary _ op lhs rhs =>
    (depth, "Binary " ++ op.text) :: (lhs.outline (depth + 1) ++ rhs.outline (depth + 1))
  | .unary _ op operand => (depth, "Unary " ++ op.text) :: operand.outline (depth + 1)

/-- The outlines of several expressions, one after another. -/
def Expr.outlineOf (depth : Nat) : List Expr → Outline
  | [] => []
  | e :: es => e.outline depth ++ Expr.outlineOf depth es

end

/-- A named part: a line with its name above the lines of the part. -/
def Outline.part (depth : Nat) (name : Text) (lines : Outline) : Outline := (depth, name) :: lines

/-- A named expression, one level below its name. -/
def Outline.term (depth : Nat) (name : Text) (e : Expr) : Outline :=
  .part depth name (e.outline (depth + 1))

/-- The control variable of a loop in an outline. -/
def Control.outlineName (c : Control) : Text :=
  if c.variableName.isEmpty then "<unresolved>" else c.variableName

mutual

/-- The outline of a statement at a depth. -/
def Stmt.outline (depth : Nat) : Stmt → Outline
  | .forLoop _ control descending start stop step body =>
    (depth, "ForLoop var=" ++ control ++ (if descending then ", downto" else "" : Text)) ::
      (Outline.term (depth + 1) "From:" start ++ Outline.term (depth + 1) "To:" stop
        ++ step.toList.flatMap (Outline.term (depth + 1) "Step:")
        ++ Outline.part (depth + 1) "Do:" (body.outline (depth + 2)))
  | .whileLoop _ control cond body =>
    (depth, "WhileLoop var=" ++ control.outlineName) ::
      (Outline.term (depth + 1) "Cond:" cond
        ++ Outline.part (depth + 1) "Do:" (body.outline (depth + 2)))
  | .repeatLoop _ control body cond =>
    (depth, "RepeatUntilLoop var=" ++ control.outlineName) ::
      (Outline.part (depth + 1) "Body:" (body.outline (depth + 2))
        ++ Outline.term (depth + 1) "Until:" cond)
  | .conditional _ cond thenBlock (some elseBlock) =>
    (depth, "IfElse") ::
      (Outline.term (depth + 1) "Cond:" cond
        ++ Outline.part (depth + 1) "Then:" (thenBlock.outline (depth + 2))
        ++ Outline.part (depth + 1) "Else:" (elseBlock.outline (depth + 2)))
  | .conditional _ cond thenBlock none =>
    (depth, "IfElse") ::
      (Outline.term (depth + 1) "Cond:" cond
        ++ Outline.part (depth + 1) "Then:" (thenBlock.outline (depth + 2)))
  | .assign _ target value =>
    (depth, "Assignment target=" ++ target.text) :: value.outline (depth + 1)
  | .call pos callee explicit args =>
    (depth, "CallStmt") :: (Expr.call pos callee explicit args).outline (depth + 1)
  | .give _ value => (depth, "ReturnStmt") :: Expr.outlineOf (depth + 1) value.toList

/-- The outline of a block: that of its statements. -/
def Block.outline (depth : Nat) : Block → Outline
  | .mk _ _ _ stmts => Stmt.outlineOf depth stmts

/-- The outlines of several statements, one after another. -/
def Stmt.outlineOf (depth : Nat) : List Stmt → Outline
  | [] => []
  | s :: ss => s.outline depth ++ Stmt.outlineOf depth ss

end

/-- The outline of a procedure. -/
def Procedure.outline (depth : Nat) (p : Procedure) : Outline :=
  let params := Text.join ", " (p.params.map fun q => q.name ++ q.shape)
  (depth, "ProcedureDecl name=" ++ p.display ++ ", params=(" ++ params ++ ")") ::
    p.body.outline (depth + 1)

/-- The outline of a program. -/
def Program.outline (p : Program) : Outline :=
  (0, "Program") ::
    (p.procedures.flatMap (Procedure.outline 1)
      ++ p.main.toList.flatMap fun main => Outline.part 1 "Main:" (main.outline 2))

end PseudoCost
