import PseudoCost.Program

/-!
# The geometry of a program

The number of nodes of a program's tree and the depth of its deepest node, the root having depth
zero. A call statement and the call in it are two nodes.
-/

namespace PseudoCost

/-- The size of a tree. -/
structure Geometry where
  nodes : Nat
  maxDepth : Nat
deriving Repr, DecidableEq

/-- The geometry of a node with the given parts. -/
def Geometry.node (parts : List Geometry) : Geometry :=
  ⟨parts.foldr (fun g nodes => g.nodes + nodes) 1,
   parts.foldr (fun g depth => max (g.maxDepth + 1) depth) 0⟩

mutual

/-- The geometry of an expression. -/
def Expr.geometry : Expr → Geometry
  | .call _ _ _ args => .node (Expr.geometries args)
  | .index _ base subscript => .node [base.geometry, subscript.geometry]
  | .field _ base _ => .node [base.geometry]
  | .range _ low high => .node [low.geometry, high.geometry]
  | .binary _ _ lhs rhs => .node [lhs.geometry, rhs.geometry]
  | .unary _ _ operand => .node [operand.geometry]
  | .number .. => .node []
  | .string .. => .node []
  | .bool .. => .node []
  | .null _ => .node []
  | .name .. => .node []

/-- The geometries of several expressions. -/
def Expr.geometries : List Expr → List Geometry
  | [] => []
  | e :: es => e.geometry :: Expr.geometries es

end

mutual

/-- The geometry of a statement. -/
def Stmt.geometry : Stmt → Geometry
  | .forLoop _ _ _ start stop step body =>
    .node ([start.geometry, stop.geometry] ++ Expr.geometries step.toList ++ [body.geometry])
  | .whileLoop _ _ cond body => .node [cond.geometry, body.geometry]
  | .repeatLoop _ _ body cond => .node [body.geometry, cond.geometry]
  | .conditional _ cond thenBlock (some elseBlock) =>
    .node [cond.geometry, thenBlock.geometry, elseBlock.geometry]
  | .conditional _ cond thenBlock none => .node [cond.geometry, thenBlock.geometry]
  | .assign _ target value => .node [target.geometry, value.geometry]
  | .call pos callee explicit args => .node [(Expr.call pos callee explicit args).geometry]
  | .give _ value => .node (Expr.geometries value.toList)

/-- The geometry of a block. -/
def Block.geometry : Block → Geometry
  | .mk _ _ _ stmts => .node (Stmt.geometries stmts)

/-- The geometries of several statements. -/
def Stmt.geometries : List Stmt → List Geometry
  | [] => []
  | s :: ss => s.geometry :: Stmt.geometries ss

end

/-- The geometry of a program. -/
def Program.geometry (p : Program) : Geometry :=
  .node ((p.procedures.map fun q => Geometry.node [q.body.geometry])
    ++ p.main.toList.map Block.geometry)

end PseudoCost
