import PseudoCost.Expr

/-!
# Programs

A program is a list of procedures and an optional main body. Statements and blocks carry the
position of the token that introduced them; a block also carries where it was closed. A procedure
is found by its name, and of several with one name the first is meant.

Two views of a statement serve the analyses: all expressions in it, in reading order, and all
statements in it, each with the number of conditional branches around it.
-/

namespace PseudoCost

/-- What controls a `while` or `repeat` loop: a variable, empty when the condition names none, and
the expression it is compared with, if any. -/
structure Control where
  variableName : Name := []
  bound : Option Expr := none

mutual

/-- A statement. -/
inductive Stmt where
  | forLoop (pos : Pos) (control : Name) (descending : Bool) (start stop : Expr)
      (step : Option Expr) (body : Block)
  | whileLoop (pos : Pos) (control : Control) (cond : Expr) (body : Block)
  | repeatLoop (pos : Pos) (control : Control) (body : Block) (cond : Expr)
  | conditional (pos : Pos) (cond : Expr) (thenBlock : Block) (elseBlock : Option Block)
  | assign (pos : Pos) (target value : Expr)
  | call (pos : Pos) (callee : Name) (explicit : Bool) (args : List Expr)
  | give (pos : Pos) (value : Option Expr)

/-- A sequence of statements, whether it was opened with `begin`, and where it was closed. -/
inductive Block where
  | mk (pos : Pos) (explicit : Bool) (close : Pos) (stmts : List Stmt)

end

namespace Block

/-- Where the block starts. -/
def pos : Block → Pos
  | .mk pos _ _ _ => pos

/-- Whether the block was opened with `begin`. -/
def explicit : Block → Bool
  | .mk _ explicit _ _ => explicit

/-- Where the block was closed. -/
def close : Block → Pos
  | .mk _ _ close _ => close

/-- The statements of the block. -/
def stmts : Block → List Stmt
  | .mk _ _ _ stmts => stmts

end Block

/-- A parameter, with the text of its array shape, empty when it has none. -/
structure Param where
  name : Name
  shape : Text := []
deriving Repr, DecidableEq

/-- Whether the parameter is an array: it has a shape. -/
def Param.isArray (p : Param) : Bool := !p.shape.isEmpty

/-- A procedure. Calls refer to its case-folded name; reports show the name as written. -/
structure Procedure where
  pos : Pos
  name : Name
  display : Text
  params : List Param
  body : Block

/-- Whether a name is one of the parameters. -/
def Procedure.hasParam (p : Procedure) (n : Name) : Bool := p.params.any (·.name == n)

/-- A program. -/
structure Program where
  pos : Pos
  procedures : List Procedure
  main : Option Block

/-- The procedure a name refers to: the first one declared with it. -/
def Program.find? (p : Program) (n : Name) : Option Procedure :=
  p.procedures.find? (·.name == n)

/-- Whether a name is the name of a procedure. -/
def Program.declares (p : Program) (n : Name) : Bool := (p.find? n).isSome

/-- The main body, if it has any statement. -/
def Program.entry? (p : Program) : Option Block := p.main.filter (!·.stmts.isEmpty)

/-! ## Expressions in reading order -/

mutual

/-- All expressions in a statement, with their subterms, in reading order. -/
def Stmt.terms : Stmt → List Expr
  | .forLoop _ _ _ start stop step body =>
    start.subterms ++ stop.subterms ++ Expr.subtermsOf step.toList ++ body.terms
  | .whileLoop _ _ cond body => cond.subterms ++ body.terms
  | .repeatLoop _ _ body cond => body.terms ++ cond.subterms
  | .conditional _ cond thenBlock (some elseBlock) =>
    cond.subterms ++ thenBlock.terms ++ elseBlock.terms
  | .conditional _ cond thenBlock none => cond.subterms ++ thenBlock.terms
  | .assign _ target value => target.subterms ++ value.subterms
  | .call pos callee explicit args => (Expr.call pos callee explicit args).subterms
  | .give _ value => Expr.subtermsOf value.toList

/-- All expressions in a block. -/
def Block.terms : Block → List Expr
  | .mk _ _ _ stmts => Stmt.termsOf stmts

/-- All expressions in a list of statements. -/
def Stmt.termsOf : List Stmt → List Expr
  | [] => []
  | s :: ss => s.terms ++ Stmt.termsOf ss

end

/-- The calls in a statement. -/
def Stmt.calls (s : Stmt) : List Call := s.terms.filterMap Expr.call?

/-- The calls in a block. -/
def Block.calls (b : Block) : List Call := b.terms.filterMap Expr.call?

/-- Whether a statement calls a procedure. -/
def Stmt.callsTo (s : Stmt) (n : Name) : Bool := s.calls.any (·.callee == n)

/-- Whether a block calls a procedure. -/
def Block.callsTo (b : Block) (n : Name) : Bool := b.calls.any (·.callee == n)

/-! ## Statements and the branches around them -/

mutual

/-- The statement and all statements in it, each before its own parts, with the number of
conditional branches around each, counted from `depth`. -/
def Stmt.nested (depth : Nat) : Stmt → List (Nat × Stmt)
  | .forLoop pos control descending start stop step body =>
    (depth, .forLoop pos control descending start stop step body) :: body.nested depth
  | .whileLoop pos control cond body =>
    (depth, .whileLoop pos control cond body) :: body.nested depth
  | .repeatLoop pos control body cond =>
    (depth, .repeatLoop pos control body cond) :: body.nested depth
  | .conditional pos cond thenBlock (some elseBlock) =>
    (depth, .conditional pos cond thenBlock (some elseBlock)) ::
      (thenBlock.nested (depth + 1) ++ elseBlock.nested (depth + 1))
  | .conditional pos cond thenBlock none =>
    (depth, .conditional pos cond thenBlock none) :: thenBlock.nested (depth + 1)
  | .assign pos target value => [(depth, .assign pos target value)]
  | .call pos callee explicit args => [(depth, .call pos callee explicit args)]
  | .give pos value => [(depth, .give pos value)]

/-- The statements in a block, with the number of branches around each. -/
def Block.nested (depth : Nat) : Block → List (Nat × Stmt)
  | .mk _ _ _ stmts => Stmt.nestedOf depth stmts

/-- The statements in a list of statements, with the number of branches around each. -/
def Stmt.nestedOf (depth : Nat) : List Stmt → List (Nat × Stmt)
  | [] => []
  | s :: ss => s.nested depth ++ Stmt.nestedOf depth ss

end

/-- All statements in a block. -/
def Block.within (b : Block) : List Stmt := (b.nested 0).map Prod.snd

/-- An assignment: its position, target and value. -/
structure Assignment where
  pos : Pos
  target : Expr
  value : Expr

/-- The assignment, if the statement is one. -/
def Stmt.assignment? : Stmt → Option Assignment
  | .assign pos target value => some ⟨pos, target, value⟩
  | _ => none

/-- The assignments in a block, in reading order. -/
def Block.assignments (b : Block) : List Assignment := b.within.filterMap Stmt.assignment?

/-- Whether the statement returns from its procedure. -/
def Stmt.isReturn : Stmt → Bool
  | .give .. => true
  | _ => false

/-- Whether some return in the block stands inside a conditional branch of the block. -/
def Block.hasConditionalReturn (b : Block) : Bool :=
  (b.nested 0).any fun (depth, s) => 0 < depth && s.isReturn

/-- The blocks of a program: the bodies of its procedures and the main body. -/
def Program.blocks (p : Program) : List Block := p.procedures.map (·.body) ++ p.main.toList

/-- The number of statements in a program. -/
def Program.statementCount (p : Program) : Nat :=
  (p.blocks.flatMap Block.within).length

/-- Where a statement starts. -/
def Stmt.pos : Stmt → Pos
  | .forLoop pos .. => pos
  | .whileLoop pos .. => pos
  | .repeatLoop pos .. => pos
  | .conditional pos .. => pos
  | .assign pos .. => pos
  | .call pos .. => pos
  | .give pos .. => pos

end PseudoCost
