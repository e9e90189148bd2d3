import PseudoCost.Loop

/-!
# Costs of source lines

Each statement of a scope costs the product of the iteration counts of the loops around it, a loop
statement's own count included. The statements are listed with their costs in reading order, and
the list is folded into one row for each line, which keeps the largest cost met on that line. A row
is marked as part of the recursion when any statement on its line contains a call of the procedure
that it belongs to.
-/

namespace PseudoCost

/-- Where the cost of a line comes from. -/
inductive CostOrigin where
  | structural | recurrence
deriving Repr, DecidableEq

/-- The name of an origin in a report. -/
def CostOrigin.text : CostOrigin → Text
  | .structural => "structural"
  | .recurrence => "recurrence"

/-- The row of a source line. -/
structure LineCost (R : Type) where
  line : Int
  code : Text
  cost : Growth R
  /-- The cost as a bound. -/
  costText : Text
  explanation : Text
  origin : CostOrigin
  scope : Text
deriving Repr, DecidableEq

namespace LineCost

variable {R : Type} [Scalar R]

/-! ## Entries -/

/-- The cost of one statement. -/
structure Entry (R : Type) where
  line : Int
  cost : Growth R
  explanation : Text
  /-- Whether the statement calls the procedure it belongs to. -/
  recursive : Bool
  scope : Text
deriving Repr, DecidableEq

/-- A scope: its title, and the procedure whose calls count as recursion, if any. -/
structure Scope where
  title : Text
  self : Option Name
deriving Repr, DecidableEq

/-- The main body as a scope. -/
def Scope.main : Scope := ⟨"Main algorithm", none⟩

/-- A procedure as a scope. -/
def Scope.ofProcedure (p : Procedure) : Scope := ⟨"Procedure " ++ p.display, some p.name⟩

/-- Whether a statement calls the procedure of its scope. -/
def Scope.isRecursive (scope : Scope) (s : Stmt) : Bool := scope.self.any s.callsTo

/-- How often a statement inside some loops runs. -/
def countText (cost : Growth R) (loops : Nat) : Text :=
  if loops = 0 then "executed once per call"
  else
    "executed " ++ cost.text ++ " times inside " ++ Text.ofNat loops
      ++ (if loops = 1 then " loop" else " nested loops" : Text)

/-- The entry of a statement. -/
def entry (scope : Scope) (s : Stmt) (cost : Growth R) (explanation : Text) : Entry R :=
  ⟨s.pos.line, cost, explanation, scope.isRecursive s, scope.title⟩

/-- The entry of a loop, whose cost includes its own iterations. -/
def loopEntry (scope : Scope) (s : Stmt) (cost : Growth R) : Entry R :=
  entry scope s cost
    ("loop header, " ++ s.loopShape.progress.text ++ " progress: " ++ s.loopShape.detail)

mutual

/-- The entries of a statement that runs `cost` times inside some loops. -/
def entriesOf (scope : Scope) (cost : Growth R) (loops : Nat) : Stmt → List (Entry R)
  | .forLoop pos control descending start stop step body =>
    let s := Stmt.forLoop pos control descending start stop step body
    let inner := cost.times s.loopShape.progress.iterations
    loopEntry scope s inner :: blockEntries scope inner (loops + 1) body
  | .whileLoop pos control cond body =>
    let s := Stmt.whileLoop pos control cond body
    let inner := cost.times s.loopShape.progress.iterations
    loopEntry scope s inner :: blockEntries scope inner (loops + 1) body
  | .repeatLoop pos control body cond =>
    let s := Stmt.repeatLoop pos control body cond
    let inner := cost.times s.loopShape.progress.iterations
    loopEntry scope s inner :: blockEntries scope inner (loops + 1) body
  | .conditional pos cond thenBlock (some elseBlock) =>
    entry scope (.conditional pos cond thenBlock (some elseBlock)) cost
        ("condition test; " ++ countText cost loops) ::
      (blockEntries scope cost loops thenBlock ++ blockEntries scope cost loops elseBlock)
  | .conditional pos cond thenBlock none =>
    entry scope (.conditional pos cond thenBlock none) cost
        ("condition test; " ++ countText cost loops) ::
      blockEntries scope cost loops thenBlock
  | .assign pos target value =>
    [entry scope (.assign pos target value) cost (countText cost loops)]
  | .call pos callee explicit args =>
    [entry scope (.call pos callee explicit args) cost (countText cost loops)]
  | .give pos value => [entry scope (.give pos value) cost (countText cost loops)]

/-- The entries of a block that runs `cost` times inside some loops. -/
def blockEntries (scope : Scope) (cost : Growth R) (loops : Nat) : Block → List (Entry R)
  | .mk _ _ _ stmts => listEntries scope cost loops stmts

/-- The entries of several statements. -/
def listEntries (scope : Scope) (cost : Growth R) (loops : Nat) : List Stmt → List (Entry R)
  | [] => []
  | s :: ss => entriesOf scope cost loops s ++ listEntries scope cost loops ss

end

/-- The entries of a whole scope, which runs once. -/
def scopeEntries (scope : Scope) (body : Block) : List (Entry R) :=
  blockEntries scope Growth.constant 0 body

/-- The entries of a program: those of the main body, then those of each procedure. -/
def programEntries (p : Program) : List (Entry R) :=
  p.main.toList.flatMap (scopeEntries Scope.main)
    ++ p.procedures.flatMap fun q => scopeEntries (Scope.ofProcedure q) q.body

/-! ## Rows -/

/-- The trimmed source text of a line; empty outside the source. -/
def snippet (source : List Text) (line : Int) : Text :=
  if line ≤ 0 then [] else ((source[(line - 1).toNat]?).map Text.trim).getD []

/-- The row of an entry that is the largest on its line so far. -/
def ofEntry (source : List Text) (recursiveLine : Bool) (e : Entry R) : LineCost R where
  line := e.line
  code := snippet source e.line
  cost := e.cost
  costText := e.cost.bigO
  explanation :=
    if e.recursive then "recursive call; its total cost comes from the recurrence"
    else e.explanation
  origin := if e.recursive || recursiveLine then .recurrence else .structural
  scope := e.scope

/-- Adds an entry to the row of its line: it replaces the row if its cost is larger, and otherwise
only marks it when it is recursive. -/
def absorb (source : List Text) (row : LineCost R) (e : Entry R) : LineCost R :=
  if e.cost.dominates row.cost then ofEntry source (row.origin == .recurrence) e
  else if e.recursive then { row with origin := .recurrence }
  else row

/-- Adds an entry to rows in the order of their lines. -/
def record (source : List Text) (e : Entry R) : List (LineCost R) → List (LineCost R)
  | [] => [ofEntry source false e]
  | row :: rows =>
    if e.line < row.line then ofEntry source false e :: row :: rows
    else if e.line = row.line then absorb source row e :: rows
    else row :: record source e rows

/-- The rows of some entries, in the order of their lines. -/
def rows (source : List Text) (entries : List (Entry R)) : List (LineCost R) :=
  entries.foldl (fun table e => record source e table) []

/-- The rows of a program, with snippets from the given source. -/
def ofProgram (p : Program) (source : Text) : List (LineCost R) :=
  rows source.lines (programEntries p)

/-- The rows of one procedure. -/
def ofProcedure (p : Procedure) (source : Text) : List (LineCost R) :=
  rows source.lines (scopeEntries (Scope.ofProcedure p) p.body)

end LineCost

end PseudoCost
