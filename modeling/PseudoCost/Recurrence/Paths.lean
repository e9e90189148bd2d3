import PseudoCost.Recurrence

/-!
# Self-calls along execution paths

A procedure body is read as a set of execution paths. A conditional takes one of its branches, a
loop runs its body once or not at all, and a return ends the path. A `PathAlgebra` says what to
keep of a path and how to combine: two parts of one path, or two paths of which either may be
taken. The paths that fall through a statement are kept apart from those that have returned, and
only the former go on.

Two algebras are used: the least and the largest number of self-calls on a path, and the recursive
terms of the path with the most self-calls. Notes tell where exclusive branches both make calls and
where a loop makes calls.
-/

namespace PseudoCost.Recurrence

/-! ## Paths -/

/-- What is kept of a path. -/
structure PathAlgebra (V : Type) where
  /-- A path without calls. -/
  empty : V
  /-- A path that makes the given calls. -/
  ofCalls : List Call → V
  /-- One path after another. -/
  concat : V → V → V
  /-- Either of two paths. -/
  join : V → V → V
  /-- Whether some call is made. -/
  isBusy : V → Bool

/-- The paths through a statement: those that fall through, those that returned, and notes. -/
structure Flow (V : Type) where
  falls : Option V
  returned : Option V
  notes : List Text := []

namespace PathAlgebra

variable {V : Type} (alg : PathAlgebra V)

/-- Either of two sets of paths, each of which may be empty. -/
def join? : Option V → Option V → Option V
  | none, b => b
  | a, none => a
  | some a, some b => some (alg.join a b)

/-- All paths of a flow. -/
def all (f : Flow V) : Option V := alg.join? f.falls f.returned

/-- The note on a conditional both of whose branches make calls. -/
def branchNotes (t e : Flow V) : List Text :=
  match alg.all t, alg.all e with
  | some a, some b =>
    if alg.isBusy a && alg.isBusy b then ["calls in mutually exclusive branches"] else []
  | _, _ => []

/-- The paths of a conditional. -/
def conditional (cond : V) (t e : Flow V) : Flow V where
  falls := (alg.join? t.falls e.falls).map (alg.concat cond)
  returned := (alg.join? t.returned e.returned).map (alg.concat cond)
  notes := t.notes ++ e.notes ++ alg.branchNotes t e

/-- The note on a loop whose body makes calls. -/
def loopNotes (body : Flow V) : List Text :=
  if (alg.all body).any alg.isBusy then
    ["recursive call inside a loop; counted once per invocation"]
  else []

/-- The paths of a loop whose header is evaluated once and whose body runs once or not at all. -/
def loop (header : V) (body : Flow V) : Flow V where
  falls := some (alg.concat header (((alg.all body).map (alg.join alg.empty)).getD alg.empty))
  returned := body.returned.map (alg.concat header)
  notes := body.notes ++ alg.loopNotes body

/-- The paths that go on after a statement: those that fell through it are continued by the paths
of the next one. -/
def sequence (before : Flow V) (prior : V) (next : Flow V) : Flow V where
  falls := next.falls.map (alg.concat prior)
  returned := alg.join? before.returned (next.returned.map (alg.concat prior))
  notes := before.notes ++ next.notes

/-- The one path through no statement at all. -/
def start : Flow V := ⟨some alg.empty, none, []⟩

mutual

/-- The paths through a statement. -/
def ofStmt : Stmt → Flow V
  | .give pos value => ⟨none, some (alg.ofCalls (Stmt.give pos value).calls), []⟩
  | .conditional _ cond thenBlock (some elseBlock) =>
    alg.conditional (alg.ofCalls cond.calls) (ofBlock thenBlock) (ofBlock elseBlock)
  | .conditional _ cond thenBlock none =>
    alg.conditional (alg.ofCalls cond.calls) (ofBlock thenBlock) alg.start
  | .forLoop _ _ _ start stop _ body =>
    alg.loop (alg.concat (alg.ofCalls start.calls) (alg.ofCalls stop.calls)) (ofBlock body)
  | .whileLoop _ _ cond body => alg.loop (alg.ofCalls cond.calls) (ofBlock body)
  | .repeatLoop _ _ body cond => alg.loop (alg.ofCalls cond.calls) (ofBlock body)
  | .assign pos target value =>
    ⟨some (alg.ofCalls (Stmt.assign pos target value).calls), none, []⟩
  | .call pos callee explicit args =>
    ⟨some (alg.ofCalls (Stmt.call pos callee explicit args).calls), none, []⟩

/-- The paths through a block. -/
def ofBlock : Block → Flow V
  | .mk _ _ _ stmts => ofList alg.start stmts

/-- The paths through a list of statements, after those that lead to it. What follows a statement
that no path falls through is not looked at. -/
def ofList (before : Flow V) : List Stmt → Flow V
  | [] => before
  | s :: ss =>
    match before.falls with
    | none => before
    | some prior => ofList (alg.sequence before prior (ofStmt s)) ss

end

/-- What is kept of the paths of a procedure. -/
def ofProcedure (p : Procedure) : V := (alg.all (alg.ofBlock p.body)).getD alg.empty

end PathAlgebra

/-! ## Counting -/

/-- The least and the largest number of self-calls on a path. -/
structure CallCount where
  min : Nat := 0
  max : Nat := 0
deriving Repr, DecidableEq

/-- Keeps the least and the largest number of calls to a procedure. -/
def countAlgebra (self : Name) : PathAlgebra CallCount where
  empty := {}
  ofCalls calls := let k := calls.countP (·.callee == self); ⟨k, k⟩
  concat a b := ⟨a.min + b.min, a.max + b.max⟩
  join a b := ⟨Min.min a.min b.min, Max.max a.max b.max⟩
  isBusy a := 0 < a.max

/-- The least and the largest number of self-calls on a path through a procedure. -/
def countSelfCalls (p : Procedure) : CallCount := (countAlgebra p.name).ofProcedure p

/-! ## Terms of the costliest path -/

section Terms

variable {R : Type} [Scalar R]

/-- Keeps the terms of the calls to a procedure; of two paths the one that makes more calls. -/
def termAlgebra (p : Procedure) (facts : SizeFacts) : PathAlgebra (List (Term R)) where
  empty := []
  ofCalls calls :=
    addTerms [] ((calls.filter (·.callee == p.name)).map fun c => ⟨SizeChange.ofCall p facts c, 1⟩)
  concat := addTerms
  join a b := if totalCalls a < totalCalls b then b else a
  isBusy a := 0 < totalCalls a

/-- The recursive terms on the path with the most self-calls. -/
def worstTerms (p : Procedure) : List (Term R) :=
  (termAlgebra p (SizeFacts.ofProcedure p)).ofProcedure p

/-- The notes on the paths of a procedure, each once. -/
def pathNotes (p : Procedure) : List Text :=
  ((countAlgebra p.name).ofBlock p.body).notes.eraseDups

end Terms

end PseudoCost.Recurrence
