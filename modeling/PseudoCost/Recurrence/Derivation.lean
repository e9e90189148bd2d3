import PseudoCost.LineCost
import PseudoCost.Expr.Printer
import PseudoCost.Cost.Structural

/-!
# Deriving the relation of a procedure

A procedure that calls itself costs what its relation says: the terms come from the path with the
most self-calls, the cost outside them is the largest among its own lines and the procedures it
calls that do not call it back, and the base case is the guard that stands before the recursive
calls. A program is judged by its primary procedure, the self-calling procedure that is nearest to
where execution starts.
-/

namespace PseudoCost

/-! ## The primary procedure -/

namespace CallGraph

/-- The first self-calling procedure met when the pending procedures are taken in turn, the callees
of each being put at the end; at most `steps` are taken. -/
def search (g : CallGraph) : Nat → List Name → List Name → Option Name
  | 0, _, _ => none
  | _, _, [] => none
  | steps + 1, seen, n :: pending =>
    if seen.contains n then g.search steps seen pending
    else if g.callsSelf n then some n
    else g.search steps (n :: seen) (pending ++ g.callees n)

/-- The number of edges of the graph. -/
def edgeCount (g : CallGraph) : Nat := (g.edges.flatMap Prod.snd).length

/-- The self-calling procedure nearest to the given ones. The callees of a procedure are put on the
list once, so the given procedures and the edges bound the search. -/
def nearestSelfCaller (g : CallGraph) (starts : List Name) : Option Name :=
  g.search (starts.length + g.edgeCount) [] starts

end CallGraph

/-- The procedure whose recurrence decides the cost of a program. With a main body it is looked for
among what that body reaches; otherwise among what the roots reach, and then among all. -/
def Program.primary? (p : Program) : Option Name :=
  let g := CallGraph.ofProgram p
  match p.entry? with
  | some _ => g.nearestSelfCaller g.mainCalls
  | none => (g.nearestSelfCaller g.roots).or (g.order.find? g.callsSelf)

/-! ## Base cases -/

/-- The text of the negation of a condition. -/
def Expr.negatedText : Expr → Text
  | .binary pos op lhs rhs =>
    if op.isRelational then lhs.text ++ " " ++ op.complement.text ++ " " ++ rhs.text
    else "not (" ++ (Expr.binary pos op lhs rhs).text ++ ")"
  | .unary _ .not operand => operand.text
  | e => "not (" ++ e.text ++ ")"

namespace Recurrence

/-- The condition under which a statement makes no call to a procedure, if it is a conditional one
of whose branches makes none. -/
def guardText? (self : Name) : Stmt → Option Text
  | .conditional _ cond thenBlock elseBlock =>
    if !thenBlock.callsTo self then some cond.text
    else if !elseBlock.any (·.callsTo self) then some cond.negatedText
    else none
  | _ => none

/-- The guard that stands before the recursive calls of some statements. -/
def baseGuard? (self : Name) : List Stmt → Option Text
  | [] => none
  | s :: ss =>
    match guardText? self s with
    | some t => some t
    | none => if s.callsTo self then none else baseGuard? self ss

/-- The base case of a procedure, and the note on it when no guard shows it. -/
def baseCase (p : Procedure) : Text × List Text :=
  match baseGuard? p.name p.body.stmts with
  | some t => ("T(n) = Θ(1) for " ++ t, [])
  | none =>
    ("T(1) = Θ(1)", ["no guard found before the recursive calls; T(1) = Θ(1) assumed"])

/-! ## The cost outside the recursive calls -/

variable {R : Type} [Scalar R]

/-- The procedures that a procedure calls and that do not call it back. -/
def helpers (g : CallGraph) (self : Name) : List Name :=
  (g.callees self).filter fun n => !(n == self || g.reaches n self)

/-- The largest growth among a given one and the worst cases of some procedures. -/
def largestWorst (f : Growth R) (names : List Name) : StateM (Engine R) (Growth R) :=
  names.foldlM (fun f n => return f.max (← Engine.procedure n).cases.worst) f

/-- The cost of a procedure outside its recursive calls. -/
def localCost (program : Program) (source : Text) (p : Procedure) : Growth R :=
  let own := (LineCost.ofProcedure p source).foldl (fun f row => f.max row.cost) Growth.constant
  ((largestWorst own (helpers (CallGraph.ofProgram program) p.name)).run
    (Engine.ofProgram program)).1

/-! ## Relations -/

/-- The notes that the kinds of the terms deserve. -/
def kindNotes (terms : List (Term R)) : List Text :=
  let split : Text := "non-constant split point"
  let unclassified : Text := "argument change could not be classified"
  (if anyOf .split terms then [split] else [])
    ++ (if anyOf .unknown terms || anyOf .same terms then [unclassified] else [])

/-- A term in an explanation. -/
def termSummary (t : Term R) : Text :=
  (if 1 < t.multiplicity then Text.ofInt t.multiplicity ++ " x " else []) ++ "size "
    ++ t.change.label

/-- The explanation of a relation. -/
def explanationText (display : Text) (terms : List (Term R)) (f : Growth R) : Text :=
  let calls := totalCalls terms
  display ++ " makes " ++ Text.ofInt calls ++ " recursive call"
    ++ (if calls = 1 then [] else "s" : Text) ++ " on its costliest path ("
    ++ Text.join ", " (terms.map termSummary) ++ ") and does " ++ f.text ++ " work outside them"

namespace Relation

/-- The relation of a procedure of a program. -/
def ofProcedure (program : Program) (source : Text) (p : Procedure) : Relation R :=
  let terms : List (Term R) := worstTerms p
  let f : Growth R := Recurrence.localCost program source p
  let (base, baseNotes) := Recurrence.baseCase p
  { procedure := p.display
    equation := equationText terms f
    baseCase := base
    notes := pathNotes p ++ baseNotes ++ kindNotes terms
    terms := terms
    localCost := f
    explanation := explanationText p.display terms f }

/-- The relation of the procedure with a name, if that procedure calls itself. -/
def ofName? (program : Program) (source : Text) (n : Name) : Option (Relation R) :=
  ((program.find? n).filter fun p => p.body.callsTo p.name).map (ofProcedure program source)

end Relation

end Recurrence

end PseudoCost
