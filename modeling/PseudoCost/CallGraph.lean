import PseudoCost.Program

/-!
# The call graph

The procedures of a program and who calls whom. Only calls to declared procedures are edges, so
built-in operations never appear; procedures declared under one name share their edges.

Reachability is a depth-first visit. The visited names are threaded through it, and each nested
visit adds a name, so the number of procedures bounds the nesting.
-/

namespace PseudoCost

/-- The calls between the procedures of a program. -/
structure CallGraph where
  /-- The names of the procedures in the order of declaration. -/
  order : List Name
  /-- For each name the distinct procedures it calls, in bytewise order. -/
  edges : List (Name × List Name)
  /-- The distinct procedures the main body calls, in the order of their first call. -/
  mainCalls : List Name
deriving Repr, DecidableEq

namespace CallGraph

/-- The names of the declared procedures that a block calls, in reading order. -/
def declaredCalls (p : Program) (b : Block) : List Name :=
  (b.calls.map Call.callee).filter p.declares

/-- The names of the declared procedures called by the procedures of one name. -/
def callsOf (p : Program) (n : Name) : List Name :=
  (p.procedures.filter (·.name == n)).flatMap fun q => declaredCalls p q.body

/-- The call graph of a program. -/
def ofProgram (p : Program) : CallGraph where
  order := p.procedures.map Procedure.name
  edges := (p.procedures.map Procedure.name).map fun n => (n, Text.sortDistinct (callsOf p n))
  mainCalls := (p.main.toList.flatMap (declaredCalls p)).eraseDups

/-- The procedures that a procedure calls, in bytewise order. -/
def callees (g : CallGraph) (n : Name) : List Name := (g.edges.lookup n).getD []

/-- Whether a procedure calls itself. -/
def callsSelf (g : CallGraph) (n : Name) : Bool := (g.callees n).contains n

/-- Adds a name and everything reached from it to the names seen, in at most `depth` nested
visits. -/
def visit (g : CallGraph) : Nat → List Name → Name → List Name
  | 0, seen, _ => seen
  | depth + 1, seen, n =>
    if seen.contains n then seen else (g.callees n).foldl (g.visit depth) (n :: seen)

/-- The procedures reached from a procedure by one or more calls. -/
def reachable (g : CallGraph) (n : Name) : List Name :=
  (g.callees n).foldl (g.visit (g.order.length + 1)) []

/-- Whether one procedure reaches another by one or more calls. -/
def reaches (g : CallGraph) (a b : Name) : Bool := (g.reachable a).contains b

/-- Whether a procedure can call itself, directly or through others. -/
def isRecursive (g : CallGraph) (n : Name) : Bool := g.reaches n n

/-- Whether a call from one procedure to another stays on a call cycle. -/
def onCycle (g : CallGraph) (caller callee : Name) : Bool :=
  callee == caller || (g.reaches caller callee && g.reaches callee caller)

/-- The procedures that no other procedure calls, in the order of declaration. -/
def roots (g : CallGraph) : List Name :=
  g.order.filter fun n => !g.order.any fun other => other != n && (g.callees other).contains n

end CallGraph

end PseudoCost
