import PseudoCost.Program
import PseudoCost.Expr.Printer
import PseudoCost.Growth

/-!
# How often a loop runs

A loop is classified by the progress its control makes. A `for` loop is linear when a bound
mentions a name other than its control variable, and constant otherwise; it is unresolved when its
body assigns the control variable. A `while` or `repeat` loop is judged by the assignments that its
body makes to the variables of its condition: dividing or multiplying a variable by more than one,
or setting it to a midpoint, is geometric; adding or subtracting is a step; a truth value is a flag;
anything else is unclear.
-/

namespace PseudoCost

/-- The progress a loop makes towards its end. -/
inductive Progress where
  | constant | linear | logarithmic | flagControlled | unresolved
deriving Repr, DecidableEq

namespace Progress

/-- The name of a progress in a report. -/
def text : Progress → Text
  | .constant => "constant"
  | .linear => "linear"
  | .logarithmic => "logarithmic"
  | .flagControlled => "flag-controlled"
  | .unresolved => "unresolved"

/-- The number of iterations; where the progress is not known, as many as the input size. -/
def iterations {R : Type} [Scalar R] : Progress → Growth R
  | .constant => Growth.constant
  | .logarithmic => Growth.logarithmic
  | _ => Growth.linear

end Progress

/-- What is known about a loop: its progress, whether it can be left early, and why. -/
structure LoopShape where
  progress : Progress
  earlyExit : Bool
  detail : Text
deriving Repr, DecidableEq

namespace LoopShape

/-! ## Updates of a condition variable -/

/-- What an assignment does to a condition variable. -/
inductive Update where
  | halving
  | doubling
  | midpoint
  | step (increasing : Bool)
  | flag
  | unclear
deriving Repr, DecidableEq

/-- Whether an expression is a literal above one. -/
def isFactor (e : Expr) : Bool := e.number?.any (Exact.exceeds 1)

/-- A sum or difference assigned to a variable. -/
def Update.ofSum (var : Name) (midpoints : List Name) (op : BinaryOp) (lhs rhs : Expr) : Update :=
  if lhs.name?.any (midpoints.contains ·) && rhs.number?.isSome then .midpoint
  else if lhs.isName var && !rhs.mentions var then
    match op, rhs.number? with
    | .add, some amount => .step (amount.exceeds 0)
    | .add, none => .step true
    | _, some amount => .step amount.isNegative
    | _, none => .step false
  else if op == .add && rhs.isName var && !lhs.mentions var then
    .step ((lhs.number?.map (Exact.exceeds 0)).getD true)
  else .unclear

/-- What assigning a value does to a variable, given the names that hold midpoints. -/
def Update.classify (var : Name) (midpoints : List Name) (value : Expr) : Update :=
  match value.unrounded with
  | .bool .. => .flag
  | .name _ n => if midpoints.contains n then .midpoint else .unclear
  | .binary _ op lhs rhs =>
    match op with
    | .div | .intDiv => if lhs.isName var && isFactor rhs then .halving else .unclear
    | .mul =>
      if lhs.isName var then (if isFactor rhs then .doubling else .unclear)
      else if rhs.isName var && isFactor lhs then .doubling
      else .unclear
    | .add | .sub => Update.ofSum var midpoints op lhs rhs
    | _ => .unclear
  | _ => .unclear

/-- Whether the update changes a variable by a factor. -/
def Update.isGeometric : Update → Bool
  | .halving | .doubling | .midpoint => true
  | _ => false

/-- Whether the update changes a variable by a step. -/
def Update.isStep : Update → Bool
  | .step _ => true
  | _ => false

/-- Whether the update makes a variable larger. -/
def Update.isIncreasing : Update → Bool
  | .doubling | .step true => true
  | _ => false

/-! ## Loops -/

/-- The line of an assignment in a report. -/
def lineText (pos : Pos) : Text := "(line " ++ Text.ofInt pos.line ++ ")"

/-- The shape of a `for` loop. -/
def ofFor (control : Name) (descending : Bool) (start stop : Expr) (body : Block) : LoopShape :=
  let earlyExit := body.hasConditionalReturn
  match body.assignments.find? (·.target.isName control) with
  | some a =>
    ⟨.unresolved, earlyExit,
      "control variable '" ++ control ++ "' reassigned in body " ++ lineText a.pos⟩
  | none =>
    if (start.names ++ stop.names).all (· == control) then
      ⟨.constant, earlyExit, "for " ++ control ++ " runs a constant number of times"⟩
    else
      ⟨.linear, earlyExit,
        "for " ++ control ++ " from " ++ start.text
          ++ (if descending then " downto " else " to " : Text) ++ stop.text⟩

/-- Whether an expression has neither names nor calls in it. -/
def isLiteralOnly (e : Expr) : Bool := e.names.isEmpty && e.calls.isEmpty

/-- The names that a block sets to a midpoint. -/
def midpointsOf (assignments : List Assignment) : List Name :=
  assignments.filterMap fun a => if a.value.isMidpoint then a.target.name? else none

/-- The assignments to variables of a condition, each with the variable and what it does to it. -/
def updates (cond : Expr) (assignments : List Assignment) : List (Assignment × Name × Update) :=
  let midpoints := midpointsOf assignments
  assignments.filterMap fun a =>
    match a.target.name? with
    | some n =>
      if cond.mentions n then some (a, n, Update.classify n midpoints a.value) else none
    | none => none

/-- The shape of a loop with a condition. An unclear update decides against the loop; a control
variable that climbs to a bound without names makes it constant; otherwise geometric change comes
before steps, and steps before flags. -/
def ofCondition (control : Control) (cond : Expr) (body : Block) : LoopShape :=
  let found := updates cond body.assignments
  let any (p : Update → Bool) : Bool := found.any fun (_, _, u) => p u
  let climbs := found.any fun (_, n, u) => n == control.variableName && u.isIncreasing
  let earlyExit := body.hasConditionalReturn || any (· == .flag)
  match found.find? fun (_, _, u) => u == .unclear with
  | some (a, _, _) =>
    ⟨.unresolved, earlyExit,
      "cannot classify update '" ++ a.target.text ++ " <- " ++ a.value.text ++ "' "
        ++ lineText a.pos⟩
  | none =>
    match control.bound.filter fun bound => climbs && isLiteralOnly bound with
    | some bound =>
      ⟨.constant, earlyExit,
        control.variableName ++ " climbs to the constant bound " ++ bound.text⟩
    | none =>
      if any Update.isGeometric then
        ⟨.logarithmic, earlyExit, "condition variables shrink or grow geometrically"⟩
      else if any Update.isStep then
        ⟨.linear, earlyExit, "condition variables change by a fixed step"⟩
      else if any (· == .flag) then
        ⟨.flagControlled, earlyExit,
          "loop ends when a flag stops being set; at most n passes assumed"⟩
      else ⟨.unresolved, earlyExit, "no update to the loop condition variables"⟩

end LoopShape

/-- The body, if the statement is a loop. -/
def Stmt.loopBody? : Stmt → Option Block
  | .forLoop _ _ _ _ _ _ body => some body
  | .whileLoop _ _ _ body => some body
  | .repeatLoop _ _ body _ => some body
  | _ => none

/-- Whether the statement is a loop. -/
def Stmt.isLoop (s : Stmt) : Bool := s.loopBody?.isSome

/-- What is known about a loop. -/
def Stmt.loopShape : Stmt → LoopShape
  | .forLoop _ control descending start stop _ body =>
    LoopShape.ofFor control descending start stop body
  | .whileLoop _ control cond body => LoopShape.ofCondition control cond body
  | .repeatLoop _ control body cond => LoopShape.ofCondition control cond body
  | _ => ⟨.constant, false, "not a loop"⟩

end PseudoCost
