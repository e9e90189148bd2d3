import PseudoCost.Program
import PseudoCost.Growth

/-!
# How a self-call changes the size

A recursive call works on a smaller problem: one that is smaller by an amount, a fraction of the
size, or one side of a split at a point that is not known. The change is read off the arguments,
each compared with the parameter at its place. A division beats a midpoint, a midpoint beats a
split, and a split beats an offset; other parameters, literals and unrelated names do not matter.

The locals of the procedure count by how they are assigned: as a midpoint, as a fraction of
another name, or from a call or an array element, in which case the split point is unknown.
-/

namespace PseudoCost

/-- The kinds of change. -/
inductive ChangeKind where
  | subtract | divide | split | same | unknown
deriving Repr, DecidableEq

/-- A change of the problem size: its kind, and the amount taken off or divided by. -/
structure SizeChange (R : Type) where
  kind : ChangeKind
  amount : R
deriving Repr, DecidableEq

namespace SizeChange

variable {R : Type} [Scalar R]

/-- The size less an amount. -/
def subtract (k : R) : SizeChange R := ⟨.subtract, k⟩

/-- The size divided by an amount. -/
def divide (b : R) : SizeChange R := ⟨.divide, b⟩

/-- One side of an unknown split. -/
def split : SizeChange R := ⟨.split, Scalar.two⟩

/-- The size unchanged. -/
def same : SizeChange R := ⟨.same, Scalar.one⟩

/-- A change that could not be read. -/
def unknown : SizeChange R := ⟨.unknown, Scalar.one⟩

/-- Whether the problem becomes smaller. -/
def shrinks (c : SizeChange R) : Bool :=
  match c.kind with
  | .subtract | .divide | .split => true
  | .same | .unknown => false

/-- The argument of a recursive term in a report. -/
def label (c : SizeChange R) : Text :=
  match c.kind with
  | .subtract => "n-" ++ Scalar.text c.amount
  | .divide => "n/" ++ Scalar.text c.amount
  | .split => "k"
  | .same => "n"
  | .unknown => "n'"

/-- The changed size; a split counts as balanced. -/
def apply (c : SizeChange R) (n : R) : R :=
  match c.kind with
  | .subtract => n - c.amount
  | .divide => n / c.amount
  | .split => n / Scalar.two
  | .same | .unknown => n

/-- Whether two changes count as equal; amounts matter only where they are used. -/
def agrees (c d : SizeChange R) : Bool :=
  c.kind == d.kind &&
    match c.kind with
    | .subtract | .divide => Scalar.near c.amount d.amount
    | _ => true

end SizeChange

/-! ## Locals -/

/-- What a procedure's assignments say about its locals. -/
structure SizeFacts where
  /-- The locals set to a midpoint. -/
  midpoints : List Name := []
  /-- The locals set from a call or an array element. -/
  splits : List Name := []
  /-- The locals set to a fraction: the name divided and the divisor, the latest first. -/
  fractions : List (Name × Name × Exact) := []
deriving Repr, DecidableEq

namespace SizeFacts

/-- The name and the divisor, if an expression divides a name by a literal above one. -/
def fraction? (e : Expr) : Option (Name × Exact) :=
  match e.unrounded with
  | .binary _ op lhs rhs =>
    match lhs.name?, rhs.number? with
    | some n, some c => if op.isDivision && c.exceeds 1 then some (n, c) else none
    | _, _ => none
  | _ => none

/-- Whether an expression is an array element, apart from rounding. -/
def isElement (e : Expr) : Bool :=
  match e.unrounded with
  | .index .. => true
  | _ => false

/-- Adds what an assignment says. Assignments to parameters say nothing about locals. -/
def add (p : Procedure) (facts : SizeFacts) (a : Assignment) : SizeFacts :=
  match a.target.name?.filter (!p.hasParam ·) with
  | none => facts
  | some n =>
    if a.value.isMidpoint then { facts with midpoints := n :: facts.midpoints }
    else
      match fraction? a.value with
      | some (source, c) => { facts with fractions := (n, source, c) :: facts.fractions }
      | none =>
        if !a.value.calls.isEmpty || isElement a.value then
          { facts with splits := n :: facts.splits }
        else facts

/-- What the assignments of a procedure say. -/
def ofProcedure (p : Procedure) : SizeFacts := p.body.assignments.foldl (add p) {}

end SizeFacts

/-! ## Arguments -/

/-- An argument compared with the parameter at its place. -/
inductive ArgShape where
  | same
  | offset (amount : Exact)
  | divided (amount : Exact)
  | midpoint
  | split
  | other
  | unrelated
deriving Repr, DecidableEq

namespace ArgShape

/-- A bare name as an argument. -/
def ofName (p : Procedure) (facts : SizeFacts) (param n : Name) : ArgShape :=
  if n = param then .same
  else if facts.midpoints.contains n then .midpoint
  else if facts.splits.contains n then .split
  else
    match (facts.fractions.lookup n).filter (·.1 == param) with
    | some (_, c) => .divided c
    | none => if p.hasParam n then .unrelated else .other

/-- An expression that is compared only by whether it mentions the parameter. -/
def ofMention (param : Name) (e : Expr) : ArgShape :=
  if e.mentions param then .other else .unrelated

/-- A shape with a literal added or taken away. -/
def shifted (amount : Exact) : ArgShape → ArgShape
  | .same => .offset (Exact.larger (.finite false 0 1) amount.magnitude)
  | .offset inner => .offset (Exact.larger inner amount.magnitude)
  | shape => shape

/-- Whether taking something unknown away from the shape leaves an unknown split. -/
def leavesSplit : ArgShape → Bool
  | .same | .offset _ | .split => true
  | _ => false

/-- The divisor, if a quotient divides the parameter by a literal above one. -/
def divisor? (param : Name) (op : BinaryOp) (lhs rhs : Expr) : Option Exact :=
  rhs.number?.filter fun c => op.isDivision && c.exceeds 1 && lhs.unrounded.isName param

/-- Compares an argument with the parameter at its place. -/
def classify (p : Procedure) (facts : SizeFacts) (param : Name) : Expr → ArgShape
  | .name _ n => ofName p facts param n
  | .unary pos op operand =>
    if op.isRounding then classify p facts param operand
    else ofMention param (.unary pos op operand)
  | .binary pos op lhs rhs =>
    let whole : ArgShape :=
      match divisor? param op lhs rhs with
      | some c => .divided c
      | none => ofMention param (.binary pos op lhs rhs)
    match op with
    | .add =>
      match rhs.number?, lhs.number? with
      | some c, _ => (classify p facts param lhs).shifted c
      | none, some c => (classify p facts param rhs).shifted c
      | none, none => whole
    | .sub =>
      match rhs.number? with
      | some c => (classify p facts param lhs).shifted c
      | none => if (classify p facts param lhs).leavesSplit then .split else whole
    | _ => whole
  | e => ofMention param e

/-- The divisor of a shape, if it is a division. -/
def divided? : ArgShape → Option Exact
  | .divided c => some c
  | _ => none

/-- The amount of a shape, if it is an offset. -/
def offset? : ArgShape → Option Exact
  | .offset c => some c
  | _ => none

end ArgShape

namespace SizeChange

variable {R : Type} [Scalar R]

/-- The largest of some values, if there are any. -/
def largest? : List Exact → Option Exact
  | [] => none
  | x :: xs => some (xs.foldl Exact.larger x)

/-- The change that the shapes of all arguments amount to. -/
def ofShapes (shapes : List ArgShape) : SizeChange R :=
  match largest? (shapes.filterMap ArgShape.divided?) with
  | some c => divide (Scalar.ofExact c)
  | none =>
    if shapes.contains .midpoint then divide Scalar.two
    else if shapes.contains .split then split
    else
      match (largest? (shapes.filterMap ArgShape.offset?)).filter (Exact.exceeds 0) with
      | some c => subtract (Scalar.ofExact c)
      | none => if shapes.contains .other then unknown else same

/-- The change of size that a self-call makes, given what is known of the procedure's locals. -/
def ofCall (p : Procedure) (facts : SizeFacts) (call : Call) : SizeChange R :=
  ofShapes (List.zipWith (fun q e => ArgShape.classify p facts q.name e) p.params call.args)

end SizeChange

end PseudoCost
