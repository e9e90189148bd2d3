import PseudoCost.Token
import PseudoCost.Number.Exact

/-!
# Expressions

The expressions of the dialect, each with the position of the token that introduced it, and the
views of an expression on which the analyses are built: its subterms in reading order, the calls
and the names among them, and a few shapes (a bare name, a signed literal, a midpoint).
-/

namespace PseudoCost

/-! ## Operators -/

/-- The operators with two operands. -/
inductive BinaryOp where
  | add | sub | mul | div | intDiv | mod | pow | eq | ne | lt | le | gt | ge | and | or
deriving Repr, DecidableEq

namespace BinaryOp

/-- The canonical spelling of an operator. -/
def text : BinaryOp → Text
  | .add => "+"
  | .sub => "-"
  | .mul => "*"
  | .div => "/"
  | .intDiv => "div"
  | .mod => "mod"
  | .pow => "^"
  | .eq => "="
  | .ne => "<>"
  | .lt => "<"
  | .le => "<="
  | .gt => ">"
  | .ge => ">="
  | .and => "and"
  | .or => "or"

/-- Whether the operator compares its operands. -/
def isRelational : BinaryOp → Bool
  | .eq | .ne | .lt | .le | .gt | .ge => true
  | _ => false

/-- Whether the operator divides. -/
def isDivision : BinaryOp → Bool
  | .div | .intDiv => true
  | _ => false

/-- The comparison that holds exactly when the given one does not. -/
def complement : BinaryOp → BinaryOp
  | .lt => .ge
  | .le => .gt
  | .gt => .le
  | .ge => .lt
  | .eq => .ne
  | .ne => .eq
  | op => op

end BinaryOp

/-- The operators with one operand; the last two are the brackets that round up and down. -/
inductive UnaryOp where
  | neg | plus | not | ceil | floor
deriving Repr, DecidableEq

namespace UnaryOp

/-- The name of an operator in a listing. -/
def text : UnaryOp → Text
  | .neg => "-"
  | .plus => "+"
  | .not => "not"
  | .ceil => "ceil"
  | .floor => "floor"

/-- Whether the operator rounds its operand. -/
def isRounding : UnaryOp → Bool
  | .ceil | .floor => true
  | _ => false

end UnaryOp

/-! ## Expressions -/

/-- An expression. A call remembers whether it was written with the word `call`. -/
inductive Expr where
  | number (pos : Pos) (value : Exact)
  | string (pos : Pos) (value : Text)
  | bool (pos : Pos) (value : Bool)
  | null (pos : Pos)
  | name (pos : Pos) (name : Name)
  | call (pos : Pos) (callee : Name) (explicit : Bool) (args : List Expr)
  | index (pos : Pos) (base subscript : Expr)
  | field (pos : Pos) (base : Expr) (field : Name)
  | range (pos : Pos) (low high : Expr)
  | binary (pos : Pos) (op : BinaryOp) (lhs rhs : Expr)
  | unary (pos : Pos) (op : UnaryOp) (operand : Expr)

namespace Expr

mutual

/-- The expression and all its subterms, each before its own parts, in reading order. -/
def subterms : Expr → List Expr
  | .number pos value => [.number pos value]
  | .string pos value => [.string pos value]
  | .bool pos value => [.bool pos value]
  | .null pos => [.null pos]
  | .name pos n => [.name pos n]
  | .call pos callee explicit args => .call pos callee explicit args :: subtermsOf args
  | .index pos base subscript => .index pos base subscript :: (base.subterms ++ subscript.subterms)
  | .field pos base f => .field pos base f :: base.subterms
  | .range pos low high => .range pos low high :: (low.subterms ++ high.subterms)
  | .binary pos op lhs rhs => .binary pos op lhs rhs :: (lhs.subterms ++ rhs.subterms)
  | .unary pos op operand => .unary pos op operand :: operand.subterms

/-- The subterms of several expressions. -/
def subtermsOf : List Expr → List Expr
  | [] => []
  | e :: es => e.subterms ++ subtermsOf es

end

/-- The name, if the expression is a bare one. -/
def name? : Expr → Option Name
  | .name _ n => some n
  | _ => none

/-- Whether the expression is the given bare name. -/
def isName (n : Name) (e : Expr) : Bool := e.name? == some n

/-- The value of a literal, possibly under minus signs. -/
def number? : Expr → Option Exact
  | .number _ value => some value
  | .unary _ .neg operand => operand.number?.map Exact.negate
  | _ => none

/-- The expression without the rounding brackets around it. -/
def unrounded : Expr → Expr
  | .unary pos op operand => if op.isRounding then operand.unrounded else .unary pos op operand
  | e => e

/-- Whether the expression is a literal of value two. -/
def isTwo (e : Expr) : Bool := e.number? == some (.finite false 2 1)

/-- Whether the expression applies a binary operator of a kind. -/
def applies (p : BinaryOp → Bool) : Expr → Bool
  | .binary _ op _ _ => p op
  | _ => false

/-- Whether the expression is the half of something, and what it is the half of. -/
def halved? : Expr → Option Expr
  | .binary _ op lhs rhs => if op.isDivision && rhs.isTwo then some lhs else none
  | _ => none

/-- Whether the expression is a midpoint: half of a sum, or something plus half of a difference,
with rounding brackets around the whole and around the half. -/
def isMidpoint (e : Expr) : Bool :=
  match e.unrounded.halved? with
  | some whole => whole.applies (· == .add)
  | none =>
    match e.unrounded with
    | .binary _ .add _ half => half.unrounded.halved?.any fun whole => whole.applies (· == .sub)
    | _ => false

end Expr

/-! ## Calls and names -/

/-- A call that stands in an expression or is a statement of its own. -/
structure Call where
  pos : Pos
  callee : Name
  args : List Expr

namespace Expr

/-- The call, if the expression is one. -/
def call? : Expr → Option Call
  | .call pos callee _ args => some ⟨pos, callee, args⟩
  | _ => none

/-- The calls in an expression, each before those among its arguments. -/
def calls (e : Expr) : List Call := e.subterms.filterMap call?

/-- The names in an expression, in reading order. -/
def names (e : Expr) : List Name := e.subterms.filterMap name?

/-- Whether the expression mentions a name. -/
def mentions (e : Expr) (n : Name) : Bool := e.names.contains n

end Expr

end PseudoCost
