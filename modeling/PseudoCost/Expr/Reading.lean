import PseudoCost.Expr
import PseudoCost.Token.Reading

/-!
# Reading expressions

Expressions are read by precedence, from the loosest level to the tightest: ranges, `or`, `and`,
equality, comparison, sums, products, signs and `not`, powers, subscripts and fields, and finally
literals, names, calls and bracketed expressions. The binary levels group to the left; the exponent
of a power is read at the level of signs, so that powers group to the right.

`Expr.read` reads one expression. Each round of a loop takes a token, so the number of tokens left
bounds the rounds; each nesting takes one too, and twice that number bounds the nested readings.
-/

namespace PseudoCost

open Reading

namespace Expr

/-! ## Operators by level -/

/-- The binary levels from the loosest to the tightest, each giving the operator of a token. -/
def levels : List (Token.Kind → Option BinaryOp) :=
  [fun | .orWord => some .or | _ => none,
   fun | .andWord => some .and | _ => none,
   fun | .equal => some .eq | .notEqual => some .ne | _ => none,
   fun
    | .less => some .lt | .lessEqual => some .le | .greater => some .gt | .greaterEqual => some .ge
    | _ => none,
   fun | .plus => some .add | .minus => some .sub | _ => none,
   fun
    | .star => some .mul | .slash => some .div | .divWord => some .intDiv | .modWord => some .mod
    | _ => none]

/-- The operator written before its operand. -/
def signOp? : Token.Kind → Option UnaryOp
  | .minus => some .neg
  | .plus => some .plus
  | .notWord => some .not
  | _ => none

/-- Whether an expression can start with a token of a kind. -/
def canStart : Token.Kind → Bool
  | .number | .string | .trueWord | .falseWord | .nullWord | .lengthWord | .callWord | .ident
  | .lparen | .lceil | .lfloor | .minus | .plus | .notWord => true
  | _ => false

/-! ## Levels -/

/-- Operators of one level with their right operands, fewer than `fuel` of them, applied to what
stands on their left. -/
def chain (op? : Token.Kind → Option BinaryOp) (operand : Reading Expr) :
    Nat → Expr → Reading Expr
  | 0, _ => exhausted
  | fuel + 1, lhs => do
    match op? (← kind) with
    | some op =>
      let t ← take
      let rhs ← operand
      chain op? operand fuel (.binary t.pos op lhs rhs)
    | none => return lhs

/-- One binary level, grouping to the left. -/
def level (op? : Token.Kind → Option BinaryOp) (operand : Reading Expr) : Reading Expr := do
  let lhs ← operand
  chain op? operand ((← remaining) + 1) lhs

/-- All binary levels over an operand. -/
def binaryLevels (operand : Reading Expr) : Reading Expr := levels.foldr level operand

/-- A range, or what stands below it. -/
def rangeLevel (operand : Reading Expr) : Reading Expr := do
  let low ← operand
  if (← kind) = .dotDot then
    let t ← take
    let high ← operand
    return .range t.pos low high
  else return low

/-! ## Subscripts, fields and calls -/

/-- Subscripts and fields after a base, fewer than `fuel` of them. Several subscripts in one pair of
brackets are the same as one pair for each. -/
def accesses (expr : Reading Expr) : Nat → Expr → Reading Expr
  | 0, _ => exhausted
  | fuel + 1, base => do
    match ← kind with
    | .lbracket =>
      let t ← take
      let subscripts ← items expr
      let _ ← expect .rbracket "']'"
      accesses expr fuel (subscripts.foldl (fun b i => .index t.pos b i) base)
    | .dot =>
      let next ← nextKind
      if next = .ident ∨ next = .lengthWord then
        let t ← take
        let f ← take
        accesses expr fuel (.field t.pos base f.text)
      else return base
    | _ => return base

/-- The arguments of a call in parentheses. A call written with the word `call` may leave out the
parentheses when it has no arguments. -/
def arguments (expr : Reading Expr) (explicit : Bool) : Reading (List Expr) := do
  if explicit && (← kind) != .lparen then return []
  let _ ← expect .lparen "'('"
  let args ← if (← kind) = .rparen then pure [] else items expr
  let _ ← expect .rparen "')'"
  return args

/-- The name of a procedure. The word `swap` is a statement and also a common procedure name. -/
def procedureName : Reading Token := do
  if (← kind) = .swapWord then take else expect .ident "procedure name"

/-- A call, after the word `call`. -/
def explicitCall (expr : Reading Expr) (pos : Pos) : Reading Expr := do
  let t ← procedureName
  return .call pos t.text true (← arguments expr true)

/-- An expression between rounding brackets, after the opening one. -/
def rounded (expr : Reading Expr) (pos : Pos) (op : UnaryOp) (closing : Token.Kind)
    (expected : Text) : Reading Expr := do
  let inner ← expr
  let _ ← expect closing expected
  return .unary pos op inner

/-- A literal, a name, a call, or an expression in brackets. -/
def primary (expr : Reading Expr) : Reading Expr := do
  let t ← peek
  match t.kind with
  | .number =>
    let _ ← take
    match Numeral.read t.text with
    | .ok value => return .number t.pos value
    | .error e => throw (.numeral e)
  | .string => do let _ ← take; return .string t.pos t.text
  | .trueWord => do let _ ← take; return .bool t.pos true
  | .falseWord => do let _ ← take; return .bool t.pos false
  | .nullWord => do let _ ← take; return .null t.pos
  | .lengthWord => do let _ ← take; return .call t.pos "length" false (← arguments expr false)
  | .callWord => do let _ ← take; explicitCall expr t.pos
  | .ident =>
    let _ ← take
    if (← kind) = .lparen then return .call t.pos t.text false (← arguments expr false)
    else return .name t.pos t.text
  | .lparen =>
    let _ ← take
    let inner ← expr
    let _ ← expect .rparen "')'"
    return inner
  | .lceil => do let _ ← take; rounded expr t.pos .ceil .rceil "'⌉'"
  | .lfloor => do let _ ← take; rounded expr t.pos .floor .rfloor "'⌋'"
  | _ => fail "expression"

/-- A power, or its base alone. -/
def powerLevel (expr sign : Reading Expr) : Reading Expr := do
  let base ← accesses expr ((← remaining) + 1) (← primary expr)
  if (← kind) = .caret then
    let t ← take
    let exponent ← sign
    return .binary t.pos .pow base exponent
  else return base

mutual

/-- An expression, in at most `depth` nested readings. -/
def readWithin : Nat → Reading Expr
  | 0 => exhausted
  | depth + 1 => rangeLevel (binaryLevels (readSign depth))

/-- An expression at the level of signs. -/
def readSign : Nat → Reading Expr
  | 0 => exhausted
  | depth + 1 => do
    match signOp? (← kind) with
    | some op =>
      let t ← take
      let operand ← readSign depth
      return .unary t.pos op operand
    | none => powerLevel (readWithin depth) (readSign depth)

end

/-- Reads an expression. -/
def read : Reading Expr := do readWithin (2 * (← remaining) + 2)

end Expr

end PseudoCost
