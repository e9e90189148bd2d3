import PseudoCost.Program
import PseudoCost.Expr.Reading

/-!
# Reading programs

A program is a list of procedures and an optional main body between `begin` and `end`, with further
procedures allowed after the main body. A body may leave out its `begin`. A branch of a conditional
is a block, a single statement on the line of its `then` or `else`, or a list of statements that
the conditional's own `end` closes.

`Program.ofTokens` reads a whole token list. Each round of a loop takes a token, and so does each
nesting of statements, which gives the bounds on both.
-/

namespace PseudoCost

open Reading

/-! ## Loop control -/

/-- What a condition adds to the control found so far. Signs, `not` and the connectives are looked
through from left to right. The first comparison with a bare name on one side settles variable and
bound; until then a bare name standing alone gives the variable. -/
def Control.extend (c : Control) : Expr → Control
  | .name _ n => if c.variableName.isEmpty then { c with variableName := n } else c
  | .unary _ _ operand => c.extend operand
  | .binary _ op lhs rhs =>
    if op = .and ∨ op = .or then
      let left := c.extend lhs
      if left.bound.isNone then left.extend rhs else left
    else if !op.isRelational || c.bound.isSome then c
    else
      match lhs.name?, rhs.name? with
      | some n, _ => ⟨n, some rhs⟩
      | none, some n => ⟨n, some lhs⟩
      | none, none => c
  | _ => c

/-- The control of a loop with the given condition. -/
def Control.ofCondition (cond : Expr) : Control := Control.extend {} cond

namespace Stmt

/-! ## Blocks, over the readers of nested statements -/

/-- A reader of statements up to a token of one of some kinds. -/
abbrev ListReading := List Token.Kind → Reading (List Stmt)

/-- The position of the token in front. -/
def here : Reading Pos := return (← peek).pos

/-- A block between `begin` and `end`. -/
def block (list : ListReading) : Reading Block := do
  let opening ← expect .beginWord "'begin'"
  let stmts ← list [.endWord]
  let close ← here
  let _ ← expect .endWord "'end'"
  return .mk opening.pos true close stmts

/-- The body of a loop or procedure: a block, or statements up to `end`. -/
def body (list : ListReading) : Reading Block := do
  if (← kind) = .beginWord then block list
  else
    let pos ← here
    let stmts ← list [.endWord]
    let close ← here
    let _ ← expect .endWord "'end'"
    return .mk pos false close stmts

/-- A branch of a conditional, after its `then` or `else`, and whether it is complete in itself
rather than closed by the conditional's own `end`. -/
def branch (stmt : Reading Stmt) (list : ListReading) (opener : Token)
    (stops : List Token.Kind) : Reading (Block × Bool) := do
  if (← kind) = .beginWord then return (← block list, true)
  else
    let t ← peek
    if t.pos.line = opener.pos.line ∧ t.kind ∉ [.eof, .endWord, .elseWord] then
      let s ← stmt
      return (.mk opener.pos false (← here) [s], true)
    else
      let stmts ← list stops
      return (.mk opener.pos false (← here) stmts, false)

/-- Statements up to a token of one of some kinds or the end of the input, in fewer than `fuel`
rounds. Semicolons between statements are dropped, and a nested block is replaced by its
statements. -/
def upTo (stmt : Reading Stmt) (nested : Reading Block) (stops : List Token.Kind) :
    Nat → Reading (List Stmt)
  | 0 => exhausted
  | fuel + 1 => do
    skipAll [.semicolon]
    let k ← kind
    if k = .eof ∨ k ∈ stops then return []
    else if k = .beginWord then
      let inner ← nested
      return inner.stmts ++ (← upTo stmt nested stops fuel)
    else
      let s ← stmt
      return s :: (← upTo stmt nested stops fuel)

/-! ## Statements -/

/-- Takes the sign of an assignment, which may be a plain equals sign. -/
def assignSign : Reading Unit := do
  if !(← accept .assign) then
    if !(← accept .equal) then fail "'<-'"

/-- A `for` loop, after its first word. -/
def forStmt (list : ListReading) (pos : Pos) : Reading Stmt := do
  let control ← expect .ident "loop variable"
  assignSign
  let start ← Expr.read
  let descending ← accept .downtoWord
  if !descending then
    let _ ← expect .toWord "'to'"
  let stop ← Expr.read
  let step ← if ← accept .stepWord then some <$> Expr.read else pure none
  let _ ← expect .doWord "'do'"
  return .forLoop pos control.text descending start stop step (← body list)

/-- A `while` loop, after its first word. -/
def whileStmt (list : ListReading) (pos : Pos) : Reading Stmt := do
  let cond ← Expr.read
  let _ ← expect .doWord "'do'"
  return .whileLoop pos (Control.ofCondition cond) cond (← body list)

/-- A `repeat` loop, after its first word. -/
def repeatStmt (list : ListReading) (pos : Pos) : Reading Stmt := do
  let stmts ← list [.untilWord]
  let close ← here
  let _ ← expect .untilWord "'until'"
  let cond ← Expr.read
  return .repeatLoop pos (Control.ofCondition cond) (.mk pos false close stmts) cond

/-- A conditional, after its first word. A conditional directly after `else` owns the closing
`end`. -/
def ifStmt (stmt : Reading Stmt) (list : ListReading) (pos : Pos) : Reading Stmt := do
  let cond ← Expr.read
  let thenToken ← expect .thenWord "'then'"
  let (thenBlock, thenClosed) ← branch stmt list thenToken [.elseWord, .endWord]
  if (← kind) = .elseWord then
    let elseToken ← take
    if (← kind) = .ifWord then
      let inner ← stmt
      return .conditional pos cond thenBlock (some (.mk elseToken.pos false (← here) [inner]))
    else
      let (elseBlock, elseClosed) ← branch stmt list elseToken [.endWord]
      if !elseClosed then
        let _ ← expect .endWord "'end'"
      return .conditional pos cond thenBlock (some elseBlock)
  else
    if !thenClosed then
      let _ ← expect .endWord "'end'"
    return .conditional pos cond thenBlock none

/-- A call statement, after the word `call`. -/
def callStmt (pos : Pos) : Reading Stmt := do
  let t ← Expr.procedureName
  return .call pos t.text true (← Expr.arguments Expr.read true)

/-- A return, after its word. The value must start on the same line. -/
def returnStmt (pos : Pos) : Reading Stmt := do
  let t ← peek
  if t.pos.line = pos.line ∧ Expr.canStart t.kind then return .give pos (some (← Expr.read))
  else return .give pos none

/-- A print statement, after its word. -/
def printStmt (pos : Pos) : Reading Stmt := do
  let args ← if Expr.canStart (← kind) then items Expr.read else pure []
  return .call pos "print" false args

/-- A name with the subscripts and fields after it. -/
def designator (t : Token) : Reading Expr := do
  Expr.accesses Expr.read ((← remaining) + 1) (.name t.pos t.text)

/-- A swap, after its word: a call in parentheses, or two places joined by `with`. -/
def swapStmt (pos : Pos) : Reading Stmt := do
  if (← kind) = .lparen then return .call pos "swap" false (← Expr.arguments Expr.read false)
  else
    let first ← designator (← expect .ident "identifier")
    let _ ← expect .withWord "'with'"
    let second ← designator (← expect .ident "identifier")
    return .call pos "swap" false [first, second]

/-- A call or an assignment, after the name it starts with. -/
def nameStmt (t : Token) : Reading Stmt := do
  if (← kind) = .lparen then return .call t.pos t.text false (← Expr.arguments Expr.read false)
  else
    let target ← designator t
    assignSign
    return .assign t.pos target (← Expr.read)

/-- A statement, over the readers of nested statements. -/
def stmtOver (stmt : Reading Stmt) (list : ListReading) : Reading Stmt := do
  let t ← peek
  match t.kind with
  | .forWord => do let _ ← take; forStmt list t.pos
  | .whileWord => do let _ ← take; whileStmt list t.pos
  | .repeatWord => do let _ ← take; repeatStmt list t.pos
  | .ifWord => do let _ ← take; ifStmt stmt list t.pos
  | .callWord => do let _ ← take; callStmt t.pos
  | .returnWord => do let _ ← take; returnStmt t.pos
  | .printWord => do let _ ← take; printStmt t.pos
  | .swapWord => do let _ ← take; swapStmt t.pos
  | .ident => do let _ ← take; nameStmt t
  | _ => fail "statement"

mutual

/-- A statement, in at most `depth` nested readings. -/
def readWithin : Nat → Reading Stmt
  | 0 => exhausted
  | depth + 1 => stmtOver (readWithin depth) (readList depth)

/-- Statements up to a token of one of some kinds, in at most `depth` nested readings. -/
def readList : Nat → ListReading
  | 0, _ => exhausted
  | depth + 1, stops => do
    upTo (readWithin depth) (block (readList depth)) stops ((← remaining) + 1)

end

/-- Statements up to a token of one of some kinds. -/
def listReading : ListReading := fun stops => do readList (2 * (← remaining) + 2) stops

end Stmt

namespace Procedure

/-! ## Procedures -/

/-- The lexemes up to the bracket that closes `depth` open ones, at most `fuel` of them. -/
def bracketText : Nat → Nat → Reading Text
  | 0, _ => exhausted
  | fuel + 1, depth => do
    if (← kind) = .eof then fail "']'"
    else
      let t ← take
      let left := match t.kind with
        | .lbracket => depth + 1
        | .rbracket => depth - 1
        | _ => depth
      if left = 0 then return t.lexeme else return t.lexeme ++ (← bracketText fuel left)

/-- The array shape after a parameter, kept as text: index ranges in brackets, which `..` may join,
fewer than `fuel` of them. -/
def shapeText : Nat → Reading Text
  | 0 => exhausted
  | fuel + 1 => do
    let joined := (← kind) = .dotDot ∧ (← nextKind) = .lbracket
    if (← kind) = .lbracket ∨ joined then
      let dots : Text := if ← accept .dotDot then ".." else []
      let _ ← expect .lbracket "'['"
      let inner ← bracketText ((← remaining) + 1) 1
      return dots ++ "[" ++ inner ++ (← shapeText fuel)
    else return []

/-- A parameter. -/
def param : Reading Param := do
  let t ← expect .ident "parameter name"
  return ⟨t.text, ← shapeText ((← remaining) + 1)⟩

/-- Whether a procedure starts at the front: at the word, or at a name before a parenthesis. -/
def atStart : Reading Bool := do
  let k ← kind
  return k = .procedureWord ∨ ((k = .ident ∨ k = .swapWord) ∧ (← nextKind) = .lparen)

/-- Reads a procedure. -/
def read : Reading Procedure := do
  let first ← peek
  let _ ← accept .procedureWord
  let t ← Expr.procedureName
  let _ ← expect .lparen "'('"
  let params ← if (← kind) = .rparen then pure [] else items param
  let _ ← expect .rparen "')'"
  return ⟨first.pos, t.text, t.lexeme, params, ← Stmt.body Stmt.listReading⟩

/-- Reads procedures as long as one starts, fewer than `fuel` of them. -/
def readAll : Nat → Reading (List Procedure)
  | 0 => exhausted
  | fuel + 1 => do
    if ← atStart then
      let p ← read
      return p :: (← readAll fuel)
    else return []

end Procedure

namespace Program

/-! ## Programs -/

/-- Reads a program up to the end of the input. -/
def read : Reading Program := do
  let first ← peek
  skipAll [.semicolon]
  let before ← Procedure.readAll ((← remaining) + 1)
  if (← kind) = .beginWord then
    let main ← Stmt.block Stmt.listReading
    skipAll [.semicolon, .dot]
    let after ← Procedure.readAll ((← remaining) + 1)
    if (← kind) ≠ .eof then fail "end of input"
    return ⟨first.pos, before ++ after, some main⟩
  else
    if (← kind) ≠ .eof then
      fail (if before.isEmpty then "'begin' or procedure declaration" else "end of input")
    return ⟨first.pos, before, none⟩

/-- The program a token list spells. -/
def ofTokens (tokens : List Token) : Except Failure Program :=
  (read.run (Token.Cursor.ofTokens tokens)).map Prod.fst

end Program

end PseudoCost
