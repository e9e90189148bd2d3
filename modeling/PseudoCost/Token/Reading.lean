import PseudoCost.Token.Cursor
import PseudoCost.Number.Numeral

/-!
# Reading from a cursor

A `Reading` takes tokens from the front of a cursor and either gives a value or fails. A mismatch
says what was expected and keeps the cursor at which it was met, so that the token at fault is the
one next to be read there. Nothing is ever put back.

Nothing but the tokens bounds a loop or a nesting of readings, so each of them runs on a bound that
its caller computes from the number of tokens left. To use a bound up is a failure of its own, apart
from every mismatch.
-/

namespace PseudoCost

/-- Why tokens could not be read. -/
inductive Failure where
  /-- Something else was expected at the front of the cursor. -/
  | mismatch (expected : Text) (cursor : Token.Cursor)
  /-- A number token has no usable value. -/
  | numeral (error : Numeral.Error)
  /-- The bound on the rounds of a loop or on nested readings was used up. -/
  | exhausted
deriving Repr, DecidableEq

namespace Failure

/-- Where the failure is, if it has a place: at the token that did not match. -/
def pos? : Failure → Option Pos
  | .mismatch _ c => some c.peek.pos
  | .numeral _ | .exhausted => none

/-- What is wrong, without the place. -/
def detail : Failure → Text
  | .mismatch expected c => "expected " ++ expected ++ ", found " ++ c.peek.describe
  | .numeral _ => "stod"
  | .exhausted => "nesting too deep"

end Failure

/-- A reader of tokens. -/
abbrev Reading (α : Type) := StateT Token.Cursor (Except Failure) α

namespace Reading

variable {α : Type}

/-- Fails, naming what was expected instead of the token in front. -/
def fail (expected : Text) : Reading α := fun c => .error (.mismatch expected c)

/-- Fails because a bound is used up. -/
def exhausted : Reading α := throw .exhausted

/-- The number of tokens left. -/
def remaining : Reading Nat := return (← get).rest.length

/-- The token in front. -/
def peek : Reading Token := return (← get).peek

/-- The kind of the token in front. -/
def kind : Reading Token.Kind := return (← get).kind

/-- The kind of the token after the one in front. -/
def nextKind : Reading Token.Kind := return (← get).nextKind

/-- Takes the token in front. -/
def take : Reading Token := modifyGet fun c => (c.peek, c.advance)

/-- Takes the token in front if it has the given kind. -/
def accept (k : Token.Kind) : Reading Bool := do
  if (← kind) = k then
    let _ ← take
    return true
  else return false

/-- Takes the token in front, which must have the given kind. -/
def expect (k : Token.Kind) (expected : Text) : Reading Token := do
  if (← kind) = k then take else fail expected

/-- Takes all tokens of some kinds that stand in front, in fewer than `fuel` rounds. -/
def skipWithin (kinds : List Token.Kind) : Nat → Reading Unit
  | 0 => exhausted
  | fuel + 1 => do
    if (← kind) ∈ kinds then
      let _ ← take
      skipWithin kinds fuel

/-- Takes all tokens of some kinds that stand in front. -/
def skipAll (kinds : List Token.Kind) : Reading Unit := do skipWithin kinds ((← remaining) + 1)

/-- The items after the first of a list separated by commas, fewer than `fuel` of them. -/
def moreItems (item : Reading α) : Nat → Reading (List α)
  | 0 => exhausted
  | fuel + 1 => do
    if ← accept .comma then
      let x ← item
      return x :: (← moreItems item fuel)
    else return []

/-- One or more items separated by commas. -/
def items (item : Reading α) : Reading (List α) := do
  let first ← item
  return first :: (← moreItems item ((← remaining) + 1))

end Reading

end PseudoCost
