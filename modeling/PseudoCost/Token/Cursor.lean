import PseudoCost.Token

/-!
# Reading tokens one by one

A cursor stands somewhere in a token list. It holds the tokens still to be read and the token that
ends the input, which is seen for ever once the others are used up. Reading only moves forward.
-/

namespace PseudoCost.Token

/-- The tokens still to be read, none of them of kind `eof`, and the token that ends them. -/
structure Cursor where
  rest : List Token
  stop : Token
deriving Repr, DecidableEq

namespace Cursor

/-- Reads a token list up to its first `eof` token. A list without one ends in an `eof` token at
the start of the source. -/
def ofTokens (tokens : List Token) : Cursor :=
  ⟨tokens.takeWhile (·.kind != .eof), (tokens.find? (·.kind == .eof)).getD {}⟩

/-- The token `k` places ahead. -/
def peekAt (c : Cursor) (k : Nat) : Token := c.rest[k]?.getD c.stop

/-- The token to be read next. -/
def peek (c : Cursor) : Token := c.peekAt 0

/-- The kind of the token to be read next. -/
def kind (c : Cursor) : Kind := c.peek.kind

/-- The kind of the token after that. -/
def nextKind (c : Cursor) : Kind := (c.peekAt 1).kind

/-- The cursor after the token to be read next; it stays at the end of the input. -/
def advance (c : Cursor) : Cursor := { c with rest := c.rest.tail }

end Cursor

end PseudoCost.Token
