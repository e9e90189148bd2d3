import PseudoCost.Token

/-!
# Looking around in a token list

A stream holds a whole token list and the position of the token to be read next. Positions and
distances are words of 64 bits, so a distance is added modulo `2 ^ 64`: one close to the modulus
looks back at tokens that have been read. Every position past the end shows the last token, and
reading stops there.
-/

namespace PseudoCost.Token

/-- A token list and the position of the token to be read next. -/
structure Stream where
  tokens : List Token
  position : UInt64 := 0
deriving Repr, DecidableEq

namespace Stream

/-- The number of tokens, those already read included. -/
def count (s : Stream) : Nat := s.tokens.length

/-- The token at a position; past the end, the last one. -/
def tokenAt (s : Stream) (i : UInt64) : Token := s.tokens[i.toNat]?.getD (s.tokens.getLastD {})

/-- The token some distance from the one to be read next. -/
def peek (s : Stream) (distance : UInt64) : Token := s.tokenAt (s.position + distance)

/-- The token to be read next. -/
def next (s : Stream) : Token := s.peek 0

/-- The stream after the token to be read next; it stays at the last token. -/
def advance (s : Stream) : Stream :=
  if s.position.toNat + 1 < s.count then { s with position := s.position + 1 } else s

end Stream

end PseudoCost.Token
