import PseudoCost.Recurrence

/-!
# The characteristic equation

The growth rate of `T(n) = Σ aᵢ T(n - kᵢ)` is the root above one of `1 = Σ aᵢ x ^ (-kᵢ)`. It is
found by halving an interval that encloses it, from one to one more than the number of calls.
-/

namespace PseudoCost.Recurrence

variable {R : Type} [Scalar R]

/-- By how much `Σ aᵢ x ^ (-kᵢ)` exceeds one. -/
def excess (terms : List (Term R)) (x : R) : R :=
  terms.foldl (fun sum t =>
    sum + Scalar.ofInt t.multiplicity * Scalar.pow x (-t.change.amount)) Scalar.zero - Scalar.one

/-- An interval of scalars. -/
structure Bracket (R : Type) where
  low : R
  high : R
deriving Repr, DecidableEq

namespace Bracket

/-- The middle of an interval. -/
def middle (b : Bracket R) : R := (b.low + b.high) / Scalar.two

/-- The half of an interval in which a decreasing function changes its sign. -/
def halve (g : R → R) (b : Bracket R) : Bracket R :=
  if Scalar.zero < g b.middle then ⟨b.middle, b.high⟩ else ⟨b.low, b.middle⟩

end Bracket

/-- The interval in which the root is looked for. -/
def startBracket (terms : List (Term R)) : Bracket R :=
  ⟨Scalar.one,
    terms.foldl (fun sum t => sum + Scalar.ofInt t.multiplicity) Scalar.zero + Scalar.one⟩

/-- The interval after some halvings. -/
def bracketAfter (terms : List (Term R)) (steps : Nat) : Bracket R :=
  Nat.repeat (Bracket.halve (excess terms)) steps (startBracket terms)

/-- The growth rate of the recurrence with the given terms, after two hundred halvings. -/
def dominantRoot (terms : List (Term R)) : R := (bracketAfter terms 200).middle

end PseudoCost.Recurrence
