import PseudoCost.Recurrence

/-!
# The master theorem

The bound of `T(n) = a T(n / b) + f(n)` for a polynomial-logarithmic `f`. The degree of `f` is
compared with the critical exponent `log_b a`: below it the leaves of the recursion dominate, at it
every level costs the same and the logarithm rises by one power, above it the root dominates.
-/

namespace PseudoCost.Recurrence

/-- Which part of the recursion dominates. -/
inductive MasterCase where
  | leaves | levels | root
deriving Repr, DecidableEq

/-- The number of a case in a report. -/
def MasterCase.number : MasterCase → Nat
  | .leaves => 1
  | .levels => 2
  | .root => 3

variable {R : Type} [Scalar R]

/-- The exponent `log_b a` of the number of leaves. -/
def criticalExponent (a b : R) : R := Scalar.ln a / Scalar.ln b

/-- The case of `T(n) = a T(n / b) + n ^ d …`. -/
def masterCase (a b d : R) : MasterCase :=
  let c := criticalExponent a b
  if d < c - Scalar.epsilon then .leaves
  else if Scalar.abs (d - c) ≤ Scalar.epsilon then .levels
  else .root

/-- The bound of `T(n) = a T(n / b) + f(n)` in a case. -/
def MasterCase.bound (a b : R) (f : Growth R) : MasterCase → Growth R
  | .leaves => Growth.polynomial (criticalExponent a b) 0
  | .levels => Growth.polynomial (criticalExponent a b) (f.logPower + 1)
  | .root => Growth.polynomial f.degree f.logPower

/-- The bound of `T(n) = a T(n / b) + f(n)`. -/
def masterBound (a b : R) (f : Growth R) : Growth R := (masterCase a b f.degree).bound a b f

end PseudoCost.Recurrence
