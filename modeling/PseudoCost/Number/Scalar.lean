import PseudoCost.Number.Exact

/-!
# Scalars

The analysis computes with degrees, bases, divisors and sample values. It is written once, for any
type of scalars, so that the same definitions run in floating point and can be read over exact
numbers. A `Scalar` has the field operations and the order, the few functions the analysis calls
(powers, logarithms, rounding), and the passage from and to exact values, by which literals are
read and results are written.
-/

namespace PseudoCost

/-- A type of numbers the analysis can compute with. -/
class Scalar (R : Type) extends Add R, Sub R, Mul R, Div R, Neg R, LT R, LE R where
  /-- The order is decided. -/
  decideLt : (a b : R) → Decidable (a < b)
  decideLe : (a b : R) → Decidable (a ≤ b)
  /-- The scalar nearest to an exact value. -/
  ofExact : Exact → R
  /-- The exact value of a scalar, from which it is written. -/
  exact : R → Exact
  pow : R → R → R
  /-- The natural logarithm. -/
  ln : R → R
  /-- The logarithm to base two. -/
  log2 : R → R
  floor : R → R
  /-- The nearest whole number, halves going away from zero. -/
  round : R → R
  /-- The golden ratio. -/
  golden : R
  /-- The distance up to which two computed values count as equal. -/
  epsilon : R

namespace Scalar

variable {R : Type} [Scalar R]

instance (a b : R) : Decidable (a < b) := decideLt a b

instance (a b : R) : Decidable (a ≤ b) := decideLe a b

/-! ## Constants -/

/-- An integer as a scalar. -/
def ofInt (i : Int) : R := ofExact (Exact.ofInt i)

/-- A natural number as a scalar. -/
def ofNat (n : Nat) : R := ofInt (Int.ofNat n)

/-- The scalar `n / 10 ^ places`. -/
def ofDecimal (n places : Nat) : R := ofExact (.finite false n (Nat.pow 10 places))

/-- Zero. -/
def zero : R := ofNat 0

/-- One. -/
def one : R := ofNat 1

/-- Two. -/
def two : R := ofNat 2

/-- The distance, one millionth, below which a value is written as the number it is close to. -/
def closeness : R := ofDecimal 1 6

/-! ## Comparisons -/

/-- The absolute value. -/
def abs (a : R) : R := if a < zero then -a else a

/-- The larger of two scalars, the first unless the second is above it. -/
def max (a b : R) : R := if a < b then b else a

/-- The smaller of two scalars, the first unless the second is below it. -/
def min (a b : R) : R := if b < a then b else a

/-- The scalar moved into the interval from `low` to `high`. -/
def clamp (a low high : R) : R := if a < low then low else if high < a then high else a

/-- Whether two scalars are equal in value. -/
def same (a b : R) : Bool := a ≤ b && b ≤ a

/-- Whether two scalars are closer than `epsilon`. -/
def near (a b : R) : Bool := abs (a - b) < epsilon

/-- The order of two scalars, those no further apart than `epsilon` being equal. -/
def order (a b : R) : Ordering :=
  let d := a - b
  if epsilon < d then .gt else if d < -epsilon then .lt else .eq

/-- Whether the scalar is a finite number. -/
def isFinite (a : R) : Bool := (exact a).isFinite

/-- The whole part of a scalar. -/
def toInt (a : R) : Int := (exact a).truncate

/-! ## Texts -/

/-- The bound, ten to the fifteenth, from which a number is no longer written out in digits. -/
def writtenOut : R := ofNat 1000000000000000

/-- A number in a report: whole numbers without a point, others with at most two places, and
numbers too large to write out to four significant digits. -/
def text (a : R) : Text :=
  if !isFinite a || writtenOut ≤ abs a then (exact a).significant 4
  else
    let whole := round a
    if abs (a - whole) < closeness then Text.ofInt (toInt whole)
    else Exact.dropZeros ((exact a).fixed 2)

/-- A sampled value in a report, to four significant digits. -/
def sampleText (a : R) : Text := (exact a).significant 4

end Scalar

end PseudoCost
