import PseudoCost.Number.Exact

/-!
# Rounding to double precision

A positive ratio keeps 53 binary digits, fewer only below the smallest normal value, and is rounded
to the nearest such number, a tie going to the even one. The result is a natural number times a
power of two, so the rounded value is exact again.
-/

namespace PseudoCost.Rounding

/-- The quotient `num / (den · 2 ^ e)` rounded to the nearest, a tie going to the even one. -/
def roundAt (num den : Nat) (e : Int) : Nat :=
  if 0 ≤ e then Exact.roundDiv num (den * Nat.pow 2 e.toNat)
  else Exact.roundDiv (num * Nat.pow 2 (-e).toNat) den

/-- The exponent of the last binary digit kept of a positive ratio. -/
def lastPlace (num den : Nat) : Int :=
  let guess := Int.ofNat num.log2 - Int.ofNat den.log2 - 53
  let kept :=
    if 0 ≤ guess then num / (den * Nat.pow 2 guess.toNat)
    else num * Nat.pow 2 (-guess).toNat / den
  max (if Nat.pow 2 53 ≤ kept then guess + 1 else guess) (-1074)

/-- The value a double holds for `num / den`, in lowest terms. -/
def ratio (negative : Bool) (num den : Nat) : Exact :=
  if num = 0 then .finite negative 0 1
  else
    let e := lastPlace num den
    let kept := roundAt num den e
    if 0 ≤ e then .finite negative (kept * Nat.pow 2 e.toNat) 1
    else Exact.ratio negative kept (Nat.pow 2 (-e).toNat)

/-- The value a double holds for an exact value within its range. -/
def round : Exact → Exact
  | .finite negative num den => ratio negative num den
  | value => value

end PseudoCost.Rounding
