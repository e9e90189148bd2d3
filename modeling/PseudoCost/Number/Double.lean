import PseudoCost.Number.Scalar
import PseudoCost.Number.Rounding

/-!
# Double precision

The scalars the program runs on: binary floating point of double precision. An exact value becomes
the nearest double, a tie going to the even one, and every double is written from its exact value.
Rounding errors stay well below one thousand-millionth, which is the tolerance of comparisons.

A value that is not a number has a sign too, and is written with it. Floating-point numbers hide
that sign, so it is kept beside them: an invalid operation leaves a minus sign, an operation on
such a value hands its sign on, and an odd power drops it.
-/

namespace PseudoCost

/-- A number in double precision. -/
structure Double where
  value : Float
  /-- The sign of a value that is not a number; of any other the value shows it. -/
  undefinedNegative : Bool := true

namespace Double

/-! ## Exact values -/

/-- The exact value of a double, from its sign, exponent and fraction bits. -/
def exact (x : Double) : Exact :=
  let bits := x.value.toBits.toNat
  let negative := Nat.pow 2 63 ≤ bits
  let biased := bits / Nat.pow 2 52 % Nat.pow 2 11
  let fraction := bits % Nat.pow 2 52
  if biased = 2047 then
    (if fraction = 0 then .infinite negative else .nan x.undefinedNegative)
  else if biased = 0 then .finite negative fraction (Nat.pow 2 1074)
  else if 1075 ≤ biased then
    .finite negative ((Nat.pow 2 52 + fraction) * Nat.pow 2 (biased - 1075)) 1
  else .finite negative (Nat.pow 2 52 + fraction) (Nat.pow 2 (1075 - biased))

/-- The floating-point number nearest to `num / den`. -/
def nearest (num den : Nat) : Float :=
  if num = 0 then 0
  else
    let e := Rounding.lastPlace num den
    (Float.ofNat (Rounding.roundAt num den e)).scaleB e

/-- The double nearest to an exact value. -/
def ofExact : Exact → Double
  | .finite negative num den => { value := if negative then -nearest num den else nearest num den }
  | .infinite negative => { value := if negative then -(1 / 0) else 1 / 0 }
  | .nan negative => ⟨0 / 0, negative⟩

/-! ## Operations -/

/-- Applies a function of one number. -/
def map (f : Float → Float) (a : Double) : Double :=
  ⟨f a.value, if a.value.isNaN then a.undefinedNegative else true⟩

/-- Applies a function of two numbers. Of two operands that are not numbers the first hands its
sign on. -/
def map₂ (f : Float → Float → Float) (a b : Double) : Double :=
  ⟨f a.value b.value,
   if a.value.isNaN then a.undefinedNegative
   else if b.value.isNaN then b.undefinedNegative
   else true⟩

/-- The double with its sign changed. -/
def neg (a : Double) : Double := ⟨-a.value, !a.undefinedNegative⟩

/-- A power. An odd power of what is not a number has no minus sign. -/
def pow (a b : Double) : Double :=
  if a.value.isNaN && b.exact.isOdd then ⟨a.value, false⟩ else map₂ Float.pow a b

instance : Scalar Double where
  add := map₂ (· + ·)
  sub := map₂ (· - ·)
  mul := map₂ (· * ·)
  div := map₂ (· / ·)
  neg := neg
  lt a b := a.value < b.value
  le a b := a.value ≤ b.value
  decideLt a b := inferInstanceAs (Decidable (a.value < b.value))
  decideLe a b := inferInstanceAs (Decidable (a.value ≤ b.value))
  ofExact := ofExact
  exact := exact
  pow := pow
  ln := map Float.log
  log2 := map Float.log2
  floor := map Float.floor
  round := map Float.round
  golden := ofExact (.finite false 16180339887498949 (Nat.pow 10 16))
  epsilon := ofExact (.finite false 1 (Nat.pow 10 9))

end Double

end PseudoCost
