import PseudoCost.Text

/-!
# Exact values and their decimal texts

Numbers are written from their exact value: a signed ratio of natural numbers, an infinity, or no
number at all, which has a sign as well. Rounding is done once, on the ratio, to the nearest
neighbour and on a tie to the even one.

Two layouts are used. `fixed` has a given number of places after the point. `significant` keeps a
given number of digits, drops the zeros at their end, and changes to an exponent when the leading
digit stands more than four places after the point or beyond the kept digits.
-/

namespace PseudoCost

/-- The exact value of a number: `±num / den`, an infinity, or not a number. -/
inductive Exact where
  | finite (negative : Bool) (num den : Nat)
  | infinite (negative : Bool)
  | nan (negative : Bool)
deriving Repr, DecidableEq

namespace Exact

/-- An integer as an exact value. -/
def ofInt (i : Int) : Exact := .finite (i < 0) i.natAbs 1

/-- Whether the value is a number at all, and not an infinity. -/
def isFinite : Exact → Bool
  | .finite .. => true
  | _ => false

/-- The ratio in lowest terms. -/
def ratio (negative : Bool) (num den : Nat) : Exact :=
  let g := Nat.gcd num den
  .finite negative (num / g) (den / g)

/-- The value with its sign changed. -/
def negate : Exact → Exact
  | .finite negative num den => .finite (!negative) num den
  | .infinite negative => .infinite (!negative)
  | .nan negative => .nan (!negative)

/-- The value without its sign. -/
def magnitude : Exact → Exact
  | .finite _ num den => .finite false num den
  | .infinite _ => .infinite false
  | .nan _ => .nan false

/-- Whether the value is above a natural number. -/
def exceeds (n : Nat) : Exact → Bool
  | .finite false num den => n * den < num
  | .infinite false => true
  | _ => false

/-- Whether the value is below zero. -/
def isNegative (x : Exact) : Bool := x.negate.exceeds 0

/-- The order of two values, where they have one. -/
def below : Exact → Exact → Bool
  | .finite s num den, .finite s' num' den' =>
    let side (negative : Bool) (n d : Nat) : Int := if negative then -Int.ofNat (n * d) else n * d
    side s num den' < side s' num' den
  | .finite .., .infinite negative => !negative
  | .infinite negative, .finite .. => negative
  | .infinite negative, .infinite negative' => negative && !negative'
  | _, _ => false

/-- The larger of two values, the first unless the second is above it. -/
def larger (x y : Exact) : Exact := if x.below y then y else x

/-- Whether the value is an odd whole number. -/
def isOdd : Exact → Bool
  | .finite _ num den => num % den == 0 && num / den % 2 == 1
  | _ => false

/-- The whole part of the value, toward zero; zero when it is not finite. -/
def truncate : Exact → Int
  | .finite false num den => Int.ofNat (num / den)
  | .finite true num den => -Int.ofNat (num / den)
  | _ => 0

/-! ## Rounding -/

/-- The quotient rounded to the nearest natural number, a tie going to the even one. -/
def roundDiv (num den : Nat) : Nat :=
  let q := num / den
  let twice := 2 * (num % den)
  if den < twice || (twice == den && q % 2 == 1) then q + 1 else q

/-- The number of decimal digits of a natural number. -/
def digitCount (n : Nat) : Nat := (Nat.toDigits 10 n).length

/-- Multiplies one side of a ratio so that its value is scaled by `10 ^ shift`. -/
def scale10 (num den : Nat) (shift : Int) : Nat × Nat :=
  if 0 ≤ shift then (num * Nat.pow 10 shift.toNat, den) else (num, den * Nat.pow 10 (-shift).toNat)

/-- The place of the leading decimal digit of a positive ratio: `x` with
`10 ^ x ≤ num / den < 10 ^ (x + 1)`. -/
def leadingPlace (num den : Nat) : Int :=
  let guess : Int := Int.ofNat (digitCount num) - Int.ofNat (digitCount den)
  let (n, d) := scale10 num den (-guess)
  if d ≤ n then guess else guess - 1

/-! ## Layouts -/

/-- Digits with a point before the last `places` of them. -/
def withPoint (places n : Nat) : Text :=
  let digits := Text.ofNat n
  let padded := List.replicate (places + 1 - digits.length) (Text.byte '0') ++ digits
  let whole := padded.length - places
  if places = 0 then padded else padded.take whole ++ "." ++ padded.drop whole

/-- The text without zeros at its end, and without a point that then stands last. -/
def dropZeros (t : Text) : Text :=
  let cut := t.reverse.dropWhile (· == Text.byte '0')
  (if cut.head? = some (Text.byte '.') then cut.tail else cut).reverse

/-- A minus sign in front of a negative value. -/
def signed (negative : Bool) (t : Text) : Text := if negative then "-" ++ t else t

/-- An exponent: its sign and at least two digits. -/
def exponentText (x : Int) : Text :=
  let digits := Text.ofNat x.natAbs
  "e" ++ (if x < 0 then "-" else "+" : Text)
    ++ (if digits.length < 2 then "0" ++ digits else digits)

/-- A positive ratio to `digits` significant digits. -/
def significantRatio (digits num den : Nat) : Text :=
  let place := leadingPlace num den
  let (n, d) := scale10 num den (Int.ofNat digits - 1 - place)
  let rounded := roundDiv n d
  let carried := rounded == Nat.pow 10 digits
  let kept := if carried then Nat.pow 10 (digits - 1) else rounded
  let x := if carried then place + 1 else place
  if x < -4 || Int.ofNat digits ≤ x then
    let mantissa := withPoint (digits - 1) kept
    (if digits ≤ 1 then mantissa else dropZeros mantissa) ++ exponentText x
  else
    let places := (Int.ofNat digits - 1 - x).toNat
    let t := withPoint places kept
    if places = 0 then t else dropZeros t

/-- The text of a value that is not finite. -/
def special : Exact → Text
  | .finite .. => []
  | .infinite negative => signed negative "inf"
  | .nan negative => signed negative "nan"

/-- The value to a number of significant digits. -/
def significant (digits : Nat) : Exact → Text
  | .finite negative num den =>
    signed negative (if num = 0 then "0" else significantRatio digits num den)
  | value => value.special

/-- The value with a fixed number of places after the point. -/
def fixed (places : Nat) : Exact → Text
  | .finite negative num den =>
    signed negative (withPoint places (roundDiv (num * Nat.pow 10 places) den))
  | value => value.special

/-- A literal in a listing: a whole number below ten to the fifteenth in digits, any other to six
significant digits. -/
def literalText : Exact → Text
  | .finite negative num den =>
    if num % den = 0 && num < Nat.pow 10 15 * den then
      Text.ofInt (Exact.finite negative num den).truncate
    else (Exact.finite negative num den).significant 6
  | value => value.special

end Exact

end PseudoCost
