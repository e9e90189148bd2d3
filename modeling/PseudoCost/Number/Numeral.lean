import PseudoCost.Number.Rounding

/-!
# Numerals

Reading a number takes the longest one that a text starts with, after white space: a sign, then
decimal digits with an optional point and power of ten, hexadecimal digits after `0x` with an
optional point and power of two, or one of the words `inf`, `infinity` and `nan`. What follows the
number is ignored. The value read is the one that double precision holds for the number.

A text that starts with no number is `invalid`. A number is `outOfRange` when double precision
overflows on it, or can only hold it inexactly below its smallest normal value.
-/

namespace PseudoCost

/-- A number as written: `±mantissa · 10 ^ exponent`, an infinity, or not a number. -/
inductive Numeral where
  | finite (negative : Bool) (mantissa : Nat) (exponent : Int)
  | infinite (negative : Bool)
  | nan (negative : Bool)
deriving Repr, DecidableEq

namespace Numeral

/-- Why a text has no usable number. -/
inductive Error where
  | invalid
  | outOfRange
deriving Repr, DecidableEq

/-- The exact value of a numeral. -/
def exact : Numeral → Exact
  | .finite negative mantissa exponent =>
    let (num, den) := if mantissa = 0 then (0, 1) else Exact.scale10 mantissa 1 exponent
    .finite negative num den
  | .infinite negative => .infinite negative
  | .nan negative => .nan negative

/-! ## Range -/

/-- Whether `num / den` overflows: it rounds to `2 ^ 1024` or more. -/
def overflows (num den : Nat) : Bool := (Nat.pow 2 1024 - Nat.pow 2 970) * den ≤ num

/-- Whether `num / den` stays below the smallest normal value after rounding and is no multiple of
the smallest positive value. -/
def underflows (num den : Nat) : Bool :=
  num * Nat.pow 2 1076 < (Nat.pow 2 54 - 1) * den && num * Nat.pow 2 1074 % den != 0

/-- Whether a decimal is outside the range of double precision. The place of its leading digit
settles all but the decimals near the ends of the range. -/
def isOutOfRange (mantissa : Nat) (exponent : Int) : Bool :=
  let place := Int.ofNat (Exact.digitCount mantissa) + exponent
  if mantissa = 0 then false
  else if 310 < place || place < -330 then true
  else
    match (Numeral.finite false mantissa exponent).exact with
    | .finite _ num den => overflows num den || underflows num den
    | _ => false

/-! ## Reading -/

/-- White space before a number. -/
def isBlank (b : UInt8) : Bool := b == 32 || (9 ≤ b && b ≤ 13)

/-- The value of a hexadecimal digit. -/
def hexValue? (b : UInt8) : Option Nat :=
  if Text.isDigit b then some (b.toNat - 48)
  else if 97 ≤ b && b ≤ 102 then some (b.toNat - 87)
  else if 65 ≤ b && b ≤ 70 then some (b.toNat - 55)
  else none

/-- Whether a byte is a hexadecimal digit. -/
def isHexDigit (b : UInt8) : Bool := (hexValue? b).isSome

/-- The value of a run of hexadecimal digits. -/
def hexDigitsValue (digits : Text) : Nat :=
  digits.foldl (fun n b => 16 * n + (hexValue? b).getD 0) 0

/-- Takes a sign, if there is one, and says whether it is a minus. -/
def takeSign : Text → Bool × Text
  | b :: rest =>
    if b = Text.byte '-' then (true, rest)
    else if b = Text.byte '+' then (false, rest)
    else (false, b :: rest)
  | [] => (false, [])

/-- Takes digits with at most one point among them; the second part is what follows the point. -/
def takeDigits (isDigit : UInt8 → Bool) (t : Text) : Text × Text × Text :=
  let whole := t.takeWhile isDigit
  match t.dropWhile isDigit with
  | b :: rest =>
    if b = Text.byte '.' && (!whole.isEmpty || rest.head?.any isDigit) then
      (whole, rest.takeWhile isDigit, rest.dropWhile isDigit)
    else (whole, [], b :: rest)
  | [] => (whole, [], [])

/-- The power written after `mark`, zero when there is none. -/
def power (mark : Char) : Text → Int
  | b :: rest =>
    if Text.lowerByte b = Text.byte mark then
      let (negative, digits) := takeSign rest
      let n := Int.ofNat (Text.digitsValue (digits.takeWhile Text.isDigit))
      if negative then -n else n
    else 0
  | [] => 0

/-- A hexadecimal number, after its `0x`. A power beyond a hundred thousand is cut there, where
the number has long left every range. -/
def hexadecimal (negative : Bool) (t : Text) : Numeral :=
  let (whole, part, rest) := takeDigits isHexDigit t
  let mantissa := hexDigitsValue (whole ++ part)
  let twos := max (-100000) (min 100000 (power 'p' rest)) - 4 * Int.ofNat part.length
  if 0 ≤ twos then Numeral.finite negative (mantissa * Nat.pow 2 twos.toNat) 0
  else Numeral.finite negative (mantissa * Nat.pow 5 (-twos).toNat) twos

/-- A decimal number, if the text starts with one. -/
def decimal? (negative : Bool) (t : Text) : Option Numeral :=
  let (whole, part, rest) := takeDigits Text.isDigit t
  if whole.isEmpty && part.isEmpty then none
  else
    some (Numeral.finite negative (Text.digitsValue (whole ++ part))
      (power 'e' rest - Int.ofNat part.length))

/-- The number a text starts with, if any. -/
def leading? (t : Text) : Option Numeral :=
  let (negative, body) := takeSign (t.dropWhile isBlank)
  let small := body.lower
  let hex := body.drop 2
  if ("0x" : Text).isPrefixOf small && (hex.head?.any isHexDigit
      || (hex.head? == some (Text.byte '.') && hex.tail.head?.any isHexDigit)) then
    some (hexadecimal negative hex)
  else if ("inf" : Text).isPrefixOf small then some (.infinite negative)
  else if ("nan" : Text).isPrefixOf small then some (.nan negative)
  else decimal? negative body

/-- The value of the number a text starts with. -/
def read (t : Text) : Except Error Exact :=
  match leading? t with
  | none => .error .invalid
  | some (.finite negative mantissa exponent) =>
    if isOutOfRange mantissa exponent then .error .outOfRange
    else .ok (Rounding.round (Numeral.finite negative mantissa exponent).exact)
  | some numeral => .ok numeral.exact

end Numeral

end PseudoCost
