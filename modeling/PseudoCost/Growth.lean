import PseudoCost.Number.Scalar

/-!
# Growth

How a cost grows with the input size: `n ^ degree · log ^ logPower n · expBase ^ n`. Growths are
compared by their exponential base first, then by degree, then by the power of the logarithm.
Computed degrees and bases carry rounding errors, so two of them no further apart than `epsilon`
count as equal; a base that does not exceed one by more than that is no base at all.
-/

namespace PseudoCost

/-- The growth `n ^ degree · log ^ logPower n · expBase ^ n`; a base of zero is written when the
growth is not exponential. -/
structure Growth (R : Type) where
  degree : R
  logPower : Int
  expBase : R
deriving Repr, DecidableEq

namespace Growth

variable {R : Type} [Scalar R]

open Scalar (zero one epsilon)

/-! ## Growths by name -/

/-- The growth `n ^ degree · log ^ logPower n`. -/
def polynomial (degree : R) (logPower : Int) : Growth R := ⟨degree, logPower, zero⟩

/-- The growth of a cost that does not depend on the input. -/
def constant : Growth R := polynomial zero 0

/-- The growth `n`. -/
def linear : Growth R := polynomial one 0

/-- The growth `log n`. -/
def logarithmic : Growth R := polynomial zero 1

/-- The growth `base ^ n`. -/
def exponential (base : R) : Growth R := ⟨zero, 0, base⟩

instance : Inhabited (Growth R) := ⟨constant⟩

/-! ## Order -/

/-- Whether the exponential base counts: it exceeds one. -/
def isExponential (g : Growth R) : Bool := one + epsilon < g.expBase

/-- The base as it counts in comparisons: one unless the growth is exponential. -/
def base (g : Growth R) : R := if g.isExponential then g.expBase else one

/-- Whether the growth is that of a constant. -/
def isConstant (g : Growth R) : Bool :=
  !g.isExponential && Scalar.order g.degree zero == .eq && g.logPower == 0

/-- The order of two growths. -/
def compare (g h : Growth R) : Ordering :=
  (Scalar.order g.base h.base).then
    ((Scalar.order g.degree h.degree).then (Ord.compare g.logPower h.logPower))

/-- Whether the first growth is strictly above the second. -/
def dominates (g h : Growth R) : Bool := g.compare h == .gt

/-- Whether two growths count as equal. -/
def agrees (g h : Growth R) : Bool := g.compare h == .eq

/-- The larger of two growths, the first when they count as equal. -/
def max (g h : Growth R) : Growth R := if (g.compare h).isGE then g else h

/-- The smaller of two growths, the first when they count as equal. -/
def min (g h : Growth R) : Growth R := if (g.compare h).isLE then g else h

/-! ## Products and values -/

/-- The growth of a product. -/
def times (g h : Growth R) : Growth R where
  degree := g.degree + h.degree
  logPower := g.logPower + h.logPower
  expBase :=
    match g.isExponential, h.isExponential with
    | true, true => g.expBase * h.expBase
    | true, false => g.expBase
    | false, true => h.expBase
    | false, false => zero

/-- The value at an input size. Below size two the logarithm counts as one. -/
def evaluate (g : Growth R) (n : R) : R :=
  let power := Scalar.pow n g.degree
  let withLog :=
    if 0 < g.logPower then
      let log := if Scalar.two < n then Scalar.log2 n else one
      power * Scalar.pow log (Scalar.ofInt g.logPower)
    else power
  if g.isExponential then withLog * Scalar.pow g.expBase n else withLog

/-! ## Texts -/

/-- The power of `n` in a text, if there is one. -/
def degreeText (g : Growth R) : List Text :=
  if Scalar.order g.degree zero == .eq then []
  else if Scalar.near g.degree one then ["n"]
  else ["n^" ++ Scalar.text g.degree]

/-- The power of the logarithm in a text, if there is one. -/
def logText (g : Growth R) : List Text :=
  if g.logPower = 1 then ["log n"]
  else if 1 < g.logPower then ["log^" ++ Text.ofInt g.logPower ++ " n"]
  else []

/-- The exponential in a text, if there is one. The golden ratio has its own letter. -/
def expText (g : Growth R) : List Text :=
  if !g.isExponential then []
  else if Scalar.abs (g.expBase - Scalar.golden) < Scalar.closeness then ["φ^n"]
  else [Scalar.text g.expBase ++ "^n"]

/-- The text of a growth, such as `n^2 log n`. -/
def text (g : Growth R) : Text :=
  match g.degreeText ++ g.logText ++ g.expText with
  | [] => "1"
  | parts => Text.join " " parts

/-- The growth as an upper bound. -/
def bigO (g : Growth R) : Text := "O(" ++ g.text ++ ")"

/-- The growth as a lower bound. -/
def bigOmega (g : Growth R) : Text := "Ω(" ++ g.text ++ ")"

/-- The growth as a tight bound. -/
def bigTheta (g : Growth R) : Text := "Θ(" ++ g.text ++ ")"

end Growth

end PseudoCost
