import PseudoCost.Cost
import PseudoCost.Recurrence.Master
import PseudoCost.Recurrence.Characteristic

/-!
# Solving a relation

Three methods are tried in turn. The master theorem covers calls that all divide the size by one
amount, or all split it at an unknown point, which is taken as halving. Calls that all take
something off the size unroll into levels or follow the characteristic equation. What is left is
sampled: the relation is tabulated, and the first rung of a ladder of growths to which the samples
keep a steady ratio is the bound.

The root of the characteristic equation is found by a function that is passed in, so that what the
solver does with it can be told apart from how closely it is approximated.
-/

namespace PseudoCost.Recurrence

/-- A step of a derivation, with its heading. -/
structure Step where
  label : Text
  value : Text
deriving Repr, DecidableEq

/-- The bound of a relation, how it was found, and why it holds. -/
structure Solution (R : Type) where
  bound : Growth R
  method : Text
  justification : Text
  steps : List Step := []
  remarks : List Remark := []
deriving Repr, DecidableEq

/-- What became of a relation. -/
inductive Outcome (R : Type) where
  | solved (solution : Solution R)
  | unsolvable (reason : Text) (steps : List Step)
deriving Repr, DecidableEq

/-- The solution, if there is one. -/
def Outcome.solution? {R : Type} : Outcome R → Option (Solution R)
  | .solved s => some s
  | .unsolvable .. => none

variable {R : Type} [Scalar R]

/-- The last step of a derivation. -/
def conclusion (bound : Growth R) : Step := ⟨"Conclusion", "T(n) = " ++ bound.bigTheta⟩

/-- The first step of most derivations. -/
def identified (rel : Relation R) : Step := ⟨"Identify form", rel.equation⟩

/-! ## The master theorem -/

/-- How the degree of the cost compares with the critical exponent. -/
def comparisonText (d c : R) : MasterCase → Text
  | .leaves =>
    "d = " ++ Scalar.text d ++ " < c = " ++ Scalar.text c ++ ", so f(n) = O(n^(c-ε))"
  | .levels => "d = " ++ Scalar.text d ++ " = c, so f(n) = Θ(n^c log^k n)"
  | .root =>
    "d = " ++ Scalar.text d ++ " > c = " ++ Scalar.text c ++ ", so f(n) = Ω(n^(c+ε))"

/-- Why the bound of a case holds. -/
def caseText (logPower : Int) : MasterCase → Text
  | .leaves => "case 1: the leaves dominate, T(n) = Θ(n^c)"
  | .levels =>
    "case 2: every level costs the same, T(n) = Θ(n^c log^(k+1) n) with k = " ++ Text.ofInt logPower
  | .root => "case 3: the root dominates, T(n) = Θ(f(n)); regularity condition assumed"

/-- The condition that the last case assumes. -/
def regularity : MasterCase → List Step
  | .root => [⟨"Regularity", "a·f(n/b) <= δ·f(n) for some δ < 1 assumed"⟩]
  | _ => []

/-- The common divisor of some terms: two if all split, the divisor if all divide by one amount. -/
def divisor? (terms : List (Term R)) : Option R :=
  if allOf .split terms then some Scalar.two
  else if allOf .divide terms then
    match terms with
    | [] => none
    | t :: _ =>
      let b := t.change.amount
      if terms.any fun u => Scalar.epsilon < Scalar.abs (u.change.amount - b) then none else some b
  else none

/-- The steps of the master theorem for `a` calls on the size divided by `b`. -/
def masterSteps (balanced : Bool) (a b : R) (f : Growth R) : List Step :=
  let c := criticalExponent a b
  let which := masterCase a b f.degree
  let aText := Scalar.text a
  let bText := Scalar.text b
  (if balanced then
      [⟨"Split point", "non-constant split point treated as a balanced halving"⟩]
    else [])
    ++ [⟨"Identify coefficients", "a = " ++ aText ++ ", b = " ++ bText ++ ", f(n) = " ++ f.text⟩,
        ⟨"Critical exponent", "c = log_" ++ bText ++ "(" ++ aText ++ ") = " ++ Scalar.text c⟩,
        ⟨"Compare exponents", comparisonText f.degree c which⟩]
    ++ regularity which
    ++ [⟨"Conclusion", "Case " ++ Text.ofNat which.number ++ ": T(n) = "
          ++ (masterBound a b f).bigTheta⟩]

/-- The solution by the master theorem, if the terms have a common divisor. -/
def solveByMaster (rel : Relation R) : Option (Solution R) :=
  let f := rel.localCost
  if f.isExponential then none
  else
    (divisor? rel.terms).map fun b =>
      let balanced := allOf .split rel.terms
      let calls := totalCalls rel.terms
      let a : R := Scalar.ofInt calls
      { bound := masterBound a b f
        method := "Master theorem"
        justification := caseText f.logPower (masterCase a b f.degree)
          ++ (if balanced then "; split point assumed balanced" else [] : Text)
        steps := masterSteps balanced a b f
        remarks := [⟨.divideAndConquer,
          Text.ofInt calls ++ " subproblems of size n/" ++ Scalar.text b, 0⟩] }

/-! ## Linear relations -/

/-- A single call on the size less `k`. -/
def unrolled (rel : Relation R) (k : R) : Solution R :=
  let f := rel.localCost
  let bound := Growth.linear.times f
  let kText := Scalar.text k
  { bound := bound
    method := "Iteration"
    justification := "a single call shrinking by a constant unrolls into n/k levels of f(n)"
    steps := [identified rel,
      ⟨"Unroll", "T(n) = f(n) + f(n-" ++ kText ++ ") + ... over n/" ++ kText
        ++ " levels, each at most " ++ f.text⟩,
      conclusion bound] }

/-- Calls on the size less one and the size less two. -/
def fibonacci (rel : Relation R) : Solution R :=
  let bound : Growth R := Growth.exponential Scalar.golden
  { bound := bound
    method := "Characteristic equation"
    justification := "Fibonacci pattern: T(n-1) + T(n-2) grows like the golden ratio"
    steps := [identified rel, ⟨"Characteristic equation", "x^2 = x + 1"⟩,
      ⟨"Dominant root", "φ = (1 + √5) / 2 ≈ 1.618"⟩, conclusion bound]
    remarks := [⟨.recursivePattern, "Fibonacci pattern", 0⟩] }

/-- Several calls on the size less `k`. -/
def repeatedShift (rel : Relation R) (calls : Int) (k : R) : Solution R :=
  let a : R := Scalar.ofInt calls
  let bound := Growth.exponential (Scalar.pow a (Scalar.one / k))
  let kText := Scalar.text k
  { bound := bound
    method := "Iteration"
    justification := "each level multiplies the number of calls by " ++ Scalar.text a
    steps := [identified rel,
      ⟨"Unroll", Scalar.text a ++ "^(n/" ++ kText ++ ") leaves after n/" ++ kText ++ " levels"⟩,
      conclusion bound] }

/-- The nearest whole number as a word of 64 bits. Word arithmetic leaves open what a number becomes
that no word holds; here it is the least word. -/
def exponentWord (k : R) : Int64 :=
  let i := Scalar.toInt (Scalar.round k)
  if Int64.minValue.toInt ≤ i ∧ i ≤ Int64.maxValue.toInt then Int64.ofInt i else Int64.minValue

/-- A term of the characteristic equation that was multiplied by the power `degree`. A difference of
exponents that no word holds is left open as well; here it wraps around. -/
def powerText (degree : Int64) (t : Term R) : Text :=
  (if 1 < t.multiplicity then Text.ofInt t.multiplicity else []) ++ "x^"
    ++ Text.ofInt (degree - exponentWord t.change.amount).toInt

/-- The characteristic equation of some terms, whose largest shift is given. -/
def characteristicText (terms : List (Term R)) (largest : R) : Text :=
  let degree := exponentWord largest
  "x^" ++ Text.ofInt degree.toInt ++ " = " ++ Text.join " + " (terms.map (powerText degree))

/-- Calls on different shifts, with the root of their characteristic equation. -/
def mixedShifts (rel : Relation R) (largest root : R) : Solution R :=
  let bound := Growth.exponential root
  { bound := bound
    method := "Characteristic equation"
    justification := "the largest root of the characteristic equation sets the growth rate"
    steps := [identified rel,
      ⟨"Characteristic equation", characteristicText rel.terms largest⟩,
      ⟨"Dominant root", "x ≈ " ++ Scalar.text root ++ " (bisection)"⟩, conclusion bound] }

/-- The shifts of some terms in ascending order, each as often as its multiplicity. -/
def sortedShifts (terms : List (Term R)) : List R :=
  (amounts terms).mergeSort fun a b => decide (a ≤ b)

/-- The largest shift of the terms that make a call. -/
def largestShift (terms : List (Term R)) : R :=
  match (terms.filter (0 < ·.multiplicity)).map (·.change.amount) with
  | [] => Scalar.zero
  | k :: ks => ks.foldl Scalar.max k

/-- Whether some shifts are one and two. -/
def isOneTwo : List R → Bool
  | [j, k] => Scalar.near j Scalar.one && Scalar.near k Scalar.two
  | _ => false

/-- Whether some terms make two calls, on the size less one and the size less two. -/
def isFibonacci (terms : List (Term R)) : Bool :=
  terms.foldr (fun t calls => t.multiplicity.toNat + calls) 0 == 2 && isOneTwo (sortedShifts terms)

/-- The solution of a relation all of whose calls take something off the size. -/
def solveLinear (root : List (Term R) → R) (rel : Relation R) : Option (Solution R) :=
  if !allOf .subtract rel.terms || rel.localCost.isExponential then none
  else
    match rel.terms with
    | [t] =>
      if t.multiplicity = 1 then some (unrolled rel t.change.amount)
      else if isFibonacci [t] then some (fibonacci rel)
      else some (repeatedShift rel t.multiplicity t.change.amount)
    | terms =>
      if isFibonacci terms then some (fibonacci rel)
      else some (mixedShifts rel (largestShift terms) (root terms))

/-! ## Numeric substitution -/

/-- The exponent of the largest sampled size. -/
def lastExponent : Nat := 12

/-- The largest sampled size. -/
def sampleLimit : Nat := Nat.pow 2 lastExponent

/-- The size whose ratio is compared with that of the largest one. -/
def sampleMiddle : Nat := Nat.pow 2 8

/-- The index of the size that a call on size `m` is made with, a smaller one. -/
def childIndex (change : SizeChange R) (m : Nat) : Nat :=
  (Scalar.toInt (Scalar.clamp (Scalar.floor (change.apply (Scalar.ofNat m))) Scalar.zero
    (Scalar.ofNat (m - 1)))).toNat

/-- Adds the next value to a table that holds those of all smaller sizes. -/
def extendTable (rel : Relation R) (table : Array R) : Array R :=
  let m := table.size
  table.push (rel.terms.foldl (fun v t =>
      v + Scalar.ofInt t.multiplicity * (table[childIndex t.change m]?).getD Scalar.one)
    (rel.localCost.evaluate (Scalar.ofNat m)))

/-- The values of a relation up to a size, those at zero and one being one. -/
def valueTable (rel : Relation R) (limit : Nat) : Array R :=
  Nat.repeat (extendTable rel) (limit - 1) #[Scalar.one, Scalar.one]

/-- The value at a size. -/
def valueAt (table : Array R) (n : Nat) : R := (table[n]?).getD Scalar.one

/-- The sampled values in a step. -/
def samplesText (table : Array R) : Text :=
  Text.join ", " ((List.range' 3 (lastExponent - 2)).map fun e =>
    "T(" ++ Text.ofNat (Nat.pow 2 e) ++ ") = " ++ Scalar.sampleText (valueAt table (Nat.pow 2 e)))

/-- The growths that are tried, in ascending order. -/
def ladder : List (Growth R) :=
  [Growth.constant, Growth.logarithmic, Growth.linear, Growth.polynomial Scalar.one 1,
   Growth.polynomial Scalar.two 0, Growth.polynomial Scalar.two 1,
   Growth.polynomial (Scalar.ofNat 3) 0]

/-- The ratio of the value at a size to a growth. -/
def ratioAt (table : Array R) (g : Growth R) (n : Nat) : R :=
  valueAt table n / g.evaluate (Scalar.ofNat n)

/-- Whether two ratios are within a fifth of the later one. -/
def isSteady (early late : R) : Bool :=
  Scalar.isFinite early && Scalar.isFinite late && Scalar.zero < late
    && Scalar.abs (late - early) / late < Scalar.ofDecimal 2 1

/-- The step that tries a growth. -/
def candidateStep (g : Growth R) (early late : R) : Step :=
  ⟨"Candidate g(n) = " ++ g.text,
   "T(" ++ Text.ofNat sampleMiddle ++ ")/g = " ++ Scalar.sampleText early ++ ", T("
     ++ Text.ofNat sampleLimit ++ ")/g = " ++ Scalar.sampleText late⟩

/-- The first growth to which the samples keep a steady ratio, and the steps up to it. -/
def settle (table : Array R) : List (Growth R) → List Step × Option (Growth R)
  | [] => ([], none)
  | g :: gs =>
    let early := ratioAt table g sampleMiddle
    let late := ratioAt table g sampleLimit
    let tried := candidateStep g early late
    if isSteady early late then ([tried], some g)
    else
      let (steps, found) := settle table gs
      (tried :: steps, found)

/-- The outcome of sampling a relation. -/
def solveBySampling (rel : Relation R) : Outcome R :=
  if anyOf .unknown rel.terms || anyOf .same rel.terms then
    .unsolvable "argument change could not be classified" [identified rel]
  else
    let table := valueTable rel sampleLimit
    let (tried, found) := settle table ladder
    let steps := identified rel :: ⟨"Sample T(n)", samplesText table⟩ :: tried
    match found with
    | some g =>
      .solved
        { bound := g
          method := "Substitution"
          justification := "T(n)/g(n) settles within 20% between n = 2^8 and n = 2^12"
          steps := steps ++ [conclusion g] }
    | none =>
      .unsolvable "numeric substitution did not converge to a candidate bound"
        (steps ++ [⟨"Conclusion", "no candidate bound fits the sampled values"⟩])

/-! ## Solving -/

/-- The outcome of a relation, with a given way to find the root of a characteristic equation. -/
def solveWith (root : List (Term R) → R) (rel : Relation R) : Outcome R :=
  if rel.terms.isEmpty then .unsolvable "relation has no recursive terms" [identified rel]
  else
    match (solveByMaster rel).or (solveLinear root rel) with
    | some s => .solved s
    | none => solveBySampling rel

/-- The outcome of a relation. -/
def solve (rel : Relation R) : Outcome R := solveWith dominantRoot rel

end PseudoCost.Recurrence
