import PseudoCost.Growth

/-!
# Costs in three cases

The cost of a piece of a program in its best, worst and average case, with the remarks that explain
it. A verdict is `assumed` when some case rests on a guess rather than on what the program shows.
-/

namespace PseudoCost

/-- The growth of a cost in the best, the worst and the average case. -/
structure Cases (R : Type) where
  best : Growth R
  worst : Growth R
  average : Growth R
deriving Repr, DecidableEq

namespace Cases

variable {R : Type} [Scalar R]

/-- The same growth in every case. -/
def uniform (g : Growth R) : Cases R := ⟨g, g, g⟩

/-- Every case multiplied by a growth. -/
def scaled (c : Cases R) (g : Growth R) : Cases R :=
  ⟨c.best.times g, c.worst.times g, c.average.times g⟩

/-- The costs of two pieces one after another: in each case the larger one. -/
def max (c d : Cases R) : Cases R :=
  ⟨c.best.max d.best, c.worst.max d.worst, c.average.max d.average⟩

/-- The costs of two alternatives. With equal weights the average grows like the larger one. -/
def either (c d : Cases R) : Cases R :=
  ⟨c.best.min d.best, c.worst.max d.worst, c.average.max d.average⟩

/-- A bound as the average, with best and worst case widened to cover given ones. -/
def widened (bound : Growth R) (c : Cases R) : Cases R :=
  ⟨c.best.min bound, c.worst.max bound, bound⟩

/-- Whether two triples count as equal. -/
def agrees (c d : Cases R) : Bool :=
  c.best.agrees d.best && c.worst.agrees d.worst && c.average.agrees d.average

end Cases

/-! ## Remarks -/

/-- What a remark is about. -/
inductive RemarkKind where
  | callInsideLoop | divideAndConquer | logarithmicLoop | unresolvedProgress | earlyExit
  | recursivePattern | solverFailed
deriving Repr, DecidableEq

namespace RemarkKind

/-- The name of a kind in a report. -/
def text : RemarkKind → Text
  | .callInsideLoop => "CallInsideLoop"
  | .divideAndConquer => "DivideAndConquer"
  | .logarithmicLoop => "LogarithmicLoop"
  | .unresolvedProgress => "UnresolvedProgress"
  | .earlyExit => "EarlyExit"
  | .recursivePattern => "RecursivePattern"
  | .solverFailed => "SolverFailed"

/-- Every kind, in the order of declaration. -/
def all : List RemarkKind :=
  [.callInsideLoop, .divideAndConquer, .logarithmicLoop, .unresolvedProgress, .earlyExit,
   .recursivePattern, .solverFailed]

end RemarkKind

/-- A remark on a cost, with the line it is about, zero if none. -/
structure Remark where
  kind : RemarkKind
  text : Text
  line : Int := 0
deriving Repr, DecidableEq

/-- Whether two remarks say the same; the line does not matter. -/
def Remark.equivalent (a b : Remark) : Bool := a.kind == b.kind && a.text == b.text

/-- Adds a remark at the end of a list, unless the list says it already. -/
def Remark.add (remarks : List Remark) (r : Remark) : List Remark :=
  if remarks.any (·.equivalent r) then remarks else remarks ++ [r]

/-- Adds remarks one by one. -/
def Remark.addAll (remarks more : List Remark) : List Remark := more.foldl Remark.add remarks

/-- Whether some remark is of a kind. -/
def Remark.anyOf (remarks : List Remark) (kind : RemarkKind) : Bool := remarks.any (·.kind == kind)

/-- The place of a remark in its text. -/
def Remark.atLine (line : Int) : Text := " (line " ++ Text.ofInt line ++ ")"

/-! ## Verdicts -/

/-- The cost of a piece of a program, what explains it, and whether it rests on a guess. -/
structure Verdict (R : Type) where
  cases : Cases R
  remarks : List Remark := []
  assumed : Bool := false
deriving Repr, DecidableEq

namespace Verdict

variable {R : Type} [Scalar R]

/-- The verdict on a piece that costs nothing but a constant. -/
def constant : Verdict R := { cases := Cases.uniform Growth.constant }

instance : Inhabited (Verdict R) := ⟨constant⟩

/-- Whether the verdict has a remark of a kind. -/
def has (v : Verdict R) (kind : RemarkKind) : Bool := Remark.anyOf v.remarks kind

/-- Adds a remark. -/
def remark (v : Verdict R) (kind : RemarkKind) (text : Text) (line : Int) : Verdict R :=
  { v with remarks := Remark.add v.remarks ⟨kind, text, line⟩ }

/-- Takes over what another verdict says, its cases apart. -/
def merge (v w : Verdict R) : Verdict R :=
  { v with remarks := Remark.addAll v.remarks w.remarks, assumed := v.assumed || w.assumed }

/-- A verdict with new cases and the remarks of another one, each once. -/
def onto (cases : Cases R) (v : Verdict R) : Verdict R := Verdict.merge { cases := cases } v

/-- Two pieces one after another. -/
def sequence (v w : Verdict R) : Verdict R := { v.merge w with cases := v.cases.max w.cases }

/-- The verdict marked as resting on a guess. -/
def assume (v : Verdict R) : Verdict R := { v with assumed := true }

end Verdict

end PseudoCost
