import PseudoCost.Recurrence.SizeChange

/-!
# Recurrences

The cost of a recursive procedure as a relation: the terms of its self-calls, each a change of size
with how many calls make it, and the cost of everything else.
-/

namespace PseudoCost.Recurrence

/-- A recursive term: a change of size and how many calls make it. -/
structure Term (R : Type) where
  change : SizeChange R
  multiplicity : Int := 1
deriving Repr, DecidableEq

/-- The relation `T(n) = Σ aᵢ T(gᵢ(n)) + f(n)` of a procedure. -/
structure Relation (R : Type) where
  procedure : Text := []
  equation : Text := []
  baseCase : Text := []
  notes : List Text := []
  terms : List (Term R)
  /-- The cost `f` outside the recursive calls. -/
  localCost : Growth R
  explanation : Text := []
deriving Repr, DecidableEq

variable {R : Type} [Scalar R]

/-- The number of recursive calls that some terms make. -/
def totalCalls (terms : List (Term R)) : Int :=
  terms.foldr (fun t calls => t.multiplicity + calls) 0

/-- Whether there are terms and all are of a kind. -/
def allOf (kind : ChangeKind) (terms : List (Term R)) : Bool :=
  !terms.isEmpty && terms.all (·.change.kind == kind)

/-- Whether some term is of a kind. -/
def anyOf (kind : ChangeKind) (terms : List (Term R)) : Bool :=
  terms.any (·.change.kind == kind)

/-- The amounts of some terms, each as often as its multiplicity. -/
def amounts (terms : List (Term R)) : List R :=
  terms.flatMap fun t => List.replicate t.multiplicity.toNat t.change.amount

/-- Adds a term to a list: to the multiplicity of the term with an equal change, if there is one. -/
def addTerm (t : Term R) : List (Term R) → List (Term R)
  | [] => [t]
  | u :: us =>
    if u.change.agrees t.change then
      { u with multiplicity := u.multiplicity + t.multiplicity } :: us
    else u :: addTerm t us

/-- Adds the terms of a second list to a first one. -/
def addTerms (into terms : List (Term R)) : List (Term R) :=
  terms.foldl (fun acc t => addTerm t acc) into

/-- The calls of a term in an equation. A split leaves `k` on one side and `n-k-1` on the other. -/
def termTexts (t : Term R) : List Text :=
  match t.change.kind with
  | .split =>
    let one : Text := "T(k)"
    let other : Text := "T(n-k-1)"
    one :: ((if 2 ≤ t.multiplicity then [other] else [])
      ++ List.replicate (t.multiplicity - 2).toNat one)
  | _ =>
    let call : Text := "T(" ++ t.change.label ++ ")"
    [if t.multiplicity = 1 then call else Text.ofInt t.multiplicity ++ call]

/-- The equation of a relation. -/
def equationText (terms : List (Term R)) (localCost : Growth R) : Text :=
  "T(n) = " ++ Text.join " + " (terms.flatMap termTexts ++ [localCost.text])

end PseudoCost.Recurrence
