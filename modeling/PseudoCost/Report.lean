import PseudoCost.LineCost
import PseudoCost.Recurrence.Solution
import PseudoCost.Recurrence.CallTree

/-!
# Reports

Everything one analysis produced, and how its conclusion is reached. What the structure of the
program shows and what the recurrence of its primary procedure says are resolved into one answer:

* recursion inside a loop, a logarithmic loop or an unresolved loop leave the structure in charge;
* a procedure that is only part of the program costs its solved bound inside the structure;
* otherwise a solved recurrence gives the average case, widened to cover the structural cases;
* a recurrence that could not be solved leaves the structure in charge, with a remark.
-/

namespace PseudoCost

open Recurrence

/-- The report of an analysis. -/
structure Report (R : Type) where
  tokens : List Token := []
  /-- The program as an outline. -/
  outline : Text := []
  lineCosts : List (LineCost R) := []
  relation : Option (Relation R) := none
  structural : Verdict R
  outcome : Option (Outcome R) := none
  cases : Cases R
  remarks : List Remark := []
  assumed : Bool := false
  /-- The conclusion in one line. -/
  mainResult : Text := []
  method : Text := []
  justification : Text := []
  steps : List Step := []
  tree : Option (CallTree R) := none
  statementCount : Nat := 0
  warnings : List Text := []

variable {R : Type} [Scalar R]

/-- The three cases as bounds, the worst one first. -/
def Cases.boundsText (c : Cases R) : Text :=
  c.worst.bigO ++ ", " ++ c.best.bigOmega ++ ", " ++ c.average.bigTheta

namespace Verdict

/-- Whether the structure of the program decides, whatever a recurrence says. -/
def overrides (v : Verdict R) : Bool :=
  v.has .callInsideLoop || v.has .logarithmicLoop || v.has .unresolvedProgress

/-- Why the structure of the program decides. -/
def directText (v : Verdict R) : Text :=
  let because (kind : RemarkKind) (why : Text) : Text := if v.has kind then why else []
  "loop structure and call costs combined directly"
    ++ because .callInsideLoop "; recursion inside a loop"
    ++ because .logarithmicLoop "; logarithmic loop progress"
    ++ because .unresolvedProgress "; unresolved loop progress"

/-- The verdict as steps: its cases and its remarks. -/
def steps (v : Verdict R) : List Step :=
  [⟨"Best case", v.cases.best.bigOmega⟩, ⟨"Worst case", v.cases.worst.bigO⟩,
   ⟨"Average case", v.cases.average.bigTheta⟩]
    ++ v.remarks.map fun r => ⟨r.kind.text, r.text⟩

end Verdict

namespace Report

/-- Whether the report has a remark of a kind. -/
def has (r : Report R) (kind : RemarkKind) : Bool := Remark.anyOf r.remarks kind

/-- A report that rests on the structure of the program. -/
def ofStructure (v : Verdict R) (justification : Text) : Report R where
  structural := v
  cases := v.cases
  remarks := Remark.addAll [] v.remarks
  assumed := v.assumed
  method := "Structural analysis"
  justification := justification
  steps := v.steps

/-- A report on a program of which the solved procedure is a part. -/
def ofPart (v : Verdict R) (relation : Option (Relation R)) (s : Solution R) : Report R :=
  let direct := ofStructure v v.directText
  let procedure : Text :=
    match relation with
    | some rel => rel.procedure
    | none => "the recursive procedure"
  let equation : Text :=
    match relation with
    | some rel => rel.equation ++ " gives "
    | none => []
  { direct with
    justification := direct.justification ++ "; " ++ procedure ++ " costs " ++ s.bound.bigTheta
      ++ " (" ++ s.method ++ ")"
    remarks := Remark.addAll direct.remarks s.remarks
    steps := direct.steps ++ [⟨"Recurrence", equation ++ s.bound.bigTheta ++ " by " ++ s.method⟩] }

/-- A report on a recurrence that could not be solved. -/
def ofFailure (v : Verdict R) (reason : Text) (steps : List Step) : Report R :=
  let direct := ofStructure v ("recurrence solving failed: " ++ reason)
  { direct with
    remarks := direct.remarks ++ [⟨.solverFailed, reason, 0⟩]
    steps := steps ++ direct.steps }

/-- A report that rests on a solved recurrence. -/
def ofSolution (v : Verdict R) (s : Solution R) : Report R :=
  let cases := Cases.widened s.bound v.cases
  let split : List Step :=
    if cases.best.agrees s.bound && cases.worst.agrees s.bound then []
    else
      [⟨"Case split", "structural best " ++ v.cases.best.bigOmega ++ ", structural worst "
        ++ v.cases.worst.bigO⟩]
  { structural := v
    cases := cases
    remarks := Remark.addAll (Remark.addAll [] v.remarks) s.remarks
    assumed := v.assumed
    method := s.method
    justification := s.justification
    steps := s.steps ++ split }

/-- The report on a verdict and the outcome of a recurrence, if there is one. At program level the
procedure of the recurrence costs what the whole program costs. -/
def conclude (v : Verdict R) (relation : Option (Relation R)) (outcome : Option (Outcome R))
    (programLevel : Bool) : Report R :=
  match outcome with
  | none =>
    ofStructure v
      (if v.overrides then v.directText
       else "no recursion; loop structure and call costs combined directly")
  | some (.unsolvable reason steps) =>
    if v.overrides then ofStructure v v.directText else ofFailure v reason steps
  | some (.solved s) =>
    if !programLevel then ofPart v relation s
    else if v.overrides then ofStructure v v.directText
    else ofSolution v s

/-- The report on a verdict, a relation, its outcome and its tree. -/
def resolve (v : Verdict R) (relation : Option (Relation R)) (outcome : Option (Outcome R))
    (tree : Option (CallTree R)) (programLevel : Bool) : Report R :=
  let r := conclude v relation outcome programLevel
  { r with
    relation := relation, outcome := outcome, tree := tree, mainResult := r.cases.boundsText }

end Report

end PseudoCost
