import PseudoCost.Report

/-!
# Reports as text

A report in sections of lines: the result, then the recurrence, the steps, the remarks, the costs
of the lines and the recursion tree where there are any, and at last the number of statements and
the warnings. Sections are set apart by an empty line. Columns are padded by bytes.
-/

namespace PseudoCost.Report

open Recurrence

variable {R : Type} [Scalar R]

/-- The lines on the result. -/
def resultLines (r : Report R) : List Text :=
  [ "Result: " ++ r.mainResult ++ (if r.assumed then " (assumed)" else [] : Text),
    "Method: " ++ r.method,
    "Justification: " ++ r.justification ]

/-- A section: an empty line, its title, and its lines indented. -/
def titled (title : Text) (lines : List Text) : List Text :=
  [] :: title :: lines.map fun l => "  " ++ l

/-- The lines on the recurrence. -/
def relationLines (rel : Relation R) : List Text :=
  titled ("Recurrence (" ++ rel.procedure ++ "):")
    (rel.equation :: rel.baseCase :: rel.notes.map fun n => "note: " ++ n)

/-- A section for each member of a list, left out when there is none. -/
def listed {α : Type} (title : Text) (line : α → Text) : List α → List Text
  | [] => []
  | x :: xs => titled title ((x :: xs).map line)

/-- The line on a source line: its number, its cost and its code. -/
def rowLine (row : LineCost R) : Text :=
  Text.padLeft 4 (Text.ofInt row.line) ++ "  " ++ Text.padRight 12 row.costText ++ row.code

/-- The line on a level of the recursion tree. -/
def levelLine (l : TreeLevel R) : Text :=
  "depth " ++ Text.ofNat l.depth ++ ": " ++ Text.ofNat l.nodeCount ++ " node(s), cost "
    ++ l.levelCost

/-- The lines on the recursion tree. -/
def treeLines (t : CallTree R) : List Text :=
  let cut : Text := "... truncated"
  titled ("Recursion tree (" ++ t.profile.shape ++ ", height " ++ t.profile.height ++ "):")
    (t.levels.map levelLine ++ (if t.truncated then [cut] else []) ++ ["total: " ++ t.total])

/-- The last lines: the number of statements and the warnings. -/
def closingLines (r : Report R) : List Text :=
  [] :: ("Statements: " ++ Text.ofNat r.statementCount) :: r.warnings.map fun w => "warning: " ++ w

/-- The lines of a report. -/
def summaryLines (r : Report R) : List Text :=
  r.resultLines
    ++ (r.relation.map relationLines).getD []
    ++ listed "Steps:" (fun s => s.label ++ ": " ++ s.value) r.steps
    ++ listed "Annotations:" (fun a => "[" ++ a.kind.text ++ "] " ++ a.text) r.remarks
    ++ listed "Line costs:" rowLine r.lineCosts
    ++ (r.tree.map treeLines).getD []
    ++ r.closingLines

/-- The report as text. -/
def summaryText (r : Report R) : Text := r.summaryLines.flatMap (· ++ [Text.newline])

end PseudoCost.Report
