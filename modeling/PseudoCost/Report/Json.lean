import PseudoCost.Report
import PseudoCost.JsonWriter

/-!
# Reports as JSON

A report is written as one object with its members in a fixed order. A report without recursion has
a null relation and a null tree.
-/

namespace PseudoCost

open Recurrence
open JsonWriter (Writing key number boolean null opening closing field numberField strings)

/-! ## Parts of a report -/

/-- Writes a token. -/
def Token.writeJson (t : Token) : Writing := do
  opening '\x7b'
  field "kind" t.kind.label
  field "text" t.text
  numberField "line" t.pos.line
  numberField "col" t.pos.col
  closing '\x7d'

/-- Writes a remark. -/
def Remark.writeJson (r : Remark) : Writing := do
  opening '\x7b'
  field "kind" r.kind.text
  field "text" r.text
  numberField "line" r.line
  closing '\x7d'

/-- Writes a step. -/
def Recurrence.Step.writeJson (s : Step) : Writing := do
  opening '\x7b'
  field "label" s.label
  field "value" s.value
  closing '\x7d'

mutual

/-- Writes a node of a recursion tree with the nodes below it. -/
def Recurrence.TreeNode.writeJson : TreeNode → Writing
  | .node label cost children => do
    opening '\x7b'
    field "label" label
    field "cost" cost
    key "children"
    opening '['
    TreeNode.writeJsonList children
    closing ']'
    closing '\x7d'

/-- Writes some nodes of a recursion tree. -/
def Recurrence.TreeNode.writeJsonList : List TreeNode → Writing
  | [] => pure ()
  | n :: ns => do
    n.writeJson
    TreeNode.writeJsonList ns

end

variable {R : Type} [Scalar R]

/-- Writes the row of a line. -/
def LineCost.writeJson (row : LineCost R) : Writing := do
  opening '\x7b'
  numberField "line" row.line
  field "code" row.code
  field "cost" row.costText
  field "explanation" row.explanation
  field "origin" row.origin.text
  field "scope" row.scope
  closing '\x7d'

/-- Writes a level of a recursion tree. -/
def Recurrence.TreeLevel.writeJson (l : TreeLevel R) : Writing := do
  opening '\x7b'
  numberField "depth" l.depth
  numberField "node_count" l.nodeCount
  strings "labels" l.labels
  field "node_cost" l.nodeCost
  field "level_cost" l.levelCost
  closing '\x7d'

namespace Report

/-! ## Members of a report -/

/-- Writes the tokens. -/
def writeTokens (r : Report R) : Writing := do
  key "lexer"
  opening '\x7b'
  key "tokens"
  opening '['
  r.tokens.forM Token.writeJson
  closing ']'
  closing '\x7d'

/-- Writes the outline of the program and the number of its statements. -/
def writeParser (r : Report R) : Writing := do
  key "parser"
  opening '\x7b'
  field "ast_dump" r.outline
  numberField "statement_count" r.statementCount
  closing '\x7d'

/-- Writes the rows of the lines. -/
def writeLineCosts (r : Report R) : Writing := do
  key "line_costs"
  opening '\x7b'
  key "rows"
  opening '['
  r.lineCosts.forM LineCost.writeJson
  closing ']'
  closing '\x7d'

/-- Writes the relation. -/
def writeExtraction (r : Report R) : Writing := do
  key "extraction"
  match r.relation with
  | none => null
  | some rel =>
    opening '\x7b'
    field "procedure" rel.procedure
    field "equation" rel.equation
    field "explanation" rel.explanation
    field "base_case" rel.baseCase
    strings "notes" rel.notes
    closing '\x7d'

/-- Writes the conclusion. -/
def writeSolution (r : Report R) : Writing := do
  key "solution"
  opening '\x7b'
  field "main_result" r.mainResult
  key "cases"
  opening '\x7b'
  field "best" r.cases.best.bigOmega
  field "average" r.cases.average.bigTheta
  field "worst" r.cases.worst.bigO
  closing '\x7d'
  field "method_used" r.method
  field "justification" r.justification
  key "math_steps"
  opening '['
  r.steps.forM Step.writeJson
  closing ']'
  key "annotations"
  opening '['
  r.remarks.forM Remark.writeJson
  closing ']'
  key "assumed"
  boolean r.assumed
  closing '\x7d'

/-- Writes the recursion tree. -/
def writeTree (r : Report R) : Writing := do
  key "recursion_tree"
  match r.tree with
  | none => null
  | some t =>
    opening '\x7b'
    key "levels"
    opening '['
    t.levels.forM TreeLevel.writeJson
    closing ']'
    key "structure"
    opening '\x7b'
    numberField "a" t.profile.calls
    field "b" t.profile.divisor
    field "height" t.profile.height
    field "shape" t.profile.shape
    closing '\x7d'
    field "total" t.total
    key "truncated"
    boolean t.truncated
    key "root"
    t.root.writeJson
    closing '\x7d'

/-- Writes the whole report. -/
def writeJson (r : Report R) : Writing := do
  opening '\x7b'
  r.writeTokens
  r.writeParser
  r.writeLineCosts
  r.writeExtraction
  r.writeSolution
  r.writeTree
  strings "warnings" r.warnings
  closing '\x7d'

/-- The report as one line of JSON. -/
def jsonText (r : Report R) : Text := JsonWriter.text r.writeJson ++ [Text.newline]

end Report

end PseudoCost
