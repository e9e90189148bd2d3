import PseudoCost.Metrics.Probe
import PseudoCost.Token.Lexer
import PseudoCost.Program.Reading
import PseudoCost.Program.Outline
import PseudoCost.Program.Geometry
import PseudoCost.Recurrence.Derivation
import PseudoCost.Report

/-!
# The analysis of a source

A source is cut into tokens, read as a program, and judged: line by line, by its structure, and by
the recurrence of its primary procedure. A source that cannot be read is an error; every doubt after
that becomes a remark in the report.

A solved recurrence bounds the whole program only when the program costs exactly what its primary
procedure costs. Otherwise the bound becomes the cost of that procedure, and the program is judged
again by its structure.
-/

namespace PseudoCost

open Recurrence

namespace Analysis

/-- What is asked of an analysis: whether to draw the recursion tree, and how deep. -/
structure Options where
  treeDepth : Int := 6
  buildTree : Bool := true
deriving Repr, DecidableEq

/-- Why a source could not be analysed. -/
inductive Error where
  /-- It could not be cut into tokens. -/
  | lexical (error : Token.Error)
  /-- Its tokens could not be read as a program. -/
  | grammatical (failure : Failure)
deriving Repr, DecidableEq

namespace Error

/-- Where the error is, if it has a place. -/
def pos? : Error → Option Pos
  | .lexical e => some e.pos
  | .grammatical f => f.pos?

/-- What is wrong, without the place, up to the first NUL byte. -/
def message : Error → Text
  | .lexical e => e.detail.beforeNul
  | .grammatical f => f.detail.beforeNul

end Error

variable {R : Type} [Scalar R]

/-- The recurrence of the primary procedure of a program, with the name of that procedure. -/
def primaryRelation? (p : Program) (source : Text) : Option (Name × Relation R) :=
  p.primary?.bind fun n => (Relation.ofName? p source n).map fun rel => (n, rel)

/-- Judges a program in view of a solved procedure, and tells whether the procedure costs what the
whole program costs. If it does not, its bound is put in force and the program is judged again. -/
def placeSolution (n : Name) (s : Solution R) (v : Verdict R) :
    StateM (Engine R) (Verdict R × Bool) := do
  if ← Engine.entryCostIs n then return (v, true)
  else
    let own := (← Engine.procedure n).cases
    Engine.useSolved n (Cases.widened s.bound own)
    return (← Engine.analyze, false)

/-- The warnings on a program. -/
def warnings (p : Program) : List Text :=
  if p.statementCount = 0 then ["Program body is empty"] else []

/-! ## Stages -/

section Stages

variable {m : Type → Type} [Monad m] (probe : Probe m)

/-- Reads a source as tokens and a program. -/
def read (source : Text) : ExceptT Error m (List Token × Program) := do
  let tokens ← ExceptT.mk (probe.stage "Lex" fun _ => (Token.scan source).mapError .lexical)
  probe.note (·.setCounter "lex.tokens" tokens.length.toUInt64)
  let program ←
    ExceptT.mk (probe.stage "Parse" fun _ => (Program.ofTokens tokens).mapError .grammatical)
  let g := program.geometry
  probe.note fun metrics =>
    ((metrics.setCounter "parse.procedures" program.procedures.length.toUInt64).setGeometry
      g.nodes.toUInt64 g.maxDepth.toUInt64).setCounter "ast.nodes" g.nodes.toUInt64
  return (tokens, program)

/-- Solves a relation. -/
def solve (rel : Relation R) : m (Outcome R) := do
  let outcome ← probe.stage "Solve" fun _ => Recurrence.solve rel
  match outcome with
  | .solved _ => return outcome
  | .unsolvable .. =>
    probe.note (·.count "solve.failed" 1)
    return outcome

/-- Draws the recursion tree of a relation. -/
def draw (options : Options) (rel : Relation R) : m (Option (CallTree R)) := do
  if options.buildTree then
    let plan : TreePlan R := { relation := rel, maxDepth := options.treeDepth }
    let tree ← probe.stage "Tree" fun _ => plan.tree
    probe.note (·.setGauge "tree.nodes" tree.root.size.toUInt64)
    return some tree
  else return none

/-- Judges a program by its structure and by the recurrence of its primary procedure. -/
def judge (options : Options) (source : Text) (p : Program) : m (Report R) := do
  let (first, engine) ← probe.stage "Structural" fun _ => Engine.analyze.run (Engine.ofProgram p)
  match ← probe.stage "Extract" fun _ => primaryRelation? p source with
  | none => probe.stage "Resolve" fun _ => Report.resolve first none none none true
  | some (n, rel) =>
    let outcome ← solve probe rel
    let tree ← draw probe options rel
    let (v, programLevel) ←
      match outcome with
      | .solved s => probe.stage "Structural" fun _ => ((placeSolution n s first).run engine).1
      | .unsolvable .. => pure (first, true)
    probe.stage "Resolve" fun _ => Report.resolve v (some rel) (some outcome) tree programLevel

/-- Analyses a program that was read from a source. -/
def examine (options : Options) (source : Text) (tokens : List Token) (p : Program) :
    m (Report R) := do
  let rows ← probe.stage "LineCosts" fun _ => LineCost.ofProgram p source
  let report ← judge probe options source p
  probe.note (·.setCounter "analysis.unresolved_loops"
    (report.remarks.countP (·.kind == .unresolvedProgress)).toUInt64)
  return { report with
    tokens := tokens
    outline := p.outline.text
    lineCosts := rows
    statementCount := p.statementCount
    warnings := warnings p }

/-- Analyses a source. -/
def runWith (options : Options) (source : Text) : ExceptT Error m (Report R) := do
  let (tokens, p) ← read probe source
  ExceptT.lift (examine probe options source tokens p)

/-- Analyses a source. If its grammar is at fault, a corrector is asked once for another source,
which is analysed instead. -/
def runCorrecting (correct : Failure → Text → m (Option Text)) (options : Options)
    (source : Text) : ExceptT Error m (Report R) :=
  tryCatch (runWith probe options source) fun error => do
    match error with
    | .grammatical (.mismatch expected cursor) =>
      match ← correct (.mismatch expected cursor) source with
      | some other => runWith probe options other
      | none => throw error
    | _ => throw error

end Stages

/-- Analyses a source, measuring nothing. -/
def run (options : Options) (source : Text) : Except Error (Report R) :=
  (runWith (Probe.silent (m := Id)) options source).run

end Analysis

end PseudoCost
