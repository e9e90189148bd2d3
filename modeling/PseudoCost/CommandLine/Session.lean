import PseudoCost.Analysis
import PseudoCost.CommandLine
import PseudoCost.Diagnostic
import PseudoCost.Number.Double
import PseudoCost.Report.Json
import PseudoCost.Report.Summary

/-!
# A run of the program

What a run writes and with which status it ends, given its arguments and what it can ask of the
system around it: files, a clock, the colour setting, and whether its errors go to a terminal. A
status of zero means a report, one an error in the source or its file, two an error in the
arguments.
-/

namespace PseudoCost.CommandLine

/-- What a run can ask of the system around it. -/
structure System (m : Type → Type) where
  /-- The content of a file, if it can be read. -/
  content : Text → m (Option Text)
  /-- The current instant in nanoseconds. -/
  clock : m Nat
  /-- The setting that asks for colours. -/
  colorSetting : Option Text := none
  /-- Whether errors go to a terminal. -/
  terminal : Bool := false

/-- What a run wrote and how it ended. -/
structure Result where
  status : Nat
  out : Text := []
  err : Text := []
deriving Repr, DecidableEq

/-- Whether a setting asks for colours. -/
def settingAsksColor (setting : Option Text) : Bool :=
  setting.any fun (t : Text) => t = "1" || t.lower = "true" || t.lower = "yes"

/-- Whether diagnostics are coloured. -/
def ColorMode.wanted (terminal : Bool) (setting : Option Text) : ColorMode → Bool
  | .always => true
  | .never => false
  | .auto => terminal || settingAsksColor setting

/-- What is told about a file that cannot be read. -/
def unreadable (path : Text) : Text := "cannot read '" ++ path ++ "'"

/-! ## What is written -/

/-- The line on a token. -/
def tokenLine (t : Token) : Text :=
  Text.ofInt t.pos.line ++ ":" ++ Text.ofInt t.pos.col ++ " " ++ t.kind.label ++ " " ++ t.text
    ++ "\n"

/-- The tokens of a report, one on each line. -/
def tokensText (tokens : List Token) : Text := "== Tokens ==\n" ++ tokens.flatMap tokenLine

/-- The line on a hint. -/
def hintLine (hint : Text) : Text := "  hint: " ++ hint ++ "\n"

/-- The warnings of a report. -/
def warningsText (warnings : List Text) : Text :=
  warnings.flatMap fun w => programName ++ ": warning: " ++ w ++ "\n"

/-- What was measured, in the form that was asked for, if every stage that is listed has a time. -/
def metricsText? (o : Options) (metrics : Metrics) : Option Text :=
  if o.metricsJson then metrics.summaryJson?
  else if o.metrics then
    metrics.summaryText?.map (· ++ metrics.hints.flatMap hintLine)
  else some []

/-- What is told about an error that has no place. -/
def unhandled (message : Text) : Text := programName ++ ": unhandled exception: " ++ message ++ "\n"

/-- What is written beside a report before the measurements. -/
def asides (o : Options) (report : Report Double) : Text :=
  (if o.tokens then tokensText report.tokens else [])
    ++ (if o.outline then "== AST ==\n" ++ report.outline else [])
    ++ warningsText report.warnings

/-- The result of a run that has a report. A time that is missing among the measurements is an
error. -/
def reported (o : Options) (report : Report Double) (metrics : Metrics) : Result :=
  let out :=
    match o.format with
    | .text => report.summaryText
    | .json => report.jsonText
  match metricsText? o metrics with
  | some measured => { status := 0, out := out, err := asides o report ++ measured }
  | none => { status := 1, out := out, err := asides o report ++ unhandled "map::at" }

/-- The result of a run whose source is at fault. An error without a place is told without the
file. -/
def failed (o : Options) (color : Bool) (path source : Text) (e : Analysis.Error) : Result where
  status := 1
  err :=
    match e.pos? with
    | some pos => (Diagnostic.mk e.message path pos.line pos.col).text color o.context (some source)
    | none => unhandled e.message

/-- The result of a run whose arguments are refused. -/
def refused (r : Refusal) : Result where
  status := 2
  err := r.line ++ (if r.isUsage then programName ++ ": argument parse error\n" ++ usage else [])

/-! ## Runs -/

variable {m : Type → Type} [Monad m]

/-- Analyses a source, measured if that is asked for. -/
def analyze (clock : m Nat) (o : Options) (source : Text) :
    m (Except Analysis.Error (Report Double) × Metrics) := do
  let options : Analysis.Options := { treeDepth := o.treeDepth, buildTree := !o.noTree }
  if o.measured then (Analysis.runWith (Probe.metered clock) options source).run.run {}
  else return (← (Analysis.runWith Probe.silent options source).run, {})

/-- Runs on accepted options. -/
def runOptions (sys : System m) (o : Options) : m Result := do
  match o.inputs with
  | [] => return { status := 2, err := programName ++ ": no input file provided\n" }
  | path :: _ =>
    let color := o.color.wanted sys.terminal sys.colorSetting
    match ← sys.content path with
    | none =>
      return { status := 1
               err := (Diagnostic.mk (unreadable path) path 0 0).text color o.context none }
    | some source =>
      match ← analyze sys.clock o source with
      | (.ok report, metrics) => return reported o report metrics
      | (.error e, _) => return failed o color path source e

/-- Runs on arguments. -/
def run (sys : System m) (args : List Text) : m Result := do
  match Options.ofArgs args with
  | (_, some refusal) => return refused refusal
  | (o, none) =>
    if o.showHelp then return { status := 0, out := usage }
    else runOptions sys o

end PseudoCost.CommandLine
