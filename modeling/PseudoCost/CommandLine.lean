import PseudoCost.Text

/-!
# The command line

The options of the program and how its arguments set them. Each argument is first told apart by its
form, then applied to the options; everything after `--` is an input file. The first argument that
cannot be applied ends the reading, and the options set so far are left as they are.
-/

namespace PseudoCost.CommandLine

/-- The name under which the program speaks. -/
def programName : Text := "asympt"

/-! ## Options -/

/-- The form of the report. -/
inductive Format where
  | json | text
deriving Repr, DecidableEq

/-- When diagnostics are coloured. -/
inductive ColorMode where
  | auto | always | never
deriving Repr, DecidableEq

/-- The colour mode with a name. -/
def ColorMode.ofText? (t : Text) : Option ColorMode :=
  if t = "always" then some .always
  else if t = "never" then some .never
  else if t = "auto" then some .auto
  else none

/-- The options of a run. -/
structure Options where
  showHelp : Bool := false
  format : Format := .json
  jsonRequested : Bool := false
  textRequested : Bool := false
  treeDepth : Int := 6
  noTree : Bool := false
  /-- Whether the outline of the program is shown. -/
  outline : Bool := false
  tokens : Bool := false
  metrics : Bool := false
  metricsJson : Bool := false
  inputs : List Text := []
  color : ColorMode := .auto
  /-- How many lines are shown before the line of an error. -/
  context : Int := 1
deriving Repr, DecidableEq

/-- Whether the stages of the analysis are measured. -/
def Options.measured (o : Options) : Bool := o.metrics || o.metricsJson

/-! ## Refusals -/

/-- Why arguments are refused. -/
inductive Refusal where
  | unknownOption (arg : Text)
  | conflictingFormats
  | severalInputs
  | notAColor (value : Text)
  | notAnInteger (option value : Text)
  | depthOutOfRange (depth : Int)
deriving Repr, DecidableEq

/-- The least depth of a recursion tree that can be asked for. -/
def minTreeDepth : Int := 1

/-- The largest depth of a recursion tree that can be asked for. -/
def maxTreeDepth : Int := 12

namespace Refusal

/-- Whether the use of the options is at fault, rather than a value given to one of them. -/
def isUsage : Refusal → Bool
  | .unknownOption _ | .conflictingFormats | .severalInputs => true
  | .notAColor _ | .notAnInteger .. | .depthOutOfRange _ => false

/-- What is wrong. -/
def message : Refusal → Text
  | .unknownOption arg => "unknown option '" ++ arg ++ "'"
  | .conflictingFormats => "cannot use --json and --text together"
  | .severalInputs => "expected exactly one input file"
  | .notAColor value => "--color expects always|never|auto, got '" ++ value ++ "'"
  | .notAnInteger option value => option ++ " expects an integer, got '" ++ value ++ "'"
  | .depthOutOfRange depth =>
    "--tree-depth must be between " ++ Text.ofInt minTreeDepth ++ " and "
      ++ Text.ofInt maxTreeDepth ++ ", got " ++ Text.ofInt depth

/-- The line that tells what is wrong. -/
def line (r : Refusal) : Text := programName ++ ": " ++ r.message ++ "\n"

end Refusal

/-! ## Values -/

/-- The number in decimal digits, if there are digits and nothing else. -/
def digits? (t : Text) : Option Nat :=
  if t.isEmpty || !t.all Text.isDigit then none else some (Text.digitsValue t)

/-- The integer in decimal, with a minus sign or without a sign. -/
def signedDigits? : Text → Option Int
  | [] => none
  | b :: rest =>
    if b = Text.byte '-' then (digits? rest).map fun n => -(n : Int)
    else (digits? (b :: rest)).map fun n => (n : Int)

/-- The value of an option that takes an integer of 32 bits. -/
def integer (option value : Text) : Except Refusal Int :=
  match (signedDigits? value).filter fun i => decide (-2147483648 ≤ i ∧ i < 2147483648) with
  | some i => .ok i
  | none => .error (.notAnInteger option value)

/-- The depth of a recursion tree. -/
def depth (value : Text) : Except Refusal Int := do
  let d ← integer "--tree-depth" value
  if d < minTreeDepth ∨ maxTreeDepth < d then .error (.depthOutOfRange d) else return d

/-- The colour mode. -/
def color (value : Text) : Except Refusal ColorMode :=
  match ColorMode.ofText? value with
  | some mode => .ok mode
  | none => .error (.notAColor value)

/-! ## Arguments -/

/-- An argument, told apart by its form. -/
inductive Argument where
  | endOfOptions
  | help | json | text | noTree | outline | tokens | metrics | metricsJson
  | treeDepth (value : Text)
  | color (value : Text)
  | context (value : Text)
  | unknown (arg : Text)
  | input (path : Text)
deriving Repr, DecidableEq

/-- The arguments that stand for themselves. -/
def words : List (Text × Argument) :=
  [("--", .endOfOptions), ("-h", .help), ("--help", .help), ("--json", .json), ("--text", .text),
   ("--no-tree", .noTree), ("--ast-log", .outline), ("--tokens", .tokens), ("--metrics", .metrics),
   ("--metrics-json", .metricsJson)]

/-- What follows a beginning, if the text begins so. -/
def after? (beginning t : Text) : Option Text :=
  if beginning.isPrefixOf t then some (t.drop beginning.length) else none

/-- The argument that carries a value, if it is one. -/
def valued? (t : Text) : Option Argument :=
  ((after? "--tree-depth=" t).map .treeDepth).or
    (((after? "--color=" t).map .color).or ((after? "--diag-context=" t).map .context))

/-- Whether a text has the form of an option. A lone dash has not. -/
def looksLikeOption : Text → Bool
  | b :: _ :: _ => b == Text.byte '-'
  | _ => false

/-- Tells an argument apart. -/
def Argument.ofText (t : Text) : Argument :=
  ((words.lookup t).or (valued? t)).getD (if looksLikeOption t then .unknown t else .input t)

namespace Options

/-- Applies an argument. -/
def apply (o : Options) : Argument → Except Refusal Options
  | .endOfOptions => .ok o
  | .help => .ok { o with showHelp := true }
  | .json => .ok { o with jsonRequested := true, format := .json }
  | .text => .ok { o with textRequested := true, format := .text }
  | .noTree => .ok { o with noTree := true }
  | .outline => .ok { o with outline := true }
  | .tokens => .ok { o with tokens := true }
  | .metrics => .ok { o with metrics := true }
  | .metricsJson => .ok { o with metricsJson := true }
  | .treeDepth value => return { o with treeDepth := ← depth value }
  | .color value => return { o with color := ← CommandLine.color value }
  | .context value => return { o with context := max (← integer "--diag-context" value) 0 }
  | .unknown arg => .error (.unknownOption arg)
  | .input path => .ok { o with inputs := o.inputs ++ [path] }

/-- Applies arguments in turn, up to the first that is refused. -/
def applyAll (o : Options) : List Text → Options × Option Refusal
  | [] => (o, none)
  | t :: rest =>
    match Argument.ofText t with
    | .endOfOptions => ({ o with inputs := o.inputs ++ rest }, none)
    | arg =>
      match o.apply arg with
      | .ok o' => applyAll o' rest
      | .error r => (o, some r)

/-- What is wrong with options that were all applied. -/
def conflict? (o : Options) : Option Refusal :=
  if o.jsonRequested && o.textRequested then some .conflictingFormats
  else if 1 < o.inputs.length then some .severalInputs
  else none

/-- The options that arguments set, and why the arguments are refused, if they are. -/
def ofArgs (args : List Text) : Options × Option Refusal :=
  let (o, refusal) := applyAll {} args
  (o, refusal.or o.conflict?)

end Options

/-! ## Help -/

/-- The options with what each does. -/
def optionHelp : List (Text × Text) :=
  [("-h, --help", "Print this help and exit"),
   ("--json", "Write the analysis report as JSON (default)"),
   ("--text", "Write a plain-text summary instead of JSON"),
   ("--tree-depth=<N>", "Recursion tree depth, 1..12 (default: 6)"),
   ("--no-tree", "Skip recursion tree construction"),
   ("--ast-log", "Print the AST dump to stderr"),
   ("--tokens", "Print the token stream to stderr"),
   ("--metrics", "Print analysis metrics summary"),
   ("--metrics-json", "Print analysis metrics in JSON"),
   ("--color=<mode>", "Color diagnostics: always|never|auto (default: auto)"),
   ("--diag-context=<N>", "Lines of context to show around errors (default: 1)"),
   ("--", "End of options")]

/-- The line on an option. -/
def helpLine (option help : Text) : Text := "  " ++ Text.padRight 21 option ++ help ++ "\n"

/-- The help of the program. -/
def usage : Text :=
  programName ++ " [options] file\n\nOptions:\n"
    ++ optionHelp.flatMap fun (option, help) => helpLine option help

end PseudoCost.CommandLine
