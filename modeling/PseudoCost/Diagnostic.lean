import PseudoCost.Text

/-!
# Diagnostics

An error in a file is told in one line with its place, followed by the source line at fault, a few
lines before it, and a caret under the column. Columns count code points, so the caret is placed by
as many spaces, whatever the width of the line.
-/

namespace PseudoCost

/-- An error in a file. A line of zero means the file as a whole. -/
structure Diagnostic where
  message : Text
  file : Text
  line : Int := 0
  col : Int := 0
deriving Repr, DecidableEq

namespace Diagnostic

/-- A text in a terminal style, if colours are wanted. -/
def styled (color : Bool) (style text : Text) : Text :=
  if color then "\x1b[" ++ style ++ "m" ++ text ++ "\x1b[0m" else text

/-- The place of the error, left out when no file is named. -/
def header (d : Diagnostic) (color : Bool) : Text :=
  if d.file.isEmpty then []
  else styled color "1" (d.file ++ ":" ++ Text.ofInt d.line ++ ":" ++ Text.ofInt d.col ++ ": ")

/-- The lines of a source from `context` before a line up to it, if the source has that line. -/
def window? (source : Text) (line context : Nat) : Option (List Text) :=
  let lines := source.lines
  if lines.length < line then none
  else some ((lines.take line).drop (line - 1 - context))

/-- The source at the error with the caret, if the error has a place in a source. -/
def excerpt (d : Diagnostic) (context : Int) (source : Option Text) : Text :=
  if d.file.isEmpty || d.line ≤ 0 || d.col ≤ 0 then []
  else
    match source.bind (window? · d.line.toNat context.toNat) with
    | none => []
    | some lines =>
      let shown : List Text := lines ++ [Text.spaces (d.col.toNat - 1) ++ [Text.byte '^']]
      shown.flatMap fun l => "  " ++ l ++ [Text.newline]

/-- The text of a diagnostic. -/
def text (d : Diagnostic) (color : Bool) (context : Int) (source : Option Text) : Text :=
  d.header color ++ styled color "31" "error: " ++ d.message ++ "\n" ++ d.excerpt context source

end Diagnostic

end PseudoCost
