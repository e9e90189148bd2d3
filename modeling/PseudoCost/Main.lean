import PseudoCost.CommandLine.Session

/-!
# The program

Asks the system for what a run needs, and writes what the run says.
-/

namespace PseudoCost

open CommandLine

/-- The content of a file, if it can be read. A directory reads as an empty file. -/
def contentOf? (path : Text) : IO (Option Text) := do
  match String.fromUTF8? ⟨path.toArray⟩ with
  | none => return none
  | some name =>
    try
      return some (← IO.FS.readBinFile name).data.toList
    catch
      | .inappropriateType .. => return some []
      | _ => return none

/-- Writes a text as it is. -/
def put (stream : IO.FS.Stream) (t : Text) : IO Unit := stream.write ⟨t.toArray⟩

end PseudoCost

open PseudoCost in
/-- Runs on the arguments of the process. -/
def main (args : List String) : IO UInt32 := do
  let setting ← IO.getEnv "ASYMPT_COLOR"
  let terminal ← (← IO.getStderr).isTty
  let sys : CommandLine.System IO :=
    { content := contentOf?
      clock := IO.monoNanosNow
      colorSetting := setting.map Text.ofString
      terminal := terminal }
  let result ← CommandLine.run sys (args.map Text.ofString)
  put (← IO.getStdout) result.out
  put (← IO.getStderr) result.err
  return result.status.toUInt32
