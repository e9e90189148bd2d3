import PseudoCost.Number.Exact

/-!
# Metrics

What a run of the analyser measured: how long each stage took, the size of the program, and named
counts. Stages are timed between a start and a stop; a stop without a start that is still pending
changes nothing. The times of a stage add up under its name, and stages are listed in the order in
which they first finished. Counts are words of 64 bits that wrap around, listed by name.

The order of the stages is kept apart from their times, so a summary looks up the time of every
stage that it lists, and there is none if a time is missing.
-/

namespace PseudoCost

/-! ## Tallies -/

/-- Named words, in bytewise order of their names. -/
abbrev Tally := List (Text × UInt64)

namespace Tally

/-- Changes the word with a name, which is zero until it is first changed. -/
def update (key : Text) (f : UInt64 → UInt64) : Tally → Tally
  | [] => [(key, f 0)]
  | (k, v) :: rest =>
    if key < k then (key, f 0) :: (k, v) :: rest
    else if key = k then (k, f v) :: rest
    else (k, v) :: update key f rest

/-- Whether the word with a name is above a bound. -/
def exceeds (t : Tally) (key : Text) (bound : UInt64) : Bool := (t.lookup key).any (bound < ·)

end Tally

/-! ## Measurements -/

/-- What a run measured. Instants are counted in nanoseconds. -/
structure Metrics where
  /-- The stages that have started and not stopped, with the instants of their starts. -/
  pending : List (Text × Nat) := []
  /-- The microseconds of each stage that has finished. -/
  durations : Tally := []
  /-- The stages in the order in which they first finished. -/
  order : List Text := []
  /-- The number of nodes and the depth of the program. -/
  geometry : Option (UInt64 × UInt64) := none
  counters : Tally := []
  gauges : Tally := []
deriving Repr, DecidableEq

namespace Metrics

/-- Starts the clock of a stage, anew if it is running. -/
def start (m : Metrics) (stage : Text) (now : Nat) : Metrics :=
  { m with pending := (stage, now) :: m.pending.filter (·.1 != stage) }

/-- Stops the clock of a stage, if it is running. A stage that has no time yet is put last in the
order. -/
def stop (m : Metrics) (stage : Text) (now : Nat) : Metrics :=
  match m.pending.lookup stage with
  | none => m
  | some began =>
    { m with
      pending := m.pending.filter (·.1 != stage)
      order := if (m.durations.lookup stage).isNone then m.order ++ [stage] else m.order
      durations := m.durations.update stage (· + ((now - began) / 1000).toUInt64) }

/-- Adds to a counter. -/
def count (m : Metrics) (key : Text) (delta : UInt64) : Metrics :=
  { m with counters := Tally.update key (· + delta) m.counters }

/-- Sets a counter. -/
def setCounter (m : Metrics) (key : Text) (value : UInt64) : Metrics :=
  { m with counters := Tally.update key (fun _ => value) m.counters }

/-- Sets a gauge. -/
def setGauge (m : Metrics) (key : Text) (value : UInt64) : Metrics :=
  { m with gauges := Tally.update key (fun _ => value) m.gauges }

/-- Sets the size of the program. -/
def setGeometry (m : Metrics) (nodes depth : UInt64) : Metrics :=
  { m with geometry := some (nodes, depth) }

/-- The number of nodes above which a recursion tree is large. -/
def largeTree : UInt64 := 512

/-- Short words on what the counts show. -/
def hints (m : Metrics) : List Text :=
  let given (shown : Bool) (hint : Text) : List Text := if shown then [hint] else []
  given (m.counters.exceeds "analysis.unresolved_loops" 0) "unresolved_progress_present"
    ++ given (m.counters.exceeds "solve.failed" 0) "solver_failed"
    ++ given (m.gauges.exceeds "tree.nodes" largeTree) "large_tree"

/-- The stages in the order in which they first finished, each with its time, if none of them is
without one. -/
def timed? (m : Metrics) : Option (List (Text × UInt64)) :=
  m.order.mapM fun stage => (m.durations.lookup stage).map fun micros => (stage, micros)

/-! ## Summaries -/

/-- A word in decimal. -/
def wordText (w : UInt64) : Text := Text.ofNat w.toNat

/-- A number of microseconds in milliseconds. -/
def millisText (micros : UInt64) : Text := (Exact.finite false micros.toNat 1000).fixed 3

/-- The line on the time of a stage. -/
def stageLine (stage : Text) (micros : UInt64) : Text :=
  "  " ++ Text.padRight 12 stage ++ millisText micros ++ " ms\n"

/-- The lines on the times of stages and their sum, if there are any. -/
def timeLines : List (Text × UInt64) → Text
  | [] => []
  | stages =>
    stages.flatMap (fun (stage, micros) => stageLine stage micros)
      ++ stageLine "total" (stages.foldl (fun sum (_, micros) => sum + micros) 0)

/-- The line on the size of the program, if it is known. -/
def geometryLine (m : Metrics) : Text :=
  match m.geometry with
  | none => []
  | some (nodes, depth) =>
    "  AST: nodes=" ++ wordText nodes ++ ", max_depth=" ++ wordText depth ++ "\n"

/-- The lines on some counts. -/
def tallyLines (t : Tally) : Text :=
  t.flatMap fun (key, value) => "  " ++ key ++ ": " ++ wordText value ++ "\n"

/-- The measurements as text, with the given times of the stages. -/
def textWith (m : Metrics) (stages : List (Text × UInt64)) : Text :=
  "== Metrics ==\n" ++ timeLines stages ++ m.geometryLine ++ tallyLines m.counters
    ++ tallyLines m.gauges

/-- An object with one member on each line. -/
def jsonBlock (members : List (Text × Text)) : Text :=
  let lines := members.map fun (key, value) => "    \"" ++ key ++ "\": " ++ value
  "\x7b" ++ (if lines.isEmpty then [] else "\n" ++ Text.join ",\n" lines : Text) ++ "\n  \x7d"

/-- A member of the summary that follows others. -/
def jsonMember (key value : Text) : Text := ",\n  \"" ++ key ++ "\": " ++ value

/-- The size of the program as a member, if it is known. -/
def geometryJson (m : Metrics) : Text :=
  match m.geometry with
  | none => []
  | some (nodes, depth) =>
    jsonMember "ast" ("\x7b \"nodes\": " ++ wordText nodes ++ ", \"max_depth\": " ++ wordText depth
      ++ " \x7d")

/-- Some counts as a member, left out when there are none. -/
def tallyJson (key : Text) : Tally → Text
  | [] => []
  | entries => jsonMember key (jsonBlock (entries.map fun (k, v) => (k, wordText v)))

/-- The hints as a member, left out when there are none. -/
def hintsJson (m : Metrics) : Text :=
  match m.hints with
  | [] => []
  | hints =>
    jsonMember "hints" ("[" ++ Text.join ", " (hints.map fun h => "\"" ++ h ++ "\"") ++ "]")

/-- The measurements as JSON, with the given times of the stages. Names are written as they are,
those of stages in small letters. -/
def jsonWith (m : Metrics) (stages : List (Text × UInt64)) : Text :=
  "\x7b\n  \"durations_ms\": "
    ++ jsonBlock (stages.map fun (stage, micros) => (Text.lower stage, millisText micros))
    ++ m.geometryJson ++ tallyJson "counters" m.counters ++ tallyJson "gauges" m.gauges
    ++ m.hintsJson ++ "\n\x7d\n"

/-- The measurements as text, if every stage that is listed has a time. -/
def summaryText? (m : Metrics) : Option Text := m.timed?.map m.textWith

/-- The measurements as JSON, if every stage that is listed has a time. -/
def summaryJson? (m : Metrics) : Option Text := m.timed?.map m.jsonWith

/-! For metrics that list no stage without a time, as those of every run do. -/

/-- The stages with their times, in the order in which they first finished. -/
def finished (m : Metrics) : List (Text × UInt64) := m.timed?.getD []

/-- The measurements as text. -/
def summaryText (m : Metrics) : Text := m.textWith m.finished

/-- The measurements as JSON. -/
def summaryJson (m : Metrics) : Text := m.jsonWith m.finished

end Metrics

end PseudoCost
