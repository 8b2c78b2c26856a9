/-
  Series and spans as JSON documents.

  Writing gives an object with its members in a fixed order.  Reading takes the members in any
  order and ignores others, and takes a plain list of the values in that same order as well.  It
  asks for the right kinds of values only: whether the series is a proper one is not its concern.
-/
import SeriesQuery.Json.Basic
import SeriesQuery.Series.Basic

namespace SeriesQuery

/-- The value of a member that has to be there, or of the list item in its place. -/
def required (members : Json.Members) (key : String) (read : Json → Option α) : Option α :=
  (Json.Members.get? members key).bind read

namespace Sample

def toJson (s : Sample) : Json :=
  .object [("timestamp", .ofInt64 s.time), ("value", .real s.value)]

/-- A sample from an object or from a list of time and value. -/
def ofJson? : Json → Option Sample
  | .object members => do
    let time ← required members "timestamp" Json.int64?
    let value ← required members "value" Json.float?
    return { time, value }
  | .array [time, value] => do
    return { time := ← time.int64?, value := ← value.float? }
  | _ => none

end Sample

namespace Labels

def toJson (labels : Labels) : Json :=
  .object (labels.pairs.map fun (k, v) => (k, .string v))

/-- A set from an object whose members are all strings. -/
def ofJson? : Json → Option Labels
  | .object members => do
    return ofList (← members.mapM fun (k, v) => v.string?.map fun s => (k, s))
  | _ => none

end Labels

/-- A string that may be missing. -/
def optionalString? : Json → Option (Option String)
  | .null => some none
  | .string s => some (some s)
  | _ => none

namespace Series

def toJson (s : Series) : Json :=
  .object
    [ ("samples", .array (s.samples.map Sample.toJson)),
      ("labels", s.labels.toJson),
      ("min_timestamp", .ofInt64 s.minTime),
      ("max_timestamp", .ofInt64 s.maxTime),
      ("step", .ofInt64 s.step),
      ("alias", .ofOption .string s.title) ]

/-- The samples of a list. -/
def samplesOfJson? (j : Json) : Option (List Sample) := do
  (← j.array?).mapM Sample.ofJson?

/-- A series from an object, where the alias may be left out, or from a list of all six values. -/
def ofJson? : Json → Option Series
  | .object members => do
    let samples ← required members "samples" samplesOfJson?
    let labels ← required members "labels" Labels.ofJson?
    let minTime ← required members "min_timestamp" Json.int64?
    let maxTime ← required members "max_timestamp" Json.int64?
    let step ← required members "step" Json.int64?
    let title ← optionalString? ((Json.Members.get? members "alias").getD .null)
    return { samples, labels, minTime, maxTime, step, title }
  | .array [samples, labels, minTime, maxTime, step, title] => do
    return {
      samples := ← samplesOfJson? samples
      labels := ← Labels.ofJson? labels
      minTime := ← minTime.int64?
      maxTime := ← maxTime.int64?
      step := ← step.int64?
      title := ← optionalString? title }
  | _ => none

end Series

def Window.toJson (w : Window) : Json :=
  .object [("start", .ofInt64 w.start), ("end", .ofInt64 w.stop)]

end SeriesQuery
