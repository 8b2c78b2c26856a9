/-
  Stages from named arguments, and the arguments of a stage.

  `Stage.ofArguments?` takes an object of arguments and reads them in a fixed order, so that of two
  faults the earlier one is reported.  `Stage.arguments` gives back the object with every parameter
  in its plain form.
-/
import SeriesQuery.Stage.Basic

namespace SeriesQuery

namespace Json.Members

/-- An argument that may be left out; `null` leaves it out too. -/
def argument? (args : Members) (key : String) : Option Json :=
  match args.get? key with
  | none | some .null => none
  | some j => some j

/-- An argument that is true or false, and false when it is left out. -/
def flag (args : Members) (key : String) : Except Error Bool :=
  match argument? args key with
  | none => .ok false
  | some (.bool b) => .ok b
  | some _ => .error (.invalid (.argumentNotBoolean key))

/-- An argument that is a number, or a string that writes one. -/
def number (args : Members) (key : String) : Except Error Float :=
  match argument? args key with
  | none => .error (.invalid (.argumentMissing key))
  | some (.string s) =>
    match Decimal.float? (Text.trim s.toList) with
    | some x => .ok x
    | none => .error (.invalid (.argumentNotNumeric key s))
  | some j =>
    match j.float? with
    | some x => .ok x
    | none => .error (.invalid (.argumentNotNumber key))

/-- The reference to the aggregation on the right. -/
def reference (args : Members) : Except Error String :=
  match args.get? "right_op_reference" with
  | some (.string s) => if s = "" then .error (.invalid .referenceMissing) else .ok s
  | _ => .error (.invalid .referenceMissing)

/-- The keys that series are matched on. -/
def labelKeys (args : Members) : Except Error (List String) :=
  match argument? args "labels" with
  | none => .ok []
  | some j => (j.strings?).elim (.error (.invalid .labelsNotStrings)) .ok

end Json.Members

namespace Stage

open Json.Members

/-- `head`: a number, cut to an integer, or a string that writes a thirty-two bit integer. -/
def headOfArguments? (args : Json.Members) : Except Error Stage :=
  match argument? args "limit" with
  | none => .ok (head defaultLimit)
  | some (.string s) =>
    match Decimal.int32? s.toList with
    | some n => head? (Int64.ofInt n)
    | none => .error (.invalid (.limitNotInteger s))
  | some j =>
    match j.truncated? with
    | some n => head? n
    | none => .error (.invalid (.limitOfKind j.kindName))

/-- `summarize`: the interval has to be written as an integer. -/
def summarizeOfArguments? (args : Json.Members) : Except Error Stage := do
  let interval ← match argument? args "interval" with
    | none => .error (.invalid (.argumentMissing "interval"))
    | some j => (j.int64?).elim (.error (.invalid (.argumentNotNumber "interval"))) .ok
  let summary ← match args.get? "function" with
    | none => .error (.invalid (.argumentMissing "function"))
    | some (.string s) => Summary.parse? s
    | some _ => .error (.invalid (.argumentNotString "function"))
  let alignToStart ← flag args "alignToFrom"
  checked (summarize { interval, summary, alignToStart })

/-- `arithmetic`: operator, reference, label keys, and whether unmatched times are kept. -/
def arithmeticOfArguments? (args : Json.Members) : Except Error Stage := do
  let operator ← match args.get? "op" with
    | some (.string s) => Operator.parse? s
    | _ => .error (.invalid .operatorMissing)
  let right ← reference args
  let labels ← labelKeys args
  let keepUnmatched ← flag args "keep_nans"
  checked (arithmetic { operator, right, labels, keepUnmatched })

/-- The stage with a name and arguments. -/
def ofArguments? (name : String) (args : Json.Members) : Except Error Stage :=
  match name with
  | "head" => headOfArguments? args
  | "summarize" => summarizeOfArguments? args
  | "scale" => do checked (scale (← number args "factor"))
  | "scaleToSeconds" => do checked (scaleToSeconds (← number args "seconds"))
  | "arithmetic" => arithmeticOfArguments? args
  | "union" => do checked (union (← reference args))
  | _ => .error (.invalid (.unknownStage name))

/-- The arguments that a stage is built from. -/
def arguments : Stage → Json.Members
  | head limit => [("limit", .integer limit.toNat)]
  | summarize d =>
    [ ("interval", .ofInt64 d.interval),
      ("function", .string d.summary.name),
      ("alignToFrom", .bool d.alignToStart) ]
  | scale factor => [("factor", .real factor)]
  | scaleToSeconds seconds => [("seconds", .real seconds)]
  | arithmetic a =>
    [ ("op", .string a.operator.name),
      ("right_op_reference", .string a.right),
      ("labels", .ofStrings a.labels),
      ("keep_nans", .bool a.keepUnmatched) ]
  | union right => [("right_op_reference", .string right)]

/-- The arguments of a stage as a document. -/
def explanation (s : Stage) : Json := .object s.arguments

end Stage
end SeriesQuery
