/-
  Arithmetic between two lists of series.

  Several series on the right that match one on the left are first added up, time by time.  A time
  that only one side has gives "not a number" where such times are kept.
-/
import SeriesQuery.Decimal.Binary64
import SeriesQuery.Stage.Projection
import SeriesQuery.Text.Blank

namespace SeriesQuery

/-- The four operators. -/
inductive Operator
  | add
  | subtract
  | multiply
  | divide
  deriving Repr, DecidableEq

namespace Operator

def name : Operator → String
  | add => "add"
  | subtract => "subtract"
  | multiply => "multiply"
  | divide => "divide"

/-- The operator with a name or a sign.  Blanks around it and the case of letters do not matter. -/
def parse? (name : String) : Except Error Operator :=
  match String.ofList (Text.keyword name) with
  | "add" | "+" | "sum" => .ok add
  | "subtract" | "-" | "diff" => .ok subtract
  | "multiply" | "*" => .ok multiply
  | "divide" | "/" => .ok divide
  | _ => .error (.invalid (.unknownOperator name))

/-- The result for two values.  A quotient by zero is "not a number". -/
def apply (op : Operator) (x y : Float) : Float :=
  match op with
  | add => x + y
  | subtract => x - y
  | multiply => x * y
  | divide => if y == 0.0 then Binary64.notANumber else x / y

end Operator

/-! ## Adding up series -/

/-- Adds a value at a time.  The samples are in ascending order of time, and stay so. -/
def addAt (time : Timestamp) (value : Float) : List Sample → List Sample
  | [] => [⟨time, 0.0 + value⟩]
  | x :: rest =>
    if time < x.time then ⟨time, 0.0 + value⟩ :: x :: rest
    else if time = x.time then ⟨time, x.value + value⟩ :: rest
    else x :: addAt time value rest

/-- One sample for each time, its value the sum of the values there, added in the order given. -/
def sumSamples (samples : List Sample) : List Sample :=
  samples.foldl (fun sums x => addAt x.time x.value sums) []

/-- Several series added up; one is left as it is.  Labels, step and alias are those of the first
    one, and the range covers all of them. -/
def sumSeries : List Series → Option Series
  | [] => none
  | [only] => some only
  | first :: rest => some
    { first with
      samples := sumSamples ((first :: rest).flatMap Series.samples)
      minTime := rest.foldl (fun t s => earlier t s.minTime) first.minTime
      maxTime := rest.foldl (fun t s => later t s.maxTime) first.maxTime }

/-! ## The stage -/

/-- An operator with what it needs to know about its right operand. -/
structure Arithmetic where
  operator : Operator
  /-- The reference to the aggregation on the right. -/
  right : String
  /-- The keys that series are matched on. -/
  labels : List String
  /-- Whether a time that only one side has gives a sample. -/
  keepUnmatched : Bool
  deriving Repr, DecidableEq

namespace Arithmetic

/-- The sample of a pair. -/
def combine (a : Arithmetic) : Option Sample → Option Sample → Option Sample
  | some l, some r => some ⟨l.time, a.operator.apply l.value r.value⟩
  | some only, none | none, some only => some ⟨only.time, Binary64.notANumber⟩
  | none, none => none

def projection (a : Arithmetic) : Projection where
  name := "arithmetic"
  labelKeys := a.labels
  keepUnmatched := a.keepUnmatched
  combine := a.combine
  merge := sumSeries

end Arithmetic
end SeriesQuery
