/-
  Comparing results with what was expected of them.

  Two values agree when they are both "not a number", when they are equal, or when they differ by no
  more than a billionth: of one, or of the expected value if that is larger.
-/
import SeriesQuery.Series.Basic

namespace SeriesQuery

/-- How far a value may be off, in relation to the expected one. -/
def tolerance : Float := 1e-9

/-- Whether a value is close enough to the expected one. -/
def valuesAgree (actual expected : Float) : Bool :=
  (actual.isNaN && expected.isNaN) || actual == expected ||
    (actual - expected).abs ≤ tolerance * (if 1.0 ≤ expected.abs then expected.abs else 1.0)

/-- Whether two lists of samples have the same times and values that agree. -/
def samplesAgree : (actual expected : List Sample) → Bool
  | [], [] => true
  | a :: as, e :: es => a.time == e.time && valuesAgree a.value e.value && samplesAgree as es
  | _, _ => false

/-- Whether the samples of a series are at exactly these times. -/
def timesAre (s : Series) (expected : List Timestamp) : Bool :=
  s.samples.map Sample.time == expected

/-- Whether the series of a list have exactly these values of a label. -/
def labelValuesAre (series : List Series) (key : String) (expected : List String) : Bool :=
  series.map (fun s => s.labels.get? key) == expected.map some

end SeriesQuery
