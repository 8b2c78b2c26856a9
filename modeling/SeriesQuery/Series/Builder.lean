/-
  Putting a series together step by step.

  A builder collects labels, samples, bounds and an alias in any order; `build?` then makes the
  series and applies its rules.  Without bounds the range runs from the first sample to the last
  one.
-/
import SeriesQuery.Series.Basic

namespace SeriesQuery.Series

/-- The parts of a series, as far as they are known. -/
structure Builder where
  step : Int64
  /-- Labels in the order in which they were given. -/
  labels : List (String × String) := []
  samples : List Sample := []
  bounds : Option (Timestamp × Timestamp) := none
  title : Option String := none

namespace Builder

/-- Sets a label; of two with one key the later counts. -/
def label (b : Builder) (key value : String) : Builder :=
  { b with labels := b.labels ++ [(key, value)] }

/-- Appends samples. -/
def points (b : Builder) (samples : List Sample) : Builder :=
  { b with samples := b.samples ++ samples }

/-- Appends one sample. -/
def point (b : Builder) (time : Timestamp) (value : Float) : Builder :=
  b.points [⟨time, value⟩]

/-- Values at `start`, one step later, and so on. -/
def spread (step : Int64) (start : Timestamp) : List Float → List Sample
  | [] => []
  | value :: rest => ⟨start, value⟩ :: spread step (start + step) rest

/-- Appends samples that are one step apart. -/
def range (b : Builder) (start : Timestamp) (values : List Float) : Builder :=
  b.points (spread b.step start values)

/-- Declares the range. -/
def within (b : Builder) (minTime maxTime : Timestamp) : Builder :=
  { b with bounds := some (minTime, maxTime) }

def called (b : Builder) (title : String) : Builder :=
  { b with title := some title }

/-- The series, if its parts fit together. -/
def build? (b : Builder) : Except Error Series :=
  let first := (b.samples.head?.map Sample.time).getD 0
  let last := (b.samples.getLast?.map Sample.time).getD 0
  let (minTime, maxTime) := b.bounds.getD (first, last)
  ofParts? b.samples (Labels.ofList b.labels) minTime maxTime b.step b.title

end Builder

/-- A series of values that are one step apart. -/
def ofValues? (labels : List (String × String)) (start : Timestamp) (step : Int64)
    (values : List Float) : Except Error Series :=
  (Builder.range { step, labels } start values).build?

/-- A series with one sample, told from others by its name. -/
def named? (name : String) : Except Error Series :=
  ofValues? [("name", name)] 0 1 [1.0]

end SeriesQuery.Series
