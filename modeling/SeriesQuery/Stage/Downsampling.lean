/-
  Downsampling: one sample for each bucket of a series that holds samples.

  The samples are read once, from the first to the last, with the bucket that is open at the
  moment.  A sample in the open bucket goes to its accumulator; one beyond it closes the bucket
  and opens its own, so empty buckets cost nothing.  Bucket starts are integers here: that they
  fit sixty-four bits follows from the two outermost ones, which are checked beforehand.
-/
import SeriesQuery.Buckets
import SeriesQuery.Series.Basic
import SeriesQuery.Summary.Accumulator

namespace SeriesQuery

/-- How a series is made coarser. -/
structure Downsampling where
  interval : Int64
  summary : Summary
  /-- Buckets start at the beginning of the series instead of at multiples of the interval. -/
  alignToStart : Bool
  deriving Repr, DecidableEq

instance : BEq Downsampling where
  beq d e := d.interval == e.interval && d.summary == e.summary && d.alignToStart == e.alignToStart

namespace Downsampling

/-- Refuses an interval that is not positive and a percentile that does not exist. -/
def validate (d : Downsampling) : Except Error Unit :=
  if d.interval ≤ 0 then .error (.invalid (.intervalNotPositive d.interval))
  else d.summary.validate

/-- The sample of a bucket: none if no value came in. -/
def close (start : Int) (acc : Accumulator) : List Sample :=
  if acc.hasData then [⟨Int64.ofInt start, acc.result⟩] else []

/-- One sample for each bucket with data.  `start` is where the open bucket starts and `acc` what it
    holds; `width` and `fresh` belong to all buckets alike, and `stop` is the end of the last. -/
def collect (width stop : Int) (fresh : Accumulator) :
    (start : Int) → (acc : Accumulator) → List Sample → List Sample
  | start, acc, [] => close start acc
  | start, acc, x :: rest =>
    let t := x.time.toInt
    -- A sample that comes too late for its bucket is passed over.
    if t < start then collect width stop fresh start acc rest
    -- A sample beyond the last bucket blocks all that follow it.
    else if stop ≤ t then close start acc
    else if t < start + width then collect width stop fresh start (acc.add x.value) rest
    else
      close start acc ++
        collect width stop fresh (start + (t - start) / width * width) (fresh.add x.value) rest

/-- The grid of a series. -/
def grid (d : Downsampling) (s : Series) : Buckets :=
  if d.alignToStart then ⟨d.interval, s.minTime⟩ else Buckets.fixed d.interval

/-- Where the first and the last bucket of a series start, if the range that the buckets cover and
    its length can be expressed. -/
def outermost? (d : Downsampling) (s : Series) : Option (Timestamp × Timestamp) := do
  let first ← (d.grid s).start? s.minTime
  let last ← (d.grid s).start? s.maxTime
  let stop ← timestamp? (last.toInt + d.interval.toInt)
  let _ ← timestamp? (stop.toInt - first.toInt)
  return (first, last)

/-- One series made coarser.  A series without samples is left as it is. -/
def apply (d : Downsampling) (s : Series) : Except Error Series :=
  if s.isEmpty then .ok s
  else if d.interval < s.step then .error (.invalid (.intervalBelowStep d.interval s.step))
  else match d.outermost? s with
    | none => .error (.invalid (.bucketsOverflow s.minTime s.maxTime d.interval))
    | some (first, last) =>
      let fresh := d.summary.accumulator
      let stop := last.toInt + d.interval.toInt
      .ok { s with
        samples := collect d.interval.toInt stop fresh first.toInt fresh s.samples
        minTime := first
        maxTime := last
        step := d.interval }

end Downsampling
end SeriesQuery
