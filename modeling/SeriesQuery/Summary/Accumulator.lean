/-
  Summing up: the state that a summary function keeps while values come in.

  An `Accumulator` takes values one at a time and can be asked for its result at any point.
  Without a value the result is "not a number".  `reset` leads back to the state at the start, so
  one accumulator may serve one bucket after another.  Counts are natural numbers: no bucket has so
  many values that sixty-four bits would not hold their count.

  Percentiles are read off the sorted values.  The order is that of `orderKey`, an integer made of
  the bits of a float: it makes one value of the two zeros and puts "not a number" last.
-/
import SeriesQuery.Summary.Basic

namespace SeriesQuery

/-- The state of a summary function. -/
inductive Accumulator
  | sum (total : Float) (seen : Bool)
  | avg (total : Float) (count : Nat)
  | min (least : Option Float)
  | max (greatest : Option Float)
  | last (value : Option Float)
  /-- Running mean, and running sum of squared distances from it. -/
  | stdDev (count : Nat) (mean squares : Float)
  /-- All values so far, the latest first. -/
  | percentile (p : Float) (values : List Float)
  deriving Repr, DecidableEq

/-- The state before any value. -/
def Summary.accumulator : Summary → Accumulator
  | .sum => .sum 0.0 false
  | .avg => .avg 0.0 0
  | .min => .min none
  | .max => .max none
  | .last => .last none
  | .stdDev => .stdDev 0 0.0 0.0
  | .percentile p => .percentile p []

/-! ## Percentiles -/

/-- The place of a float in ascending order. -/
def orderKey (x : Float) : Int :=
  let bits : Nat := x.toBits.toNat
  let size : Nat := bits % 0x8000000000000000
  if size > 0x7ff0000000000000 then 0x8000000000000000
  else if bits < 0x8000000000000000 then size
  else -size

/-- The values in ascending order; equal ones keep their places. -/
def ascendingValues (values : List Float) : List Float :=
  values.mergeSort fun x y => orderKey x ≤ orderKey y

/-- The `p`-th percentile: the value at rank `p / 100 · (n - 1)` of the ascending values, counted
    from zero, with a straight line drawn between the two values that a fractional rank lies
    between. -/
def percentileOf (p : Float) (values : List Float) : Float :=
  let sorted := ascendingValues values
  let rank := p / 100.0 * Float.ofNat (sorted.length - 1)
  let below := Binary64.toNat rank
  let low := sorted.getD below Binary64.notANumber
  if Float.ofNat below == rank then low
  else
    let high := sorted.getD (below + 1) Binary64.notANumber
    low + (high - low) * (rank - Float.ofNat below)

/-! ## Accumulators -/

namespace Accumulator

/-- The state before any value, for the same function. -/
def reset : Accumulator → Accumulator
  | sum _ _ => .sum 0.0 false
  | avg _ _ => .avg 0.0 0
  | min _ => .min none
  | max _ => .max none
  | last _ => .last none
  | stdDev _ _ _ => .stdDev 0 0.0 0.0
  | percentile p _ => .percentile p []

/-- The state after one more value.  A value replaces the least or the greatest one so far only if
    it is strictly smaller or greater. -/
def add (x : Float) : Accumulator → Accumulator
  | sum total _ => .sum (total + x) true
  | avg total count => .avg (total + x) (count + 1)
  | min none => .min (some x)
  | min (some least) => .min (some (if x < least then x else least))
  | max none => .max (some x)
  | max (some greatest) => .max (some (if greatest < x then x else greatest))
  | last _ => .last (some x)
  | stdDev count mean squares =>
    let delta := x - mean
    let mean := mean + delta / Float.ofNat (count + 1)
    .stdDev (count + 1) mean (squares + delta * (x - mean))
  | percentile p values => .percentile p (x :: values)

/-- Whether there was a value. -/
def hasData : Accumulator → Bool
  | sum _ seen => seen
  | avg _ count => count > 0
  | min least => least.isSome
  | max greatest => greatest.isSome
  | last value => value.isSome
  | stdDev count _ _ => count > 0
  | percentile _ values => !values.isEmpty

/-- The result so far. -/
def result : Accumulator → Float
  | sum total seen => if seen then total else Binary64.notANumber
  | avg total count => if count = 0 then Binary64.notANumber else total / Float.ofNat count
  | min least => least.getD Binary64.notANumber
  | max greatest => greatest.getD Binary64.notANumber
  | last value => value.getD Binary64.notANumber
  | stdDev count _ squares =>
    if count = 0 then Binary64.notANumber else Float.sqrt (squares / Float.ofNat count)
  | percentile p values =>
    if values.isEmpty then Binary64.notANumber else percentileOf p values.reverse

/-- The state after more values, in their order. -/
def addAll (xs : List Float) (a : Accumulator) : Accumulator :=
  xs.foldl (fun a x => a.add x) a

end Accumulator

/-- The summary of a list of values. -/
def Summary.of (s : Summary) (values : List Float) : Float :=
  (s.accumulator.addAll values).result

end SeriesQuery
