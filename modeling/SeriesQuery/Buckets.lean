/-
  Buckets: a grid of equally long, adjacent spans of time.

  The starts of the buckets are `origin + k · width` for the integers `k`.  An instant belongs to
  the bucket with the greatest start that is not after it.  The plain functions compute in
  sixty-four bits and wrap around near the ends of the range; the checked ones, whose names end in
  a question mark, answer `none` as soon as a difference, a product or a sum on the way leaves
  that range.
-/
import SeriesQuery.Timestamp

namespace SeriesQuery

/-- The quotient rounded down.  Division cuts towards zero; that is upwards if there is a remainder
    whose sign is not that of the divisor. -/
def floorQuotient (a b : Int64) : Int64 :=
  let quotient := a / b
  let remainder := a % b
  if remainder ≠ 0 ∧ decide (0 < remainder) ≠ decide (0 < b) then quotient - 1 else quotient

/-- A grid of buckets.  The width is positive. -/
structure Buckets where
  width : Int64
  origin : Timestamp
  deriving Repr, DecidableEq

namespace Buckets

/-- The grid through zero: an hour's buckets start on the hour. -/
def fixed (width : Int64) : Buckets := ⟨width, 0⟩

/-- How many whole widths the origin is behind, rounded down. -/
def index (b : Buckets) (offset : Int64) : Int64 := floorQuotient offset b.width

/-- Where the bucket of an instant starts. -/
def start (b : Buckets) (t : Timestamp) : Timestamp :=
  b.index (t - b.origin) * b.width + b.origin

/-- Where the bucket of an instant ends. -/
def stop (b : Buckets) (t : Timestamp) : Timestamp := b.start t + b.width

/-- The instant that the bucket of another one is reported at. -/
def reportedAt (b : Buckets) (t : Timestamp) : Timestamp := b.start t

/-- The bucket of an instant. -/
def window (b : Buckets) (t : Timestamp) : Window :=
  let start := b.start t
  ⟨start, start + b.width⟩

/-- Where the bucket of an instant starts, if every step on the way can be expressed. -/
def start? (b : Buckets) (t : Timestamp) : Option Timestamp := do
  let offset ← timestamp? (t.toInt - b.origin.toInt)
  let whole ← timestamp? ((b.index offset).toInt * b.width.toInt)
  timestamp? (whole.toInt + b.origin.toInt)

/-- Where the bucket of an instant ends, if every step on the way can be expressed. -/
def stop? (b : Buckets) (t : Timestamp) : Option Timestamp := do
  timestamp? ((← b.start? t).toInt + b.width.toInt)

end Buckets
end SeriesQuery
