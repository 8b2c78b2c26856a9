/-
  Instants, steps and widths: signed sixty-four bit counts of milliseconds.

  Sums and products of such counts are formed over the integers.  `timestamp?` then says whether
  the result is a count again, so a checked operation is the exact one followed by one test.
-/

namespace SeriesQuery

/-- Milliseconds since the start of 1970. -/
abbrev Timestamp := Int64

/-- The count with the value `n`, if sixty-four signed bits hold it. -/
def timestamp? (n : Int) : Option Timestamp :=
  if Int64.minValue.toInt ≤ n ∧ n ≤ Int64.maxValue.toInt then some (Int64.ofInt n) else none

/-- A count is found again from its value. -/
theorem timestamp?_toInt (t : Timestamp) : timestamp? t.toInt = some t := by
  have low := t.le_toInt
  have high := t.toInt_lt
  have bounds : Int64.minValue.toInt ≤ t.toInt ∧ t.toInt ≤ Int64.maxValue.toInt := by
    constructor
    · exact low
    · exact Int.le_of_lt_add_one high
  rw [timestamp?, if_pos bounds, Int64.ofInt_toInt]

/-- A count that is found has the value asked for. -/
theorem toInt_of_timestamp? {n : Int} {t : Timestamp} (h : timestamp? n = some t) :
    t.toInt = n := by
  simp only [timestamp?, Option.ite_none_right_eq_some, Option.some.injEq] at h
  obtain ⟨bounds, rfl⟩ := h
  exact Int64.toInt_ofInt_of_le bounds.1 (Int.lt_add_one_of_le bounds.2)

/-- A closed-open span of time. -/
structure Window where
  start : Timestamp
  stop : Timestamp
  deriving Repr, DecidableEq

namespace Window

/-- Whether an instant lies in the span: its start does, its end does not. -/
def contains (w : Window) (t : Timestamp) : Bool := w.start ≤ t && t < w.stop

/-- How long the span is. -/
def length (w : Window) : Int64 := w.stop - w.start

/-- Whether the span starts where it ends. -/
def isEmpty (w : Window) : Bool := w.stop == w.start

/-- Spans are ordered by start, then by end. -/
def compare (v w : Window) : Ordering :=
  (Ord.compare v.start w.start).then (Ord.compare v.stop w.stop)

end Window
end SeriesQuery
