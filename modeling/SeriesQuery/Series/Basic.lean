/-
  Time series: samples with the range, the step and the labels that are declared for them.

  `Series.WellFormed` says what a proper series is.  The type itself does not ask for it, because a
  series may also be read from a document that was never checked; `Series.ofParts?` is the checked
  way in, and it reports the first rule that its input breaks.
-/
import SeriesQuery.Error
import SeriesQuery.Labels
import SeriesQuery.Timestamp

namespace SeriesQuery

/-- A value at an instant. -/
structure Sample where
  time : Timestamp
  value : Float
  deriving Repr, DecidableEq

instance : BEq Sample where
  beq s t := s.time == t.time && s.value == t.value

/-- A labelled run of samples.  The samples lie in the declared range, which may be wider. -/
structure Series where
  samples : List Sample
  labels : Labels
  minTime : Timestamp
  maxTime : Timestamp
  /-- The time between one sample and the next, as a rule. -/
  step : Int64
  /-- The alias that the series is shown under. -/
  title : Option String
  deriving DecidableEq

/-- Sample values are compared as floats, so a series that holds "not a number" differs from
    itself. -/
instance : BEq Series where
  beq s t :=
    s.samples == t.samples && s.labels == t.labels && s.minTime == t.minTime &&
      s.maxTime == t.maxTime && s.step == t.step && s.title == t.title

namespace Series

/-! ## Proper series -/

/-- Every sample is earlier than all that follow it. -/
def Ascending (samples : List Sample) : Prop :=
  samples.Pairwise fun s t => s.time < t.time

/-- A positive step, a range that does not end before it starts, and ascending samples inside it. -/
structure WellFormed (s : Series) : Prop where
  step_pos : 0 < s.step
  range : s.minTime ≤ s.maxTime
  ascending : Ascending s.samples
  inside : ∀ x ∈ s.samples, s.minTime ≤ x.time ∧ x.time ≤ s.maxTime

/-! ## Checked construction -/

/-- Whether every sample is earlier than the next one. -/
def isAscending : List Sample → Bool
  | s :: t :: rest => s.time < t.time && isAscending (t :: rest)
  | _ => true

/-- Neighbours in order are enough for the whole list to be. -/
theorem isAscending_iff {samples : List Sample} :
    isAscending samples = true ↔ Ascending samples := by
  induction samples with
  | nil => simp [isAscending, Ascending]
  | cons s rest ih =>
    cases rest with
    | nil => simp [isAscending, Ascending]
    | cons t rest =>
      rw [isAscending, Bool.and_eq_true, decide_eq_true_eq, ih]
      constructor
      · intro ⟨hst, h⟩
        refine List.pairwise_cons.2 ⟨fun u hu => ?_, h⟩
        rcases List.mem_cons.1 hu with rfl | hu
        · exact hst
        · exact Int64.lt_trans hst ((List.pairwise_cons.1 h).1 u hu)
      · intro h
        obtain ⟨hs, h⟩ := List.pairwise_cons.1 h
        exact ⟨hs t List.mem_cons_self, h⟩

/-- The series of the given parts.  The rules are tried in order: step, range, order of the samples,
    and the outermost samples against the range. -/
def ofParts? (samples : List Sample) (labels : Labels) (minTime maxTime : Timestamp)
    (step : Int64) (title : Option String) : Except Error Series :=
  if step ≤ 0 then .error (.invalid (.stepNotPositive step))
  else if maxTime < minTime then .error (.invalid (.rangeReversed minTime maxTime))
  else if !isAscending samples then .error (.invalid .samplesNotAscending)
  else match samples.head?, samples.getLast? with
    | some a, some b =>
      if a.time < minTime ∨ maxTime < b.time then
        .error (.invalid (.samplesOutsideRange a.time b.time minTime maxTime))
      else .ok { samples, labels, minTime, maxTime, step, title }
    | _, _ => .ok { samples, labels, minTime, maxTime, step, title }

/-- The series of the given samples, from the first one to the last one; with none, at zero. -/
def ofSamples? (samples : List Sample) (labels : Labels) (step : Int64) : Except Error Series :=
  let first := (samples.head?.map Sample.time).getD 0
  let last := (samples.getLast?.map Sample.time).getD 0
  ofParts? samples labels first last step none

/-! ## Views -/

def size (s : Series) : Nat := s.samples.length

def isEmpty (s : Series) : Bool := s.samples.isEmpty

/-- The same series with every value changed by `f`. -/
def mapValues (f : Float → Float) (s : Series) : Series :=
  { s with samples := s.samples.map fun x => { x with value := f x.value } }

end Series
end SeriesQuery
