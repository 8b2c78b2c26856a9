/-
  Adding up series is adding up values, time by time.

  `sumSamples` adds one sample after the other to an ascending list.  For a single time, the list is
  a running total (`valueAt`): a sample at this time is added to it, and no other sample changes it
  (`valueAt_addAt`).  So the total in the end is that of the values at this time, in the order of
  their samples, whatever is between them (`valueAt_sumSamples`).

  What a sum of series is then follows without another look at the code (`IsSum`): its values from
  the totals, its times from the times of the series, its range from theirs, and all else from the
  first series.
-/
import SeriesQuery.Proofs.Series.Sameness
import SeriesQuery.Proofs.Stage.Joining
import SeriesQuery.Proofs.Stage.Merging

namespace SeriesQuery

variable {t time : Timestamp} {value : Float} {x : Sample} {sums samples : List Sample}

/-! ## The total at one time

The list of sums is looked at one time after the other.  For each of them it is a fold over the
values at this time, whatever the samples at other times do. -/

/-- The value at a time, and zero if there is none. -/
def valueAt (t : Timestamp) (samples : List Sample) : Float :=
  ((sampleAt? t samples).map Sample.value).getD 0.0

/-- All values at a time, in their order. -/
def valuesAt (t : Timestamp) (samples : List Sample) : List Float :=
  (samples.filter fun x => x.time == t).map Sample.value

/-- The sum of the values at a time, added in their order. -/
def totalAt (t : Timestamp) (samples : List Sample) : Float :=
  (valuesAt t samples).foldl (· + ·) 0.0

theorem valueAt_cons :
    valueAt t (x :: samples) = if x.time = t then x.value else valueAt t samples := by
  by_cases htime : x.time = t
  · rw [if_pos htime, valueAt, ← htime, sampleAt?_cons_self]
    rfl
  · rw [if_neg htime, valueAt, sampleAt?, List.find?_cons_of_neg (by simpa using htime)]
    rfl

theorem valueAt_of_before (h : ∀ x ∈ samples, t < x.time) : valueAt t samples = 0.0 := by
  rw [valueAt, sampleAt?_eq_none h]
  rfl

theorem valueAt_of_mem (h : Series.Ascending samples) (hx : x ∈ samples) :
    valueAt x.time samples = x.value := by
  rw [valueAt, sampleAt?_of_mem h hx]
  rfl

/-- **Adding at a time adds to the total there**, and to no other.  By induction on the sums, with
    one case for each place that the addend can take. -/
theorem valueAt_addAt (h : Series.Ascending sums) :
    valueAt t (addAt time value sums) =
      if time = t then valueAt t sums + value else valueAt t sums := by
  induction sums with
  | nil => exact valueAt_cons
  | cons x rest ih =>
    obtain ⟨hx, hrest⟩ := List.pairwise_cons.mp h
    unfold addAt
    by_cases hlt : time < x.time
    · rw [if_pos hlt, valueAt_cons]
      by_cases htime : time = t
      · -- nothing is there yet, as all that follow are later
        have hbefore := valueAt_of_before (before_of_ascending h hlt)
        rw [if_pos htime, if_pos htime, ← htime, hbefore]
      · rw [if_neg htime, if_neg htime]
    · rw [if_neg hlt]
      by_cases hsame : time = x.time
      · rw [if_pos hsame, valueAt_cons, valueAt_cons, ← hsame]
        by_cases htime : time = t
        · rw [if_pos htime, if_pos htime, if_pos htime]
        · rw [if_neg htime, if_neg htime, if_neg htime]
      · rw [if_neg hsame, valueAt_cons, valueAt_cons, ih hrest]
        by_cases htime : x.time = t
        · have hother : ¬ time = t := by
            intro heq
            exact hsame (heq.trans htime.symm)
          rw [if_pos htime, if_neg hother, if_pos htime]
        · rw [if_neg htime, if_neg htime]

/-- Adding sample after sample adds the values at a time, in their order. -/
theorem valueAt_foldl_addAt (h : Series.Ascending sums) :
    valueAt t (samples.foldl (fun sums x => addAt x.time x.value sums) sums) =
      (valuesAt t samples).foldl (· + ·) (valueAt t sums) := by
  induction samples generalizing sums with
  | nil => rfl
  | cons x rest ih =>
    rw [List.foldl_cons, ih (addAt_ascending h), valueAt_addAt h, valuesAt, valuesAt]
    by_cases htime : x.time = t
    · rw [if_pos htime, List.filter_cons_of_pos (by simpa using htime), List.map_cons,
        List.foldl_cons]
    · rw [if_neg htime, List.filter_cons_of_neg (by simpa using htime)]

/-- **The total at a time is that of the values there.** -/
theorem valueAt_sumSamples (t : Timestamp) (samples : List Sample) :
    valueAt t (sumSamples samples) = totalAt t samples :=
  valueAt_foldl_addAt List.Pairwise.nil

example : sumSamples [⟨10, 1.0⟩, ⟨0, 2.0⟩, ⟨10, 3.0⟩] = [⟨0, 2.0⟩, ⟨10, 4.0⟩] := by decide +kernel

/-! ## Sums of series

What a sum of several series is, as a property that determines it.  One series is its own sum, and
no series have none. -/

/-- A sum of series: the union of their times, in ascending order and each of them once; at every
    time the total of the values that the series have there, one series after the other; the range
    that covers all of theirs and is no wider; and all else as the first series has it. -/
structure IsSum (first : Series) (rest : List Series) (sum : Series) : Prop where
  ascending : Series.Ascending sum.samples
  times : ∀ t, t ∈ sum.samples.map Sample.time ↔
    ∃ s ∈ first :: rest, t ∈ s.samples.map Sample.time
  values : ∀ x ∈ sum.samples, x.value = totalAt x.time ((first :: rest).flatMap Series.samples)
  minTime : sum.minTime ∈ (first :: rest).map Series.minTime ∧
    ∀ s ∈ first :: rest, sum.minTime ≤ s.minTime
  maxTime : sum.maxTime ∈ (first :: rest).map Series.maxTime ∧
    ∀ s ∈ first :: rest, s.maxTime ≤ sum.maxTime
  labels : sum.labels = first.labels
  title : sum.title = first.title
  step : sum.step = first.step

theorem isSum_sumSeries {first second : Series} {rest : List Series} {sum : Series}
    (h : sumSeries (first :: second :: rest) = some sum) : IsSum first (second :: rest) sum := by
  have hrange := range_of_sum first (second :: rest)
  obtain rfl := Option.some.inj h
  refine ⟨sumSamples_ascending, ?_, ?_, ⟨?_, fun s hs => (hrange s hs).1⟩,
    ⟨?_, fun s hs => (hrange s hs).2⟩, rfl, rfl, rfl⟩
  · intro t
    dsimp only
    rw [mem_times_sumSamples, List.map_flatMap, List.mem_flatMap]
  · intro x hx
    rw [← valueAt_sumSamples]
    exact (valueAt_of_mem sumSamples_ascending hx).symm
  · exact foldl_attained earlier_eq_or Series.minTime first (second :: rest)
  · exact foldl_attained later_eq_or Series.maxTime first (second :: rest)

/-- Two bounds of the same times, each of them one of these, are one. -/
theorem bound_unique {r : Timestamp → Timestamp → Prop} (hantisymm : ∀ t u, r t u → r u t → t = u)
    {f : Series → Timestamp} {series series' : List Series} (hsame : ∀ s, s ∈ series ↔ s ∈ series')
    {t t' : Timestamp} (h : t ∈ series.map f ∧ ∀ s ∈ series, r t (f s))
    (h' : t' ∈ series'.map f ∧ ∀ s ∈ series', r t' (f s)) : t = t' := by
  obtain ⟨hmem, hbound⟩ := h
  obtain ⟨hmem', hbound'⟩ := h'
  obtain ⟨s, hs, rfl⟩ := List.mem_map.mp hmem
  obtain ⟨s', hs', rfl⟩ := List.mem_map.mp hmem'
  exact hantisymm _ _ (hbound s' ((hsame s').mpr hs')) (hbound' s ((hsame s).mp hs))

/-- The times and the range of a sum do not depend on the order of the series. -/
theorem IsSum.sameExtent {first first' : Series} {rest rest' : List Series} {sum sum' : Series}
    (h : IsSum first rest sum) (h' : IsSum first' rest' sum')
    (hsame : ∀ s, s ∈ first :: rest ↔ s ∈ first' :: rest') : sum.SameExtent sum' := by
  refine ⟨h.ascending.times_eq_of_mem_iff h'.ascending fun t => ?_, ?_, ?_⟩
  · simp only [h.times, h'.times, hsame]
  · exact bound_unique (fun _ _ => Int64.le_antisymm) hsame h.minTime h'.minTime
  · exact bound_unique (r := fun t u => u ≤ t) (fun _ _ hle hge => Int64.le_antisymm hge hle) hsame
      h.maxTime h'.maxTime

/-- The times of a sum determine its samples. -/
theorem IsSum.samples_eq {first : Series} {rest : List Series} {sum : Series}
    (h : IsSum first rest sum) :
    sum.samples = (sum.samples.map Sample.time).map fun t =>
      ⟨t, totalAt t ((first :: rest).flatMap Series.samples)⟩ := by
  have hself : ∀ x ∈ sum.samples,
      (⟨x.time, totalAt x.time ((first :: rest).flatMap Series.samples)⟩ : Sample) = x := by
    intro x hx
    rw [← h.values x hx]
  rw [List.map_map]
  exact ((List.map_congr_left hself).trans (List.map_id' _)).symm

/-- Two sums of the same series are the same series. -/
theorem IsSum.unique {first : Series} {rest : List Series} {sum sum' : Series}
    (h : IsSum first rest sum) (h' : IsSum first rest sum') : sum = sum' := by
  have hextent := h.sameExtent h' fun _ => Iff.rfl
  have hall : sum.SameButValues sum' := ⟨hextent.times, h.labels.trans h'.labels.symm,
    h.title.trans h'.title.symm, hextent.minTime, hextent.maxTime, h.step.trans h'.step.symm⟩
  have hsamples : sum.samples = sum'.samples := by rw [h.samples_eq, h'.samples_eq, hextent.times]
  exact hall.eq_with hsamples

/-- **Several series are merged into their sum**, of which there is only one; a lone series is left
    as it is, and of none nothing is made. -/
theorem merge_isSum (a : Arithmetic) :
    a.projection.merge [] = none ∧ (∀ only, a.projection.merge [only] = some only) ∧
    ∀ first second rest, ∃ sum, a.projection.merge (first :: second :: rest) = some sum ∧
      ∀ other, IsSum first (second :: rest) other ↔ other = sum := by
  refine ⟨rfl, fun only => rfl, fun first second rest => ?_⟩
  obtain ⟨sum, hmerge⟩ : ∃ sum, sumSeries (first :: second :: rest) = some sum := ⟨_, rfl⟩
  have hsum := isSum_sumSeries hmerge
  refine ⟨sum, hmerge, fun other => ⟨fun hother => hother.unique hsum, ?_⟩⟩
  rintro rfl
  exact hsum

end SeriesQuery
