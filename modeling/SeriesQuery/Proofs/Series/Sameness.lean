/-
  When two series are the same, and how far.

  An ascending list of samples is determined by what is in it, and the list of its times by which
  times these are, so that lists which are made in different ways are compared by membership.
-/
import Mathlib.Data.List.Sort
import SeriesQuery.Series.Basic

namespace SeriesQuery.Series

/-! ## Ascending samples -/

/-- Which samples there are determines an ascending list of them. -/
theorem Ascending.eq_of_mem_iff {left right : List Sample} (hleft : Ascending left)
    (hright : Ascending right) (h : ∀ x, x ∈ left ↔ x ∈ right) : left = right := by
  have hirrefl : Std.Irrefl fun x y : Sample => x.time < y.time := ⟨fun _ => Int64.lt_irrefl⟩
  have hantisymm : Std.Antisymm fun x y : Sample => x.time < y.time :=
    ⟨fun _ _ hxy hyx => absurd (Int64.lt_trans hxy hyx) Int64.lt_irrefl⟩
  exact List.Pairwise.eq_of_mem_iff hleft hright h

/-- In ascending lists, which instants there are determines the list of these. -/
theorem Ascending.times_eq_of_mem_iff {left right : List Sample} (hleft : Ascending left)
    (hright : Ascending right) (h : ∀ t, t ∈ left.map Sample.time ↔ t ∈ right.map Sample.time) :
    left.map Sample.time = right.map Sample.time := by
  have hleft : (left.map Sample.time).Pairwise (· < ·) := List.pairwise_map.mpr hleft
  exact hleft.eq_of_mem_iff (List.pairwise_map.mpr hright) h

/-- No two samples are at one time. -/
theorem Ascending.eq_of_time_eq {samples : List Sample} (h : Ascending samples)
    {x y : Sample} (hx : x ∈ samples) (hy : y ∈ samples) (htime : x.time = y.time) : x = y := by
  have hnodup : (samples.map Sample.time).Nodup :=
    (List.pairwise_map.mpr h).imp fun hlt heq => Int64.ne_of_lt hlt heq
  exact List.inj_on_of_nodup_map hnodup hx hy htime

/-! ## Series -/

/-- Series with the same times and the same range. -/
structure SameExtent (left right : Series) : Prop where
  times : left.samples.map Sample.time = right.samples.map Sample.time
  minTime : left.minTime = right.minTime
  maxTime : left.maxTime = right.maxTime

theorem SameExtent.refl (s : Series) : s.SameExtent s := ⟨rfl, rfl, rfl⟩

/-- Series that differ in their values at most. -/
structure SameButValues (left right : Series) : Prop where
  times : left.samples.map Sample.time = right.samples.map Sample.time
  labels : left.labels = right.labels
  title : left.title = right.title
  minTime : left.minTime = right.minTime
  maxTime : left.maxTime = right.maxTime
  step : left.step = right.step

/-- With its own samples put in, the other one is this series. -/
theorem SameButValues.eq_with {left right : Series} (h : left.SameButValues right)
    {samples : List Sample} (hsamples : left.samples = samples) :
    left = { right with samples := samples } := by
  obtain ⟨-, hlabels, htitle, hmin, hmax, hstep⟩ := h
  cases left
  cases right
  simp only at hsamples hlabels htitle hmin hmax hstep
  rw [hsamples, hlabels, htitle, hmin, hmax, hstep]

end SeriesQuery.Series
