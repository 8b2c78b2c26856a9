/-
  What downsampling gives: samples at starts of buckets, in ascending order.

  `Downsampling.collect` carries the start of the open bucket along.  Every sample that it gives
  stands at a start from there on (`StartsIn`), and since the bucket that is closed comes before
  the one that is opened, the samples ascend.  The last bucket is the one of the end of the range.
  So the new range, from the first start to the last, holds them all, and a proper series is made
  of a proper series.
-/
import SeriesQuery.Proofs.Buckets
import SeriesQuery.Stage.Downsampling

namespace SeriesQuery.Downsampling

variable {width stop start : Int} {fresh acc : Accumulator}

/-! ## The samples

Both facts are by induction on the samples, with the open bucket left free: whenever a bucket is
closed, the next one starts later on the same grid. -/

/-- A time where a bucket starts, from `start` on and before `stop`. -/
structure StartsIn (width start stop : Int) (t : Timestamp) : Prop where
  low : start ≤ t.toInt
  high : t.toInt < stop
  grid : width ∣ t.toInt - start

/-- A closed bucket gives at most one sample, at its start. -/
theorem mem_close {y : Sample} (hlow : Int64.minValue.toInt ≤ start)
    (hhigh : start ≤ Int64.maxValue.toInt) (h : y ∈ close start acc) : y.time.toInt = start := by
  unfold close at h
  split at h
  · obtain rfl := List.mem_singleton.mp h
    exact Int64.toInt_ofInt_of_le hlow (Int.lt_add_one_of_le hhigh)
  · exact absurd h List.not_mem_nil

/-- What a closed bucket gives is in order, being one sample at most. -/
theorem close_ascending : Series.Ascending (close start acc) := by
  unfold close Series.Ascending
  split
  · exact List.pairwise_singleton _ _
  · exact List.Pairwise.nil

/-- The bucket of a sample beyond the open one: it starts later, on the same grid. -/
theorem next_start {t : Int} (hwidth : 0 < width) (h : start + width ≤ t) :
    start < start + (t - start) / width * width ∧ start + (t - start) / width * width ≤ t ∧
      width ∣ start + (t - start) / width * width - start := by
  rw [Int.add_comm start ((t - start) / width * width)]
  have hle : Buckets.gridStart width start t ≤ t := Buckets.gridStart_le hwidth
  have hlt : t < Buckets.gridStart width start t + width := Buckets.lt_gridStart_add hwidth
  have hgrid : width ∣ Buckets.gridStart width start t - start := Buckets.dvd_gridStart_sub_origin
  unfold Buckets.gridStart at hle hlt hgrid
  exact ⟨by omega, hle, hgrid⟩

/-- **All samples stand at starts of buckets**, none of them before the open one.  By induction on
    the samples, for any open bucket: what is opened next starts later, and on the same grid. -/
theorem collect_startsIn (hwidth : 0 < width) (hstop : stop ≤ Int64.maxValue.toInt)
    {samples : List Sample} (hlow : Int64.minValue.toInt ≤ start) (hopen : start < stop) :
    ∀ y ∈ collect width stop fresh start acc samples, StartsIn width start stop y.time := by
  have hclosed : ∀ {start acc}, Int64.minValue.toInt ≤ start → start < stop →
      ∀ y ∈ close start acc, StartsIn width start stop y.time := by
    intro start acc hlow hopen y hy
    have htime := mem_close hlow (by omega) hy
    exact ⟨by omega, by omega, by rw [htime, Int.sub_self]; exact Int.dvd_zero _⟩
  induction samples generalizing start acc with
  | nil => exact hclosed hlow hopen
  | cons x rest ih =>
    unfold collect
    dsimp only
    split
    case isTrue => exact ih hlow hopen
    case isFalse =>
      split
      case isTrue => exact hclosed hlow hopen
      case isFalse hbefore =>
        split
        case isTrue => exact ih hlow hopen
        case isFalse hbeyond =>
          obtain ⟨hlater, hle, hgrid⟩ := next_start hwidth (Int.not_lt.mp hbeyond)
          generalize start + (x.time.toInt - start) / width * width = next at hlater hle hgrid ⊢
          intro y hy
          -- the closed bucket gives its own start; the rest stands at starts from the next one on,
          -- and these are on the grid of this one too
          rcases List.mem_append.mp hy with hy | hy
          · exact hclosed hlow hopen y hy
          · have hy := ih (by omega) (by omega) y hy
            have hsum : y.time.toInt - start = (y.time.toInt - next) + (next - start) := by omega
            exact ⟨Int.le_trans (Int.le_of_lt hlater) hy.low, hy.high,
              hsum ▸ Int.dvd_add hy.grid hgrid⟩

/-- **The samples ascend.**  The closed bucket gives a sample at its start, and all others come from
    the next start on. -/
theorem collect_ascending (hwidth : 0 < width) (hstop : stop ≤ Int64.maxValue.toInt)
    {samples : List Sample} (hlow : Int64.minValue.toInt ≤ start) (hopen : start < stop) :
    Series.Ascending (collect width stop fresh start acc samples) := by
  induction samples generalizing start acc with
  | nil => exact close_ascending
  | cons x rest ih =>
    unfold collect
    dsimp only
    split
    case isTrue => exact ih hlow hopen
    case isFalse =>
      split
      case isTrue => exact close_ascending
      case isFalse hbefore =>
        split
        case isTrue => exact ih hlow hopen
        case isFalse hbeyond =>
          obtain ⟨hlater, hle, -⟩ := next_start hwidth (Int.not_lt.mp hbeyond)
          generalize start + (x.time.toInt - start) / width * width = next at hlater hle ⊢
          refine List.pairwise_append.mpr
            ⟨close_ascending, ih (by omega) (by omega), fun y hy z hz => ?_⟩
          -- the closed bucket comes before the next one, from which the rest is on
          have hclosed := mem_close hlow (by omega) hy
          have hrest := (collect_startsIn hwidth hstop (by omega) (by omega) z hz).low
          rw [Int64.lt_iff_toInt_lt]
          omega

/-! ## The series

The checks before the run give the two outermost buckets.  They are those of the first and the last
instant of the range, and so the new range has all starts in it. -/

/-- The grid has the width of the interval, wherever it starts. -/
theorem grid_width (d : Downsampling) (s : Series) : (d.grid s).width = d.interval := by
  unfold grid Buckets.fixed
  split
  · rfl
  · rfl

/-- What is found on the way to the outermost buckets: the two starts, the end of the last bucket,
    and its distance from the first start. -/
theorem outermost?_steps {d : Downsampling} {s : Series} {first last : Timestamp}
    (h : d.outermost? s = some (first, last)) :
    (d.grid s).start? s.minTime = some first ∧ (d.grid s).start? s.maxTime = some last ∧
      ∃ stop span, timestamp? (last.toInt + d.interval.toInt) = some stop ∧
        timestamp? (stop.toInt - first.toInt) = some span := by
  unfold outermost? at h
  obtain ⟨first', hfirst, h⟩ := Option.bind_eq_some_iff.mp h
  obtain ⟨last', hlast, h⟩ := Option.bind_eq_some_iff.mp h
  obtain ⟨stop, hstop, h⟩ := Option.bind_eq_some_iff.mp h
  obtain ⟨span, hspan, h⟩ := Option.bind_eq_some_iff.mp h
  obtain ⟨rfl, rfl⟩ := Prod.mk.inj (Option.some.inj h)
  exact ⟨hfirst, hlast, stop, span, hstop, hspan⟩

/-- What the outermost buckets are, if they are found. -/
theorem outermost?_eq_some {d : Downsampling} {s : Series} (hwidth : 0 < d.interval.toInt)
    {first last : Timestamp} (h : d.outermost? s = some (first, last)) :
    first.toInt =
        Buckets.gridStart d.interval.toInt (d.grid s).origin.toInt s.minTime.toInt ∧
      last.toInt =
        Buckets.gridStart d.interval.toInt (d.grid s).origin.toInt s.maxTime.toInt ∧
      last.toInt + d.interval.toInt ≤ Int64.maxValue.toInt := by
  obtain ⟨hfirst, hlast, stop, -, hstop, -⟩ := outermost?_steps h
  rw [← grid_width d s] at hwidth
  have hfirst := Buckets.start?_eq_some hwidth hfirst
  have hlast := Buckets.start?_eq_some hwidth hlast
  rw [grid_width] at hfirst hlast
  have hmax := stop.toInt_le
  exact ⟨hfirst, hlast, timestamp?_eq_some_iff.mp hstop ▸ hmax⟩

/-- **Downsampling makes a proper series of a proper series.** -/
theorem apply_wellFormed {d : Downsampling} {s out : Series} (h : d.apply s = .ok out)
    (hs : s.WellFormed) : out.WellFormed := by
  unfold apply at h
  split at h
  case isTrue =>
    obtain rfl := Except.ok.inj h
    exact hs
  case isFalse =>
    split at h
    case isTrue => cases h
    case isFalse hstep =>
      split at h
      case h_1 => cases h
      case h_2 first last houter =>
        obtain rfl := Except.ok.inj h
        have hpos := hs.step_pos
        have hrange := hs.range
        rw [Int64.lt_iff_toInt_lt] at hpos hstep
        rw [Int64.le_iff_toInt_le] at hrange
        have hwidth : 0 < d.interval.toInt := Int.lt_of_lt_of_le hpos (Int.not_lt.mp hstep)
        obtain ⟨hfirst, hlast, hstop⟩ := outermost?_eq_some hwidth houter
        -- The range is not empty, and its last bucket ends at a time that there is.
        have hmono : first.toInt ≤ last.toInt := by
          rw [hfirst, hlast]
          exact Buckets.gridStart_mono hwidth hrange
        have hlow : Int64.minValue.toInt ≤ first.toInt := first.le_toInt
        have hopen : first.toInt < last.toInt + d.interval.toInt := by omega
        refine ⟨Int64.lt_iff_toInt_lt.mpr hwidth, Int64.le_iff_toInt_le.mpr hmono,
          collect_ascending hwidth hstop hlow hopen, fun y hy => ?_⟩
        have hy := collect_startsIn hwidth hstop hlow hopen y hy
        -- The last start is a number of widths from this one, which is before its end.
        have hgrid : d.interval.toInt ∣ last.toInt - y.time.toInt := by
          have hends : d.interval.toInt ∣ last.toInt - first.toInt := by
            rw [hfirst, hlast]
            exact Buckets.dvd_gridStart_sub
          have hdiff : last.toInt - y.time.toInt =
              (last.toInt - first.toInt) - (y.time.toInt - first.toInt) := by omega
          exact hdiff ▸ Int.dvd_sub hends hy.grid
        exact ⟨Int64.le_iff_toInt_le.mpr hy.low,
          Int64.le_iff_toInt_le.mpr (Buckets.le_of_dvd_of_lt_add hwidth hgrid hy.high)⟩

end SeriesQuery.Downsampling
