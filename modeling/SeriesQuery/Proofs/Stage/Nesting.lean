/-
  Downsampling in two steps.

  A series that is downsampled to fine buckets and then to coarse ones has the samples of one that
  is downsampled to coarse buckets at once, if the grids are nested.  The heart of it is that the
  samples of a coarse bucket are those of its fine buckets in a row (`flatMap_inBucket`).  So a
  coarse bucket is empty in both cases or in neither, which gives the times; and the value is that
  of a list of values in the one case, and of the same list in groups in the other.

  The first step succeeds where the single one does: the fine buckets of the range lie in its coarse
  ones, so that their bounds fit if those of the coarse ones do (`exists_apply_fine`).  The second
  step sees the starts of fine buckets in place of the instants, which are in the same coarse
  buckets.
-/
import Mathlib.Data.List.Sort
import SeriesQuery.Proofs.Stage.BucketWalk
import SeriesQuery.Proofs.Summary.Selecting

namespace SeriesQuery

/-- The values of a series are a strict weak order under `<`. -/
def Series.ValuesOrdered (s : Series) : Prop :=
  IsStrictWeakOrder {v // v ∈ s.samples.map Sample.value}
    (Subrel (· < ·) (· ∈ s.samples.map Sample.value))

namespace Downsampling

variable {d : Downsampling} {s out : Series} {width b : Int}

/-! ## What a downsampling gives

All that is needed of one step: when it succeeds, and what it declares besides its samples.  The
samples themselves are known from the buckets (`mem_samples_iff`). -/

/-- Downsampling succeeds exactly if the interval is not below the step and the bounds of the
    buckets fit. -/
theorem exists_apply_iff (hs : s.WellFormed) (hdata : s.samples ≠ []) :
    (∃ out, d.apply s = .ok out) ↔ s.step ≤ d.interval ∧ Fits (d.firstStart s) ∧
      Fits (d.lastStop s) ∧ Fits (d.lastStop s - d.firstStart s) := by
  constructor
  · rintro ⟨out, h⟩
    obtain ⟨hstep, first, last, houter, -⟩ := apply_eq_ok hdata h
    exact ⟨hstep, (exists_outermost?_iff (interval_pos hs hstep) hs.range).mp ⟨_, _, houter⟩⟩
  · rintro ⟨hstep, hfits⟩
    obtain ⟨first, last, houter⟩ :=
      (exists_outermost?_iff (interval_pos hs hstep) hs.range).mpr hfits
    have hempty : ¬ s.isEmpty = true := fun hempty => hdata (List.isEmpty_iff.mp hempty)
    unfold apply
    rw [if_neg hempty, if_neg (Int64.not_lt.mpr hstep), houter]
    exact ⟨_, rfl⟩

/-- All but the samples: what is declared of the result. -/
structure Declares (d : Downsampling) (s out : Series) : Prop where
  labels : out.labels = s.labels
  title : out.title = s.title
  step : out.step = d.interval
  minTime : out.minTime.toInt = d.firstStart s
  maxTime : out.maxTime.toInt + d.interval.toInt = d.lastStop s

/-- A downsampling that succeeds declares its labels, step and outermost buckets. -/
theorem apply_declares (hs : s.WellFormed) (hdata : s.samples ≠ []) (h : d.apply s = .ok out) :
    d.Declares s out := by
  obtain ⟨hstep, first, last, houter, rfl⟩ := apply_eq_ok hdata h
  obtain ⟨hfirst, hlast, -⟩ := outermost?_eq_some (interval_pos hs hstep) houter
  rw [grid_origin] at hfirst hlast
  exact ⟨rfl, rfl, rfl, hfirst, congrArg (· + d.interval.toInt) hlast⟩

/-- Something comes out if something goes in. -/
theorem samples_ne_nil (hs : s.WellFormed) (hdata : s.samples ≠ []) (h : d.apply s = .ok out) :
    out.samples ≠ [] := by
  obtain ⟨x, hx⟩ := List.exists_mem_of_ne_nil _ hdata
  obtain ⟨y, hy, -⟩ := exists_bucket hs h hx
  exact List.ne_nil_of_mem hy

/-! ## Nested buckets

A coarse bucket holds the samples of some fine ones, in a row.  After the fine step it holds one
sample for each of these, at its start, so the same coarse buckets have samples before and after. -/

/-- A bucket of the fine grid lies in a coarse one as a whole or not at all. -/
theorem within_iff_of_within {fine t : Int} {x : Sample} (hfine : 0 < fine) (hnest : fine ∣ width)
    (hgrid : fine ∣ t - b) (hx : Within fine t x) :
    Within width b x ↔ b ≤ t ∧ t < b + width := by
  obtain ⟨hlow, hhigh⟩ := hx
  -- Both ends of a coarse bucket are starts of fine ones, which a fine bucket does not reach
  -- across.
  constructor
  · rintro ⟨hb, hwidth⟩
    exact ⟨Buckets.le_of_dvd_of_lt_add hfine hgrid (by omega), by omega⟩
  · rintro ⟨hb, hwidth⟩
    have hback : fine ∣ b + width - t := by
      have hdiff : b + width - t = width - (t - b) := by omega
      exact hdiff ▸ Int.dvd_sub hnest hgrid
    have hle := Buckets.add_le_of_dvd_of_lt hback hwidth
    exact ⟨by omega, by omega⟩

/-- **The samples of a coarse bucket are those of its fine buckets in a row.** -/
theorem flatMap_inBucket (hs : s.WellFormed) (hdata : s.samples ≠ []) (h : d.apply s = .ok out)
    (hnest : d.interval.toInt ∣ width) (hgrid : width ∣ b - d.origin s) :
    ((inBucket width b out.samples).flatMap fun y =>
      inBucket d.interval.toInt y.time.toInt s.samples) = inBucket width b s.samples := by
  obtain ⟨hstep, -⟩ := apply_eq_ok hdata h
  have hfine := interval_pos hs hstep
  have hdvd : ∀ y ∈ out.samples, d.interval.toInt ∣ y.time.toInt - b := fun y hy =>
    dvd_sub_of_origin ((mem_samples_iff hs hdata h).mp hy).1 (Int.dvd_trans hnest hgrid)
  -- What is in a fine bucket is in a coarse one together with its start.
  have hcell : ∀ y ∈ out.samples, ∀ x, Within d.interval.toInt y.time.toInt x →
      (Within width b x ↔ Within width b y) := fun y hy x hx =>
    within_iff_of_within hfine hnest (hdvd y hy) hx
  have hout : Series.Ascending out.samples := (apply_wellFormed h hs).ascending
  refine Series.Ascending.eq_of_mem_iff ?_ (hs.ascending.filter _) fun x => ?_
  · -- the fine buckets ascend, and one ends before the next one starts
    refine List.pairwise_flatMap.mpr ⟨fun y _ => hs.ascending.filter _, ?_⟩
    have hapart : out.samples.Pairwise fun y z =>
        ∀ v ∈ inBucket d.interval.toInt y.time.toInt s.samples,
          ∀ w ∈ inBucket d.interval.toInt z.time.toInt s.samples, v.time < w.time := by
      refine List.Pairwise.imp_of_mem (fun {y z} hy hz hyz v hv w hw => ?_) hout
      obtain ⟨-, hv⟩ := of_decide_eq_true (List.mem_filter.mp hv).2
      obtain ⟨hw, -⟩ := of_decide_eq_true (List.mem_filter.mp hw).2
      have hdiff : d.interval.toInt ∣ z.time.toInt - y.time.toInt := by
        have hsum : z.time.toInt - y.time.toInt = (z.time.toInt - b) - (y.time.toInt - b) := by
          omega
        exact hsum ▸ Int.dvd_sub (hdvd z hz) (hdvd y hy)
      have hle := Buckets.add_le_of_dvd_of_lt hdiff (Int64.lt_iff_toInt_lt.mp hyz)
      exact Int64.lt_iff_toInt_lt.mpr (by omega)
    exact hapart.filter _
  · rw [List.mem_flatMap]
    constructor
    · rintro ⟨y, hy, hx⟩
      obtain ⟨hy, hyb⟩ := List.mem_filter.mp hy
      obtain ⟨hx, hxy⟩ := List.mem_filter.mp hx
      have hxb := (hcell y hy x (of_decide_eq_true hxy)).mpr (of_decide_eq_true hyb)
      exact List.mem_filter.mpr ⟨hx, decide_eq_true hxb⟩
    · intro hx
      obtain ⟨hx, hxb⟩ := List.mem_filter.mp hx
      obtain ⟨y, hy, hxy⟩ := exists_bucket hs h hx
      have hyb := (hcell y hy x hxy).mp (of_decide_eq_true hxb)
      exact ⟨y, List.mem_filter.mpr ⟨hy, decide_eq_true hyb⟩,
        List.mem_filter.mpr ⟨hx, decide_eq_true hxy⟩⟩

/-- A coarse bucket has a sample after the first step exactly if it had one before. -/
theorem inBucket_ne_nil_iff (hs : s.WellFormed) (hdata : s.samples ≠ []) (h : d.apply s = .ok out)
    (hnest : d.interval.toInt ∣ width) (hgrid : width ∣ b - d.origin s) :
    inBucket width b out.samples ≠ [] ↔ inBucket width b s.samples ≠ [] := by
  rw [← flatMap_inBucket hs hdata h hnest hgrid, ne_eq, ne_eq, List.flatMap_eq_nil_iff,
    List.eq_nil_iff_forall_not_mem, not_iff_not]
  refine forall₂_congr fun y hy => ?_
  have hmem := List.mem_of_mem_filter hy
  exact iff_of_false (fun hno => hno) ((mem_samples_iff hs hdata h).mp hmem).2.1

/-- The value of a coarse bucket after the first step is that of its values in groups. -/
theorem of_inBucket (hs : s.WellFormed) (hdata : s.samples ≠ []) (h : d.apply s = .ok out)
    (hnest : d.interval.toInt ∣ width) (hgrid : width ∣ b - d.origin s)
    (hregroups : d.summary.Regroups (s.samples.map Sample.value)) :
    d.summary.of ((inBucket width b out.samples).map Sample.value) =
      d.summary.of ((inBucket width b s.samples).map Sample.value) := by
  -- The values that the fine buckets were made of, bucket by bucket.
  let groups := (inBucket width b out.samples).map fun y =>
    (inBucket d.interval.toInt y.time.toInt s.samples).map Sample.value
  have hvalues : (inBucket width b out.samples).map Sample.value = groups.map d.summary.of := by
    rw [List.map_map]
    refine List.map_congr_left fun y hy => ?_
    exact ((mem_samples_iff hs hdata h).mp (List.mem_of_mem_filter hy)).2.2
  have hflatten : (inBucket width b s.samples).map Sample.value = groups.flatten := by
    rw [← flatMap_inBucket hs hdata h hnest hgrid, List.map_flatMap, List.flatMap_def]
  rw [hvalues, hflatten]
  refine hregroups groups (fun group hgroup => ?_) fun group hgroup x hx => ?_
  · obtain ⟨y, hy, rfl⟩ := List.mem_map.mp hgroup
    have hne := ((mem_samples_iff hs hdata h).mp (List.mem_of_mem_filter hy)).2.1
    exact fun hnil => hne (List.map_eq_nil_iff.mp hnil)
  · obtain ⟨y, hy, rfl⟩ := List.mem_map.mp hgroup
    obtain ⟨z, hz, rfl⟩ := List.mem_map.mp hx
    exact List.mem_map_of_mem (List.mem_of_mem_filter hz)

/-! ## Two steps

Both on the grid through zero, the interval of the second a multiple of that of the first. -/

/-- Buckets start at multiples of the interval. -/
theorem origin_eq_zero (hfixed : d.alignToStart = false) (s : Series) : d.origin s = 0 := by
  unfold origin
  rw [hfixed]
  rfl

section Steps

variable {e : Downsampling} {direct mid twice : Series} (hd : d.alignToStart = false)
  (he : e.alignToStart = false) (hnest : d.interval.toInt ∣ e.interval.toInt) (hs : s.WellFormed)
  (hdata : s.samples ≠ [])

include hd he hnest hs hdata

/-- The first step succeeds where the single one does. -/
theorem exists_apply_fine (hstep : s.step ≤ d.interval) (h : e.apply s = .ok direct) :
    ∃ mid, d.apply s = .ok mid := by
  obtain ⟨hwide, hbounds⟩ := (exists_apply_iff hs hdata).mp ⟨direct, h⟩
  refine (exists_apply_iff hs hdata).mpr ⟨hstep, ?_⟩
  have hfine := interval_pos hs hstep
  have hcoarse := interval_pos hs hwide
  have hrange : s.minTime.toInt ≤ s.maxTime.toInt := Int64.le_iff_toInt_le.mp hs.range
  have hmin := fits_toInt s.minTime
  have hmax := fits_toInt s.maxTime
  have hnegative : Int64.minValue.toInt ≤ 0 := by decide
  unfold firstStart lastStop at *
  rw [origin_eq_zero he] at hbounds
  rw [origin_eq_zero hd]
  -- The fine bounds are between the coarse ones and the range of the series.
  have hfirst : Buckets.gridStart e.interval.toInt 0 s.minTime.toInt ≤
      Buckets.gridStart d.interval.toInt 0 s.minTime.toInt :=
    Buckets.coarse_le_fine hfine hcoarse hnest
  have hlow : Buckets.gridStart d.interval.toInt 0 s.minTime.toInt ≤ s.minTime.toInt :=
    Buckets.gridStart_le hfine
  have hlast : Buckets.gridStart d.interval.toInt 0 s.maxTime.toInt + d.interval.toInt ≤
      Buckets.gridStart e.interval.toInt 0 s.maxTime.toInt + e.interval.toInt :=
    Buckets.fine_add_le_coarse_add hfine hcoarse hnest
  have hhigh : s.maxTime.toInt <
      Buckets.gridStart d.interval.toInt 0 s.maxTime.toInt + d.interval.toInt :=
    Buckets.lt_gridStart_add hfine
  unfold Fits at *
  omega

/-- The coarse buckets of the result are those of the series. -/
theorem bounds_of_fine (hcoarse : 0 < e.interval.toInt) (hmid : d.apply s = .ok mid) :
    e.firstStart mid = e.firstStart s ∧ e.lastStop mid = e.lastStop s := by
  obtain ⟨hstep, -⟩ := apply_eq_ok hdata hmid
  have hfine := interval_pos hs hstep
  obtain ⟨-, -, -, hmin, hmax⟩ := apply_declares hs hdata hmid
  have hmax := add_right_cancel hmax
  unfold firstStart lastStop at *
  rw [origin_eq_zero hd] at hmin hmax
  rw [origin_eq_zero he, origin_eq_zero he, hmin, hmax,
    Buckets.gridStart_gridStart hfine hcoarse hnest,
    Buckets.gridStart_gridStart hfine hcoarse hnest]
  exact ⟨rfl, rfl⟩

/-- The second step succeeds where the single one does. -/
theorem exists_apply_coarse (h : e.apply s = .ok direct) (hmid : d.apply s = .ok mid) :
    ∃ twice, e.apply mid = .ok twice := by
  obtain ⟨hstep, hfits⟩ := (exists_apply_iff hs hdata).mp ⟨direct, h⟩
  have hcoarse := interval_pos hs hstep
  have hwide : d.interval ≤ e.interval :=
    Int64.le_iff_toInt_le.mpr (Int.le_of_dvd hcoarse hnest)
  obtain ⟨hfirst, hlast⟩ := bounds_of_fine hd he hnest hs hdata hcoarse hmid
  refine (exists_apply_iff (apply_wellFormed hmid hs) (samples_ne_nil hs hdata hmid)).mpr ?_
  rw [(apply_declares hs hdata hmid).step, hfirst, hlast]
  exact ⟨hwide, hfits⟩

/-! ## Twice and at once

The times, the range and all that is declared agree for every summary.  The values agree for a
summary that may be made in groups (`Regroups`), which is what the list of summaries comes down to.
-/

/-- All but the values are the same. -/
theorem twice_sameButValues (h : e.apply s = .ok direct) (hmid : d.apply s = .ok mid)
    (htwice : e.apply mid = .ok twice) : twice.SameButValues direct := by
  obtain ⟨hstep, -⟩ := apply_eq_ok hdata h
  have hwf := apply_wellFormed hmid hs
  have hmiddata := samples_ne_nil hs hdata hmid
  obtain ⟨hfirst, hlast⟩ := bounds_of_fine hd he hnest hs hdata (interval_pos hs hstep) hmid
  have hfine := apply_declares hs hdata hmid
  have hcoarse := apply_declares hwf hmiddata htwice
  have hdirect := apply_declares hs hdata h
  refine ⟨?_, hcoarse.labels.trans (hfine.labels.trans hdirect.labels.symm),
    hcoarse.title.trans (hfine.title.trans hdirect.title.symm), ?_, ?_,
    hcoarse.step.trans hdirect.step.symm⟩
  · refine (apply_wellFormed htwice hwf).ascending.times_eq_of_mem_iff
      (apply_wellFormed h hs).ascending fun t => ?_
    rw [mem_times_iff hwf hmiddata htwice, mem_times_iff hs hdata h, origin_eq_zero he,
      origin_eq_zero he]
    refine and_congr_right fun hgrid => ?_
    rw [← origin_eq_zero hd s] at hgrid
    exact inBucket_ne_nil_iff hs hdata hmid hnest hgrid
  · rw [← Int64.toInt_inj, hcoarse.minTime, hdirect.minTime, hfirst]
  · rw [← Int64.toInt_inj]
    exact add_right_cancel (hcoarse.maxTime.trans (hlast.trans hdirect.maxTime.symm))

/-- The values are the same if it makes no difference for the summary whether values come in
    groups. -/
theorem twice_eq (hsummary : e.summary = d.summary) (h : e.apply s = .ok direct)
    (hmid : d.apply s = .ok mid) (htwice : e.apply mid = .ok twice)
    (hregroups : d.summary.Regroups (s.samples.map Sample.value)) : twice = direct := by
  have hwf := apply_wellFormed hmid hs
  have hmiddata := samples_ne_nil hs hdata hmid
  -- Ascending samples are determined by what is among them, and that is one bucket with its value.
  have hsamples : twice.samples = direct.samples := by
    refine (apply_wellFormed htwice hwf).ascending.eq_of_mem_iff
      (apply_wellFormed h hs).ascending fun y => ?_
    rw [mem_samples_iff hwf hmiddata htwice, mem_samples_iff hs hdata h, origin_eq_zero he,
      origin_eq_zero he, hsummary]
    refine and_congr_right fun hgrid => ?_
    rw [← origin_eq_zero hd s] at hgrid
    rw [inBucket_ne_nil_iff hs hdata hmid hnest hgrid,
      of_inBucket hs hdata hmid hnest hgrid hregroups]
  exact (twice_sameButValues hd he hnest hs hdata h hmid htwice).eq_with hsamples

end Steps

/-- **Downsampling composes.**  If a series can be summarized at a multiple of an interval, it can
    be summarized at the interval and then at the multiple, and the two ways give series that differ
    in their values at most.  They do not differ at all for the last value, nor for the least and
    the greatest one where `<` is a strict weak order on the values; this it is where none of them
    is "not a number". -/
theorem apply_composes {d : Downsampling} (hfixed : d.alignToStart = false) {coarse : Int64}
    {k : Int} {s direct : Series} (hs : s.WellFormed) (hstep : s.step ≤ d.interval)
    (hmultiple : coarse.toInt = k * d.interval.toInt)
    (h : { d with interval := coarse }.apply s = .ok direct) :
    ∃ mid twice, d.apply s = .ok mid ∧ { d with interval := coarse }.apply mid = .ok twice ∧
      twice.SameButValues direct ∧
      (d.summary = .last → twice = direct) ∧
      (d.summary = .min ∨ d.summary = .max → s.ValuesOrdered → twice = direct) ∧
      ((∀ x ∈ s.samples, x.value.isNaN = false) → s.ValuesOrdered) := by
  have hordered : (∀ x ∈ s.samples, x.value.isNaN = false) → s.ValuesOrdered := fun hnumbers =>
    Binary64.isStrictWeakOrder_lt (List.forall_mem_map.mpr hnumbers)
  -- An empty series is handed back as it is, by both steps.
  by_cases hdata : s.samples = []
  · have hsame : ∀ e : Downsampling, e.apply s = .ok s := fun e =>
      if_pos (List.isEmpty_iff.mpr hdata)
    obtain rfl : s = direct := Except.ok.inj ((hsame _).symm.trans h)
    exact ⟨s, s, hsame d, h, ⟨rfl, rfl, rfl, rfl, rfl, rfl⟩, fun _ => rfl, fun _ _ => rfl,
      hordered⟩
  · have hnest : d.interval.toInt ∣ coarse.toInt := hmultiple ▸ Int.dvd_mul_left _ _
    have he : { d with interval := coarse }.alignToStart = false := hfixed
    obtain ⟨mid, hmid⟩ := exists_apply_fine hfixed he hnest hs hdata hstep h
    obtain ⟨twice, htwice⟩ := exists_apply_coarse hfixed he hnest hs hdata h hmid
    have heq := twice_eq hfixed he hnest hs hdata rfl h hmid htwice
    refine ⟨mid, twice, hmid, htwice,
      twice_sameButValues hfixed he hnest hs hdata h hmid htwice, ?_, ?_, hordered⟩
    · intro hlast
      exact heq (hlast ▸ Summary.regroups_last _)
    · rintro (hmin | hmax) hvalues
      · exact heq (hmin ▸ Summary.regroups_min hvalues)
      · exact heq (hmax ▸ Summary.regroups_max hvalues)

/-- Below zero, with two fine buckets of the three in one coarse bucket. -/
theorem apply_composes_usage :
    let d : Downsampling := ⟨10, .max, false⟩
    let s : Series :=
      { samples := [⟨-25, 1.0⟩, ⟨-16, 3.0⟩, ⟨-15, 2.0⟩, ⟨-8, 2.5⟩], labels := .empty,
        minTime := -25, maxTime := -6, step := 1, title := none }
    let direct : Series :=
      { s with samples := [⟨-40, 1.0⟩, ⟨-20, 3.0⟩], minTime := -40, maxTime := -20, step := 20 }
    d.alignToStart = false ∧ s.WellFormed ∧ s.step ≤ d.interval ∧
      (20 : Int64).toInt = 2 * d.interval.toInt ∧
      { d with interval := 20 }.apply s = .ok direct ∧ s.ValuesOrdered ∧
      ∃ mid, d.apply s = .ok mid ∧ { d with interval := 20 }.apply mid = .ok direct := by
  intro d s direct
  have hs : s.WellFormed := by
    refine ⟨by decide, by decide, by unfold Series.Ascending; decide, by decide⟩
  have hstep : s.step ≤ d.interval := by decide
  have hmultiple : (20 : Int64).toInt = 2 * d.interval.toInt := by decide
  have hdirect : { d with interval := 20 }.apply s = .ok direct :=
    eq_ok_of_toOption (by decide +kernel)
  obtain ⟨mid, twice, hmid, htwice, -, -, hextreme, hordered⟩ :=
    apply_composes (d := d) rfl hs hstep hmultiple hdirect
  have hvalues : s.ValuesOrdered := hordered (by decide +kernel)
  obtain rfl : twice = direct := hextreme (.inr rfl) hvalues
  exact ⟨rfl, hs, hstep, hmultiple, hdirect, hvalues, mid, hmid, htwice⟩

end Downsampling
end SeriesQuery
