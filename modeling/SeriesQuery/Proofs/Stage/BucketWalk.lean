/-
  Downsampling does not overflow.

  `collect` goes from sample to sample with integers for the starts of buckets.  Here the same is
  done in sixty-four bits, bucket by bucket: `walk?` takes as many turns as there are buckets, one
  addition in each, with one accumulator that is reset from turn to turn and one list of samples
  that is used up.  Every operation is checked.  That no check fails is shown by giving the result:
  a turn of the walk is what `collect` does up to the end of the open bucket (`collect_fill`), and a
  bucket of the grid starts, and ends, at or before the last end, which is checked beforehand.

  The checks beforehand are three, and they are made on the two outermost buckets on the way to
  their bounds.  No step on the way leaves the range unless a bound does, or the distance of the
  two, so that a downsampling is refused for these alone (`exists_outermost?_iff`).

  With this both things are known that are to be said of a downsampling that succeeds: the samples
  are those of the buckets, and the walk with its one accumulator makes the same (`apply_bucketed`).
-/
import SeriesQuery.Proofs.BucketSteps
import SeriesQuery.Proofs.Sequencing
import SeriesQuery.Proofs.Stage.Bucketing

namespace SeriesQuery

namespace Downsampling

variable {d : Downsampling} {s out : Series}

/-! ## The bounds

The two outermost buckets are found by checked arithmetic.  It fails exactly if the first start, the
last end or their distance does not fit, since no step on the way leaves the range before one of
these does. -/

/-- Where the first bucket of a series starts. -/
def firstStart (d : Downsampling) (s : Series) : Int :=
  Buckets.gridStart d.interval.toInt (d.origin s) s.minTime.toInt

/-- Where the last bucket of a series ends. -/
def lastStop (d : Downsampling) (s : Series) : Int :=
  Buckets.gridStart d.interval.toInt (d.origin s) s.maxTime.toInt + d.interval.toInt

/-- If the bounds fit and their distance does, so does every step on the way to them.  On a grid
    through zero the steps are the bounds themselves.  On an aligned one they are distances from the
    first bound, and not greater than that of the last one. -/
theorem exists_starts (hwidth : 0 < d.interval.toInt) (hrange : s.minTime ≤ s.maxTime)
    (hfirst : Fits (d.firstStart s)) (hstop : Fits (d.lastStop s))
    (hspan : Fits (d.lastStop s - d.firstStart s)) :
    (∃ first, (d.grid s).start? s.minTime = some first) ∧
      ∃ last, (d.grid s).start? s.maxTime = some last := by
  have hgrid : 0 < (d.grid s).width.toInt := (grid_width d s).symm ▸ hwidth
  -- What each search needs is that its start and one distance fit.
  rw [Buckets.exists_start?_iff hgrid, Buckets.exists_start?_iff hgrid, grid_width, grid_origin]
  have hmono : Buckets.gridStart d.interval.toInt (d.origin s) s.minTime.toInt ≤
      Buckets.gridStart d.interval.toInt (d.origin s) s.maxTime.toInt :=
    Buckets.gridStart_mono hwidth (Int64.le_iff_toInt_le.mp hrange)
  have hlow : Buckets.gridStart d.interval.toInt (d.origin s) s.maxTime.toInt ≤
      s.maxTime.toInt := Buckets.gridStart_le hwidth
  have hhigh : s.maxTime.toInt < Buckets.gridStart d.interval.toInt (d.origin s)
      s.maxTime.toInt + d.interval.toInt := Buckets.lt_gridStart_add hwidth
  have hmin : Fits s.minTime.toInt := fits_toInt s.minTime
  have hmax : Fits s.maxTime.toInt := fits_toInt s.maxTime
  have hnegative : Int64.minValue.toInt ≤ 0 := by decide
  have hpositive : 0 ≤ Int64.maxValue.toInt := by decide
  rw [firstStart] at hfirst hspan
  rw [lastStop] at hstop hspan
  have horigin : d.origin s = 0 ∨ d.origin s = s.minTime.toInt := by
    unfold origin
    split
    · exact .inr rfl
    · exact .inl rfl
  unfold Fits at *
  generalize d.origin s = origin at *
  -- On a grid through zero all steps are bounds; on an aligned one the first bound is the origin.
  rcases horigin with rfl | rfl
  · omega
  · have hself : Buckets.gridStart d.interval.toInt s.minTime.toInt s.minTime.toInt =
        s.minTime.toInt := by
      simp [Buckets.gridStart]
    omega

/-- **The buckets of a series are found exactly if their bounds fit, and the distance of these.** -/
theorem exists_outermost?_iff (hwidth : 0 < d.interval.toInt) (hrange : s.minTime ≤ s.maxTime) :
    (∃ first last, d.outermost? s = some (first, last)) ↔
      Fits (d.firstStart s) ∧ Fits (d.lastStop s) ∧ Fits (d.lastStop s - d.firstStart s) := by
  constructor
  · rintro ⟨first, last, houter⟩
    obtain ⟨hfirst, hlast, -⟩ := outermost?_eq_some hwidth houter
    obtain ⟨-, -, stop, span, hstop, hspan⟩ := outermost?_steps houter
    rw [grid_origin] at hfirst hlast
    rw [toInt_of_timestamp? hstop] at hspan
    rw [firstStart, lastStop, ← hfirst, ← hlast]
    exact ⟨fits_toInt first, fits_of_timestamp? hstop, fits_of_timestamp? hspan⟩
  · rintro ⟨hfirst, hstop, hspan⟩
    obtain ⟨⟨first, hmin⟩, last, hmax⟩ := exists_starts hwidth hrange hfirst hstop hspan
    have hgrid : 0 < (d.grid s).width.toInt := (grid_width d s).symm ▸ hwidth
    have hfirst := Buckets.start?_eq_some hgrid hmin
    have hlast := Buckets.start?_eq_some hgrid hmax
    rw [grid_width, grid_origin] at hfirst hlast
    refine ⟨first, last, ?_⟩
    rw [firstStart, lastStop, ← hfirst, ← hlast] at hspan
    rw [lastStop, ← hlast] at hstop
    rw [outermost?, hmin, hmax]
    show (timestamp? _ >>= fun stop => timestamp? (stop.toInt - first.toInt) >>= _) = _
    rw [timestamp?_of_fits hstop]
    show (timestamp? ((Int64.ofInt _).toInt - _) >>= _) = _
    rw [toInt_ofInt_of_fits hstop, timestamp?_of_fits hspan]
    rfl

/-! ## The walk

One turn closes one bucket.  It resets the accumulator, reads samples off the front of the list into
it, and gives what the accumulator has then.  A turn that finds nothing in its bucket gives no
sample, and `collect` does not stop there at all. -/

/-- A turn with the bucket from `start` to `stop`: the samples before its end are used up, and those
    of them that are in it are added. -/
def fill (start stop : Int) : Accumulator → List Sample → Accumulator × List Sample
  | acc, [] => (acc, [])
  | acc, x :: rest =>
    if stop ≤ x.time.toInt then (acc, x :: rest)
    else if start ≤ x.time.toInt then fill start stop (acc.add x.value) rest
    else fill start stop acc rest

/-- The loop: as many turns as asked for, each with the bucket after that of the one before.  The
    accumulator is as the turn before has left it. -/
def walk? (width : Int64) : Nat → Timestamp → Accumulator → List Sample → Option (List Sample)
  | 0, _, _, _ => some []
  | turns + 1, start, acc, samples => do
    let stop ← timestamp? (start.toInt + width.toInt)
    let filled := fill start.toInt stop.toInt acc.reset samples
    let rest ← walk? width turns stop filled.1 filled.2
    return (if filled.1.hasData then [⟨start, filled.1.result⟩] else []) ++ rest

/-- A series in buckets, made in sixty-four bits with every operation checked. -/
def walked? (d : Downsampling) (s : Series) : Option Series := do
  let first ← (d.grid s).stepwise? s.minTime
  let last ← (d.grid s).stepwise? s.maxTime
  let stop ← timestamp? (last.toInt + d.interval.toInt)
  let span ← timestamp? (stop.toInt - first.toInt)
  let turns ← timestamp? (span.toInt.tdiv d.interval.toInt)
  let samples ← walk? d.interval turns.toInt.toNat first d.summary.accumulator s.samples
  let minTime ← (d.grid s).stepwise? s.minTime
  let maxTime ← (d.grid s).stepwise? s.maxTime
  return { s with samples, minTime, maxTime, step := d.interval }

variable {width start stop : Int} {summary : Summary} {acc : Accumulator} {samples : List Sample}

/-- A fresh accumulator closes with nothing. -/
theorem close_accumulator : close start summary.accumulator = [] := by
  rw [close, summary.hasData_accumulator]
  rfl

/-- A turn leaves an accumulator that a reset makes fresh again. -/
theorem reset_fill : (fill start stop acc samples).1.reset = acc.reset := by
  induction samples generalizing acc with
  | nil => rfl
  | cons x rest ih =>
    unfold fill
    split
    case isTrue => rfl
    case isFalse =>
      split
      case isTrue => rw [ih, Accumulator.reset_add]
      case isFalse => exact ih

/-- Beyond the last bucket there is nothing. -/
theorem collect_stop :
    collect width stop summary.accumulator stop summary.accumulator samples = [] := by
  induction samples with
  | nil => exact close_accumulator
  | cons x rest ih =>
    unfold collect
    dsimp only
    split
    case isTrue => exact ih
    case isFalse h =>
      rw [if_pos (Int.not_lt.mp h)]
      exact close_accumulator

/-- The bucket of an instant is the same seen from the next bucket. -/
theorem next_shift (hwidth : 0 < width) {t : Int} :
    start + width + (t - (start + width)) / width * width =
      start + (t - start) / width * width := by
  have hshift : t - (start + width) = (t - start) + -1 * width := by omega
  rw [hshift, Int.add_mul_ediv_right _ _ (Int.ne_of_gt hwidth), Int.add_mul]
  omega

/-- **A turn of the walk is what is done with the open bucket.**  What is left is done from the next
    bucket on, also if that one stays empty.  By induction on the samples, whatever the accumulator
    holds. -/
theorem collect_fill (hwidth : 0 < width) (hstop : start + width ≤ stop) :
    collect width stop summary.accumulator start acc samples =
      close start (fill start (start + width) acc samples).1 ++
        collect width stop summary.accumulator (start + width) summary.accumulator
          (fill start (start + width) acc samples).2 := by
  induction samples generalizing acc with
  | nil =>
    show close start acc = close start acc ++ close (start + width) summary.accumulator
    rw [close_accumulator, List.append_nil]
  | cons x rest ih =>
    -- Before the end of the bucket, the sample is used up in this turn.
    rcases Int.lt_or_le x.time.toInt (start + width) with hin | hbeyond
    · have hbefore : ¬ start + width ≤ x.time.toInt := Int.not_le.mpr hin
      have hopen : ¬ stop ≤ x.time.toInt := by omega
      rw [fill, if_neg hbefore, collect]
      rcases Int.lt_or_le x.time.toInt start with hlate | hlow
      · rw [if_pos hlate, if_neg (Int.not_le.mpr hlate)]
        exact ih
      · rw [if_neg (Int.not_lt.mpr hlow), if_neg hopen, if_pos hin, if_pos hlow]
        exact ih
    · -- the turn ends here, with the sample left
      rw [fill, if_pos hbeyond, collect, collect]
      rw [if_neg (by omega), if_neg (Int.not_lt.mpr hbeyond), if_neg (Int.not_lt.mpr hbeyond),
        close_accumulator]
      -- Within the range, the next bucket is found from either start; at its end both are done.
      rcases Int.lt_or_le x.time.toInt stop with hopen | hend
      · rw [if_neg (Int.not_le.mpr hopen), if_neg (Int.not_le.mpr hopen), ← next_shift hwidth]
        congr 1
        split
        case isTrue hnext =>
          have hzero : (x.time.toInt - (start + width)) / width = 0 :=
            Int.ediv_eq_zero_of_lt (by omega) (by omega)
          rw [hzero, Int.zero_mul, Int.add_zero]
        case isFalse hfar => rfl
      · rw [if_pos hend, if_pos hend, List.append_nil]

/-- **The walk does not overflow, and gives what the run gives.**  By induction on the turns.  The
    invariant is that as many buckets as there are turns reach to the last end, which fits, and that
    a reset makes the accumulator a fresh one. -/
theorem walk?_eq_some {width start : Int64} (hwidth : 0 < width.toInt) {turns : Nat}
    (hend : start.toInt + turns * width.toInt = stop) (hstop : stop ≤ Int64.maxValue.toInt)
    (hreset : acc.reset = summary.accumulator) :
    walk? width turns start acc samples =
      some (collect width.toInt stop summary.accumulator start.toInt summary.accumulator
        samples) := by
  -- Each turn starts where the one before ended, with what that one has left.
  induction turns generalizing start acc samples with
  | zero =>
    have hstart : start.toInt = stop := by omega
    rw [hstart, collect_stop]
    rfl
  | succ turns ih =>
    have hlength : (turns + 1 : Nat) * width.toInt = turns * width.toInt + width.toInt := by
      rw [Int.natCast_add, Int.add_mul, Int.natCast_one, Int.one_mul]
    have hrest : 0 ≤ turns * width.toInt :=
      Int.mul_nonneg (Int.natCast_nonneg turns) (Int.le_of_lt hwidth)
    -- the end of this bucket is at or before the last end, which fits
    have hfits : Fits (start.toInt + width.toInt) := by
      have hlow := start.le_toInt
      have hmin : Int64.minValue.toInt = -2 ^ 63 := rfl
      exact ⟨by omega, by omega⟩
    have hnext := toInt_ofInt_of_fits hfits
    rw [walk?, timestamp?_of_fits hfits]
    generalize Int64.ofInt (start.toInt + width.toInt) = next at hnext ⊢
    have hturns : next.toInt + turns * width.toInt = stop := by omega
    show (walk? width turns next _ _ >>= _) = _
    rw [hreset, ih hturns (reset_fill.trans summary.reset_accumulator), hnext,
      collect_fill hwidth (show start.toInt + width.toInt ≤ stop by omega), close,
      Int64.ofInt_toInt]
    rfl

/-- **A downsampling that succeeds does so in sixty-four bits.** -/
theorem walked?_eq_some (hs : s.WellFormed) (hdata : s.samples ≠ []) (h : d.apply s = .ok out) :
    d.walked? s = some out := by
  obtain ⟨hstep, first, last, houter, rfl⟩ := apply_eq_ok hdata h
  have hwidth := interval_pos hs hstep
  have hgrid : 0 < (d.grid s).width.toInt := (grid_width d s).symm ▸ hwidth
  obtain ⟨hfirst, hlast, hmax⟩ := outermost?_eq_some hwidth houter
  have hmono : first.toInt ≤ last.toInt := by
    rw [hfirst, hlast]
    exact Buckets.gridStart_mono hwidth (Int64.le_iff_toInt_le.mp hs.range)
  have hwhole : d.interval.toInt ∣ last.toInt + d.interval.toInt - first.toInt := by
    have hsum : last.toInt + d.interval.toInt - first.toInt =
        (last.toInt - first.toInt) + d.interval.toInt := by omega
    rw [hsum, hfirst, hlast]
    exact Int.dvd_add Buckets.dvd_gridStart_sub (Int.dvd_refl _)
  obtain ⟨hfound, hfound', stop, span, hstop, hspan⟩ := outermost?_steps houter
  have hlength := toInt_of_timestamp? hspan
  rw [toInt_of_timestamp? hstop] at hlength
  rw [← hlength] at hwhole
  -- the distance of the bounds is a number of widths, one for each turn
  have hquotient : span.toInt.tdiv d.interval.toInt = span.toInt / d.interval.toInt :=
    Int.tdiv_eq_ediv_of_dvd hwhole
  have hturns : Fits (span.toInt / d.interval.toInt) := fits_ediv hwidth (fits_toInt span)
  have hcount : 0 ≤ span.toInt / d.interval.toInt :=
    Int.ediv_nonneg (by omega) (Int.le_of_lt hwidth)
  have hend : first.toInt + (span.toInt / d.interval.toInt).toNat * d.interval.toInt =
      last.toInt + d.interval.toInt := by
    rw [Int.toNat_of_nonneg hcount, Int.ediv_mul_cancel hwhole]
    omega
  have hwalk : walk? d.interval (span.toInt / d.interval.toInt).toNat first
      d.summary.accumulator s.samples = _ :=
    walk?_eq_some hwidth hend hmax d.summary.reset_accumulator
  -- Check by check, each is passed with the result computed above.
  unfold walked?
  rw [Buckets.stepwise?_eq_start? hgrid, Buckets.stepwise?_eq_start? hgrid, hfound, hfound']
  show (timestamp? (last.toInt + d.interval.toInt) >>= _) = _
  rw [hstop]
  show (timestamp? (stop.toInt - first.toInt) >>= _) = _
  rw [hspan]
  show (timestamp? (span.toInt.tdiv d.interval.toInt) >>= _) = _
  rw [hquotient, timestamp?_of_fits hturns]
  show (walk? d.interval (Int64.ofInt _).toInt.toNat first _ _ >>= _) = _
  rw [toInt_ofInt_of_fits hturns, hwalk]
  rfl

/-- **Downsampling is exact bucketing.**  The samples that come out are those of the buckets, and
    the walk from bucket to bucket, with one accumulator that is reset from turn to turn, makes the
    same of the series (`walked?_eq_some`). -/
theorem apply_bucketed (hs : s.WellFormed) (hdata : s.samples ≠ []) (h : d.apply s = .ok out) :
    d.Bucketed s out ∧ d.walked? s = some out :=
  ⟨bucketed_of_apply hs hdata h, walked?_eq_some hs hdata h⟩

/-- Two samples in one bucket of an aligned grid that starts below zero, an empty bucket, and a
    sample at the start of the last one. -/
theorem apply_bucketed_usage :
    let d : Downsampling := ⟨10, .max, true⟩
    let s : Series :=
      { samples := [⟨-25, 1.0⟩, ⟨-16, 3.0⟩, ⟨5, 2.0⟩], labels := .empty, minTime := -25,
        maxTime := 6, step := 1, title := none }
    let out : Series := { s with samples := [⟨-25, 3.0⟩, ⟨5, 2.0⟩], maxTime := 5, step := 10 }
    s.WellFormed ∧ s.samples ≠ [] ∧ d.apply s = .ok out ∧ d.Bucketed s out ∧
      d.walked? s = some out := by
  intro d s out
  have hs : s.WellFormed := by
    refine ⟨by decide, by decide, by unfold Series.Ascending; decide, by decide⟩
  have hdata : s.samples ≠ [] := by decide
  have hout : d.apply s = .ok out := eq_ok_of_toOption (by decide +kernel)
  exact ⟨hs, hdata, hout, apply_bucketed hs hdata hout⟩

/-- **A downsampling is refused exactly if it has to be, and does not overflow.**  It is refused for
    an interval below the step of the series, or because the start of the first bucket, the end of
    the last one or the distance of these cannot be expressed.  Otherwise it can be made in
    sixty-four bits. -/
theorem apply_refused_iff (d : Downsampling) (hs : s.WellFormed) :
    ((∃ cause, d.apply s = .error (.invalid cause)) ↔
      s.samples ≠ [] ∧ (d.interval < s.step ∨ ¬ Fits (d.firstStart s) ∨ ¬ Fits (d.lastStop s) ∨
        ¬ Fits (d.lastStop s - d.firstStart s))) ∧
    (s.samples ≠ [] → ∀ out, d.apply s = .ok out → d.walked? s = some out) := by
  refine ⟨?_, fun hdata out h => walked?_eq_some hs hdata h⟩
  by_cases hdata : s.samples = []
  · have hsame : d.apply s = .ok s := if_pos (List.isEmpty_iff.mpr hdata)
    rw [hsame]
    exact ⟨fun ⟨_, h⟩ => (by cases h), fun ⟨h, _⟩ => absurd hdata h⟩
  · rw [and_iff_right hdata]
    have hempty : ¬ s.isEmpty = true := fun hempty => hdata (List.isEmpty_iff.mp hempty)
    unfold apply
    rw [if_neg hempty]
    -- The interval is looked at first, and then the bounds.
    by_cases hstep : d.interval < s.step
    · rw [if_pos hstep]
      exact ⟨fun _ => .inl hstep, fun _ => ⟨_, rfl⟩⟩
    · have hwidth : 0 < d.interval.toInt :=
        Int.lt_of_lt_of_le (Int64.lt_iff_toInt_lt.mp hs.step_pos)
          (Int64.le_iff_toInt_le.mp (Int64.not_lt.mp hstep))
      have hfound := exists_outermost?_iff hwidth hs.range
      rw [if_neg hstep, or_iff_right hstep, ← Classical.not_and_iff_not_or_not,
        ← Classical.not_and_iff_not_or_not, ← hfound]
      cases d.outermost? s with
      | none => exact ⟨fun _ ⟨_, _, h⟩ => (by cases h), fun _ => ⟨_, rfl⟩⟩
      | some bounds => exact ⟨fun ⟨_, h⟩ => (by cases h), fun h => absurd ⟨_, _, rfl⟩ h⟩

/-- A range at the upper limit: the end of its last bucket cannot be expressed.  At the lower limit,
    where a bucket starts at the least count, there is no difficulty. -/
theorem apply_refused_iff_usage :
    let d : Downsampling := ⟨2, .sum, false⟩
    let s (t : Timestamp) : Series :=
      { samples := [⟨t, 1.0⟩], labels := .empty, minTime := t, maxTime := t, step := 1,
        title := none }
    (∀ t, (s t).WellFormed) ∧
    (∃ cause, d.apply (s Int64.maxValue) = .error (.invalid cause)) ∧
    ∃ out, d.apply (s Int64.minValue) = .ok out ∧ d.walked? (s Int64.minValue) = some out := by
  intro d s
  have hs : ∀ t, (s t).WellFormed := fun t =>
    ⟨show (0 : Int64) < 1 by decide, Int64.le_refl t, List.pairwise_singleton _ _, fun x hx => by
      obtain rfl := List.mem_singleton.mp hx
      exact ⟨Int64.le_refl t, Int64.le_refl t⟩⟩
  refine ⟨hs, ?_, ?_⟩
  · refine (apply_refused_iff d (hs Int64.maxValue)).1.mpr ⟨List.cons_ne_nil _ _, ?_⟩
    exact .inr (.inr (.inl (by decide)))
  · have hok : (d.apply (s Int64.minValue)).isOk = true := by decide +kernel
    obtain ⟨out, hout⟩ : ∃ out, d.apply (s Int64.minValue) = .ok out :=
      exists_ok_of_ne_error fun e he => by
        rw [he] at hok
        cases hok
    exact ⟨out, hout, (apply_refused_iff d (hs _)).2 (List.cons_ne_nil _ _) out hout⟩

end Downsampling
end SeriesQuery
