/-
  Downsampling a second time at the same interval.

  The second time every bucket holds one sample, and this stands at its start.  So nothing changes
  but the values, each of which becomes the summary of itself alone (`apply_again`).  For most
  summaries this is the same number.  The standard deviation of a single value, however, is zero:
  there the second time clears all values (`summarize_again`).
-/
import SeriesQuery.Proofs.Stage.Nesting
import SeriesQuery.Proofs.Summary.Single
import SeriesQuery.Stage.Basic

namespace SeriesQuery

/-- Series that are equal if "not a number" counts as equal to itself. -/
structure Series.Same (left right : Series) : Prop extends left.SameButValues right where
  values : List.Forall₂ (fun x y => sameNumber x y = true) (left.samples.map Sample.value)
    (right.samples.map Sample.value)

namespace Downsampling

variable {d : Downsampling} {s once : Series}

/-! ## One series

The result of the first step is on the grid of the second one.  So every bucket of the second step
has exactly one sample, or none. -/

section Again

variable (hfixed : d.alignToStart = false) (hs : s.WellFormed)

include hfixed hs

/-- What is in the bucket of a sample of the result: this sample alone. -/
theorem inBucket_once (hdata : s.samples ≠ []) (h : d.apply s = .ok once) {z : Sample}
    (hz : z ∈ once.samples) {t : Timestamp} (hgrid : d.interval.toInt ∣ t.toInt)
    (hin : Within d.interval.toInt t.toInt z) :
    z.time = t ∧ inBucket d.interval.toInt t.toInt once.samples = [z] := by
  obtain ⟨hstep, -⟩ := apply_eq_ok hdata h
  have hwidth := interval_pos hs hstep
  -- a sample in the bucket stands at its start, since both are on the grid
  have htime : ∀ x ∈ once.samples, Within d.interval.toInt t.toInt x → x.time = t := by
    intro x hx hxin
    obtain ⟨hlow, hhigh⟩ := hxin
    have hxgrid := ((mem_samples_iff hs hdata h).mp hx).1
    rw [origin_eq_zero hfixed, Int.sub_zero] at hxgrid
    have hle := Buckets.le_of_dvd_of_lt_add hwidth (Int.dvd_sub hgrid hxgrid) hhigh
    exact Int64.toInt_inj.mp (by omega)
  have hascending : Series.Ascending once.samples := (apply_wellFormed h hs).ascending
  refine ⟨htime z hz hin, ?_⟩
  refine (hascending.filter _).eq_of_mem_iff (List.pairwise_singleton _ _) fun x => ?_
  rw [List.mem_singleton]
  constructor
  · intro hx
    obtain ⟨hx, hxin⟩ := List.mem_filter.mp hx
    -- two samples of one bucket stand at the same start, and so are one
    have hsame : x.time = z.time :=
      (htime x hx (of_decide_eq_true hxin)).trans (htime z hz hin).symm
    exact hascending.eq_of_time_eq hx hz hsame
  · rintro rfl
    exact List.mem_filter.mpr ⟨hz, decide_eq_true hin⟩

/-- **The second time, every value becomes the summary of itself alone.** -/
theorem apply_again (h : d.apply s = .ok once) :
    d.apply once = .ok (once.mapValues fun x => d.summary.of [x]) := by
  -- An empty series stays as it is, both times.
  by_cases hdata : s.samples = []
  · have hsame : d.apply s = .ok s := if_pos (List.isEmpty_iff.mpr hdata)
    obtain rfl : s = once := Except.ok.inj (hsame.symm.trans h)
    have hmap : s.mapValues (fun x => d.summary.of [x]) = s := by
      unfold Series.mapValues
      rw [hdata, List.map_nil, ← hdata]
    rw [hmap]
    exact hsame
  · have hdvd := Int.dvd_refl d.interval.toInt
    obtain ⟨twice, htwice⟩ := exists_apply_coarse hfixed hfixed hdvd hs hdata h h
    have hsame := twice_sameButValues hfixed hfixed hdvd hs hdata h h htwice
    have hwf := apply_wellFormed h hs
    have honce := samples_ne_nil hs hdata h
    -- A bucket has one sample now, so the second time each of them is summarized alone.
    have hsamples : twice.samples =
        once.samples.map fun x => { x with value := d.summary.of [x.value] } := by
      refine (apply_wellFormed htwice hwf).ascending.eq_of_mem_iff
        (List.pairwise_map.mpr hwf.ascending) fun y => ?_
      rw [mem_samples_iff hwf honce htwice, origin_eq_zero hfixed, Int.sub_zero, List.mem_map]
      constructor
      · rintro ⟨hgrid, hne, hvalue⟩
        obtain ⟨z, hz, hin⟩ := inBucket_ne_nil.mp hne
        obtain ⟨htime, hone⟩ := inBucket_once hfixed hs hdata h hz hgrid hin
        rw [hone] at hvalue
        refine ⟨z, hz, ?_⟩
        rw [htime]
        exact congrArg (Sample.mk y.time) hvalue.symm
      · rintro ⟨z, hz, rfl⟩
        have hgrid := ((mem_samples_iff hs hdata h).mp hz).1
        rw [origin_eq_zero hfixed, Int.sub_zero] at hgrid
        have hpos : 0 < d.interval.toInt := interval_pos hs (apply_eq_ok hdata h).1
        have hin : Within d.interval.toInt z.time.toInt z := ⟨Int.le_refl _, by omega⟩
        obtain ⟨-, hone⟩ := inBucket_once hfixed hs hdata h hz hgrid hin
        rw [hone]
        exact ⟨hgrid, List.cons_ne_nil _ _, rfl⟩
    rw [htwice, hsame.eq_with hsamples]
    rfl

end Again

end Downsampling

/-! ## A list of series

What holds of one series holds of a list of them, series by series. -/

/-- Values that stay the same number make a series that is the same. -/
theorem Series.same_mapValues {f : Float → Float} (hf : ∀ x, sameNumber (f x) x = true)
    (s : Series) : (s.mapValues f).Same s := by
  refine ⟨⟨?_, rfl, rfl, rfl, rfl, rfl⟩, ?_⟩
  · show (s.samples.map _).map _ = _
    rw [List.map_map]
    rfl
  · show List.Forall₂ _ ((s.samples.map _).map _) _
    rw [List.map_map, List.forall₂_map_left_iff, List.forall₂_map_right_iff]
    exact List.forall₂_same.mpr fun x _ => hf x.value

namespace Stage

variable {d : Downsampling} {input once : List Series}

/-- The second run of the stage changes the values of each series. -/
theorem run_again (hfixed : d.alignToStart = false) (hinput : ∀ s ∈ input, s.WellFormed)
    (h : (Stage.summarize d).run input = .ok once) : (Stage.summarize d).run once =
      .ok (once.map (Series.mapValues fun x => d.summary.of [x])) := by
  have h : input.mapM d.apply = .ok once := h
  show once.mapM d.apply = _
  rw [mapM_eq_ok, List.forall₂_map_right_iff, List.forall₂_same]
  -- every series of the first result is a downsampled one
  intro out hout
  obtain ⟨s, hs, happly⟩ := exists_mem_of_mapM h hout
  exact Downsampling.apply_again hfixed (hinput s hs) happly

/-- **Summarizing again at the same interval.**  It succeeds.  For every summary but the standard
    deviation the result is the same; for that one it differs in the values, all of which are zero,
    or "not a number" where the value was not finite. -/
theorem summarize_again (hvalid : d.validate = .ok ()) (hfixed : d.alignToStart = false)
    (hinput : ∀ s ∈ input, s.WellFormed) (h : (Stage.summarize d).run input = .ok once) :
    ∃ twice, (Stage.summarize d).run once = .ok twice ∧
      (d.summary ≠ .stdDev → List.Forall₂ Series.Same twice once) ∧
      (d.summary = .stdDev → twice = once.map (Series.mapValues fun x =>
        if x.isFinite then 0.0 else Binary64.notANumber)) := by
  -- A valid stage has a valid summary, which is what its values need.
  have hsummary : d.summary.validate = .ok () := by
    unfold Downsampling.validate at hvalid
    split at hvalid
    · cases hvalid
    · exact hvalid
  refine ⟨_, run_again hfixed hinput h, fun hne => ?_, fun heq => ?_⟩
  · rw [List.forall₂_map_left_iff]
    exact List.forall₂_same.mpr fun s _ =>
      Series.same_mapValues (Summary.of_singleton hsummary hne) s
  · rw [heq]
    simp only [Summary.stdDev_of_singleton]

/-- A mean, of samples on both sides of zero. -/
theorem summarize_again_usage :
    let d : Downsampling := ⟨30, .avg, false⟩
    let s : Series :=
      { samples := [⟨-5, -0.0⟩, ⟨10, 3.0⟩, ⟨12, 2.0⟩], labels := .empty, minTime := -5,
        maxTime := 12, step := 1, title := none }
    let once : Series :=
      { s with samples := [⟨-30, 0.0⟩, ⟨0, 2.5⟩], minTime := -30, maxTime := 0, step := 30 }
    d.validate = .ok () ∧ d.alignToStart = false ∧ s.WellFormed ∧
      (Stage.summarize d).run [s] = .ok [once] ∧
      ∃ twice, (Stage.summarize d).run [once] = .ok twice ∧
        List.Forall₂ Series.Same twice [once] := by
  intro d s once
  have hs : s.WellFormed := by
    refine ⟨by decide, by decide, by unfold Series.Ascending; decide, by decide⟩
  have hrun : (Stage.summarize d).run [s] = .ok [once] := eq_ok_of_toOption (by decide +kernel)
  have hinput : ∀ x ∈ [s], x.WellFormed := fun x hx => List.mem_singleton.mp hx ▸ hs
  obtain ⟨twice, htwice, hsame, -⟩ := summarize_again rfl rfl hinput hrun
  exact ⟨rfl, rfl, hs, hrun, twice, htwice, hsame (by decide)⟩

/-- The standard deviation of `1` and `3` is `1`, and that of `1` alone is `0`. -/
theorem stdDev_again_differs :
    let d : Downsampling := ⟨30, .stdDev, false⟩
    let s : Series :=
      { samples := [⟨0, 1.0⟩, ⟨10, 3.0⟩], labels := .empty, minTime := 0, maxTime := 10, step := 10,
        title := none }
    d.validate = .ok () ∧ d.alignToStart = false ∧ s.WellFormed ∧
      ∃ once, (Stage.summarize d).run [s] = .ok once ∧
        ¬ ∃ twice, (Stage.summarize d).run once = .ok twice ∧
          List.Forall₂ Series.Same twice once := by
  intro d s
  have hs : s.WellFormed := by
    refine ⟨by decide, by decide, by unfold Series.Ascending; decide, by decide⟩
  -- Computed both times: the values are `1` and then `0`, and these differ.
  let once : Series := { s with samples := [⟨0, 1.0⟩], maxTime := 0, step := 30 }
  have honce : (Stage.summarize d).run [s] = .ok [once] := eq_ok_of_toOption (by decide +kernel)
  have htwice : (Stage.summarize d).run [once] = .ok [{ once with samples := [⟨0, 0.0⟩] }] :=
    eq_ok_of_toOption (by decide +kernel)
  refine ⟨rfl, rfl, hs, [once], honce, ?_⟩
  rintro ⟨twice, hrun, hsame⟩
  obtain rfl := Except.ok.inj (htwice.symm.trans hrun)
  obtain ⟨hfirst, -⟩ := List.forall₂_cons.mp hsame
  obtain ⟨hvalue, -⟩ := List.forall₂_cons.mp hfirst.values
  exact absurd hvalue (by decide +kernel)

end Stage
end SeriesQuery
