/-
  What the checked construction of series accepts.

  `Series.ofParts?` looks at neighbours only, and at the first and the last sample.  That this is
  enough has two reasons.  Neighbours in order are enough for the whole list to be
  (`isAscending_iff`), and in an ascending list no sample is outside the first and the last one
  (`Ascending.between_outermost`).  So exactly the proper series are accepted
  (`ofParts?_eq_ok_iff`), and what is refused breaks the rule that is reported, and none of those
  that come before it (`ofParts?_eq_error_iff`).
-/
import Mathlib.Data.List.Basic
import SeriesQuery.Series.Basic

namespace SeriesQuery.Series

/-! ## Outermost samples

In an ascending list, the first and the last sample stand for all of them where a range is
concerned. -/

variable {samples : List Sample} {first last : Sample} {minTime maxTime : Timestamp}

/-- All samples are between the first and the last one. -/
theorem Ascending.between_outermost (h : Ascending samples) (hfirst : samples.head? = some first)
    (hlast : samples.getLast? = some last) :
    ∀ x ∈ samples, first.time ≤ x.time ∧ x.time ≤ last.time := by
  intro x hx
  constructor
  · obtain ⟨rest, rfl⟩ := List.head?_eq_some_iff.mp hfirst
    rcases List.mem_cons.mp hx with rfl | hx
    · exact Int64.le_refl _
    · exact Int64.le_of_lt ((List.pairwise_cons.mp h).1 x hx)
  · obtain ⟨before, rfl⟩ := List.getLast?_eq_some_iff.mp hlast
    rcases List.mem_append.mp hx with hx | hx
    · obtain ⟨-, -, hlater⟩ := List.pairwise_append.mp h
      exact Int64.le_of_lt (hlater x hx last (List.mem_singleton_self last))
    · obtain rfl := List.mem_singleton.mp hx
      exact Int64.le_refl _

/-- A range has all samples in it as soon as it has the first and the last one. -/
theorem Ascending.inside_iff (h : Ascending samples) (hfirst : samples.head? = some first)
    (hlast : samples.getLast? = some last) :
    (∀ x ∈ samples, minTime ≤ x.time ∧ x.time ≤ maxTime) ↔
      minTime ≤ first.time ∧ last.time ≤ maxTime := by
  constructor
  · intro hinside
    exact ⟨(hinside first (List.mem_of_mem_head? hfirst)).1,
      (hinside last (List.mem_of_mem_getLast? hlast)).2⟩
  · rintro ⟨hmin, hmax⟩ x hx
    obtain ⟨hlow, hhigh⟩ := h.between_outermost hfirst hlast x hx
    exact ⟨Int64.le_trans hmin hlow, Int64.le_trans hhigh hmax⟩

/-! ## What is wrong

The rules are checked in a fixed order, and the first one that is broken is reported.  So a fault is
a rule that is broken together with those before it, which hold. -/

/-- The first rule that the parts of a series break, with the values that it is about. -/
inductive FirstFault (samples : List Sample) (minTime maxTime : Timestamp) (step : Int64) :
    Invalid → Prop
  | step (h : step ≤ 0) : FirstFault samples minTime maxTime step (.stepNotPositive step)
  | range (hstep : 0 < step) (h : maxTime < minTime) :
    FirstFault samples minTime maxTime step (.rangeReversed minTime maxTime)
  | order (hstep : 0 < step) (hrange : minTime ≤ maxTime) (h : ¬Ascending samples) :
    FirstFault samples minTime maxTime step .samplesNotAscending
  | outside (hstep : 0 < step) (hrange : minTime ≤ maxTime) (horder : Ascending samples)
    {first last : Sample} (hfirst : samples.head? = some first)
    (hlast : samples.getLast? = some last) (h : first.time < minTime ∨ maxTime < last.time) :
    FirstFault samples minTime maxTime step
      (.samplesOutsideRange first.time last.time minTime maxTime)

variable {labels : Labels} {step : Int64} {title : Option String} {s : Series}

/-- A series is proper unless its parts break some rule. -/
theorem wellFormed_or_fault (s : Series) :
    s.WellFormed ∨ ∃ cause, FirstFault s.samples s.minTime s.maxTime s.step cause := by
  by_cases hstep : s.step ≤ 0
  · exact .inr ⟨_, .step hstep⟩
  have hstep := Int64.not_le.mp hstep
  by_cases hrange : s.maxTime < s.minTime
  · exact .inr ⟨_, .range hstep hrange⟩
  have hrange := Int64.not_lt.mp hrange
  by_cases horder : Ascending s.samples
  case neg => exact .inr ⟨_, .order hstep hrange horder⟩
  cases hfirst : s.samples.head? with
  | none =>
    have hempty := List.head?_eq_none_iff.mp hfirst
    exact .inl ⟨hstep, hrange, horder, fun x hx => absurd (hempty ▸ hx) List.not_mem_nil⟩
  | some first =>
    have hne : s.samples ≠ [] := List.ne_nil_of_mem (List.mem_of_mem_head? hfirst)
    -- With a first sample there is a last one, and these two decide about the range.
    have hlast := List.getLast?_eq_some_getLast hne
    by_cases houtside : first.time < s.minTime ∨ s.maxTime < (s.samples.getLast hne).time
    · exact .inr ⟨_, .outside hstep hrange horder hfirst hlast houtside⟩
    · obtain ⟨hbefore, hafter⟩ := not_or.mp houtside
      exact .inl ⟨hstep, hrange, horder, (horder.inside_iff hfirst hlast).mpr
        ⟨Int64.not_lt.mp hbefore, Int64.not_lt.mp hafter⟩⟩

/-! ## The construction

Proper parts are accepted and faulty ones are refused.  As every list of parts is one or the other,
both statements turn into equivalences. -/

/-- The parts of a proper series pass all checks. -/
theorem ofParts?_of_wellFormed (h : s.WellFormed) :
    ofParts? s.samples s.labels s.minTime s.maxTime s.step s.title = .ok s := by
  obtain ⟨hstep, hrange, horder, hinside⟩ := h
  have hkept : ¬(!isAscending s.samples) = true := by simpa using isAscending_iff.mpr horder
  rw [ofParts?, if_neg (Int64.not_le.mpr hstep), if_neg (Int64.not_lt.mpr hrange), if_neg hkept]
  split
  case h_1 first last hfirst hlast =>
    obtain ⟨hmin, hmax⟩ := (horder.inside_iff hfirst hlast).mp hinside
    exact if_neg (not_or.mpr ⟨Int64.not_lt.mpr hmin, Int64.not_lt.mpr hmax⟩)
  case h_2 => rfl

/-- Parts that break a rule are refused for it, having passed the checks before. -/
theorem ofParts?_of_fault {cause : Invalid} (h : FirstFault samples minTime maxTime step cause) :
    ofParts? samples labels minTime maxTime step title = .error (.invalid cause) := by
  cases h with
  | step h => exact if_pos h
  | range hstep h => rw [ofParts?, if_neg (Int64.not_le.mpr hstep), if_pos h]
  | order hstep hrange h =>
    have hbroken : (!isAscending samples) = true := by simpa using mt isAscending_iff.mp h
    rw [ofParts?, if_neg (Int64.not_le.mpr hstep), if_neg (Int64.not_lt.mpr hrange), if_pos hbroken]
  | outside hstep hrange horder hfirst hlast h =>
    have hkept : ¬(!isAscending samples) = true := by simpa using isAscending_iff.mpr horder
    rw [ofParts?, if_neg (Int64.not_le.mpr hstep), if_neg (Int64.not_lt.mpr hrange), if_neg hkept,
      hfirst, hlast]
    exact if_pos h

/-- **Exactly the proper series are accepted**, as they are. -/
theorem ofParts?_eq_ok_iff : ofParts? samples labels minTime maxTime step title = .ok s ↔
    s = ⟨samples, labels, minTime, maxTime, step, title⟩ ∧ s.WellFormed := by
  constructor
  · intro h
    rcases wellFormed_or_fault ⟨samples, labels, minTime, maxTime, step, title⟩ with
      hproper | ⟨cause, hfault⟩
    · rw [ofParts?_of_wellFormed hproper] at h
      obtain rfl := Except.ok.inj h
      exact ⟨rfl, hproper⟩
    · rw [ofParts?_of_fault hfault] at h
      cases h
  · rintro ⟨rfl, hproper⟩
    rw [ofParts?_of_wellFormed hproper]

/-- **What is refused breaks the rule that is reported**, and none of those before it. -/
theorem ofParts?_eq_error_iff {e : Error} :
    ofParts? samples labels minTime maxTime step title = .error e ↔
      ∃ cause, e = .invalid cause ∧ FirstFault samples minTime maxTime step cause := by
  constructor
  · intro h
    rcases wellFormed_or_fault ⟨samples, labels, minTime, maxTime, step, title⟩ with
      hproper | ⟨cause, hfault⟩
    · rw [ofParts?_of_wellFormed hproper] at h
      cases h
    · rw [ofParts?_of_fault hfault] at h
      exact ⟨cause, (Except.error.inj h).symm, hfault⟩
  · rintro ⟨cause, rfl, hfault⟩
    exact ofParts?_of_fault hfault

/-- With the bounds that are taken from the samples, only the step and the order can be wrong. -/
theorem ofSamples?_eq_ok_iff : ofSamples? samples labels step = .ok s ↔
    s = ⟨samples, labels, (samples.head?.map Sample.time).getD 0,
      (samples.getLast?.map Sample.time).getD 0, step, none⟩ ∧
    0 < step ∧ Ascending samples := by
  rw [ofSamples?, ofParts?_eq_ok_iff]
  refine and_congr_right fun hs => ?_
  subst hs
  refine ⟨fun h => ⟨h.step_pos, h.ascending⟩, fun ⟨hstep, horder⟩ => ?_⟩
  cases hfirst : samples.head? with
  | none =>
    obtain rfl := List.head?_eq_none_iff.mp hfirst
    exact ⟨hstep, Int64.le_refl 0, horder, fun x hx => absurd hx List.not_mem_nil⟩
  | some first =>
    have hmem : first ∈ samples := List.mem_of_mem_head? hfirst
    have hlast := List.getLast?_eq_some_getLast (List.ne_nil_of_mem hmem)
    -- The range is the one that the outermost samples span, so all are inside.
    have hbetween := horder.between_outermost hfirst hlast
    obtain ⟨-, hrange⟩ := hbetween first hmem
    rw [hlast]
    exact ⟨hstep, hrange, horder, hbetween⟩

/-- **What a series has to be.**  Parts make a series exactly if the step is positive, the range
    does not end before it starts, every sample is earlier than each later one, and all of them are
    in the range; samples alone do if the step is positive and they are in this order.  The series
    has the parts that were given, and for samples alone the range from the first to the last. -/
theorem accepted_iff_proper (samples : List Sample) (labels : Labels) (minTime maxTime : Timestamp)
    (step : Int64) (title : Option String) :
    (∀ s, ofParts? samples labels minTime maxTime step title = .ok s ↔
      s = ⟨samples, labels, minTime, maxTime, step, title⟩ ∧
      0 < step ∧ minTime ≤ maxTime ∧
      (∀ (i j : Nat) (_ : i < samples.length) (_ : j < samples.length), i < j →
        samples[i].time < samples[j].time) ∧
      ∀ x ∈ samples, minTime ≤ x.time ∧ x.time ≤ maxTime) ∧
    ∀ s, ofSamples? samples labels step = .ok s ↔
      s = ⟨samples, labels, (samples.head?.map Sample.time).getD 0,
        (samples.getLast?.map Sample.time).getD 0, step, none⟩ ∧
      0 < step ∧
      ∀ (i j : Nat) (_ : i < samples.length) (_ : j < samples.length), i < j →
        samples[i].time < samples[j].time := by
  have horder := List.pairwise_iff_getElem (l := samples) (R := fun s t => s.time < t.time)
  constructor
  · intro s
    rw [ofParts?_eq_ok_iff, ← horder]
    refine and_congr_right fun hs => ?_
    subst hs
    exact ⟨fun h => ⟨h.step_pos, h.range, h.ascending, h.inside⟩,
      fun ⟨hstep, hrange, hascending, hinside⟩ => ⟨hstep, hrange, hascending, hinside⟩⟩
  · intro s
    rw [ofSamples?_eq_ok_iff, ← horder]
    exact Iff.rfl

end SeriesQuery.Series
