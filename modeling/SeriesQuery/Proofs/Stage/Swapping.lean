/-
  Combining two series the other way round.

  A combination by arithmetic is known but for its values from the times of the pairs and from what
  is declared of the two series (`Arithmetic.Frames`), and whether there is one at all is known from
  the times alone.  So combinations are compared by the times of their pairs (`rel_align`), which do
  not change when the sides are swapped.
-/
import SeriesQuery.Proofs.Series.Sameness
import SeriesQuery.Proofs.Stage.Joining

namespace SeriesQuery

/-! ## Combined series -/

namespace Arithmetic

variable {a : Arithmetic} {l r l' r' out : Series}

/-- All but the values of a combination: the labels, the step and the title of the left series, the
    times of the pairs, and the range that covers both. -/
structure Frames (a : Arithmetic) (l r out : Series) : Prop where
  times : out.samples.map Sample.time = pairTimes a.keepUnmatched l.samples r.samples
  labels : out.labels = l.labels
  title : out.title = l.title
  minTime : out.minTime = earlier l.minTime r.minTime
  maxTime : out.maxTime = later l.maxTime r.maxTime
  step : out.step = l.step

/-- Every combination that is not empty is framed in this way. -/
theorem frames_of_align (h : a.projection.align l r = some out) : a.Frames l r out := by
  have htimes := times_align a l r
  rw [h, Option.map_some] at htimes
  have htimes := (eq_of_unlessEmpty htimes.symm).symm
  unfold Projection.align at h
  dsimp only at h
  split at h
  case h_1 => cases h
  case h_2 =>
    obtain rfl := Option.some.inj h
    exact ⟨htimes, rfl, rfl, rfl, rfl, rfl⟩

/-- Nothing comes out only if there are no pairs. -/
theorem align_eq_none_iff :
    a.projection.align l r = none ↔ pairTimes a.keepUnmatched l.samples r.samples = [] := by
  rw [← unlessEmpty_eq_none_iff, ← times_align, Option.map_eq_none_iff]

/-- Two combinations with pairs at the same times come to something both or neither. -/
theorem rel_align {R : Series → Series → Prop}
    (htimes : pairTimes a.keepUnmatched l.samples r.samples =
      pairTimes a.keepUnmatched l'.samples r'.samples)
    (hframes : ∀ out out', a.Frames l r out → a.Frames l' r' out' → R out out') :
    Option.Rel R (a.projection.align l r) (a.projection.align l' r') := by
  -- Whether there is one is known from the times, so only two cases of four remain.
  have hnone : a.projection.align l r = none ↔ a.projection.align l' r' = none := by
    rw [align_eq_none_iff, align_eq_none_iff, htimes]
  cases h : a.projection.align l r with
  | none =>
    rw [hnone.mp h]
    exact .none
  | some out =>
    cases h' : a.projection.align l' r' with
    | none => exact absurd (h.symm.trans (hnone.mpr h')) (Option.some_ne_none out)
    | some out' => exact .some (hframes out out' (frames_of_align h) (frames_of_align h'))

end Arithmetic

/-- The start of a common range does not depend on the sides. -/
theorem earlier_comm (t u : Timestamp) : earlier t u = earlier u t := by
  rw [← Int64.toInt_inj, earlier_toInt, earlier_toInt]
  omega

/-- The later of two instants does not depend on which one is named first. -/
theorem later_comm (t u : Timestamp) : later t u = later u t := by
  rw [← Int64.toInt_inj, later_toInt, later_toInt]
  omega

/-- **Pairing ends, each pair has a sample, and the sides may be swapped**: what comes out has the
    same times and the same range then.  The samples of the two series may be in any order. -/
theorem align_swap (a : Arithmetic) (l r : Series) :
    (∃ n ≤ l.size + r.size, Walk a.keepUnmatched l.samples r.samples n
      (pairUp a.keepUnmatched l.samples r.samples)) ∧
    (∀ pair ∈ pairUp a.keepUnmatched l.samples r.samples, pair.1.isSome ∨ pair.2.isSome) ∧
    Option.Rel Series.SameExtent (a.projection.align l r) (a.projection.align r l) := by
  refine ⟨walk_pairUp _ _ _, fun pair hpair => (isMeeting_of_mem_pairUp hpair).1, ?_⟩
  -- The times are those of the pairs, and those do not know left from right.
  have htimes := pairTimes_swap a.keepUnmatched r.samples l.samples
  refine Arithmetic.rel_align htimes fun out out' hout hout' => ⟨?_, ?_, ?_⟩
  · rw [hout.times, hout'.times, htimes]
  · rw [hout.minTime, hout'.minTime, earlier_comm]
  · rw [hout.maxTime, hout'.maxTime, later_comm]

end SeriesQuery
