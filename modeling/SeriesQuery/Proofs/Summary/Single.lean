/-
  The summary of a single value.

  It is the value again, but for two things.  A sum or a mean of the negative zero is the positive
  one, which is the same number; and the standard deviation, which says how far values are apart,
  is zero, or "not a number" if the value is not finite (`stdDev_of_singleton`).

  A percentile is read off the values at a rank that is in range, and there is one value only.
-/
import SeriesQuery.Proofs.Summary.Percentiles

namespace SeriesQuery.Summary

variable {p x : Float}

/-! ## Percentiles -/

/-- Of one value, every percentile is this value: there is no other one to read. -/
theorem percentileOf_singleton (hlow : 0.0 ≤ p) (hhigh : p ≤ 100.0) (x : Float) :
    percentileOf p [x] = x := by
  have hsorted : ascendingValues [x] = [x] := List.mergeSort_singleton x
  have hrank : IsRank [x].length (percentileRank p [x].length) :=
    isRank_percentileRank hlow hhigh Nat.one_pos Nat.one_le_two_pow
  have hread := readAt_percentileOf hrank
  rw [hsorted] at hread
  generalize percentileOf p [x] = y at hread ⊢
  cases hread with
  | whole hbelow => exact List.getElem_singleton hbelow
  | between habove => exact absurd (Nat.lt_of_succ_lt_succ habove) (Nat.not_lt_zero _)

/-! ## The standard deviation -/

/-- Nothing is apart from a single value; but this takes a difference, which there is not of a value
    that is not finite. -/
theorem stdDev_of_singleton (x : Float) :
    Summary.stdDev.of [x] = if x.isFinite then 0.0 else Binary64.notANumber := by
  show Float.sqrt ((0.0 + (x - 0.0) * (x - (0.0 + (x - 0.0) / Float.ofNat 1))) / Float.ofNat 1) = _
  rw [Binary64.sub_zero, Binary64.div_ofNat_one, Binary64.div_ofNat_one]
  by_cases hfinite : x.isFinite = true
  · rw [if_pos hfinite]
    have hdiff : Binary64.IsZero (x - (0.0 + x)) := by
      by_cases hzero : Binary64.IsZero x
      · rw [Binary64.zero_add_of_isZero hzero, Binary64.sub_zero]
        exact hzero
      · rw [Binary64.zero_add_of_not_isZero hzero]
        exact Binary64.isZero_sub_self hfinite
    rw [Binary64.zero_add_of_isZero (Binary64.isZero_mul hfinite hdiff)]
    rfl
  · rw [if_neg hfinite]
    have hzero : ¬ Binary64.IsZero x := fun hzero => hfinite hzero.isFinite
    rw [Binary64.zero_add_of_not_isZero hzero, Binary64.mul_sub_self hfinite]
    rfl

/-! ## All others -/

/-- **Any other summary of a single value is this value.** -/
theorem of_singleton {summary : Summary} (hvalid : summary.validate = .ok ())
    (hne : summary ≠ .stdDev) (x : Float) : sameNumber (summary.of [x]) x = true := by
  cases summary with
  | sum => exact Binary64.sameNumber_zero_add x
  | avg =>
    show sameNumber ((0.0 + x) / Float.ofNat 1) x = true
    rw [Binary64.div_ofNat_one]
    exact Binary64.sameNumber_zero_add x
  | min => exact Binary64.sameNumber_self x
  | max => exact Binary64.sameNumber_self x
  | last => exact Binary64.sameNumber_self x
  | stdDev => exact absurd rfl hne
  | percentile p =>
    obtain ⟨hlow, hhigh⟩ := range_of_validate hvalid
    show sameNumber (percentileOf p [x]) x = true
    rw [percentileOf_singleton hlow hhigh]
    exact Binary64.sameNumber_self x

end SeriesQuery.Summary
