/-
  What passes for an expected value.

  A value is compared with the expected one by their difference, which may be a billionth of the
  expected value, or of one.  The bound itself is a product of floats.  It is finite for every
  finite expected value (`isFinite_bound`), so that nothing infinite passes there.  For an infinite
  one it is infinite, and then every difference that is a number is within it: all values but "not a
  number" pass (`valuesAgree_iff`).
-/
import SeriesQuery.Proofs.Decimal.Bounding
import SeriesQuery.Proofs.Decimal.Infinities
import SeriesQuery.Series.Comparison

namespace SeriesQuery

open Binary64

variable {a e : Float}

/-! ## The bound -/

/-- How far a value may be from the expected one. -/
def bound (expected : Float) : Float := tolerance * max 1.0 expected.abs

/-- A billionth, as it is unpacked. -/
theorem unpacks_tolerance : Unpacks tolerance 0x112e0be826d695 (-82) :=
  unpacks_of_ofFloat (by decide +kernel) (by decide)

/-- A billionth of a finite float is finite: it does not exceed this float. -/
theorem isFinite_tolerance_mul_abs (h : e.isFinite = true) :
    (tolerance * e.abs).isFinite = true := by
  rcases isZero_or_of_isFinite h with hzero | ⟨sign, m, exponent, hpos, he⟩
  · exact (isZero_mul (by decide +kernel) hzero.abs).isFinite
  · have habs := unpacks_abs he
    have hbits : 2 ^ 52 ≤ 0x112e0be826d695 * m :=
      (show 2 ^ 52 ≤ 0x112e0be826d695 by decide).trans (Nat.le_mul_of_pos_right _ hpos)
    have hone : ((0x112e0be826d695 : ℕ) * 2 ^ (-82 : ℤ) : ℚ) ≤ 1 := by norm_num
    refine (unpacks_tolerance.upTo_mul habs hbits habs.toCanonical ?_).isFinite
    exact mul_le_of_le_one_left (by positivity) hone

/-- **The bound of a finite value is finite.** -/
theorem isFinite_bound (h : e.isFinite = true) : (bound e).isFinite = true := by
  show (tolerance * if 1.0 ≤ e.abs then e.abs else 1.0).isFinite = true
  -- Values up to one have the bound of one.
  by_cases hlarge : 1.0 ≤ e.abs
  · rw [if_pos hlarge]
    exact isFinite_tolerance_mul_abs h
  · rw [if_neg hlarge]
    decide +kernel

/-- The bound of an infinite value is infinite. -/
theorem bound_of_isInf (h : e.isInf = true) : bound e = infinity := by
  unfold bound
  rw [abs_of_isInf h]
  decide +kernel

/-! ## Values -/

/-- What is meant to pass for an expected value: "not a number" for itself, an equal value, and a
    finite one that is near enough to a finite one. -/
inductive Near (actual expected : Float) : Prop
  | nan (ha : actual.isNaN = true) (he : expected.isNaN = true)
  | equal (h : (actual == expected) = true)
  | within (ha : actual.isFinite = true) (he : expected.isFinite = true)
    (h : (actual - expected).abs ≤ bound expected)

/-- Only the same infinity is meant to pass for an infinity. -/
theorem Near.eq_of_isInf (h : Near a e) (he : e.isInf = true) : (a == e) = true := by
  rcases h with ⟨-, hnan⟩ | heq | ⟨-, hfinite, -⟩
  · exact absurd hnan (Bool.not_eq_true _ ▸ isNaN_of_isInf he)
  · exact heq
  · exact absurd hfinite (Bool.not_eq_true _ ▸ isFinite_of_isInf he)

/-- The comparison, case by case. -/
theorem valuesAgree_eq_true : valuesAgree a e = true ↔
    (a.isNaN = true ∧ e.isNaN = true) ∨ (a == e) = true ∨ (a - e).abs ≤ bound e := by
  simp only [valuesAgree, Bool.or_eq_true, Bool.and_eq_true, decide_eq_true_eq, or_assoc]
  exact Iff.rfl

/-- A difference within a bound is between numbers. -/
theorem isNaN_eq_false_of_within {b : Float} (h : (a - e).abs ≤ b) :
    a.isNaN = false ∧ e.isNaN = false := by
  have hnumbers : ¬(a.isNaN = true ∨ e.isNaN = true) :=
    fun hnan => not_le_of_isNaN (isNaN_abs (isNaN_sub hnan)) h
  simpa only [not_or, Bool.not_eq_true] using hnumbers

/-- **What passes for an expected value**: what is meant to, and for an infinite one every value but
    "not a number". -/
theorem valuesAgree_iff :
    valuesAgree a e = true ↔ Near a e ∨ e.isInf = true ∧ a.isNaN = false := by
  rw [valuesAgree_eq_true]
  -- Equal values pass in any case, so let them differ: then no two infinities are of one sign.
  by_cases heq : (a == e) = true
  · exact iff_of_true (.inr (.inl heq)) (.inl (.equal heq))
  have hne : (a == e) = false := Bool.not_eq_true _ ▸ heq
  constructor
  · rintro (⟨ha, he⟩ | heq | hwithin)
    · exact .inl (.nan ha he)
    · exact .inl (.equal heq)
    · obtain ⟨ha, he⟩ := isNaN_eq_false_of_within hwithin
      rcases isFinite_or_isInf he with hfinite | hinfinite
      · rcases isFinite_or_isInf ha with hfinite' | hinfinite'
        · exact .inl (.within hfinite' hfinite hwithin)
        · -- an infinite difference is not within a finite bound
          rw [abs_of_isInf (isInf_sub ha he (.inl hinfinite') hne)] at hwithin
          exact absurd hwithin (not_infinity_le (isFinite_bound hfinite))
      · exact .inr ⟨hinfinite, ha⟩
  · rintro ((⟨ha, he⟩ | heq | ⟨-, -, hwithin⟩) | ⟨hinfinite, ha⟩)
    · exact .inl ⟨ha, he⟩
    · exact .inr (.inl heq)
    · exact .inr (.inr hwithin)
    · have hdiff := isInf_sub ha (isNaN_of_isInf hinfinite) (.inr hinfinite) hne
      rw [abs_of_isInf hdiff, bound_of_isInf hinfinite]
      exact .inr (.inr (by decide +kernel))

/-! ## Lists of samples -/

/-- Lists agree if they do so position by position. -/
theorem samplesAgree_iff_forall₂ {actual expected : List Sample} :
    samplesAgree actual expected = true ↔
      List.Forall₂ (fun a e => a.time = e.time ∧ valuesAgree a.value e.value = true)
        actual expected := by
  -- Both lists are gone through at once, and the shorter one ends the comparison.
  induction actual generalizing expected with
  | nil =>
    cases expected with
    | nil => exact iff_of_true rfl .nil
    | cons e es => exact iff_of_false Bool.false_ne_true fun h => by cases h
  | cons a as ih =>
    cases expected with
    | nil => exact iff_of_false Bool.false_ne_true fun h => by cases h
    | cons e es =>
      rw [samplesAgree, Bool.and_eq_true, Bool.and_eq_true, beq_iff_eq, ih, List.forall₂_cons]

/-- **Which lists agree.**  There are as many samples as expected, and at every position the time is
    the expected one and the value passes for the expected one.  A value does so if it is meant to,
    and otherwise exactly if an infinite one was expected and it is a number. -/
theorem samplesAgree_iff (actual expected : List Sample) :
    samplesAgree actual expected = true ↔
      actual.length = expected.length ∧
      ∀ (i : Nat) (_ : i < actual.length) (_ : i < expected.length),
        actual[i].time = expected[i].time ∧
        (Near actual[i].value expected[i].value ∨
          expected[i].value.isInf = true ∧ actual[i].value.isNaN = false) := by
  rw [samplesAgree_iff_forall₂, List.forall₂_iff_get]
  simp only [valuesAgree_iff, List.get_eq_getElem]

/-- A finite value passes for an infinite one, and so does the opposite infinity, although neither
    is meant to. -/
theorem infinite_expected_met :
    samplesAgree [⟨0, 1.0⟩, ⟨1, -infinity⟩] [⟨0, infinity⟩, ⟨1, infinity⟩] = true ∧
      ¬Near 1.0 infinity ∧ ¬Near (-infinity) infinity := by
  have hinfinite : infinity.isInf = true := rfl
  refine ⟨by decide +kernel, fun hnear => ?_, fun hnear => ?_⟩
  · exact absurd (hnear.eq_of_isInf hinfinite) (by decide +kernel)
  · exact absurd (hnear.eq_of_isInf hinfinite) (by decide +kernel)

end SeriesQuery
