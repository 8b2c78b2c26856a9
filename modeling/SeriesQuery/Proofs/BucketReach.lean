/-
  How far the checked start of a bucket reaches.

  The start of a bucket is the greatest instant of the grid that is not after a given one
  (`startsUpTo`).  The checked operation is to find it whenever sixty-four bits hold it.  It does so
  on a grid through zero.  On other grids it counts from the origin first, and a distance from there
  can be out of range although both of its ends are in it.  Of the two distances on the way, that of
  the start is not greater than that of the instant.  So two comparisons are left (`InReach`), and
  they say exactly which starts are missed (`start?_eq_some_iff_inReach`).
-/
import Mathlib.Order.Bounds.Basic
import SeriesQuery.Proofs.BucketSteps

namespace SeriesQuery
namespace Buckets

variable {b : Buckets} {t start : Timestamp} {n : Int}

/-! ## The greatest start -/

/-- The instants of the grid that are not after `t`, over the integers. -/
def startsUpTo (b : Buckets) (t : Timestamp) : Set Int :=
  {n | (∃ k : Int, n = b.origin.toInt + k * b.width.toInt) ∧ n ≤ t.toInt}

theorem isGreatest_gridStart (hwidth : 0 < b.width.toInt) (t : Timestamp) :
    IsGreatest (b.startsUpTo t) (gridStart b.width.toInt b.origin.toInt t.toInt) := by
  refine ⟨⟨⟨(t.toInt - b.origin.toInt) / b.width.toInt, Int.add_comm _ _⟩, gridStart_le hwidth⟩, ?_⟩
  rintro n ⟨⟨k, rfl⟩, hle⟩
  have hindex : k ≤ (t.toInt - b.origin.toInt) / b.width.toInt :=
    (Int.le_ediv_iff_mul_le hwidth).mpr (by omega)
  have hstart := Int.mul_le_mul_of_nonneg_right hindex (Int.le_of_lt hwidth)
  unfold gridStart
  omega

theorem isGreatest_iff (hwidth : 0 < b.width.toInt) :
    IsGreatest (b.startsUpTo t) n ↔ n = gridStart b.width.toInt b.origin.toInt t.toInt := by
  constructor
  · exact fun h => h.unique (isGreatest_gridStart hwidth t)
  · rintro rfl
    exact isGreatest_gridStart hwidth t

/-! ## What is found -/

/-- Counted from the origin, the instant is not beyond the range, and the start not below it. -/
structure InReach (b : Buckets) (t start : Timestamp) : Prop where
  instant : t.toInt - b.origin.toInt ≤ Int64.maxValue.toInt
  start : Int64.minValue.toInt ≤ start.toInt - b.origin.toInt

/-- The start that is found is the greatest one, and only those in reach are found. -/
theorem start?_iff (hwidth : 0 < b.width.toInt) :
    b.start? t = some start ↔ IsGreatest (b.startsUpTo t) start.toInt ∧ b.InReach t start := by
  have hle : gridStart b.width.toInt b.origin.toInt t.toInt ≤ t.toInt := gridStart_le hwidth
  rw [isGreatest_iff hwidth]
  constructor
  · intro h
    obtain ⟨hinstant, hstart, -⟩ := (exists_start?_iff hwidth).mp ⟨start, h⟩
    have hvalue := start?_eq_some hwidth h
    exact ⟨hvalue, hinstant.2, hvalue ▸ hstart.1⟩
  · rintro ⟨hvalue, hinstant, hstart⟩
    -- the start is not after the instant, so each distance bounds the other one on its open side
    obtain ⟨found, hfound⟩ : ∃ found, b.start? t = some found := by
      rw [exists_start?_iff hwidth, ← hvalue]
      rw [← hvalue] at hle
      exact ⟨⟨by omega, hinstant⟩, ⟨hstart, by omega⟩, fits_toInt start⟩
    have hsame : found.toInt = start.toInt := (start?_eq_some hwidth hfound).trans hvalue.symm
    rw [hfound, Int64.toInt_inj.mp hsame]

/-- On a grid through zero everything is in reach. -/
theorem inReach_of_origin_zero (horigin : b.origin = 0) (t start : Timestamp) :
    b.InReach t start := by
  have hzero : b.origin.toInt = 0 := by rw [horigin]; rfl
  refine ⟨?_, ?_⟩
  · rw [hzero, Int.sub_zero]
    exact t.toInt_le
  · rw [hzero, Int.sub_zero]
    exact start.le_toInt

/-- From the origin on, the distance of the instant decides alone. -/
theorem inReach_iff_of_origin_le (horigin : b.origin ≤ t)
    (h : IsGreatest (b.startsUpTo t) start.toInt) :
    b.InReach t start ↔ Fits (t.toInt - b.origin.toInt) := by
  have hmin : Int64.minValue.toInt ≤ 0 := by decide
  have horigin := Int64.le_iff_toInt_le.mp horigin
  have hstart : b.origin.toInt ≤ start.toInt := h.2 ⟨⟨0, by omega⟩, horigin⟩
  constructor
  · rintro ⟨hinstant, -⟩
    exact ⟨by omega, hinstant⟩
  · rintro ⟨-, hinstant⟩
    exact ⟨hinstant, by omega⟩

/-- The plain start wraps around, and a product that does so is brought back by the sum.  So it is
    right as long as the distance of the instant fits. -/
theorem start_eq_of_isGreatest (hwidth : 0 < b.width.toInt)
    (hoffset : Fits (t.toInt - b.origin.toInt)) (h : IsGreatest (b.startsUpTo t) start.toInt) :
    b.start t = start := by
  have hdistance : t - b.origin = Int64.ofInt (t.toInt - b.origin.toInt) :=
    sub_eq_of_timestamp? (timestamp?_of_fits hoffset)
  have hindex : (b.index (t - b.origin)).toInt =
      (t.toInt - b.origin.toInt) / b.width.toInt := by
    rw [index, toInt_floorQuotient hwidth, hdistance, toInt_ofInt_of_fits hoffset]
  have hvalue : start.toInt = (b.index (t - b.origin)).toInt * b.width.toInt + b.origin.toInt := by
    rw [hindex]
    exact (isGreatest_iff hwidth).mp h
  rw [Buckets.start, ← Int64.ofInt_toInt start, hvalue, Int64.ofInt_add, Int64.ofInt_mul,
    Int64.ofInt_toInt, Int64.ofInt_toInt, Int64.ofInt_toInt]

/-- **Which starts are found.**  The checked start is the greatest instant of the grid that is not
    after the given one, and it is found exactly if it is in reach.  On a grid through zero this is
    always so; from the origin on, it is so exactly if the distance of the instant fits.  As long as
    this distance fits, the plain start is right even where the checked one is missed. -/
theorem start?_eq_some_iff_inReach (hwidth : 0 < b.width) :
    (∀ t start, b.start? t = some start ↔
      IsGreatest (b.startsUpTo t) start.toInt ∧ b.InReach t start) ∧
    (b.origin = 0 → ∀ t start, b.start? t = some start ↔
      IsGreatest (b.startsUpTo t) start.toInt) ∧
    (∀ t start, b.origin ≤ t → (b.start? t = some start ↔
      IsGreatest (b.startsUpTo t) start.toInt ∧ Fits (t.toInt - b.origin.toInt))) ∧
    ∀ t start, Fits (t.toInt - b.origin.toInt) → IsGreatest (b.startsUpTo t) start.toInt →
      b.start t = start := by
  have hpos : 0 < b.width.toInt := Int64.lt_iff_toInt_lt.mp hwidth
  refine ⟨fun t start => start?_iff hpos, fun horigin t start => ?_, fun t start horigin => ?_,
    fun t start hoffset h => start_eq_of_isGreatest hpos hoffset h⟩
  · rw [start?_iff hpos]
    exact and_iff_left (inReach_of_origin_zero horigin t start)
  · rw [start?_iff hpos]
    exact and_congr_right (inReach_iff_of_origin_le horigin)

/-- A grid through zero at the lower limit, and a bucket after its origin. -/
theorem start?_eq_some_iff_inReach_usage :
    IsGreatest ((fixed 8).startsUpTo (Int64.minValue + 3)) Int64.minValue.toInt ∧
      IsGreatest ((⟨60, 15⟩ : Buckets).startsUpTo 74) 15 ∧ (⟨60, 15⟩ : Buckets).start 74 = 15 := by
  obtain ⟨-, hzero, -, -⟩ := start?_eq_some_iff_inReach (b := fixed 8) (by decide)
  obtain ⟨-, -, hafter, hplain⟩ := start?_eq_some_iff_inReach (b := ⟨60, 15⟩) (by decide)
  obtain ⟨hgreatest, hfits⟩ := (hafter 74 15 (by decide)).mp (by decide)
  exact ⟨(hzero rfl _ _).mp (by decide), hgreatest, hplain 74 15 hfits hgreatest⟩

/-- **Not every start that can be expressed is found.**  This one is three after the least instant.
    Counted from the origin it is below the range, from where the plain start comes back and the
    checked one does not. -/
theorem start?_misses_expressible :
    ¬ ∀ b : Buckets, 0 < b.width → ∀ t start : Timestamp,
      IsGreatest (b.startsUpTo t) start.toInt → b.start? t = some start := by
  intro hall
  have hgreatest : IsGreatest ((⟨10, 5⟩ : Buckets).startsUpTo (Int64.minValue + 5))
      (Int64.minValue + 3).toInt := (isGreatest_iff (by decide)).mpr (by decide)
  have hfound := hall ⟨10, 5⟩ (by decide) _ _ hgreatest
  have hmissed : (⟨10, 5⟩ : Buckets).start? (Int64.minValue + 5) = none := by decide
  rw [hmissed] at hfound
  cases hfound

end Buckets
end SeriesQuery
