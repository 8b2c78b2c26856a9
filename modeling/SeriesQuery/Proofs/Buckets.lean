/-
  Buckets over the integers.

  `Buckets.gridStart` is where a bucket starts when nothing on the way has to fit into sixty-four
  bits.  The checked operation gives this very number or nothing (`start?_eq_some`), so that all
  laws of buckets are laws of `gridStart`: the bucket holds its instant, a later instant has a later
  bucket or the same, and two starts on one grid that are less than a width apart are equal.
-/
import SeriesQuery.Proofs.Timestamps

namespace SeriesQuery
namespace Buckets

/-- The greatest `origin + k · width` that is not after the instant. -/
def gridStart (width origin t : Int) : Int :=
  (t - origin) / width * width + origin

variable {width origin t u : Int}

theorem gridStart_le (hwidth : 0 < width) : gridStart width origin t ≤ t := by
  have hfloor := Int.ediv_mul_le (t - origin) (Int.ne_of_gt hwidth)
  unfold gridStart
  omega

theorem lt_gridStart_add (hwidth : 0 < width) : t < gridStart width origin t + width := by
  have hceil := Int.lt_ediv_add_one_mul_self (t - origin) hwidth
  rw [Int.add_mul] at hceil
  unfold gridStart
  omega

theorem gridStart_mono (hwidth : 0 < width) (h : t ≤ u) :
    gridStart width origin t ≤ gridStart width origin u := by
  have hindex : (t - origin) / width ≤ (u - origin) / width :=
    Int.ediv_le_ediv hwidth (by omega)
  have hstart := Int.mul_le_mul_of_nonneg_right hindex (Int.le_of_lt hwidth)
  unfold gridStart
  omega

/-- A start is a number of widths from the origin. -/
theorem dvd_gridStart_sub_origin : width ∣ gridStart width origin t - origin := by
  have hdiff : gridStart width origin t - origin = (t - origin) / width * width := by
    unfold gridStart
    omega
  exact hdiff ▸ Int.dvd_mul_left _ _

/-- Two starts on one grid are a number of widths apart. -/
theorem dvd_gridStart_sub : width ∣ gridStart width origin u - gridStart width origin t := by
  have hdiff : gridStart width origin u - gridStart width origin t =
      (gridStart width origin u - origin) - (gridStart width origin t - origin) := by omega
  exact hdiff ▸ Int.dvd_sub dvd_gridStart_sub_origin dvd_gridStart_sub_origin

/-- An instant of the grid that is before the end of a bucket is not after its start. -/
theorem le_of_dvd_of_lt_add {start instant : Int} (hwidth : 0 < width)
    (hgrid : width ∣ start - instant) (h : instant < start + width) : instant ≤ start := by
  obtain ⟨k, hk⟩ := hgrid
  by_cases hneg : k < 0
  · have hfar : width * k ≤ width * (-1) :=
      Int.mul_le_mul_of_nonneg_left (by omega) (Int.le_of_lt hwidth)
    omega
  · have hnear : 0 ≤ width * k := Int.mul_nonneg (Int.le_of_lt hwidth) (by omega)
    omega

/-- What is found on the way to a start: the distance from the origin, and its whole widths. -/
theorem start?_steps {b : Buckets} {t start : Timestamp} (h : b.start? t = some start) :
    ∃ offset whole, timestamp? (t.toInt - b.origin.toInt) = some offset ∧
      timestamp? ((b.index offset).toInt * b.width.toInt) = some whole ∧
      timestamp? (whole.toInt + b.origin.toInt) = some start := by
  unfold start? at h
  obtain ⟨offset, hoffset, h⟩ := Option.bind_eq_some_iff.mp h
  obtain ⟨whole, hwhole, hstart⟩ := Option.bind_eq_some_iff.mp h
  exact ⟨offset, whole, hoffset, hwhole, hstart⟩

/-- **The checked start is the exact one.** -/
theorem start?_eq_some {b : Buckets} (hwidth : 0 < b.width.toInt) {t start : Timestamp}
    (h : b.start? t = some start) :
    start.toInt = gridStart b.width.toInt b.origin.toInt t.toInt := by
  obtain ⟨offset, whole, hoffset, hwhole, hstart⟩ := start?_steps h
  rw [timestamp?_eq_some_iff] at hoffset hwhole hstart
  rw [hstart, hwhole, index, toInt_floorQuotient hwidth, hoffset]
  rfl

/-- A later instant of the grid is at least a width later. -/
theorem add_le_of_dvd_of_lt {a b : Int} (hgrid : width ∣ b - a) (h : a < b) : a + width ≤ b := by
  have hle := Int.le_of_dvd (show 0 < b - a by omega) hgrid
  omega

/-- The start of the bucket is the one instant of the grid that has the bucket's instant less than a
    width after it. -/
theorem gridStart_eq {start : Int} (hwidth : 0 < width) (hgrid : width ∣ start - origin)
    (hle : start ≤ t) (hlt : t < start + width) : gridStart width origin t = start := by
  have hlow : gridStart width origin t ≤ t := gridStart_le hwidth
  have hhigh : t < gridStart width origin t + width := lt_gridStart_add hwidth
  have hdvd : width ∣ gridStart width origin t - origin := dvd_gridStart_sub_origin
  have hforth : width ∣ start - gridStart width origin t := by
    have hdiff : start - gridStart width origin t =
        (start - origin) - (gridStart width origin t - origin) := by omega
    exact hdiff ▸ Int.dvd_sub hgrid hdvd
  have hback : width ∣ gridStart width origin t - start := by
    have hdiff : gridStart width origin t - start =
        (gridStart width origin t - origin) - (start - origin) := by omega
    exact hdiff ▸ Int.dvd_sub hdvd hgrid
  have hfirst := le_of_dvd_of_lt_add hwidth hforth (by omega)
  have hsecond := le_of_dvd_of_lt_add hwidth hback (by omega)
  omega

/-! ## Nested grids

A grid whose width is a multiple of that of another one, counted from the same origin. -/

section Nested

variable {fine coarse : Int} (hfine : 0 < fine) (hcoarse : 0 < coarse) (hnest : fine ∣ coarse)

include hnest

/-- The start of a coarse bucket is on the fine grid. -/
theorem dvd_coarse_sub_fine :
    fine ∣ gridStart coarse origin t - gridStart fine origin u := by
  have hdiff : gridStart coarse origin t - gridStart fine origin u =
      (gridStart coarse origin t - origin) - (gridStart fine origin u - origin) := by omega
  exact hdiff ▸ Int.dvd_sub (Int.dvd_trans hnest dvd_gridStart_sub_origin) dvd_gridStart_sub_origin

include hfine hcoarse

/-- The fine bucket does not start before the coarse one. -/
theorem coarse_le_fine : gridStart coarse origin t ≤ gridStart fine origin t := by
  have hgrid : fine ∣ gridStart fine origin t - gridStart coarse origin t := by
    rw [← Int.neg_sub]
    exact Int.dvd_neg.mpr (dvd_coarse_sub_fine hnest)
  have hlow : gridStart coarse origin t ≤ t := gridStart_le hcoarse
  have hhigh : t < gridStart fine origin t + fine := lt_gridStart_add hfine
  exact le_of_dvd_of_lt_add hfine hgrid (by omega)

/-- A fine bucket does not end after the coarse one that its start is in. -/
theorem fine_add_le_coarse_add :
    gridStart fine origin t + fine ≤ gridStart coarse origin t + coarse := by
  have hgrid : fine ∣ gridStart coarse origin t + coarse - gridStart fine origin t := by
    have hsum : gridStart coarse origin t + coarse - gridStart fine origin t =
        (gridStart coarse origin t - gridStart fine origin t) + coarse := by omega
    exact hsum ▸ Int.dvd_add (dvd_coarse_sub_fine hnest) hnest
  have hlow : gridStart fine origin t ≤ t := gridStart_le hfine
  have hhigh : t < gridStart coarse origin t + coarse := lt_gridStart_add hcoarse
  exact add_le_of_dvd_of_lt hgrid (by omega)

/-- The start of the fine bucket is in the coarse bucket of its instant. -/
theorem gridStart_gridStart :
    gridStart coarse origin (gridStart fine origin t) = gridStart coarse origin t := by
  have hlow : gridStart fine origin t ≤ t := gridStart_le hfine
  have hhigh : t < gridStart coarse origin t + coarse := lt_gridStart_add hcoarse
  exact gridStart_eq hcoarse dvd_gridStart_sub_origin (coarse_le_fine hfine hcoarse hnest)
    (by omega)

end Nested

end Buckets
end SeriesQuery
