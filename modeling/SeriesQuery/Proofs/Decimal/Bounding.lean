/-
  Rounding does not go past a float.

  What is at most a float is rounded to at most this float: on the grid that the number is rounded
  on, the float is a whole number of units (`round_le`).  So products and quotients that are bounded
  by a float stay bounded by it (`Unpacks.upTo_mul`, `Unpacks.upTo_div`), and in particular do not
  overflow.  A whole number is such a bound as long as a float holds it, and only that number itself
  has a whole part as large (`UpTo.toNat_lt_or_eq`).
-/
import SeriesQuery.Proofs.Decimal.Neutral
import SeriesQuery.Proofs.Decimal.Scientific

namespace SeriesQuery.Binary64

open Float.Model
open Float.Model.UnpackedFloat

variable {x y : Float} {m n M m₁ m₂ : ℕ} {e t E e₁ e₂ : ℤ} {v : ℚ} {acc : Accuracy}

/-! ## Rounding to an integer

No integer is strictly between a number and what it is rounded to.  So an integer that bounds the
number bounds the rounded number as well. -/

/-- Rounding goes to one of the two integers around. -/
theorem roundedMantissa_bounds (em : ExtendedMantissa) :
    em.mantissa ≤ em.roundedMantissa ∧ em.roundedMantissa ≤ em.mantissa + 1 := by
  unfold ExtendedMantissa.roundedMantissa
  cases em.accuracy with
  | exact => exact ⟨le_rfl, Nat.le_succ _⟩
  | inexact half =>
    cases half with
    | lt => exact ⟨le_rfl, Nat.le_succ _⟩
    | eq =>
      have hparity : em.mantissa % 2 ≤ 1 := Nat.le_of_lt_succ (Nat.mod_lt _ two_pos)
      exact ⟨Nat.le_add_right _ _, Nat.add_le_add_left hparity _⟩
    | gt => exact ⟨Nat.le_succ _, le_rfl⟩

namespace Describes

variable {em : ExtendedMantissa}

/-- What is at most an integer is rounded to at most this integer. -/
theorem roundedMantissa_le (h : Describes em v) (hv : v ≤ n) : em.roundedMantissa ≤ n := by
  -- Below the integer, the next integer up is at most this one; and the integer itself is exact.
  rcases hv.lt_or_eq with hlt | rfl
  · have hwhole : em.mantissa < n := by exact_mod_cast h.low.trans_lt hlt
    exact (roundedMantissa_bounds em).2.trans hwhole
  · refine (h.roundedMantissa_eq (by linarith) (by linarith) fun htie => ?_).le
    rcases htie with htie | htie
    · linarith
    · linarith

/-- What is at least an integer is rounded to at least this integer. -/
theorem le_roundedMantissa (h : Describes em v) (hv : n ≤ v) : n ≤ em.roundedMantissa := by
  have hwhole : n < em.mantissa + 1 := by exact_mod_cast hv.trans_lt h.high
  exact (Nat.le_of_lt_succ hwhole).trans (roundedMantissa_bounds em).1

end Describes

/-! ## Rounding to a float

On the grid that a number is rounded on, a float that is not below it is an integer, and the bound
for integers is the bound for floats.  The case to look at is that of a carry, where what comes out
is on a grid that is coarser by one bit. -/

section Target

variable (hlow : M * 2 ^ E ≤ v) (hhigh : v < (M + 1) * 2 ^ E) (hexp : E ≤ target M E)

include hlow hexp

/-- The grid of a number is not coarser than that of a float it does not exceed. -/
theorem target_le (hcan : Canonical m e) (hv : v ≤ m * 2 ^ e) : target M E ≤ e := by
  have hunit : (0 : ℚ) < 2 ^ e := zpow_pos two_pos e
  have hbits : (m : ℚ) < 2 ^ 53 := by exact_mod_cast hcan.bits
  have hpower : v < 2 ^ (53 + e) :=
    calc v ≤ m * 2 ^ e := hv
      _ < 2 ^ 53 * 2 ^ e := by gcongr
      _ = 2 ^ (53 + e) := by rw [zpow_add₀ two_ne_zero]; norm_num
  have hleast := hcan.least
  have hlog := log2_lt_of_lt hlow hpower fun hzero => by
    subst hzero
    unfold target at hexp
    rw [Nat.log2_zero] at hexp
    omega
  unfold target
  omega

include hhigh

/-- On its grid the number has fifty-three bits, or fewer if the grid is the finest one. -/
theorem scaled_bounds : v / 2 ^ target M E < 2 ^ 53 ∧
    (-1074 < target M E → 2 ^ 52 ≤ v / 2 ^ target M E) := by
  have hunit : (0 : ℚ) < 2 ^ target M E := zpow_pos two_pos _
  have htarget : target M E = max (M.log2 + 1 + E - 53) (-1074) := rfl
  have hpositive : ¬ v < 0 := not_lt.mpr ((by positivity : (0 : ℚ) ≤ M * 2 ^ E).trans hlow)
  constructor
  · rw [div_lt_iff₀ hunit]
    -- With more bits than that, the target exponent would have been greater.
    by_contra hlarge
    have hpower : (2 : ℚ) ^ (53 + target M E) ≤ v := by
      rw [zpow_add₀ two_ne_zero]
      exact_mod_cast not_lt.mp hlarge
    have hlog := lt_log2_of_le hhigh hpower
    omega
  · intro hleast
    rw [le_div_iff₀ hunit]
    -- With fewer, it would have been smaller.
    by_contra hsmall
    have hpower : v < (2 : ℚ) ^ (52 + target M E) := by
      rw [zpow_add₀ two_ne_zero]
      exact_mod_cast not_le.mp hsmall
    have hlog := log2_lt_of_lt hlow hpower fun hzero => by omega
    omega

end Target

/-- A float is a whole number of units of a finer grid. -/
theorem scaled_natCast (hle : t ≤ e) :
    (m * 2 ^ e : ℚ) = (m * 2 ^ (e - t).toNat : ℕ) * 2 ^ t := by
  have hsplit : e = (e - t).toNat + t := by omega
  rw [hsplit, zpow_add₀ two_ne_zero, zpow_natCast]
  push_cast
  rw [← hsplit]
  ring

/-- What is rounded to zero of the least units is a zero. -/
theorem roundWithAccuracy_zero (hexp : E ≤ target M E) (hleast : target M E = -1074)
    (hround : (ExtendedMantissa.ofMantissaAndAccuracy M acc >>>
      (target M E - E).toNat).roundedMantissa = 0) :
    roundWithAccuracy .binary64 .positive M E acc = .zero .positive := by
  unfold roundWithAccuracy
  rw [shiftToTargetExponent_eq hexp]
  dsimp only
  rw [hround, hleast]
  rfl

/-- **What is at most a float is rounded to at most this float.** -/
theorem round_le (hcan : Canonical m e) (hM : Describes (.ofMantissaAndAccuracy M acc) (v / 2 ^ E))
    (hexp : E ≤ target M E) (hv : v ≤ m * 2 ^ e) :
    roundWithAccuracy .binary64 .positive M E acc = .zero .positive ∨
      ∃ (m' : ℕ) (e' : ℤ) (h : Canonical m' e'),
        roundWithAccuracy .binary64 .positive M E acc = .finite .positive m' e' h.pos ∧
          (m' * 2 ^ e' : ℚ) ≤ m * 2 ^ e := by
  obtain ⟨hlow, hhigh⟩ := bounds_of_describes hM
  have hshift := describes_shift hM hexp
  have hcoarse := target_le hlow hexp hcan hv
  have hleast : -1074 ≤ target M E := le_max_right _ _
  have hgreatest := hcan.greatest
  obtain ⟨hbits, hfull⟩ := scaled_bounds hlow hhigh hexp
  obtain ⟨t, ht⟩ : ∃ t, target M E = t := ⟨_, rfl⟩
  obtain ⟨r, hr⟩ : ∃ r, (ExtendedMantissa.ofMantissaAndAccuracy M acc >>>
    (target M E - E).toNat).roundedMantissa = r := ⟨_, rfl⟩
  have hunit : (0 : ℚ) < 2 ^ t := zpow_pos two_pos t
  -- the float and the limits of the mantissa are whole numbers of units
  have hrounded : (r * 2 ^ t : ℚ) ≤ m * 2 ^ e := by
    rw [ht] at hshift hcoarse hr
    have hgrid := scaled_natCast (m := m) hcoarse
    rw [hgrid, ← div_le_iff₀ hunit] at hv
    rw [hgrid, ← hr]
    exact mul_le_mul_of_nonneg_right (by exact_mod_cast hshift.roundedMantissa_le hv) hunit.le
  -- Fifty-three bits before rounding are at most the next power of two after it.
  have hrbits : r ≤ 2 ^ 53 := by
    rw [← hr]
    exact hshift.roundedMantissa_le (by exact_mod_cast hbits.le)
  have hrfull : 2 ^ 52 ≤ r ∨ t = -1074 := by
    rcases hleast.eq_or_lt with hsmall | hlarge
    · exact .inr (ht.symm.trans hsmall.symm)
    · rw [← hr]
      exact .inl (hshift.le_roundedMantissa (by exact_mod_cast hfull hlarge))
  rw [ht] at hcoarse hleast
  rcases hrbits.lt_or_eq with hlt | rfl
  · rcases Nat.eq_zero_or_pos r with rfl | hpos
    · left
      exact roundWithAccuracy_zero hexp (by omega) hr
    · right
      have hcan' : Canonical r t := ⟨hpos, hlt, hrfull, hleast, by omega⟩
      refine ⟨r, t, hcan', ?_, hrounded⟩
      refine roundWithAccuracy_finite (n := 0) hpos hexp (by simpa using hr) (by simpa using ht) ?_
      simpa using hcan'.target_eq
  · -- rounding carried: what comes out is a power of two below the float
    right
    have hcarry : t < e := by
      by_contra hle
      have hlt : (m * 2 ^ e : ℚ) < (2 ^ 53 : ℕ) * 2 ^ t :=
        calc (m * 2 ^ e : ℚ) ≤ m * 2 ^ t := mul_le_mul_of_nonneg_left
              (zpow_le_zpow_right₀ one_le_two (not_lt.mp hle)) (Nat.cast_nonneg m)
          _ < (2 ^ 53 : ℕ) * 2 ^ t :=
              mul_lt_mul_of_pos_right (by exact_mod_cast hcan.bits) hunit
      exact hlt.not_ge hrounded
    refine ⟨2 ^ 52, t + 1, ⟨by decide, by decide, .inl le_rfl, by omega, by omega⟩, ?_, ?_⟩
    · refine roundWithAccuracy_finite (n := 1) (by decide) hexp hr (by rw [ht]; omega) ?_
      exact (target_carry (by omega)).trans (by omega)
    · rw [zpow_add_one₀ two_ne_zero]
      push_cast at hrounded ⊢
      linarith

/-! ## Floats up to a number

For an operation this means: if its exact result is not above some float, neither is the rounded
one. -/

/-- A zero, or a positive float that is at most `v`. -/
def UpTo (v : ℚ) (x : Float) : Prop :=
  IsZero x ∨ ∃ m e, Unpacks x m e ∧ (m * 2 ^ e : ℚ) ≤ v

/-- What is bounded by a number is finite. -/
theorem UpTo.isFinite (h : UpTo v x) : x.isFinite = true := by
  rcases h with hzero | ⟨m, e, hx, -⟩
  · exact hzero.isFinite
  · exact congrArg UnpackedFloat.isFinite hx.unpack_eq

/-- Rounding keeps a bound that is a float. -/
theorem upTo_round (hcan : Canonical m e)
    (hM : Describes (.ofMantissaAndAccuracy M acc) (v / 2 ^ E)) (hexp : E ≤ target M E)
    (hv : v ≤ m * 2 ^ e) :
    UpTo (m * 2 ^ e) (.ofModel (.pack (roundWithAccuracy .binary64 .positive M E acc))) := by
  rcases round_le hcan hM hexp hv with hzero | ⟨m', e', hcan', hround, hle⟩
  · left
    rw [hzero]
    exact isZero_pack .positive
  · right
    rw [hround]
    exact ⟨m', e', unpacks_pack hcan', hle⟩

/-- **A product that is at most a float does not exceed it.** -/
theorem Unpacks.upTo_mul (hx : Unpacks x m₁ e₁) (hy : Unpacks y m₂ e₂) (hbits : 2 ^ 52 ≤ m₁ * m₂)
    (hcan : Canonical m e) (hle : (m₁ * 2 ^ e₁ * (m₂ * 2 ^ e₂) : ℚ) ≤ m * 2 ^ e) :
    UpTo (m * 2 ^ e) (x * y) := by
  obtain ⟨hexp, hM⟩ := @describes_mul m₁ m₂ e₁ e₂ hbits
  have hproduct : x * y =
      .ofModel (.pack (roundWithAccuracy .binary64 .positive (m₁ * m₂) (e₁ + e₂) .exact)) := by
    show Float.ofModel (.pack (.mul .binary64 x.toModel.unpack y.toModel.unpack)) = _
    rw [hx.unpack_eq, hy.unpack_eq]
    rfl
  exact hproduct ▸ upTo_round hcan hM hexp hle

/-- **A quotient that is at most a float does not exceed it.** -/
theorem Unpacks.upTo_div (hx : Unpacks x m₁ e₁) (hy : Unpacks y m₂ e₂) (hcan : Canonical m e)
    (hle : (m₁ * 2 ^ e₁ / (m₂ * 2 ^ e₂) : ℚ) ≤ m * 2 ^ e) : UpTo (m * 2 ^ e) (x / y) := by
  obtain ⟨M, t, acc, hcore, hexp, hM⟩ := @describes_divCore m₁ m₂ e₁ e₂ hx.pos hy.pos
  have hquotient : x / y =
      .ofModel (.pack (roundWithAccuracy .binary64 .positive M t acc)) := by
    show Float.ofModel (.pack (.div .binary64 x.toModel.unpack y.toModel.unpack)) = _
    rw [hx.unpack_eq, hy.unpack_eq]
    unfold UnpackedFloat.div
    dsimp only
    rw [hcore]
    rfl
  exact hquotient ▸ upTo_round hcan hM hexp hle

/-- Positive floats compare as the numbers that they stand for. -/
theorem scaled_le_of_compare (hcan₁ : Canonical m₁ e₁) (hcan₂ : Canonical m₂ e₂)
    (h : ((compare e₁ e₂).then (compare m₁ m₂)).isLE = true) :
    (m₁ * 2 ^ e₁ : ℚ) ≤ m₂ * 2 ^ e₂ := by
  rw [Ordering.isLE_then_iff_or, compare_lt_iff_lt, compare_eq_iff_eq, Ordering.isLE_iff_ne_gt,
    compare_gt_iff_gt, not_lt] at h
  rcases h with hlt | ⟨rfl, hle⟩
  · -- the greater exponent makes up for the bits of any mantissa
    have hfull : 2 ^ 52 ≤ m₂ := by
      have hleast := hcan₁.least
      exact hcan₂.full.resolve_right (by omega)
    -- Both have fifty-three bits at most, and the second has no fewer.
    have hdouble : (m₁ : ℚ) ≤ m₂ * 2 := by
      have hbits := hcan₁.bits
      exact_mod_cast (show m₁ ≤ m₂ * 2 by omega)
    calc (m₁ * 2 ^ e₁ : ℚ) ≤ m₂ * 2 * 2 ^ e₁ :=
          mul_le_mul_of_nonneg_right hdouble (zpow_nonneg zero_le_two e₁)
      _ = m₂ * 2 ^ (e₁ + 1) := by rw [zpow_add_one₀ two_ne_zero]; ring
      _ ≤ m₂ * 2 ^ e₂ := mul_le_mul_of_nonneg_left
          (zpow_le_zpow_right₀ one_le_two hlt) (Nat.cast_nonneg m₂)
  · exact mul_le_mul_of_nonneg_right (Nat.cast_le.mpr hle) (zpow_nonneg zero_le_two e₁)

/-! ## Whole numbers

The bounds that are needed are whole numbers.  With at most fifty-three bits they are floats, so
rounding does not go past them, and to cut a float below one of them gives a smaller whole number.
-/

/-- A whole number of at most fifty-three bits is kept. -/
theorem unpacks_ofNat (hpos : 0 < n) (hn : n < 2 ^ 53) : ∃ (m : ℕ) (e : ℤ),
    Unpacks (Float.ofNat n) m e ∧ 2 ^ 52 ≤ m ∧ (m * 2 ^ e : ℚ) = n := by
  obtain ⟨m, e, hcan, hfull, hvalue⟩ := canonical_natCast hpos hn
  refine ⟨m, e, unpacks_ofScientific hcan hpos ?_, hfull, hvalue⟩
  have hself := RoundsTo.self m e
  rw [hvalue] at hself
  simpa using hself

/-- The whole part is the floor. -/
theorem wholePart_eq_floor (m : ℕ) (e : ℤ) : wholePart m e = ⌊(m * 2 ^ e : ℚ)⌋₊ := by
  unfold wholePart
  -- With an exponent that is not negative there is nothing to be cut off.
  by_cases hnonneg : e ≥ 0
  · obtain ⟨k, rfl⟩ := Int.eq_ofNat_of_zero_le hnonneg
    have hvalue : (m * 2 ^ (k : ℤ) : ℚ) = (m * 2 ^ k : ℕ) := by
      rw [zpow_natCast]
      push_cast
      rfl
    rw [if_pos hnonneg, Int.toNat_natCast, Nat.shiftLeft_eq, hvalue, Nat.floor_natCast]
  · obtain ⟨k, rfl⟩ : ∃ k : ℕ, e = -k := ⟨(-e).toNat, by omega⟩
    have hvalue : (m * 2 ^ (-k : ℤ) : ℚ) = m / (2 ^ k : ℕ) := by
      rw [zpow_neg, zpow_natCast, ← div_eq_mul_inv]
      push_cast
      rfl
    rw [if_neg hnonneg, neg_neg, Int.toNat_natCast, Nat.shiftRight_eq_div_pow, hvalue,
      Nat.floor_div_eq_div]

/-- A float is cut to the floor of its number. -/
theorem Unpacks.toNat_eq (h : Unpacks x m e) : toNat x = ⌊(m * 2 ^ e : ℚ)⌋₊ := by
  unfold toNat
  rw [ofFloat_eq, h.unpack_eq]
  exact wholePart_eq_floor m e

/-- A whole number of at most fifty-three bits is cut to itself. -/
theorem toNat_ofNat (hpos : 0 < n) (hn : n < 2 ^ 53) : toNat (Float.ofNat n) = n := by
  obtain ⟨m, e, hx, -, hvalue⟩ := unpacks_ofNat hpos hn
  rw [hx.toNat_eq, hvalue, Nat.floor_natCast]

/-- What is at most one, times a whole number, is at most this number. -/
theorem UpTo.mul_ofNat (h : UpTo 1 x) (hpos : 0 < n) (hn : n < 2 ^ 53) :
    UpTo n (x * Float.ofNat n) := by
  obtain ⟨m, e, hy, hfull, hvalue⟩ := unpacks_ofNat hpos hn
  rcases h with hzero | ⟨m₁, e₁, hx, hle⟩
  · exact .inl (hzero.mul (congrArg UnpackedFloat.isFinite hy.unpack_eq))
  · rw [← hvalue]
    refine hx.upTo_mul hy (hfull.trans (Nat.le_mul_of_pos_left m hx.pos)) hy.toCanonical ?_
    exact mul_le_of_le_one_left (by positivity) hle

/-- Only the whole number itself has a whole part as large. -/
theorem UpTo.toNat_lt_or_eq (h : UpTo n x) (hpos : 0 < n) (hn : n < 2 ^ 53) :
    toNat x < n ∨ x = Float.ofNat n := by
  rcases h with hzero | ⟨m, e, hx, hle⟩
  · left
    rw [hzero.toNat_eq]
    exact hpos
  · rcases hle.lt_or_eq with hlt | heq
    · left
      rw [hx.toNat_eq]
      exact (Nat.floor_lt (by positivity)).mpr hlt
    · right
      obtain ⟨m', e', hy, -, hvalue⟩ := unpacks_ofNat hpos hn
      obtain ⟨rfl, rfl⟩ := hx.toCanonical.unique hy.toCanonical (heq.trans hvalue.symm)
      exact hx.unique hy

end SeriesQuery.Binary64
