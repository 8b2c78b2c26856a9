/-
  Decimal numbers are rounded correctly.

  `Float.ofScientific` has two ways to `n · 10 ^ p`.  Where `n` and the power of ten are floats
  themselves, it multiplies or divides these, which rounds once.  Otherwise it works with exact
  integers, after a guard against powers that are out of all proportion.  On both ways the result
  is the float whose interval holds the number (`unpacks_ofScientific`), and has no sign.
-/
import SeriesQuery.Proofs.Decimal.Unpacking

namespace SeriesQuery.Binary64

open Float.Model
open Float.Model.UnpackedFloat

variable {x y : Float} {m m₁ m₂ n : ℕ} {e e₁ e₂ p : ℤ}

/-! ## Operands of the short way

The short way takes two floats and rounds once, as long as both are exact.  They are: a number of at
most fifty-three bits, and one of the powers of ten in the table. -/

/-- A product of floats is rounded once. -/
theorem Unpacks.mul (hx : Unpacks x m₁ e₁) (hy : Unpacks y m₂ e₂) (hbits : 2 ^ 52 ≤ m₁ * m₂)
    (hcan : Canonical m e) (h : RoundsTo m e (m₁ * 2 ^ e₁ * (m₂ * 2 ^ e₂))) :
    Unpacks (x * y) m e := by
  have hmul : x * y = .ofModel (.pack (.finite .positive m e hcan.pos)) := by
    show Float.ofModel (.pack (UnpackedFloat.mul .binary64 x.toModel.unpack y.toModel.unpack)) = _
    rw [hx.unpack_eq, hy.unpack_eq, mul_eq hcan h hbits]
  exact hmul ▸ unpacks_pack hcan

/-- A quotient of floats is rounded once. -/
theorem Unpacks.div (hx : Unpacks x m₁ e₁) (hy : Unpacks y m₂ e₂) (hcan : Canonical m e)
    (h : RoundsTo m e (m₁ * 2 ^ e₁ / (m₂ * 2 ^ e₂))) : Unpacks (x / y) m e := by
  have hdiv : x / y = .ofModel (.pack (.finite .positive m e hcan.pos)) := by
    show Float.ofModel (.pack (UnpackedFloat.div .binary64 x.toModel.unpack y.toModel.unpack)) = _
    rw [hx.unpack_eq, hy.unpack_eq, div_eq hcan h]
  exact hdiv ▸ unpacks_pack hcan

/-- A whole number of at most fifty-three bits is kept. -/
theorem unpacks_toFloat (hpos : 0 < n) (hn : n < 2 ^ 53) : ∃ (m : ℕ) (e : ℤ),
    Unpacks n.toUInt64.toFloat m e ∧ 2 ^ 52 ≤ m ∧ (m * 2 ^ e : ℚ) = n := by
  obtain ⟨m, e, hcan, hfull, hvalue⟩ := canonical_natCast hpos hn
  have hnat : n.toUInt64.toNat = n := by
    rw [UInt64.toNat_ofNat']
    exact Nat.mod_eq_of_lt (hn.trans (by decide))
  have hround : n.toUInt64.toFloat = .ofModel (.pack (.finite .positive m e hcan.pos)) := by
    -- The conversion normalizes the number, which rounds it; but it is exact already.
    have hsign : compare (n : ℤ) 0 = .gt := compare_gt_iff_gt.mpr (by exact_mod_cast hpos)
    show Float.ofModel
      (.pack (UnpackedFloat.normalize .binary64 (n.toUInt64.toNat : ℤ) 0 .positive)) = _
    rw [hnat]
    unfold UnpackedFloat.normalize
    rw [hsign]
    have hexact := RoundsTo.self m e
    rw [hvalue, ← mul_one (n : ℚ), ← zpow_zero (2 : ℚ)] at hexact
    exact congrArg (Float.ofModel ∘ Float.Model.pack) (round_eq hcan hpos hexact)
  exact ⟨m, e, hround ▸ unpacks_pack hcan, hfull, hvalue⟩

/-- The table of powers of ten holds their bits, and nothing of them is cut off. -/
theorem powersOfTen : ∀ k : Fin 23,
    ofFloat (getElem Float.exactlyRepresentablePowersOfTen k.val (k.isLt.trans_eq rfl)) =
      .finite false ((10 ^ k.val <<< 52) >>> (10 ^ k.val).log2) ((10 ^ k.val).log2 - 52) ∧
    ((10 ^ k.val <<< 52) >>> (10 ^ k.val).log2) * 2 ^ (10 ^ k.val).log2 = 10 ^ k.val * 2 ^ 52 := by
  decide +kernel

/-- The powers of ten up to the twenty-second are floats. -/
theorem unpacks_powerOfTen {k : ℕ} (hk : k < 23) : ∃ (m : ℕ) (e : ℤ),
    Unpacks (getElem Float.exactlyRepresentablePowersOfTen k hk) m e ∧
      (m * 2 ^ e : ℚ) = 10 ^ k := by
  obtain ⟨hfloat, hvalue⟩ := powersOfTen ⟨k, hk⟩
  dsimp only at hfloat hvalue
  have hvalue : (((10 ^ k <<< 52) >>> (10 ^ k).log2 : ℕ) : ℚ) * 2 ^ (10 ^ k).log2 =
      10 ^ k * 2 ^ 52 := by exact_mod_cast hvalue
  -- A mantissa of zero would make the power of ten zero.
  have hpos : 0 < (10 ^ k <<< 52) >>> (10 ^ k).log2 := by
    refine Nat.pos_of_ne_zero fun hzero => ?_
    rw [hzero, Nat.cast_zero, zero_mul] at hvalue
    exact (by positivity : (0 : ℚ) < 10 ^ k * 2 ^ 52).ne hvalue
  refine ⟨_, _, unpacks_of_ofFloat hfloat hpos, ?_⟩
  rw [zpow_sub₀ two_ne_zero, zpow_natCast, ← mul_div_assoc, hvalue]
  norm_num

/-! ## Both ways

The long way has guards against large powers.  No number of a float's interval is stopped by them,
and then it too rounds once. -/

/-- The numbers of a float's interval pass the guard of the long way. -/
theorem RoundsTo.power_bounds (hcan : Canonical m e) (hpos : 0 < n)
    (h : RoundsTo m e (n * 10 ^ p)) : -((2 ^ 11 : ℤ) + n.log2) ≤ p ∧ p ≤ 2 ^ 11 := by
  constructor
  · -- Below the guard, the number is less than half of the least float.
    by_contra hp
    obtain ⟨k, rfl⟩ : ∃ k : ℕ, p = -k := ⟨(-p).toNat, by omega⟩
    have hn : (n : ℚ) < 2 ^ (n.log2 + 1) := by exact_mod_cast Nat.lt_log2_self
    refine (h.lower hcan).not_gt ?_
    calc (n : ℚ) * 10 ^ (-k : ℤ) < 2 ^ (n.log2 + 1) * 10 ^ (-k : ℤ) := by gcongr
      _ ≤ 2 ^ (n.log2 + 1) * 2 ^ (-k : ℤ) := by
          rw [zpow_neg, zpow_neg, zpow_natCast, zpow_natCast]
          gcongr
          norm_num
      _ = 2 ^ (((n.log2 + 1 : ℕ) : ℤ) + -k) := by rw [zpow_add₀ two_ne_zero, zpow_natCast]
      _ ≤ 2 ^ (-1075 : ℤ) := zpow_le_zpow_right₀ one_le_two (by push_cast; omega)
  · -- Above it, the number is beyond all floats.
    by_contra hp
    have hn : (1 : ℚ) ≤ n := by exact_mod_cast hpos
    refine (h.upper hcan).not_ge ?_
    calc (2 : ℚ) ^ (1024 : ℤ) ≤ 2 ^ p := zpow_le_zpow_right₀ one_le_two (by omega)
      _ ≤ 10 ^ p := zpow_le_zpow_left₀ (by omega) two_pos.le (by norm_num)
      _ ≤ n * 10 ^ p := le_mul_of_one_le_left (by positivity) hn

/-- The long way rounds once. -/
theorem ofScientific_eq (hcan : Canonical m e) (hpos : 0 < n) (h : RoundsTo m e (n * 10 ^ p)) :
    UnpackedFloat.ofScientific .binary64 n p = .finite .positive m e hcan.pos := by
  obtain ⟨hlow, hhigh⟩ := h.power_bounds hcan hpos
  unfold UnpackedFloat.ofScientific
  rw [dif_neg hpos.ne', if_neg hhigh.not_gt, if_neg hlow.not_gt]
  split
  case isTrue hnonneg =>
    -- A power that is not negative is multiplied, after room for all bits has been made.
    obtain ⟨k, rfl⟩ := Int.eq_ofNat_of_zero_le hnonneg
    have hvalue : (n * 10 ^ (k : ℤ) : ℚ) =
        (n <<< 53 : ℕ) * 2 ^ (-53 : ℤ) * ((10 ^ k : ℕ) * 2 ^ (0 : ℤ)) := by
      rw [Nat.shiftLeft_eq]
      push_cast
      norm_num
      ring
    have hbits : 2 ^ 52 ≤ n <<< 53 * 10 ^ k := by
      have hten : 0 < 10 ^ k := by positivity
      rw [Nat.shiftLeft_eq]
      calc 2 ^ 52 ≤ 1 * 2 ^ 53 * 1 := by norm_num
        _ ≤ n * 2 ^ 53 * 10 ^ k := by gcongr <;> omega
    exact mul_eq hcan (hvalue ▸ h) hbits
  case isFalse hneg =>
    -- With a negative power, the number is divided by a power of ten.
    have hvalue : (n * 10 ^ p : ℚ) =
        n * 2 ^ (0 : ℤ) / ((10 ^ (-p).toNat : ℕ) * 2 ^ (0 : ℤ)) := by
      obtain ⟨k, hk⟩ : ∃ k : ℕ, k = (-p).toNat := ⟨_, rfl⟩
      obtain rfl : p = -k := by omega
      rw [← hk, zpow_neg, zpow_natCast]
      push_cast
      norm_num
      rfl
    exact div_eq hcan (hvalue ▸ h)

/-- **Decimal numbers are rounded correctly.** -/
theorem unpacks_ofScientific {negative : Bool} {k : ℕ} (hcan : Canonical m e) (hpos : 0 < n)
    (h : RoundsTo m e (n * 10 ^ (if negative then -k else k : ℤ))) :
    Unpacks (Float.ofScientific n negative k) m e := by
  unfold Float.ofScientific
  split
  case isTrue hsmall =>
    -- The short way: both operands are exact, so there is a single rounding.
    obtain ⟨m₁, e₁, hn, hfull, hnvalue⟩ := unpacks_toFloat hpos hsmall.1
    obtain ⟨m₂, e₂, hten, htenvalue⟩ := unpacks_powerOfTen (Nat.lt_succ_of_le hsmall.2)
    cases negative with
    | true =>
      refine hn.div hten hcan ?_
      rw [hnvalue, htenvalue]
      simpa [zpow_neg, div_eq_mul_inv] using h
    | false =>
      refine hn.mul hten ?_ hcan ?_
      · exact hfull.trans (Nat.le_mul_of_pos_right _ hten.pos)
      · rw [hnvalue, htenvalue]
        simpa using h
  case isFalse =>
    -- The long way takes the power of ten with its sign.
    have hpower : (if negative then Int.negOfNat k else Int.ofNat k) =
        (if negative then -k else k : ℤ) := by
      cases negative with
      | true => exact Int.negOfNat_eq
      | false => rfl
    show Unpacks (.ofModel (.pack (UnpackedFloat.ofScientific .binary64 n
      (if negative then Int.negOfNat k else Int.ofNat k)))) m e
    rw [hpower, ofScientific_eq hcan hpos h]
    exact unpacks_pack hcan

/-! ## Signs

That a float unpacks to a positive number says nothing about results that are zero or infinite.
These are looked at apart, so that no text of digits is read with a sign. -/

/-- A number or infinity with the sign of a positive one. -/
inductive Unsigned : UnpackedFloat → Prop
  | infinity : Unsigned (.infinity .positive)
  | zero : Unsigned (.zero .positive)
  | finite (m : ℕ) (e : ℤ) (hpos : 0 < m) : Unsigned (.finite .positive m e hpos)

/-- Rounding a positive number makes no sign. -/
theorem unsigned_roundWithAccuracy (m : ℕ) (e : ℤ) (acc : Accuracy) :
    Unsigned (roundWithAccuracy .binary64 .positive m e acc) := by
  unfold roundWithAccuracy
  dsimp only
  split
  · exact .zero
  · exact .finite ..

/-- A quotient of positive numbers has no sign. -/
theorem unsigned_div {hpos₁ : 0 < m₁} {hpos₂ : 0 < m₂} :
    Unsigned (UnpackedFloat.div .binary64 (.finite .positive m₁ e₁ hpos₁)
      (.finite .positive m₂ e₂ hpos₂)) := by
  unfold UnpackedFloat.div
  exact unsigned_roundWithAccuracy ..

/-- A product of positive numbers has no sign. -/
theorem unsigned_mul {hpos₁ : 0 < m₁} {hpos₂ : 0 < m₂} :
    Unsigned (UnpackedFloat.mul .binary64 (.finite .positive m₁ e₁ hpos₁)
      (.finite .positive m₂ e₂ hpos₂)) :=
  unsigned_roundWithAccuracy ..

/-- The long way makes no sign. -/
theorem unsigned_ofScientific (n : ℕ) (p : ℤ) :
    Unsigned (UnpackedFloat.ofScientific .binary64 n p) := by
  unfold UnpackedFloat.ofScientific
  split
  · exact .zero
  · split
    · exact .infinity
    · split
      · exact .zero
      · split
        · exact unsigned_mul
        · exact unsigned_div

/-- Packing keeps the sign. -/
theorem Unsigned.sign_pack {u : UnpackedFloat} (h : Unsigned u) {sign : Bool}
    (hx : ofFloat (.ofModel (.pack u)) = .finite sign m e) : sign = false := by
  -- The sign is the first bit, and packing sets it to zero.
  have hbit : @unpackSign .binary64 (UnpackedFloat.pack .binary64 u) = 0#1 := by
    cases h with
    | infinity => exact unpackSign_packComponents ..
    | zero => exact unpackSign_packComponents ..
    | finite m e hpos =>
      rw [pack_finite]
      split
      · exact unpackSign_packComponents ..
      · split <;> exact unpackSign_packComponents ..
  have hx : ofBits ⟨UnpackedFloat.pack .binary64 u⟩ = .finite sign m e := hx
  rw [ofBits_eq] at hx
  generalize UnpackedFloat.pack .binary64 u = b at hbit hx
  unfold UnpackedFloat.unpack at hx
  rw [hbit] at hx
  dsimp only at hx
  split at hx
  · split at hx <;> cases hx
  · split at hx
    · split at hx <;> exact (Binary64.finite.inj hx).1.symm
    · exact (Binary64.finite.inj hx).1.symm

/-- The sign of a product of positive floats. -/
theorem Unpacks.sign_mul {sign : Bool} (hx : Unpacks x m₁ e₁) (hy : Unpacks y m₂ e₂)
    (h : ofFloat (x * y) = .finite sign m e) : sign = false := by
  refine @Unsigned.sign_pack _ _ (.mul .binary64 x.toModel.unpack y.toModel.unpack) ?_ _ h
  rw [hx.unpack_eq, hy.unpack_eq]
  exact unsigned_mul

/-- The sign of a quotient of positive floats. -/
theorem Unpacks.sign_div {sign : Bool} (hx : Unpacks x m₁ e₁) (hy : Unpacks y m₂ e₂)
    (h : ofFloat (x / y) = .finite sign m e) : sign = false := by
  refine @Unsigned.sign_pack _ _ (.div .binary64 x.toModel.unpack y.toModel.unpack) ?_ _ h
  rw [hx.unpack_eq, hy.unpack_eq]
  exact unsigned_div

/-- Decimal numbers have no sign. -/
theorem sign_ofScientific {negative sign : Bool} {k : ℕ} (hpos : 0 < n)
    (hx : ofFloat (Float.ofScientific n negative k) = .finite sign m e) : sign = false := by
  unfold Float.ofScientific at hx
  split at hx
  case isTrue hsmall =>
    obtain ⟨m₁, e₁, hn, -, -⟩ := unpacks_toFloat hpos hsmall.1
    obtain ⟨m₂, e₂, hten, -⟩ := unpacks_powerOfTen (Nat.lt_succ_of_le hsmall.2)
    cases negative with
    | true => exact hn.sign_div hten hx
    | false => exact hn.sign_mul hten hx
  case isFalse => exact (unsigned_ofScientific ..).sign_pack hx

end SeriesQuery.Binary64
