/-
  Zero and one in arithmetic on floats.

  Zero added leaves a float as it is, except that the negative zero becomes the positive one
  (`sameNumber_zero_add`); zero taken away leaves it as it is, and so does one as a divisor
  (`div_ofNat_one`).  The product of a finite float and a zero is a zero, and so is the difference
  of such a float and itself.  All this can be read off the cases of the operation, but for the
  quotient, which is rounded, to the float that it is.
-/
import SeriesQuery.Proofs.Decimal.Unpacking
import SeriesQuery.Summary.Basic

namespace SeriesQuery.Binary64

open Float.Model
open Float.Model.UnpackedFloat

variable {x y : Float} {m M : ℕ} {e E : ℤ} {acc : Accuracy}

/-- Zero, one and a hundred as they are unpacked. -/
theorem unpack_zero : (0.0 : Float).toModel.unpack = .zero .positive := rfl

theorem unpack_one :
    (Float.ofNat 1).toModel.unpack = .finite .positive (2 ^ 52) (-52) (by decide) := rfl

theorem unpack_hundred :
    (100.0 : Float).toModel.unpack = .finite .positive (100 * 2 ^ 46) (-46) (by decide) := rfl

/-- What a float unpacks to is packed to it again. -/
theorem ofModel_pack_unpack (x : Float) : .ofModel (.pack x.toModel.unpack) = x :=
  Float.ofBits_toBits x

/-- Every float is the same number as itself. -/
theorem sameNumber_self (x : Float) : sameNumber x x = true := by
  unfold sameNumber
  -- Two floats are the same number if they are equal or if neither is a number.
  by_cases hnan : x.isNaN = true
  · rw [hnan]
    simp
  · have hself : (x == x) = true := Float.beq_self_iff.mpr (by simpa using hnan)
    rw [hself]
    rfl

/-- What is finite is equal to itself. -/
theorem beq_self (h : x.isFinite = true) : (x == x) = true := by
  refine Float.beq_self_iff.mpr ?_
  rintro rfl
  cases h

/-! ## Zeros -/

/-- One of the two zeros. -/
def IsZero (x : Float) : Prop := ∃ sign, x.toModel.unpack = .zero sign

/-- A zero that is packed is one of the two zeros. -/
theorem isZero_pack (sign : Sign) : IsZero (.ofModel (.pack (.zero sign))) :=
  ⟨sign, unpack_packedZero⟩

/-- The zeros are finite. -/
theorem IsZero.isFinite (h : IsZero x) : x.isFinite = true := by
  obtain ⟨s, hx⟩ := h
  exact congrArg UnpackedFloat.isFinite hx

/-- A zero is cut to the number zero. -/
theorem IsZero.toNat_eq (h : IsZero x) : toNat x = 0 := by
  obtain ⟨s, hx⟩ := h
  unfold toNat
  rw [ofFloat_eq, hx]
  cases s <;> rfl

/-- The zeros are equal. -/
theorem IsZero.beq (hx : IsZero x) (hy : IsZero y) : (x == y) = true := by
  obtain ⟨s, hx⟩ := hx
  obtain ⟨t, hy⟩ := hy
  show x.toModel.unpack.beq y.toModel.unpack = true
  rw [hx, hy]
  rfl

/-- A zero that is added to the positive zero gives the positive zero. -/
theorem zero_add_of_isZero (h : IsZero x) : 0.0 + x = 0.0 := by
  obtain ⟨s, hx⟩ := h
  show Float.ofModel (.pack (.add .binary64 (.zero .positive) x.toModel.unpack)) = 0.0
  rw [hx]
  cases s with
  | positive => rfl
  | negative => rfl

/-- Anything else is what it was before. -/
theorem zero_add_of_not_isZero (h : ¬ IsZero x) : 0.0 + x = x := by
  -- Only two zeros are added in a way of their own; otherwise the other operand is handed back.
  have hsum : UnpackedFloat.add .binary64 (.zero .positive) x.toModel.unpack =
      x.toModel.unpack := by
    cases hx : x.toModel.unpack with
    | zero s => exact absurd ⟨s, hx⟩ h
    | notANumber => rfl
    | infinity s => rfl
    | finite s m e hpos => rfl
  show Float.ofModel (.pack (.add .binary64 (.zero .positive) x.toModel.unpack)) = x
  rw [hsum, ofModel_pack_unpack]

/-- **Zero added makes no difference**, up to the sign of a zero. -/
theorem sameNumber_zero_add (x : Float) : sameNumber (0.0 + x) x = true := by
  by_cases hzero : IsZero x
  · rw [zero_add_of_isZero hzero]
    unfold sameNumber
    have hbeq : (0.0 == x) = true := IsZero.beq ⟨.positive, unpack_zero⟩ hzero
    rw [hbeq]
    rfl
  · rw [zero_add_of_not_isZero hzero]
    exact sameNumber_self x

/-- Zero taken away makes none at all, since the negative zero stays what it is. -/
theorem sub_zero (x : Float) : x - 0.0 = x := by
  have hdiff : UnpackedFloat.sub .binary64 x.toModel.unpack (.zero .positive) =
      x.toModel.unpack := by
    cases x.toModel.unpack with
    | zero s => cases s <;> rfl
    | notANumber => rfl
    | infinity s => rfl
    | finite s m e hpos => rfl
  show Float.ofModel (.pack (.sub .binary64 x.toModel.unpack (.zero .positive))) = x
  rw [hdiff, ofModel_pack_unpack]

/-- A float that is finite is a zero or has a mantissa. -/
theorem isZero_or_of_isFinite (h : x.isFinite = true) :
    IsZero x ∨ ∃ s m e hpos, x.toModel.unpack = .finite s m e hpos := by
  have h : x.toModel.unpack.isFinite = true := h
  cases hx : x.toModel.unpack with
  | zero s => exact .inl ⟨s, hx⟩
  | finite s m e hpos => exact .inr ⟨s, m, e, hpos, rfl⟩
  | notANumber =>
    rw [hx] at h
    cases h
  | infinity s =>
    rw [hx] at h
    cases h

/-- A zero times what is finite is a zero. -/
theorem IsZero.mul (hx : IsZero x) (hy : y.isFinite = true) : IsZero (x * y) := by
  obtain ⟨s, hx⟩ := hx
  show IsZero (.ofModel (.pack (.mul .binary64 x.toModel.unpack y.toModel.unpack)))
  rw [hx]
  rcases isZero_or_of_isFinite hy with ⟨t, hy⟩ | ⟨t, m, e, hpos, hy⟩
  all_goals
    rw [hy]
    exact isZero_pack (s * t)

/-- What is finite times a zero is a zero. -/
theorem isZero_mul (hx : x.isFinite = true) (hy : IsZero y) : IsZero (x * y) := by
  obtain ⟨t, hy⟩ := hy
  show IsZero (.ofModel (.pack (.mul .binary64 x.toModel.unpack y.toModel.unpack)))
  rw [hy]
  rcases isZero_or_of_isFinite hx with ⟨s, hx⟩ | ⟨s, m, e, hpos, hx⟩
  all_goals
    rw [hx]
    exact isZero_pack (s * t)

/-- What is finite less itself is a zero. -/
theorem isZero_sub_self (hx : x.isFinite = true) : IsZero (x - x) := by
  show IsZero (.ofModel (.pack (.sub .binary64 x.toModel.unpack x.toModel.unpack)))
  rcases isZero_or_of_isFinite hx with ⟨s, hx⟩ | ⟨s, m, e, hpos, hx⟩
  · rw [hx]
    cases s with
    | positive => exact isZero_pack .positive
    | negative => exact isZero_pack .positive
  · -- the mantissas cancel, and an exact zero is positive
    have hdiff : UnpackedFloat.sub .binary64 (.finite s m e hpos) (.finite s m e hpos) =
        .zero .positive := by
      unfold UnpackedFloat.sub
      dsimp only
      rw [Int.sub_self]
      rfl
    rw [hx, hdiff]
    exact isZero_pack .positive

/-- What is not finite less itself, and times that, is "not a number". -/
theorem mul_sub_self (hx : ¬ x.isFinite = true) : x * (x - x) = notANumber := by
  have hx : ¬ x.toModel.unpack.isFinite = true := hx
  -- An infinity less itself is not a number, and neither is anything that is made of that.
  have hdiff : x - x = notANumber := by
    show Float.ofModel (.pack (.sub .binary64 x.toModel.unpack x.toModel.unpack)) = notANumber
    cases hu : x.toModel.unpack with
    | zero s => exact absurd (congrArg UnpackedFloat.isFinite hu) hx
    | finite s m e hpos => exact absurd (congrArg UnpackedFloat.isFinite hu) hx
    | notANumber => rfl
    | infinity s => cases s <;> rfl
  rw [hdiff]
  show Float.ofModel (.pack (.mul .binary64 x.toModel.unpack .notANumber)) = notANumber
  cases x.toModel.unpack <;> rfl

/-! ## One -/

/-- The sign has no part in rounding. -/
theorem roundWithAccuracy_sign {hpos : 0 < m} (sign : Sign)
    (h : roundWithAccuracy .binary64 .positive M E acc = .finite .positive m e hpos) :
    roundWithAccuracy .binary64 sign M E acc = .finite sign m e hpos := by
  unfold roundWithAccuracy at h ⊢
  dsimp only at h ⊢
  split at h
  · cases h
  · next hne =>
    rw [dif_neg hne]
    obtain ⟨-, hm, he⟩ := UnpackedFloat.finite.inj h
    congr 1

/-- **Division by one changes nothing.** -/
theorem div_ofNat_one (x : Float) : x / Float.ofNat 1 = x := by
  have hquotient : UnpackedFloat.div .binary64 x.toModel.unpack
      (.finite .positive (2 ^ 52) (-52) (by decide)) = x.toModel.unpack := by
    cases hx : x.toModel.unpack with
    | notANumber => rfl
    | zero s => cases s <;> rfl
    | infinity s => cases s <;> rfl
    | finite s m e hpos =>
      -- Of the five kinds of floats, only the finite ones are rounded: the exact quotient is the
      -- float, and a float rounds to itself.
      have hcan : Canonical m e := canonical_of_unpack hx
      have hunit : ((2 ^ 52 : ℕ) : ℚ) * 2 ^ (-52 : ℤ) = 1 := by norm_num
      have hself := RoundsTo.self m e
      rw [← div_one ((m : ℚ) * 2 ^ e), ← hunit] at hself
      -- The rounding lemma speaks of positive operands, so the sign is put in afterwards.
      have hpositive : UnpackedFloat.div .binary64 (.finite .positive m e hpos)
          (.finite .positive (2 ^ 52) (-52) (by decide)) = .finite .positive m e hpos :=
        div_eq hcan hself
      have hsign : s / .positive = s := by cases s <;> rfl
      unfold UnpackedFloat.div at hpositive ⊢
      dsimp only at hpositive ⊢
      rw [hsign]
      exact roundWithAccuracy_sign s hpositive
  show Float.ofModel (.pack (.div .binary64 x.toModel.unpack _)) = x
  rw [unpack_one, hquotient, ofModel_pack_unpack]

end SeriesQuery.Binary64
