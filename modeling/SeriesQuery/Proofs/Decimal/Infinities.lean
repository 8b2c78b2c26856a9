/-
  Infinities in arithmetic on floats.

  A float is "not a number", infinite or finite.  A difference of two numbers is infinite if one of
  them is, unless it is between equal infinities (`isInf_sub`), and "not a number" if one of them is
  (`isNaN_sub`).  An infinity without a sign is not at most a finite float (`not_infinity_le`), and
  "not a number" is at most nothing (`not_le_of_isNaN`).
-/
import SeriesQuery.Proofs.Decimal.Comparing
import SeriesQuery.Proofs.Decimal.Neutral

namespace SeriesQuery.Binary64

open Float.Model
open Float.Model.UnpackedFloat

variable {x y : Float}

/-! ## The three kinds of floats -/

/-- A float is infinite exactly if it unpacks to an infinity, of either sign. -/
theorem isInf_iff : x.isInf = true ↔ ∃ sign, x.toModel.unpack = .infinity sign := by
  show x.toModel.unpack.isInf = true ↔ _
  -- one case for each kind of unpacked float; only the first one is infinite
  cases x.toModel.unpack with
  | infinity sign => exact iff_of_true rfl ⟨sign, rfl⟩
  | notANumber => exact iff_of_false Bool.false_ne_true fun ⟨_, h⟩ => by cases h
  | zero sign => exact iff_of_false Bool.false_ne_true fun ⟨_, h⟩ => by cases h
  | finite sign m e hpos => exact iff_of_false Bool.false_ne_true fun ⟨_, h⟩ => by cases h

/-- A number is finite or infinite. -/
theorem isFinite_or_isInf (h : x.isNaN = false) : x.isFinite = true ∨ x.isInf = true := by
  have h : x.toModel.unpack.isNaN = false := h
  show x.toModel.unpack.isFinite = true ∨ x.toModel.unpack.isInf = true
  -- what is finite is a zero or has a mantissa
  cases hx : x.toModel.unpack with
  | notANumber =>
    rw [hx] at h
    cases h
  | infinity sign => exact .inr rfl
  | zero sign => exact .inl rfl
  | finite sign m e hpos => exact .inl rfl

/-- An infinity is a number. -/
theorem isNaN_of_isInf (h : x.isInf = true) : x.isNaN = false := by
  obtain ⟨sign, hx⟩ := isInf_iff.mp h
  exact congrArg UnpackedFloat.isNaN hx

/-- An infinity is not finite. -/
theorem isFinite_of_isInf (h : x.isInf = true) : x.isFinite = false := by
  obtain ⟨sign, hx⟩ := isInf_iff.mp h
  exact congrArg UnpackedFloat.isFinite hx

/-! ## Differences -/

/-- An infinity stays one when it is packed. -/
theorem isInf_pack (sign : Sign) : (Float.ofModel (.pack (.infinity sign))).isInf = true := by
  cases sign with
  | positive => rfl
  | negative => rfl

/-- "Not a number" stays so when it is packed. -/
theorem isNaN_pack : (Float.ofModel (.pack .notANumber)).isNaN = true := rfl

/-- What is infinite less what is finite, the other way round, and infinities that differ. -/
theorem sub_eq_infinity {a b : UnpackedFloat} (ha : a.isNaN = false) (hb : b.isNaN = false)
    (h : a.isInf = true ∨ b.isInf = true) (hne : a.beq b = false) :
    ∃ sign, UnpackedFloat.sub .binary64 a b = .infinity sign := by
  cases a with
  | notANumber => cases ha
  -- an infinity less anything but an infinity of its own sign is that infinity
  | infinity s =>
    cases b with
    | notANumber => cases hb
    | infinity t =>
      refine ⟨s, ?_⟩
      cases s with
      | positive =>
        cases t with
        | positive => cases hne
        | negative => rfl
      | negative =>
        cases t with
        | positive => rfl
        | negative => cases hne
    | zero t => exact ⟨s, rfl⟩
    | finite t m e hpos => exact ⟨s, rfl⟩
  -- a finite number less an infinity is the opposite infinity; two finite ones are excluded
  | zero s =>
    cases b with
    | infinity t => exact ⟨-t, rfl⟩
    | _ => exact absurd h (by simp [UnpackedFloat.isInf])
  | finite s m e hpos =>
    cases b with
    | infinity t => exact ⟨-t, rfl⟩
    | _ => exact absurd h (by simp [UnpackedFloat.isInf])

/-- **A difference of two numbers is infinite if one of them is**, unless they are equal.  Equal
    infinities have no difference: it is "not a number". -/
theorem isInf_sub (hx : x.isNaN = false) (hy : y.isNaN = false)
    (h : x.isInf = true ∨ y.isInf = true) (hne : (x == y) = false) : (x - y).isInf = true := by
  show (Float.ofModel (.pack (.sub .binary64 x.toModel.unpack y.toModel.unpack))).isInf = true
  obtain ⟨sign, hsub⟩ := sub_eq_infinity hx hy h hne
  rw [hsub]
  exact isInf_pack sign

/-- Whatever "not a number" is taken off, "not a number" is left. -/
theorem sub_notANumber (a : UnpackedFloat) :
    UnpackedFloat.sub .binary64 a .notANumber = .notANumber := by
  cases a <;> rfl

/-- **A difference with "not a number" in it is "not a number".** -/
theorem isNaN_sub (h : x.isNaN = true ∨ y.isNaN = true) : (x - y).isNaN = true := by
  show (Float.ofModel (.pack (.sub .binary64 x.toModel.unpack y.toModel.unpack))).isNaN = true
  -- on the left "not a number" is looked at first, whatever is on the right
  rcases h with hx | hy
  · rw [unpack_eq_notANumber hx]
    exact isNaN_pack
  · rw [unpack_eq_notANumber hy, sub_notANumber]
    exact isNaN_pack

/-! ## Sizes -/

/-- Without its sign an infinity is the positive one. -/
theorem abs_of_isInf (h : x.isInf = true) : x.abs = infinity := by
  obtain ⟨sign, hx⟩ := isInf_iff.mp h
  show Float.ofModel (.pack x.toModel.unpack.abs) = infinity
  rw [hx]
  rfl

/-- "Not a number" has no size. -/
theorem isNaN_abs (h : x.isNaN = true) : x.abs.isNaN = true := by
  show (Float.ofModel (.pack x.toModel.unpack.abs)).isNaN = true
  rw [unpack_eq_notANumber h]
  exact isNaN_pack

/-- The size of a zero is a zero, the positive one. -/
theorem IsZero.abs (h : IsZero x) : IsZero x.abs := by
  obtain ⟨sign, hx⟩ := h
  show IsZero (Float.ofModel (.pack x.toModel.unpack.abs))
  rw [hx]
  exact isZero_pack .positive

/-- The size of a number has its mantissa and exponent. -/
theorem unpacks_abs {sign : Sign} {m : ℕ} {e : ℤ} {hpos : 0 < m}
    (h : x.toModel.unpack = .finite sign m e hpos) : Unpacks x.abs m e := by
  have habs : x.abs = .ofModel (.pack (.finite .positive m e hpos)) := by
    show Float.ofModel (.pack x.toModel.unpack.abs) = _
    rw [h]
    rfl
  exact habs ▸ unpacks_pack (canonical_of_unpack h)

/-! ## Comparisons -/

/-- **Nothing finite is at least infinity.** -/
theorem not_infinity_le (h : y.isFinite = true) : ¬infinity ≤ y := by
  intro hle
  -- the comparison is one of unpacked floats, where infinity is above all that is finite
  have hmodel : infinity.toModel ≤ y.toModel := of_decide_eq_true hle
  have hle : infinity.toModel.unpack.le y.toModel.unpack = true := hmodel
  have hinfinity : infinity.toModel.unpack = .infinity .positive := rfl
  have h : y.toModel.unpack.isFinite = true := h
  rw [hinfinity] at hle
  cases hy : y.toModel.unpack with
  | notANumber =>
    rw [hy] at h
    cases h
  | infinity sign =>
    rw [hy] at h
    cases h
  | zero sign =>
    rw [hy] at hle
    cases hle
  | finite sign m e hpos =>
    rw [hy] at hle
    cases hle

/-- **"Not a number" is at most nothing**, itself included. -/
theorem not_le_of_isNaN (h : x.isNaN = true) : ¬x ≤ y := by
  intro hle
  have hmodel : x.toModel ≤ y.toModel := of_decide_eq_true hle
  have hle : x.toModel.unpack.le y.toModel.unpack = true := hmodel
  rw [unpack_eq_notANumber h] at hle
  cases hle

end SeriesQuery.Binary64
