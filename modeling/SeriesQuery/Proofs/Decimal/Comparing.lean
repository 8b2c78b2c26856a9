/-
  Comparing floats.

  A float that is a number has a place in ascending order, an integer.  For a positive number it is
  `(exponent + 1074) · 2 ^ 52 + mantissa`: so far do the mantissas of one exponent reach that the
  next exponent starts where they end.  Numbers compare as their places do (`compare_place`).  So
  `<` is a strict weak order on numbers, with the two zeros as the only ones that are not told
  apart; "not a number" would break it.
-/
import SeriesQuery.Proofs.Decimal.Unpacking

namespace SeriesQuery.Binary64

open Float.Model
open Float.Model.UnpackedFloat

variable {x y : Float} {m m₁ m₂ : ℕ} {e e₁ e₂ : ℤ}

/-! ## Places -/

/-- The place of a positive number. -/
def placeOf (m : ℕ) (e : ℤ) : ℤ := (e + 1074) * 0x10000000000000 + m

/-- The place with a sign. -/
def signed (negative : Bool) (n : ℤ) : ℤ := if negative then -n else n

/-- The place in ascending order.  Both zeros have the same one, and "not a number" has the last. -/
def place : Binary64 → ℤ
  | .nan => 0x8000000000000000
  | .infinite negative => signed negative 0x7ff0000000000000
  | .finite negative m e => signed negative (placeOf m e)

/-- The places of positive numbers are between those of zero and infinity. -/
theorem placeOf_bounds (h : Canonical m e) :
    0 < placeOf m e ∧ placeOf m e < 0x7ff0000000000000 := by
  obtain ⟨hpos, hbits, -, hleast, hgreatest⟩ := h
  unfold placeOf
  omega

/-- Places of positive numbers compare as the exponents and then the mantissas do: all fifty-three
    bits of a mantissa are there, unless the exponent is the least one. -/
theorem compare_placeOf (h₁ : Canonical m₁ e₁) (h₂ : Canonical m₂ e₂) :
    compare (placeOf m₁ e₁) (placeOf m₂ e₂) = (compare e₁ e₂).then (compare m₁ m₂) := by
  obtain ⟨-, hbits₁, hfull₁, hleast₁, -⟩ := h₁
  obtain ⟨-, hbits₂, hfull₂, hleast₂, -⟩ := h₂
  unfold placeOf
  -- The mantissas of one exponent fill the room up to the next one, so the exponents decide.
  rcases lt_trichotomy e₁ e₂ with hlt | rfl | hgt
  · rw [compare_lt_iff_lt.mpr hlt, Ordering.lt_then, compare_lt_iff_lt]
    omega
  · rw [compare_eq_iff_eq.mpr rfl, Ordering.eq_then]
    rcases lt_trichotomy m₁ m₂ with hlt | rfl | hgt
    · rw [compare_lt_iff_lt.mpr hlt, compare_lt_iff_lt]
      omega
    · rw [compare_eq_iff_eq.mpr rfl, compare_eq_iff_eq.mpr rfl]
    · rw [compare_gt_iff_gt.mpr hgt, compare_gt_iff_gt]
      omega
  · rw [compare_gt_iff_gt.mpr hgt, Ordering.gt_then, compare_gt_iff_gt]
    omega

/-- Negative numbers compare the other way round. -/
theorem compare_neg (p q : ℤ) : compare (-p) (-q) = (compare p q).swap := by
  rw [← Std.OrientedOrd.eq_swap]
  rcases lt_trichotomy p q with hlt | rfl | hgt
  · rw [compare_gt_iff_gt.mpr hlt, compare_gt_iff_gt]
    omega
  · rw [compare_eq_iff_eq.mpr rfl, compare_eq_iff_eq.mpr rfl]
  · rw [compare_lt_iff_lt.mpr hgt, compare_lt_iff_lt]
    omega

/-! ## Places and numbers -/

/-- What floats unpack to has all its bits. -/
def IsCanonical : UnpackedFloat → Prop
  | .finite _ m e _ => Canonical m e
  | _ => True

/-- Every float unpacks to a mantissa with all its bits, if to any. -/
theorem isCanonical_unpack (x : Float) : IsCanonical x.toModel.unpack := by
  cases hx : x.toModel.unpack with
  | finite sign m e hpos => exact canonical_of_unpack hx
  | notANumber => trivial
  | infinity sign => trivial
  | zero sign => trivial

/-- Both zeros are at the place zero. -/
theorem place_zero (s : Sign) : place (ofUnpacked (.zero s)) = 0 := by
  cases s <;> rfl

/-- Between the infinities. -/
theorem signed_bounds (h : Canonical m e) (negative : Bool) :
    -0x7ff0000000000000 < signed negative (placeOf m e) ∧
      signed negative (placeOf m e) < 0x7ff0000000000000 := by
  obtain ⟨hlow, hhigh⟩ := placeOf_bounds h
  unfold signed
  split <;> omega

/-- **Numbers compare as their places do.** -/
theorem compare_place {a b : UnpackedFloat} (ha : IsCanonical a) (hb : IsCanonical b)
    (hna : a ≠ .notANumber) (hnb : b ≠ .notANumber) :
    some (compare (place (ofUnpacked a)) (place (ofUnpacked b))) = a.compare b := by
  -- By the kinds of the two: infinities and zeros have fixed places, and finite numbers are between
  -- or beside them.
  cases a with
  | notANumber => exact absurd rfl hna
  | infinity s =>
    cases b with
    | notANumber => exact absurd rfl hnb
    | infinity t => cases s <;> cases t <;> rfl
    | zero t => cases s <;> cases t <;> rfl
    | finite t m e hpos =>
      obtain ⟨hlow, hhigh⟩ := signed_bounds hb (t == .negative)
      cases s with
      | positive => exact congrArg some (compare_gt_iff_gt.mpr hhigh)
      | negative => exact congrArg some (compare_lt_iff_lt.mpr hlow)
  | zero s =>
    cases b with
    | notANumber => exact absurd rfl hnb
    | infinity t => cases s <;> cases t <;> rfl
    | zero t => cases s <;> cases t <;> rfl
    | finite t m e hpos =>
      have hlow := (placeOf_bounds hb).1
      rw [place_zero]
      cases t with
      | positive => exact congrArg some (compare_lt_iff_lt.mpr hlow)
      | negative => exact congrArg some (compare_gt_iff_gt.mpr (neg_lt_zero.mpr hlow))
  | finite s m₁ e₁ hpos₁ =>
    have hlow₁ := (placeOf_bounds ha).1
    cases b with
    | notANumber => exact absurd rfl hnb
    | infinity t =>
      obtain ⟨hlow, hhigh⟩ := signed_bounds ha (s == .negative)
      cases t with
      | positive => exact congrArg some (compare_lt_iff_lt.mpr hhigh)
      | negative => exact congrArg some (compare_gt_iff_gt.mpr hlow)
    | zero t =>
      rw [place_zero]
      cases s with
      | positive => exact congrArg some (compare_gt_iff_gt.mpr hlow₁)
      | negative => exact congrArg some (compare_lt_iff_lt.mpr (neg_lt_zero.mpr hlow₁))
    | finite t m₂ e₂ hpos₂ =>
      have hlow₂ := (placeOf_bounds hb).1
      have hsame := compare_placeOf ha hb
      -- Numbers on different sides of zero are told apart by their signs.
      have hapart₁ := (neg_lt_zero.mpr hlow₁).trans hlow₂
      have hapart₂ := (neg_lt_zero.mpr hlow₂).trans hlow₁
      cases s with
      | positive =>
        cases t with
        | positive => exact congrArg some hsame
        | negative => exact congrArg some (compare_gt_iff_gt.mpr hapart₂)
      | negative =>
        cases t with
        | positive => exact congrArg some (compare_lt_iff_lt.mpr hapart₁)
        | negative => exact congrArg some ((compare_neg _ _).trans (congrArg Ordering.swap hsame))

/-! ## Floats -/

/-- What is not "not a number" does not unpack to it. -/
theorem unpack_ne_notANumber (h : x.isNaN = false) : x.toModel.unpack ≠ .notANumber := by
  intro hnan
  have h : x.toModel.unpack.isNaN = false := h
  rw [hnan] at h
  cases h

/-- "Not a number" unpacks to itself. -/
theorem unpack_eq_notANumber (h : x.isNaN = true) : x.toModel.unpack = .notANumber :=
  isNaN_iff.mp h

/-- Two floats that are numbers compare as their places do. -/
theorem compare_unpack (hx : x.isNaN = false) (hy : y.isNaN = false) :
    x.toModel.unpack.compare y.toModel.unpack =
      some (compare (place (ofFloat x)) (place (ofFloat y))) := by
  rw [ofFloat_eq, ofFloat_eq]
  exact (compare_place (isCanonical_unpack x) (isCanonical_unpack y) (unpack_ne_notANumber hx)
    (unpack_ne_notANumber hy)).symm

/-- Nothing is less than "not a number". -/
theorem lt_notANumber (a : UnpackedFloat) : a.lt .notANumber = false := by
  cases a <;> rfl

/-- Floats compare as their places do if both are numbers, and not at all otherwise. -/
theorem lt_iff : x < y ↔
    x.isNaN = false ∧ y.isNaN = false ∧ place (ofFloat x) < place (ofFloat y) := by
  have hmodel : x < y ↔ x.toModel.unpack.lt y.toModel.unpack = true := decide_eq_true_iff
  rw [hmodel]
  cases hx : x.isNaN with
  | true =>
    rw [unpack_eq_notANumber hx]
    exact iff_of_false Bool.false_ne_true fun h => Bool.noConfusion h.1
  | false =>
    cases hy : y.isNaN with
    | true =>
      rw [unpack_eq_notANumber hy, lt_notANumber]
      exact iff_of_false Bool.false_ne_true fun h => Bool.noConfusion h.2.1
    | false =>
      rw [UnpackedFloat.lt, beq_iff_eq, compare_unpack hx hy, Option.some_inj, compare_lt_iff_lt]
      exact ⟨fun h => ⟨rfl, rfl, h⟩, fun h => h.2.2⟩

/-- Numbers are equal if their places are. -/
theorem beq_iff_place_eq (hx : x.isNaN = false) (hy : y.isNaN = false) :
    (x == y) = true ↔ place (ofFloat x) = place (ofFloat y) := by
  show x.toModel.unpack.beq y.toModel.unpack = true ↔ _
  rw [UnpackedFloat.beq, beq_iff_eq, compare_unpack hx hy, Option.some_inj, compare_eq_iff_eq]

/-- **Among numbers, `<` is a strict weak order.** -/
theorem isStrictWeakOrder_lt {values : List Float} (h : ∀ x ∈ values, x.isNaN = false) :
    IsStrictWeakOrder {x // x ∈ values} (Subrel (· < ·) (· ∈ values)) := by
  -- The order is the one of the places, which are integers.
  have hplace : Subrel (· < ·) (· ∈ values) =
      Order.Preimage (fun x : {x // x ∈ values} => place (ofFloat x.val)) (· < ·) := by
    funext x y
    refine propext (lt_iff.trans ⟨fun hlt => hlt.2.2, fun hlt => ?_⟩)
    exact ⟨h x.val x.property, h y.val y.property, hlt⟩
  have hlinear : IsStrictWeakOrder ℤ (· < ·) := isStrictWeakOrder_of_isOrderConnected
  rw [hplace]
  infer_instance

end SeriesQuery.Binary64
