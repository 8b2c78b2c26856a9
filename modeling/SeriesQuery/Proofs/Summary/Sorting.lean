/-
  Sorting values.

  Values are sorted by `orderKey`, which looks at nothing but the bits of a float.  This is the
  place of the number that they stand for (`orderKey_eq_place`).  So values are sorted as numbers,
  with "not a number" last (`orderKey_lt_iff`), and only equal values have equal keys
  (`orderKey_eq_iff`).  The two zeros are equal and yet not the same.  Without both of them there is
  one way to sort values, whatever the order that they come in and whatever the algorithm
  (`InOrder.eq_of_perm`).
-/
import SeriesQuery.Proofs.Decimal.Comparing
import SeriesQuery.Summary.Accumulator

namespace SeriesQuery

open Float.Model
open Binary64 (ofFloat ofUnpacked place placeOf signed)

variable {x y : Float} {xs ys values : List Float}

/-! ## Keys -/

/-- The key is the place of the number: the fields of exponent and fraction together, and the
    sign. -/
theorem orderKey_eq_place (x : Float) : orderKey x = place (ofFloat x) := by
  have hbits : x.toBits.toNat < 2 ^ 64 := x.toBits.toNat_lt
  unfold orderKey ofFloat Binary64.ofBits Binary64.leadingBit
  generalize x.toBits.toNat = n at hbits
  simp only [Nat.shiftRight_eq_div_pow, beq_iff_eq]
  -- Without the sign, the bits are those of exponent and fraction, one after the other.
  have hsize : n % 0x8000000000000000 =
      n / 2 ^ 52 % 2048 * 0x10000000000000 + n % 0x10000000000000 := by omega
  have hsign : (n / 2 ^ 63 == 1) = !decide (n < 0x8000000000000000) := by
    rw [Bool.eq_iff_iff, beq_iff_eq, Bool.not_eq_true', decide_eq_false_iff_not]
    omega
  have hsigned : ∀ size : ℕ, (if n < 0x8000000000000000 then (size : ℤ) else -size) =
      signed (!decide (n < 0x8000000000000000)) size := by
    intro size
    unfold signed
    by_cases hpositive : n < 0x8000000000000000
    · simp [hpositive]
    · simp [hpositive]
  have hexponent : n / 2 ^ 52 % 2048 < 2048 := Nat.mod_lt _ (by decide)
  have hfraction : n % 0x10000000000000 < 0x10000000000000 := Nat.mod_lt _ (by decide)
  rw [hsigned, hsize, hsign]
  generalize n / 2 ^ 52 % 2048 = exponent at hexponent
  generalize n % 0x10000000000000 = fraction at hfraction
  generalize (!decide (n < 0x8000000000000000)) = negative
  -- The greatest exponent is that of infinity, and with a fraction that of "not a number".
  by_cases hmax : exponent = 2047
  · rw [if_pos hmax]
    by_cases hzero : fraction = 0
    · have hvalue : ((exponent * 0x10000000000000 + fraction : ℕ) : ℤ) = 0x7ff0000000000000 := by
        omega
      rw [if_pos hzero, if_neg (by omega), hvalue, place]
    · rw [if_neg hzero, if_pos (by omega)]
      rfl
  · rw [if_neg hmax, if_neg (by omega)]
    -- The least exponent has no leading bit, and the same unit as the one above it.
    by_cases hleast : exponent = 0
    · rw [if_pos hleast, place, placeOf]
      refine congrArg (signed negative) ?_
      omega
    · rw [if_neg hleast, place, placeOf]
      refine congrArg (signed negative) ?_
      omega

/-- "Not a number" has a key of its own. -/
theorem orderKey_of_isNaN (h : x.isNaN = true) : orderKey x = 0x8000000000000000 := by
  rw [orderKey_eq_place, Binary64.ofFloat_eq, Binary64.unpack_eq_notANumber h]
  rfl

/-- Every number has a lesser key than "not a number". -/
theorem orderKey_lt_of_number (h : x.isNaN = false) : orderKey x < 0x8000000000000000 := by
  rw [orderKey_eq_place, Binary64.ofFloat_eq]
  have hcanonical := Binary64.isCanonical_unpack x
  cases hx : x.toModel.unpack with
  | notANumber => exact absurd hx (Binary64.unpack_ne_notANumber h)
  | infinity s => cases s <;> decide
  | zero s => cases s <;> decide
  | finite s m e hpos =>
    rw [hx] at hcanonical
    obtain ⟨-, hhigh⟩ := Binary64.signed_bounds hcanonical (s == .negative)
    exact hhigh.trans (by decide)

/-- Of two numbers, the smaller one has the smaller key. -/
theorem lt_iff_orderKey_lt :
    x < y ↔ x.isNaN = false ∧ y.isNaN = false ∧ orderKey x < orderKey y := by
  rw [orderKey_eq_place, orderKey_eq_place]
  exact Binary64.lt_iff

/-- **Keys are in the order of the numbers**, with "not a number" last. -/
theorem orderKey_lt_iff :
    orderKey x < orderKey y ↔ x < y ∨ x.isNaN = false ∧ y.isNaN = true := by
  rw [lt_iff_orderKey_lt]
  cases hx : x.isNaN with
  | true =>
    rw [orderKey_of_isNaN hx]
    cases hy : y.isNaN with
    | true => simp [orderKey_of_isNaN hy]
    | false => simpa using (orderKey_lt_of_number hy).le
  | false =>
    cases hy : y.isNaN with
    | true => simpa [orderKey_of_isNaN hy] using orderKey_lt_of_number hx
    | false => simp

/-- Numbers are not the same as "not a number". -/
theorem isNaN_eq_of_sameNumber (h : sameNumber x y = true) : x.isNaN = y.isNaN := by
  unfold sameNumber at h
  rcases Bool.or_eq_true_iff.mp h with hbeq | hnan
  · obtain ⟨hx, hy, -⟩ := Float.beq_iff_ne_nan_and_eq.mp hbeq
    rw [Float.isNaN_eq_decide_eq_nan, Float.isNaN_eq_decide_eq_nan, decide_eq_false hx,
      decide_eq_false hy]
  · obtain ⟨hx, hy⟩ := Bool.and_eq_true_iff.mp hnan
    rw [hx, hy]

/-- "Not a number" is the same as itself, whatever its bits. -/
theorem sameNumber_of_isNaN (hx : x.isNaN = true) (hy : y.isNaN = true) :
    sameNumber x y = true := by
  unfold sameNumber
  rw [hx, hy, Bool.and_self, Bool.or_true]

/-- **Only equal values have equal keys.** -/
theorem orderKey_eq_iff : orderKey x = orderKey y ↔ sameNumber x y = true := by
  -- Two numbers are compared by their places; anything else by the last key.
  by_cases hnan : x.isNaN = y.isNaN
  · cases hy : y.isNaN with
    | true =>
      rw [hy] at hnan
      rw [orderKey_of_isNaN hnan, orderKey_of_isNaN hy]
      exact iff_of_true rfl (sameNumber_of_isNaN hnan hy)
    | false =>
      rw [hy] at hnan
      rw [orderKey_eq_place, orderKey_eq_place, ← Binary64.beq_iff_place_eq hnan hy, sameNumber,
        hnan, Bool.false_and, Bool.or_false]
  · refine iff_of_false (fun hkey => hnan ?_) (mt isNaN_eq_of_sameNumber hnan)
    -- one key is the last one, and the other is before it
    cases hx : x.isNaN with
    | true =>
      cases hy : y.isNaN with
      | true => rfl
      | false =>
        have hlt := orderKey_lt_of_number hy
        rw [← hkey, orderKey_of_isNaN hx] at hlt
        exact absurd hlt (lt_irrefl _)
    | false =>
      cases hy : y.isNaN with
      | true =>
        have hlt := orderKey_lt_of_number hx
        rw [hkey, orderKey_of_isNaN hy] at hlt
        exact absurd hlt (lt_irrefl _)
      | false => rfl

/-- Of equal values only the two zeros are not the same. -/
theorem eq_or_zeros_of_orderKey_eq (h : orderKey x = orderKey y) :
    x = y ∨ x = 0.0 ∧ y = -0.0 ∨ x = -0.0 ∧ y = 0.0 := by
  have hsame := orderKey_eq_iff.mp h
  unfold sameNumber at hsame
  rcases Bool.or_eq_true_iff.mp hsame with hbeq | hnan
  · exact (Float.beq_iff_ne_nan_and_eq.mp hbeq).2.2
  · obtain ⟨hx, hy⟩ := Bool.and_eq_true_iff.mp hnan
    rw [Float.isNaN_eq_decide_eq_nan, decide_eq_true_eq] at hx hy
    exact .inl (hx.trans hy.symm)

/-! ## Sorted values -/

/-- No value is smaller than one before it, and nothing but "not a number" comes after that. -/
def InOrder (values : List Float) : Prop :=
  values.Pairwise fun x y => ¬ (y < x ∨ y.isNaN = false ∧ x.isNaN = true)

/-- Values are in order if their keys are. -/
theorem inOrder_iff : InOrder values ↔ values.Pairwise fun x y => orderKey x ≤ orderKey y := by
  unfold InOrder
  simp only [← orderKey_lt_iff, not_lt]

/-- Sorting puts values in order. -/
theorem inOrder_ascendingValues (values : List Float) : InOrder (ascendingValues values) := by
  have hsorted : (ascendingValues values).Pairwise fun x y =>
      decide (orderKey x ≤ orderKey y) = true := by
    refine List.pairwise_mergeSort (fun x y z hxy hyz => ?_) (fun x y => ?_) values
    · exact decide_eq_true ((of_decide_eq_true hxy).trans (of_decide_eq_true hyz))
    · rw [Bool.or_eq_true, decide_eq_true_eq, decide_eq_true_eq]
      exact le_total _ _
  exact inOrder_iff.mpr (hsorted.imp of_decide_eq_true)

/-- Sorting neither loses a value nor makes one up. -/
theorem ascendingValues_perm (values : List Float) : (ascendingValues values).Perm values :=
  List.mergeSort_perm _ _

/-- **There is one way to sort values** that the two zeros are not both among. -/
theorem InOrder.eq_of_perm (hxs : InOrder xs) (hys : InOrder ys) (hperm : xs.Perm ys)
    (hzeros : ¬ ((0.0 : Float) ∈ xs ∧ (-0.0 : Float) ∈ xs)) : xs = ys := by
  refine hperm.eq_of_pairwise (fun x y hx hy hxy hyx => ?_) (inOrder_iff.mp hxs)
    (inOrder_iff.mp hys)
  have hy := hperm.mem_iff.mpr hy
  -- Equal keys mean the same value, but for the zeros, and those are not both there.
  rcases eq_or_zeros_of_orderKey_eq (le_antisymm hxy hyx) with hsame | ⟨rfl, rfl⟩ | ⟨rfl, rfl⟩
  · exact hsame
  · exact absurd ⟨hx, hy⟩ hzeros
  · exact absurd ⟨hy, hx⟩ hzeros

/-- Sorting gives the values in order, however they were put in order. -/
theorem ascendingValues_eq (horder : InOrder ys) (hperm : ys.Perm xs)
    (hzeros : ¬ ((0.0 : Float) ∈ xs ∧ (-0.0 : Float) ∈ xs)) : ascendingValues xs = ys := by
  have hxs := ascendingValues_perm xs
  refine (inOrder_ascendingValues xs).eq_of_perm horder (hxs.trans hperm.symm) ?_
  rw [hxs.mem_iff, hxs.mem_iff]
  exact hzeros

end SeriesQuery
