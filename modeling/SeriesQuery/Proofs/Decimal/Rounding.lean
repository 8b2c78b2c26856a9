/-
  Rounding to a float, by exact numbers.

  The operations on floats come down to one procedure.  It is given a mantissa with what was cut
  off, shifts the mantissa until fifty-three bits are left, and rounds.  Two facts make it easy to
  follow.  A mantissa with its two residual bits stands for a set of numbers (`Describes`), and a
  shift by one bit keeps this up to a factor of two.  And which float comes out is known in advance:
  that one whose interval of rounding holds the number (`RoundsTo`).  Only just below a power of two
  is the mantissa shifted by one bit too few, and then rounding carries and a second shift mends it.
-/
import Mathlib
import SeriesQuery.Decimal.Binary64

namespace SeriesQuery.Binary64

open Float.Model
open Float.Model.UnpackedFloat

/-! ## What an extended mantissa stands for

A mantissa with a round and a sticky bit does not say which number it was cut from.  It says enough
to round that number: whether less than a half is left, a half, or more. -/

/-- The number `v` has the mantissa as its whole part.  The round bit says whether a half or more is
    left, and the sticky bit whether what is left is neither nothing nor a half. -/
structure Describes (em : ExtendedMantissa) (v : ℚ) : Prop where
  low : (em.mantissa : ℚ) ≤ v
  high : v < em.mantissa + 1
  round : em.roundBit = true ↔ (em.mantissa : ℚ) + 1 / 2 ≤ v
  sticky : em.stickyBit = true ↔ v ≠ em.mantissa ∧ v ≠ em.mantissa + 1 / 2

/-- What an accuracy says of the number that the mantissa `m` was cut from. -/
def Leaves (m : ℕ) (v : ℚ) : Accuracy → Prop
  | .exact => v = m
  | .inexact .lt => m < v ∧ v < m + 1 / 2
  | .inexact .eq => v = m + 1 / 2
  | .inexact .gt => m + 1 / 2 < v ∧ v < m + 1

namespace Describes

variable {em : ExtendedMantissa} {v : ℚ}

/-- The two residual bits together say whether anything is left. -/
theorem inexact_iff (h : Describes em v) :
    (em.roundBit || em.stickyBit) = true ↔ v ≠ em.mantissa := by
  rw [Bool.or_eq_true, h.round, h.sticky]
  constructor
  · rintro (hround | hsticky) heq
    · linarith
    · exact hsticky.1 heq
  · intro hne
    by_cases hhalf : v = em.mantissa + 1 / 2
    · exact .inl hhalf.ge
    · exact .inr ⟨hne, hhalf⟩

/-- A shift by one bit halves the number. -/
theorem shiftRightOne (h : Describes em v) : Describes em.shiftRightOne (v / 2) := by
  have hlow := h.low
  have hhigh := h.high
  have hparts : (em.mantissa : ℚ) = 2 * (em.mantissa / 2 : ℕ) + (em.mantissa % 2 : ℕ) := by
    exact_mod_cast (Nat.div_add_mod em.mantissa 2).symm
  -- The bit that is cut off becomes the round bit.
  have hround : (em.mantissa % 2 != 0) = true ↔ ((em.mantissa / 2 : ℕ) : ℚ) + 1 / 2 ≤ v / 2 := by
    rcases Nat.mod_two_eq_zero_or_one em.mantissa with hparity | hparity
    all_goals
      rw [hparity] at hparts ⊢
      push_cast at hparts
    · exact ⟨fun hodd => absurd hodd (by decide), fun hhalf => by linarith⟩
    · exact ⟨fun _ => by linarith, fun _ => rfl⟩
  -- nothing is left after the shift exactly if nothing was left before
  have hsticky : (em.roundBit || em.stickyBit) = true ↔
      v / 2 ≠ (em.mantissa / 2 : ℕ) ∧ v / 2 ≠ (em.mantissa / 2 : ℕ) + 1 / 2 := by
    rw [h.inexact_iff, ← not_or, not_iff_not]
    rcases Nat.mod_two_eq_zero_or_one em.mantissa with hparity | hparity
    all_goals
      rw [hparity] at hparts
      push_cast at hparts
    · exact ⟨fun h => .inl (by linarith), fun h => by rcases h with h | h <;> linarith⟩
    · exact ⟨fun h => .inr (by linarith), fun h => by rcases h with h | h <;> linarith⟩
  have hrest : ((em.mantissa % 2 : ℕ) : ℚ) ≤ 1 ∧ (0 : ℚ) ≤ (em.mantissa % 2 : ℕ) := by
    constructor
    · exact_mod_cast Nat.le_of_lt_succ (Nat.mod_lt em.mantissa (by decide))
    · exact Nat.cast_nonneg _
  exact ⟨show ((em.mantissa / 2 : ℕ) : ℚ) ≤ v / 2 by linarith,
    show v / 2 < ((em.mantissa / 2 : ℕ) : ℚ) + 1 by linarith, hround, hsticky⟩

/-- Shifts by several bits, one after another. -/
theorem shiftRight (h : Describes em v) (n : ℕ) : Describes (em >>> n) (v / 2 ^ n) := by
  induction n with
  | zero =>
    rw [pow_zero, div_one]
    exact h
  | succ n ih =>
    rw [pow_succ, ← div_div]
    exact ih.shiftRightOne

/-- What has to be known of a mantissa and its two bits. -/
theorem of_bits {m : ℕ} {round sticky : Bool} (hlow : (m : ℚ) ≤ v) (hhigh : v < m + 1)
    (hround : round = true ↔ (m : ℚ) + 1 / 2 ≤ v)
    (hsticky : sticky = true ↔ v ≠ m ∧ v ≠ m + 1 / 2) : Describes ⟨m, round, sticky⟩ v :=
  ⟨hlow, hhigh, hround, hsticky⟩

/-- The residual bits are set as an accuracy says. -/
theorem ofMantissaAndAccuracy {m : ℕ} {acc : Accuracy} (h : Leaves m v acc) :
    Describes (.ofMantissaAndAccuracy m acc) v := by
  have hfalse : ∀ {p : Prop}, ¬ p → (false = true ↔ p) := fun hp => by simp [hp]
  have htrue : ∀ {p : Prop}, p → (true = true ↔ p) := fun hp => by simp [hp]
  -- Each accuracy places the number in one of four parts of its unit.
  cases acc with
  | exact =>
    have h : v = m := h
    exact of_bits h.ge (by linarith) (hfalse (by linarith)) (hfalse fun hne => hne.1 h)
  | inexact half =>
    cases half with
    | lt =>
      obtain ⟨hlow, hhigh⟩ : (m : ℚ) < v ∧ v < m + 1 / 2 := h
      exact of_bits hlow.le (by linarith) (hfalse (by linarith)) (htrue ⟨hlow.ne', hhigh.ne⟩)
    | eq =>
      have h : v = m + 1 / 2 := h
      exact of_bits (by linarith) (by linarith) (htrue h.ge) (hfalse fun hne => hne.2 h)
    | gt =>
      obtain ⟨hlow, hhigh⟩ : (m : ℚ) + 1 / 2 < v ∧ v < m + 1 := h
      exact of_bits (by linarith) hhigh (htrue hlow.le) (htrue ⟨by linarith, hlow.ne'⟩)

/-- A whole number is described by itself. -/
theorem exact (m : ℕ) : Describes (.ofMantissaAndAccuracy m .exact) m :=
  ofMantissaAndAccuracy rfl

/-- A quotient is described by its whole part and the rest of the division. -/
theorem fraction (a : ℕ) {b : ℕ} (hb : 0 < b) :
    Describes (.ofMantissaAndAccuracy (a / b) (accuracyOfFraction (a % b) b)) (a / b) := by
  have hpos : (0 : ℚ) < b := by exact_mod_cast hb
  have hparts : (a : ℚ) = b * (a / b : ℕ) + (a % b : ℕ) := by
    exact_mod_cast (Nat.div_add_mod a b).symm
  -- The whole part and what is left, as a fraction below one.
  have hquotient : (a : ℚ) / b = (a / b : ℕ) + (a % b : ℕ) / b := by
    rw [hparts, add_div, mul_div_cancel_left₀ _ hpos.ne']
  have hlt : ((a % b : ℕ) : ℚ) / b < 1 := by
    rw [div_lt_one hpos]
    exact_mod_cast Nat.mod_lt a hb
  apply ofMantissaAndAccuracy
  rw [hquotient]
  unfold accuracyOfFraction
  by_cases hzero : a % b = 0
  · rw [if_pos hzero, hzero, Nat.cast_zero, zero_div, add_zero]
    exact rfl
  · rw [if_neg hzero]
    have hrest : (0 : ℚ) < (a % b : ℕ) / b :=
      div_pos (by exact_mod_cast Nat.pos_of_ne_zero hzero) hpos
    -- what is left is compared with a half by doubling it
    cases hhalf : compare (2 * (a % b)) b with
    | lt =>
      have hless : ((2 * (a % b) : ℕ) : ℚ) < b := by exact_mod_cast Nat.compare_eq_lt.mp hhalf
      have hsmall : ((a % b : ℕ) : ℚ) / b < 1 / 2 := by
        rw [div_lt_iff₀ hpos]
        push_cast at hless
        linarith
      exact ⟨by linarith, by linarith⟩
    | eq =>
      have hsame : ((2 * (a % b) : ℕ) : ℚ) = b := by exact_mod_cast Nat.compare_eq_eq.mp hhalf
      have hequal : ((a % b : ℕ) : ℚ) / b = 1 / 2 := by
        rw [div_eq_iff hpos.ne']
        push_cast at hsame
        linarith
      exact congrArg _ hequal
    | gt =>
      have hmore : (b : ℚ) < (2 * (a % b) : ℕ) := by exact_mod_cast Nat.compare_eq_gt.mp hhalf
      have hlarge : 1 / 2 < ((a % b : ℕ) : ℚ) / b := by
        rw [lt_div_iff₀ hpos]
        push_cast at hmore
        linarith
      exact ⟨by linarith, by linarith⟩

/-- Rounding gives the nearest integer, and of two the even one. -/
theorem roundedMantissa_eq (h : Describes em v) {k : ℕ} (hlow : (k : ℚ) - 1 / 2 ≤ v)
    (hhigh : v ≤ k + 1 / 2) (heven : v = k - 1 / 2 ∨ v = k + 1 / 2 → k % 2 = 0) :
    em.roundedMantissa = k := by
  obtain ⟨m, round, sticky⟩ := em
  obtain ⟨hm, hm', hround, hsticky⟩ := h
  dsimp only at hm hm' hround hsticky
  -- only the mantissa and the next integer are near enough
  have hk : k = m ∧ v ≤ m + 1 / 2 ∨ k = m + 1 ∧ m + 1 / 2 ≤ v := by
    have hge : (m : ℚ) < k + 1 := by linarith
    have hle : (k : ℚ) < m + 2 := by linarith
    have hge : m < k + 1 := by exact_mod_cast hge
    have hle : k < m + 2 := by exact_mod_cast hle
    obtain rfl | rfl : k = m ∨ k = m + 1 := by omega
    · exact .inl ⟨rfl, hhigh⟩
    · push_cast at hlow
      exact .inr ⟨rfl, by linarith⟩
  -- Below the half the mantissa stays, above it the next integer is taken, and at the half the even
  -- one of them.
  cases round with
  | false =>
    have hhalf : v < m + 1 / 2 := not_le.mp fun hle => absurd (hround.mpr hle) (by decide)
    obtain ⟨rfl, -⟩ | ⟨-, hge⟩ := hk
    · cases sticky <;> rfl
    · linarith
  | true =>
    have hhalf := hround.mp rfl
    cases sticky with
    | false =>
      have htie : v = m + 1 / 2 := by
        by_contra hne
        exact absurd (hsticky.mpr ⟨by linarith, hne⟩) (by decide)
      have hparity : k % 2 = 0 := by
        refine heven ?_
        obtain ⟨rfl, -⟩ | ⟨rfl, -⟩ := hk
        · exact .inr htie
        · push_cast
          exact .inl (by linarith)
      show m + m % 2 = k
      omega
    | true =>
      have hbeyond : m + 1 / 2 < v := lt_of_le_of_ne hhalf (hsticky.mp rfl).2.symm
      obtain ⟨-, hle⟩ | ⟨rfl, -⟩ := hk
      · linarith
      · rfl

end Describes

/-! ## The float that a number rounds to

The float is named first, by its interval, and then met by the procedure.  The target exponent is
its exponent (`target_eq`), and in units of this exponent the number is rounded to its mantissa
(`roundedMantissa_eq`). -/

/-- Mantissa and exponent of a positive float: fifty-three bits, or fewer with the least
    exponent. -/
structure Canonical (m : ℕ) (e : ℤ) : Prop where
  pos : 0 < m
  bits : m < 2 ^ 53
  full : 2 ^ 52 ≤ m ∨ e = -1074
  least : -1074 ≤ e
  greatest : e ≤ 971

/-- How far below a float its interval of rounding starts, in units of its last place: half a unit,
    but a quarter at a power of two, where the float before is only half a unit away. -/
def gapBelow (m : ℕ) (e : ℤ) : ℚ := if m = leadingBit ∧ -1074 < e then 1 / 4 else 1 / 2

/-- The interval does start below the float. -/
theorem gapBelow_pos (m : ℕ) (e : ℤ) : 0 < gapBelow m e := by
  unfold gapBelow
  split <;> norm_num

/-- The interval of a float does not start farther below it than it reaches above. -/
theorem gapBelow_le (m : ℕ) (e : ℤ) : gapBelow m e ≤ 1 / 2 := by
  unfold gapBelow
  split <;> norm_num

/-- The number `v` is rounded to the float `m · 2 ^ e`.  The ends of the interval are as near to the
    neighbours, and go to the even mantissa. -/
structure RoundsTo (m : ℕ) (e : ℤ) (v : ℚ) : Prop where
  low : (m - gapBelow m e) * 2 ^ e ≤ v
  high : v ≤ (m + 1 / 2) * 2 ^ e
  even : v = (m - gapBelow m e) * 2 ^ e ∨ v = (m + 1 / 2) * 2 ^ e → m % 2 = 0

variable {m n M : ℕ} {e E : ℤ} {v : ℚ} {acc : Accuracy}

/-- The exponent that leaves fifty-three bits of a mantissa, or the least one: the format's
    `targetExponent`, with its numbers put in. -/
def target (M : ℕ) (E : ℤ) : ℤ := max (M.log2 + 1 + E - 53) (-1074)

/-- What is shifted to an exponent that is not below its own has this exponent afterwards. -/
theorem shiftToTargetExponent_eq (hexp : E ≤ target M E) :
    shiftToTargetExponent .binary64 M E acc =
      (ExtendedMantissa.ofMantissaAndAccuracy M acc >>> (target M E - E).toNat, target M E) := by
  show (_, E + ((target M E - E).toNat : ℤ)) = _
  rw [Int.toNat_of_nonneg (by omega)]
  congr 1
  omega

/-- A mantissa with what was cut off, by the number in its own units. -/
theorem bounds_of_describes (h : Describes (.ofMantissaAndAccuracy M acc) (v / 2 ^ E)) :
    M * 2 ^ E ≤ v ∧ v < (M + 1) * 2 ^ E := by
  have hmantissa : (ExtendedMantissa.ofMantissaAndAccuracy M acc).mantissa = M := by
    rcases acc with _ | _ | _ | _ <;> rfl
  obtain ⟨hlow, hhigh, -, -⟩ := h
  rw [hmantissa, le_div_iff₀ (zpow_pos two_pos E)] at hlow
  rw [hmantissa, div_lt_iff₀ (zpow_pos two_pos E)] at hhigh
  exact ⟨hlow, hhigh⟩

/-- The first shift brings the number into units of the target. -/
theorem describes_shift (h : Describes (.ofMantissaAndAccuracy M acc) (v / 2 ^ E))
    (hexp : E ≤ target M E) :
    Describes (ExtendedMantissa.ofMantissaAndAccuracy M acc >>> (target M E - E).toNat)
      (v / 2 ^ target M E) := by
  have hsplit : (2 : ℚ) ^ target M E = 2 ^ E * 2 ^ (target M E - E).toNat := by
    rw [← zpow_natCast, Int.toNat_of_nonneg (by omega), ← zpow_add₀ two_ne_zero]
    congr 1
    omega
  rw [hsplit, ← div_div]
  exact h.shiftRight _

/-- A power of two that is not above the number has an exponent not above that of the mantissa. -/
theorem lt_log2_of_le {a : ℤ} (h : v < (M + 1) * 2 ^ E) (ha : 2 ^ a ≤ v) :
    a < M.log2 + 1 + E := by
  have hM : (M : ℚ) + 1 ≤ 2 ^ (M.log2 + 1) := by exact_mod_cast Nat.lt_log2_self (n := M)
  have hpow : (2 : ℚ) ^ a < 2 ^ ((M.log2 : ℤ) + 1 + E) :=
    calc (2 : ℚ) ^ a ≤ v := ha
      _ < (M + 1) * 2 ^ E := h
      _ ≤ 2 ^ (M.log2 + 1) * 2 ^ E := by gcongr
      _ = 2 ^ ((M.log2 : ℤ) + 1 + E) := by rw [zpow_add₀ two_ne_zero]; norm_cast
  exact (zpow_lt_zpow_iff_right₀ one_lt_two).mp hpow

/-- A power of two above the number has an exponent above that of the mantissa.  A mantissa of zero
    has none; where there is one, all exponents have to be small. -/
theorem log2_lt_of_lt {a : ℤ} (h : M * 2 ^ E ≤ v) (ha : v < 2 ^ a) (hzero : M = 0 → E < a) :
    M.log2 + E < a := by
  rcases Nat.eq_zero_or_pos M with rfl | hpos
  · simpa using hzero rfl
  · have hM : (2 : ℚ) ^ M.log2 ≤ M := by exact_mod_cast Nat.log2_self_le hpos.ne'
    have hpow : (2 : ℚ) ^ ((M.log2 : ℤ) + E) < 2 ^ a :=
      calc (2 : ℚ) ^ ((M.log2 : ℤ) + E) = 2 ^ M.log2 * 2 ^ E := by
            rw [zpow_add₀ two_ne_zero, zpow_natCast]
        _ ≤ M * 2 ^ E := by gcongr
        _ ≤ v := h
        _ < 2 ^ a := ha
    exact (zpow_lt_zpow_iff_right₀ one_lt_two).mp hpow

/-- **The target is the exponent of the float.**  It is one less for a number just below a power of
    two, which is rounded up to it. -/
theorem target_eq (hcan : Canonical m e) (h : RoundsTo m e v) (hlow : M * 2 ^ E ≤ v)
    (hhigh : v < (M + 1) * 2 ^ E) (hexp : E ≤ target M E) :
    target M E = e ∨ target M E = e - 1 ∧ m = 2 ^ 52 ∧ v < 2 ^ 52 * 2 ^ e := by
  have hunit : (0 : ℚ) < 2 ^ e := zpow_pos two_pos e
  have hleast := hcan.least
  have htarget : target M E = max (M.log2 + 1 + E - 53) (-1074) := rfl
  have hscale : ∀ n : ℕ, (2 : ℚ) ^ ((n : ℤ) + e) = 2 ^ n * 2 ^ e := fun n => by
    rw [zpow_add₀ two_ne_zero, zpow_natCast]
  have habove : ∀ n : ℕ, 2 ^ n * 2 ^ e ≤ v → n + e < M.log2 + 1 + E := fun n hn =>
    lt_log2_of_le hhigh ((hscale n).trans_le hn)
  have hbelow : ∀ n : ℕ, 1 ≤ n → v < 2 ^ n * 2 ^ e → M.log2 + E < n + e := by
    intro n hn hv
    refine log2_lt_of_lt hlow (hv.trans_eq (hscale n).symm) ?_
    rintro rfl
    rw [htarget, Nat.log2_zero] at hexp
    omega
  -- At or above the power of two the exponents agree; just below it the target is one less, unless
  -- that is out of range.
  by_cases hpower : 2 ^ 52 * 2 ^ e ≤ v
  · -- as many bits as the float has
    have hlower := habove 52 hpower
    have hupper := hbelow 53 (by norm_num) <| by
      refine lt_of_le_of_lt h.high (mul_lt_mul_of_pos_right ?_ hunit)
      have hm : (m : ℚ) + 1 ≤ 2 ^ 53 := by exact_mod_cast hcan.bits
      linarith
    left
    omega
  · have hpower := not_le.mp hpower
    have hupper := hbelow 52 (by norm_num) hpower
    rcases hcan.full with hfull | hsmall
    · have hm : m = 2 ^ 52 := by
        refine hfull.antisymm' (Nat.le_of_lt_succ ?_)
        have hgap := gapBelow_le m e
        have hlt := lt_of_mul_lt_mul_right (h.low.trans_lt hpower) hunit.le
        have hlt : (m : ℚ) < 2 ^ 52 + 1 := by linarith
        exact_mod_cast hlt
      rcases hleast.eq_or_lt with hsmall | hlarge
      · left
        omega
      · -- the interval starts a quarter below the power of two
        have hlower := habove 51 <| by
          have hgap : gapBelow m e = 1 / 4 := if_pos ⟨hm, hlarge⟩
          refine le_trans (mul_le_mul_of_nonneg_right ?_ hunit.le) h.low
          rw [hgap, hm]
          norm_num
        right
        refine ⟨?_, hm, hpower⟩
        omega
    · left
      omega

/-- A float has the exponent that is meant for its mantissa. -/
theorem Canonical.target_eq (h : Canonical m e) : target m e = e := by
  obtain ⟨hpos, hbits, hfull, hleast, -⟩ := h
  have hupper : m.log2 < 53 := (Nat.log2_lt hpos.ne').mpr hbits
  have htarget : target m e = max (m.log2 + 1 + e - 53) (-1074) := rfl
  rcases hfull with hfull | hsmall
  · have hlower : 52 ≤ m.log2 := (Nat.le_log2 hpos.ne').mpr hfull
    omega
  · omega

/-- A mantissa that rounding made one bit longer belongs one exponent higher. -/
theorem target_carry (h : -1074 ≤ E) : target (2 ^ 52 * 2 ^ 1) E = E + 1 := by
  have hlog : Nat.log2 (2 ^ 52 * 2 ^ 1) = 53 := by decide
  unfold target
  rw [hlog]
  omega

namespace RoundsTo

variable {em : ExtendedMantissa}

/-- In units of the last place the number is rounded to the mantissa. -/
theorem roundedMantissa_eq (h : RoundsTo m e v) (hem : Describes em (v / 2 ^ e)) :
    em.roundedMantissa = m := by
  have hunit : (0 : ℚ) < 2 ^ e := zpow_pos two_pos e
  have hgap := gapBelow_le m e
  have hlow : m - gapBelow m e ≤ v / 2 ^ e := (le_div_iff₀ hunit).mpr h.low
  have hhigh : v / 2 ^ e ≤ m + 1 / 2 := (div_le_iff₀ hunit).mpr h.high
  refine hem.roundedMantissa_eq (by linarith) hhigh ?_
  rintro (htie | htie)
  · have hsame : v / 2 ^ e = m - gapBelow m e := by linarith
    exact h.even (.inl ((div_eq_iff hunit.ne').mp hsame))
  · exact h.even (.inr ((div_eq_iff hunit.ne').mp htie))

/-- In units that are half as large, a number just below a power of two is rounded to twice its
    mantissa: so near to it the units are fine enough. -/
theorem roundedMantissa_eq_double (h : RoundsTo (2 ^ 52) e v) (hlarge : -1074 < e)
    (hbelow : v < 2 ^ 52 * 2 ^ e) (hem : Describes em (v / 2 ^ (e - 1))) :
    em.roundedMantissa = 2 ^ 53 := by
  have hunit : (0 : ℚ) < 2 ^ e := zpow_pos two_pos e
  have hgap : gapBelow (2 ^ 52) e = 1 / 4 := if_pos ⟨rfl, hlarge⟩
  have hlow := (le_div_iff₀ hunit).mpr h.low
  have hhigh := (div_lt_iff₀ hunit).mpr hbelow
  have hhalf : v / 2 ^ (e - 1) = 2 * (v / 2 ^ e) := by
    rw [zpow_sub_one₀ two_ne_zero]
    field_simp
  rw [hhalf] at hem
  rw [hgap] at hlow
  push_cast at hlow
  refine hem.roundedMantissa_eq ?_ ?_ fun _ => by decide
  all_goals
    push_cast
    linarith

end RoundsTo

/-- The second shift takes away the bits by which the first one was too short. -/
theorem roundWithAccuracy_finite (hpos : 0 < m) (hexp : E ≤ target M E)
    (hround : (ExtendedMantissa.ofMantissaAndAccuracy M acc >>>
      (target M E - E).toNat).roundedMantissa = m * 2 ^ n)
    (hfirst : target M E = e - n) (hsecond : target (m * 2 ^ n) (e - n) = e) :
    roundWithAccuracy .binary64 .positive M E acc = .finite .positive m e hpos := by
  have hmantissa : (ExtendedMantissa.ofMantissaAndAccuracy (m * 2 ^ n) .exact >>> n).mantissa =
      m := by
    have hm := (Describes.exact (m * 2 ^ n)).shiftRight n
    rw [Nat.cast_mul, Nat.cast_pow, Nat.cast_ofNat, mul_div_cancel_right₀ _ (by positivity)] at hm
    exact (Nat.cast_le.mp hm.low).antisymm (Nat.le_of_lt_succ (by exact_mod_cast hm.high))
  have hshift : shiftToTargetExponent .binary64 (m * 2 ^ n) (e - n) .exact =
      (ExtendedMantissa.ofMantissaAndAccuracy (m * 2 ^ n) .exact >>> n, e) := by
    rw [shiftToTargetExponent_eq (by omega), hsecond, sub_sub_cancel, Int.toNat_natCast]
  unfold roundWithAccuracy
  rw [shiftToTargetExponent_eq hexp]
  dsimp only
  rw [hround, hfirst, hshift]
  dsimp only
  rw [dif_neg (by rw [hmantissa]; exact hpos.ne')]
  congr 1

/-- **Rounding finds the float.**  What has a mantissa with bits enough, and says what was cut off,
    is rounded to the float whose interval holds the number. -/
theorem roundWithAccuracy_eq (hcan : Canonical m e) (h : RoundsTo m e v)
    (hM : Describes (.ofMantissaAndAccuracy M acc) (v / 2 ^ E)) (hexp : E ≤ target M E) :
    roundWithAccuracy .binary64 .positive M E acc = .finite .positive m e hcan.pos := by
  obtain ⟨hlow, hhigh⟩ := bounds_of_describes hM
  have hshift := describes_shift hM hexp
  -- One shift is enough, or rounding carries and a second one follows.
  rcases target_eq hcan h hlow hhigh hexp with htarget | ⟨htarget, rfl, hbelow⟩
  · refine roundWithAccuracy_finite (n := 0) hcan.pos hexp ?_ (by simpa using htarget) ?_
    · rw [pow_zero, mul_one]
      exact h.roundedMantissa_eq (htarget ▸ hshift)
    · simpa using hcan.target_eq
  · have hleast : -1074 ≤ target M E := le_max_right _ _
    refine roundWithAccuracy_finite (n := 1) hcan.pos hexp ?_ (by simpa using htarget) ?_
    · exact h.roundedMantissa_eq_double (by omega) hbelow (htarget ▸ hshift)
    · exact (target_carry (by omega)).trans (by omega)

/-! ## Products and quotients

Both operations start the procedure from a mantissa that describes the exact result: all bits of the
product, or the whole part of the quotient together with whether there is a rest. -/

variable {m₁ m₂ : ℕ} {e₁ e₂ : ℤ} {hpos₁ : 0 < m₁} {hpos₂ : 0 < m₂}

/-- A product that has bits enough is rounded from an exact number. -/
theorem describes_mul (hbits : 2 ^ 52 ≤ m₁ * m₂) : e₁ + e₂ ≤ target (m₁ * m₂) (e₁ + e₂) ∧
    Describes (.ofMantissaAndAccuracy (m₁ * m₂) .exact)
      ((m₁ * 2 ^ e₁ * (m₂ * 2 ^ e₂) : ℚ) / 2 ^ (e₁ + e₂)) := by
  have hpos : 0 < m₁ * m₂ := (Nat.two_pow_pos 52).trans_le hbits
  have hlog : 52 ≤ (m₁ * m₂).log2 := (Nat.le_log2 hpos.ne').mpr hbits
  have htarget : target (m₁ * m₂) (e₁ + e₂) =
      max ((m₁ * m₂).log2 + 1 + (e₁ + e₂) - 53) (-1074) := rfl
  have hvalue : (m₁ * 2 ^ e₁ * (m₂ * 2 ^ e₂) : ℚ) / 2 ^ (e₁ + e₂) = (m₁ * m₂ : ℕ) := by
    rw [zpow_add₀ two_ne_zero, div_eq_iff (by positivity)]
    push_cast
    ring
  exact ⟨by omega, hvalue ▸ Describes.exact (m₁ * m₂)⟩

/-- **A product is rounded once.** -/
theorem mul_eq (hcan : Canonical m e) (h : RoundsTo m e (m₁ * 2 ^ e₁ * (m₂ * 2 ^ e₂)))
    (hbits : 2 ^ 52 ≤ m₁ * m₂) :
    mul .binary64 (.finite .positive m₁ e₁ hpos₁) (.finite .positive m₂ e₂ hpos₂) =
      .finite .positive m e hcan.pos := by
  obtain ⟨hexp, hM⟩ := describes_mul hbits
  exact roundWithAccuracy_eq hcan h hM hexp

/-- The first mantissa is moved up until the whole part of the quotient has bits enough. -/
theorem divCore_eq (hpos₁ : 0 < m₁) (hpos₂ : 0 < m₂) : ∃ t : ℤ, ∃ n : ℕ,
    e₁ - e₂ = t + n ∧ t ≤ target (m₁ <<< n / m₂) t ∧ divCore .binary64 m₁ e₁ m₂ e₂ =
      (m₁ <<< n / m₂, t, accuracyOfFraction (m₁ <<< n % m₂) m₂) := by
  -- The exponent of the quotient is at most that of the difference, and at most the one that leaves
  -- enough bits.
  obtain ⟨t, ht⟩ : ∃ t : ℤ, t = min (e₁ - e₂)
      (max (m₁.log2 + 1 + e₁ - (m₂.log2 + 1 + e₂) - 53) (-1074)) := ⟨_, rfl⟩
  obtain ⟨n, hn⟩ : ∃ n : ℕ, n = (e₁ - e₂ - t).toNat := ⟨_, rfl⟩
  refine ⟨t, n, by omega, ?_, by rw [hn, ht]; rfl⟩
  rcases le_or_gt t (-1074) with hleast | hlarge
  · exact hleast.trans (le_max_right _ _)
  · have hbits : 2 ^ 52 ≤ m₁ <<< n / m₂ := by
      rw [Nat.le_div_iff_mul_le hpos₂, Nat.shiftLeft_eq]
      calc 2 ^ 52 * m₂ ≤ 2 ^ 52 * 2 ^ (m₂.log2 + 1) :=
            Nat.mul_le_mul_left _ Nat.lt_log2_self.le
        _ = 2 ^ (m₂.log2 + 53) := by ring
        _ ≤ 2 ^ (m₁.log2 + n) := Nat.pow_le_pow_right two_pos (by omega)
        _ = 2 ^ m₁.log2 * 2 ^ n := Nat.pow_add ..
        _ ≤ m₁ * 2 ^ n := Nat.mul_le_mul_right _ (Nat.log2_self_le hpos₁.ne')
    have hlog : 52 ≤ (m₁ <<< n / m₂).log2 :=
      (Nat.le_log2 (Nat.pos_of_ne_zero (by rintro h; omega)).ne').mpr hbits
    have htarget : target (m₁ <<< n / m₂) t = max ((m₁ <<< n / m₂).log2 + 1 + t - 53) (-1074) := rfl
    omega

/-- What is found so is rounded from the exact quotient. -/
theorem describes_divCore (hpos₁ : 0 < m₁) (hpos₂ : 0 < m₂) : ∃ M t acc,
    divCore .binary64 m₁ e₁ m₂ e₂ = (M, t, acc) ∧ t ≤ target M t ∧
      Describes (.ofMantissaAndAccuracy M acc) ((m₁ * 2 ^ e₁ / (m₂ * 2 ^ e₂) : ℚ) / 2 ^ t) := by
  obtain ⟨t, n, hexp, hle, hcore⟩ := @divCore_eq m₁ m₂ e₁ e₂ hpos₁ hpos₂
  have hvalue : (m₁ * 2 ^ e₁ / (m₂ * 2 ^ e₂) : ℚ) / 2 ^ t = (m₁ <<< n : ℕ) / m₂ := by
    have he : e₁ = e₂ + t + n := by omega
    have hm : (m₂ : ℚ) ≠ 0 := by exact_mod_cast hpos₂.ne'
    rw [he, zpow_add₀ two_ne_zero, zpow_add₀ two_ne_zero, zpow_natCast, Nat.shiftLeft_eq]
    push_cast
    field_simp
  exact ⟨_, t, _, hcore, hle, hvalue ▸ Describes.fraction (m₁ <<< n) hpos₂⟩

/-- **A quotient is rounded once.** -/
theorem div_eq (hcan : Canonical m e) (h : RoundsTo m e (m₁ * 2 ^ e₁ / (m₂ * 2 ^ e₂))) :
    div .binary64 (.finite .positive m₁ e₁ hpos₁) (.finite .positive m₂ e₂ hpos₂) =
      .finite .positive m e hcan.pos := by
  obtain ⟨M, t, acc, hcore, hle, hM⟩ := @describes_divCore m₁ m₂ e₁ e₂ hpos₁ hpos₂
  show (let (m, e, acc) := divCore .binary64 m₁ e₁ m₂ e₂
    roundWithAccuracy .binary64 .positive m e acc) = _
  rw [hcore]
  exact roundWithAccuracy_eq hcan h hM hle

/-! ## Whole numbers

A whole number starts the procedure with nothing cut off.  If it has at most fifty-three bits,
nothing is cut off later either. -/

/-- A mantissa that is moved up keeps its target. -/
theorem target_shiftLeft (hpos : 0 < n) (k : ℕ) : target (n <<< k) (E - k) = target n E := by
  -- Each place that is moved adds a bit.
  have hlog : (n <<< k).log2 = n.log2 + k := by
    induction k with
    | zero => rfl
    | succ k ih =>
      have hne : n <<< k ≠ 0 := by simpa [Nat.shiftLeft_eq] using hpos.ne'
      rw [Nat.shiftLeft_succ, Nat.log2_two_mul hne, ih, add_assoc]
  unfold target
  rw [hlog]
  push_cast
  congr 1
  ring

/-- **An exact number is rounded once.** -/
theorem round_eq (hcan : Canonical m e) (hpos : 0 < n) (h : RoundsTo m e (n * 2 ^ E)) :
    UnpackedFloat.round .binary64 .positive n E = .finite .positive m e hcan.pos := by
  obtain ⟨k, hk⟩ : ∃ k : ℕ, k = (E - target n E).toNat := ⟨_, rfl⟩
  have hvalue : (n * 2 ^ E : ℚ) / 2 ^ (E - k) = (n <<< k : ℕ) := by
    rw [zpow_sub₀ two_ne_zero, zpow_natCast, Nat.shiftLeft_eq]
    push_cast
    field_simp
  show roundWithAccuracy .binary64 .positive (n <<< (E - target n E).toNat)
    (E - (E - target n E).toNat) .exact = _
  rw [← hk]
  refine roundWithAccuracy_eq hcan h (hvalue ▸ Describes.exact _) ?_
  rw [target_shiftLeft hpos]
  omega

/-- A float is nearest to itself. -/
theorem RoundsTo.self (m : ℕ) (e : ℤ) : RoundsTo m e (m * 2 ^ e) := by
  have hunit : (0 : ℚ) < 2 ^ e := zpow_pos two_pos e
  have hgap := gapBelow_pos m e
  have hlow : (m - gapBelow m e) * 2 ^ e < m * 2 ^ e := by gcongr; linarith
  have hhigh : (m : ℚ) * 2 ^ e < (m + 1 / 2) * 2 ^ e := by gcongr; linarith
  exact ⟨hlow.le, hhigh.le, fun h => by rcases h with h | h <;> linarith⟩

/-- Mantissa and exponent are determined by their number. -/
theorem Canonical.unique (h₁ : Canonical m₁ e₁) (h₂ : Canonical m₂ e₂)
    (hvalue : (m₁ * 2 ^ e₁ : ℚ) = m₂ * 2 ^ e₂) : m₁ = m₂ ∧ e₁ = e₂ := by
  -- Both are what the one number is rounded to.
  have hfirst := round_eq h₁ h₁.pos (RoundsTo.self m₁ e₁)
  have hsecond := round_eq h₂ h₁.pos (hvalue ▸ RoundsTo.self m₂ e₂)
  exact (UnpackedFloat.finite.inj (hfirst.symm.trans hsecond)).2

/-- A whole number of at most fifty-three bits is a float. -/
theorem canonical_natCast (hpos : 0 < n) (hn : n < 2 ^ 53) : ∃ (m : ℕ) (e : ℤ),
    Canonical m e ∧ 2 ^ 52 ≤ m ∧ (m * 2 ^ e : ℚ) = n := by
  have hlog : n.log2 < 53 := (Nat.log2_lt hpos.ne').mpr hn
  obtain ⟨k, hk⟩ : ∃ k : ℕ, n.log2 + k = 52 := ⟨52 - n.log2, by omega⟩
  -- The number is moved up until it has fifty-three bits.
  have hlow : 2 ^ 52 ≤ n * 2 ^ k := by
    rw [← hk, pow_add]
    exact Nat.mul_le_mul_right _ (Nat.log2_self_le hpos.ne')
  have hhigh : n * 2 ^ k < 2 ^ 53 := by
    have hsplit : 2 ^ 53 = 2 ^ (n.log2 + 1) * 2 ^ k := by
      rw [← pow_add]
      congr 1
      omega
    rw [hsplit]
    exact Nat.mul_lt_mul_of_pos_right Nat.lt_log2_self (Nat.two_pow_pos k)
  refine ⟨n * 2 ^ k, -k, ⟨Nat.mul_pos hpos (Nat.two_pow_pos k), hhigh, .inl hlow, by omega,
    by omega⟩, hlow, ?_⟩
  rw [zpow_neg, zpow_natCast]
  push_cast
  field_simp

/-! ## Limits

There is a least float and a greatest one.  So the numbers that round to a float cannot be
arbitrarily small, nor arbitrarily large. -/

/-- What is rounded to a float is not too small. -/
theorem RoundsTo.lower (hcan : Canonical m e) (h : RoundsTo m e v) : 2 ^ (-1075 : ℤ) ≤ v := by
  have hm : (1 : ℚ) ≤ m := by exact_mod_cast hcan.pos
  have hgap := gapBelow_le m e
  have hunit : (2 : ℚ) ^ (-1074 : ℤ) ≤ 2 ^ e := zpow_le_zpow_right₀ one_le_two hcan.least
  calc (2 : ℚ) ^ (-1075 : ℤ) = 1 / 2 * 2 ^ (-1074 : ℤ) := by
        rw [show (-1075 : ℤ) = -1074 - 1 from rfl, zpow_sub_one₀ two_ne_zero]
        ring
    _ ≤ (m - gapBelow m e) * 2 ^ e :=
        mul_le_mul (by linarith) hunit (by positivity) (by linarith)
    _ ≤ v := h.low

/-- What is rounded to a float is not too large. -/
theorem RoundsTo.upper (hcan : Canonical m e) (h : RoundsTo m e v) : v < 2 ^ (1024 : ℤ) := by
  have hm : (m : ℚ) + 1 ≤ 2 ^ 53 := by exact_mod_cast hcan.bits
  have hunit : (2 : ℚ) ^ e ≤ 2 ^ (971 : ℤ) := zpow_le_zpow_right₀ one_le_two hcan.greatest
  calc v ≤ (m + 1 / 2) * 2 ^ e := h.high
    _ < 2 ^ (53 : ℕ) * 2 ^ e := mul_lt_mul_of_pos_right (by linarith) (zpow_pos two_pos e)
    _ ≤ 2 ^ (53 : ℕ) * 2 ^ (971 : ℤ) := mul_le_mul_of_nonneg_left hunit (by norm_num)
    _ = 2 ^ (1024 : ℤ) := by
        rw [← zpow_natCast, ← zpow_add₀ two_ne_zero]
        rfl

end SeriesQuery.Binary64
