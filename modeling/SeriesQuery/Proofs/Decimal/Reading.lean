/-
  Digits are read as the nearest float.

  `nearest` rounds correctly (`unpacks_nearest`): the decimal numbers of a float's interval all have
  their first digit within the limits that it checks beforehand.  What is left of reading are the
  characters, and those of digits with at most one point among them are counted once.
-/
import SeriesQuery.Proofs.Decimal.Digits
import SeriesQuery.Proofs.Decimal.Scientific

namespace SeriesQuery.Decimal

open Binary64 (Canonical RoundsTo Unpacks)

variable {m n : ℕ} {e power : ℤ} {ds es : List Char}

/-- A positive number by the place of its first digit. -/
theorem bounds_of_first (hpos : 0 < n) (power : ℤ) :
    (10 : ℚ) ^ ((Nat.toDigits 10 n).length + power - 1) ≤ n * 10 ^ power ∧
      (n * 10 ^ power : ℚ) < 10 ^ ((Nat.toDigits 10 n).length + power) := by
  -- with `k + 1` digits, a number is at least `10 ^ k` and below `10 ^ (k + 1)`
  obtain ⟨k, hk⟩ : ∃ k, (Nat.toDigits 10 n).length = k + 1 :=
    ⟨_, (Nat.succ_pred_eq_of_pos Nat.length_toDigits_pos).symm⟩
  have hhigh : n < 10 ^ (k + 1) :=
    (Nat.length_toDigits_le_iff (by decide) (Nat.succ_pos k)).mp hk.le
  have hlow : 10 ^ k ≤ n := by
    by_contra hlt
    rcases Nat.eq_zero_or_pos k with rfl | hk'
    · exact hlt hpos
    · have := (Nat.length_toDigits_le_iff (by decide) hk').mpr (not_le.mp hlt)
      omega
  have hten : (0 : ℚ) < 10 ^ power := by positivity
  have hexp : ((k + 1 : ℕ) : ℤ) + power - 1 = k + power := by push_cast; ring
  rw [hk, hexp, zpow_add₀ (by norm_num), zpow_add₀ (by norm_num), zpow_natCast, zpow_natCast]
  exact ⟨mul_le_mul_of_nonneg_right (by exact_mod_cast hlow) hten.le,
    mul_lt_mul_of_pos_right (by exact_mod_cast hhigh) hten⟩

/-- Ten decimal digits are more than thirty-three bits. -/
theorem two_pow_le_ten_pow (k : ℕ) : (2 : ℚ) ^ (33 * k) ≤ 10 ^ (10 * k) := by
  rw [pow_mul, pow_mul]
  gcongr
  norm_num

/-- **`nearest` is the nearest float.** -/
theorem unpacks_nearest (hcan : Canonical m e) (hpos : 0 < n) (h : RoundsTo m e (n * 10 ^ power)) :
    Unpacks (nearest n power) m e := by
  obtain ⟨hlow, hhigh⟩ := bounds_of_first hpos power
  -- Further down, the number would be below half of the least float, which nothing rounds to.
  have hsmall : -330 ≤ (Nat.toDigits 10 n).length + power := by
    by_contra hlt
    refine (h.lower hcan).not_gt (hhigh.trans_le ?_)
    calc (10 : ℚ) ^ ((Nat.toDigits 10 n).length + power) ≤ 10 ^ (-(10 * 33 : ℕ) : ℤ) :=
          zpow_le_zpow_right₀ (by norm_num) (by omega)
      _ ≤ 2 ^ (-(33 * 33 : ℕ) : ℤ) := by
          rw [zpow_neg, zpow_neg, zpow_natCast, zpow_natCast]
          exact inv_anti₀ (by positivity) (two_pow_le_ten_pow 33)
      _ ≤ 2 ^ (-1075 : ℤ) := zpow_le_zpow_right₀ one_le_two (by omega)
  -- Further up, it would be beyond the greatest float, and be read as infinity.
  have hlarge : (Nat.toDigits 10 n).length + power ≤ 320 := by
    by_contra hlt
    refine (h.upper hcan).not_ge (le_trans ?_ hlow)
    calc (2 : ℚ) ^ (1024 : ℤ) ≤ 2 ^ ((33 * 32 : ℕ) : ℤ) :=
          zpow_le_zpow_right₀ one_le_two (by omega)
      _ ≤ 10 ^ ((10 * 32 : ℕ) : ℤ) := by
          rw [zpow_natCast, zpow_natCast]
          exact two_pow_le_ten_pow 32
      _ ≤ 10 ^ ((Nat.toDigits 10 n).length + power - 1) :=
          zpow_le_zpow_right₀ (by norm_num) (by omega)
  -- `ofScientific` takes the power as a sign and a size.
  have hpower : (if decide (power < 0) then -power.natAbs else power.natAbs : ℤ) = power := by
    rcases lt_or_ge power 0 with hneg | hnonneg
    · rw [if_pos (decide_eq_true hneg)]
      omega
    · rw [if_neg (by simpa using hnonneg)]
      omega
  unfold nearest
  dsimp only
  rw [if_neg (by omega), if_neg (by omega)]
  exact Binary64.unpacks_ofScientific hcan hpos (hpower.symm ▸ h)

/-- The nearest float has no sign. -/
theorem sign_nearest {sign : Bool} (h : Binary64.ofFloat (nearest n power) = .finite sign m e) :
    sign = false := by
  have hzero : Binary64.ofFloat 0.0 = .finite false 0 (-1074) := by decide +kernel
  have hinfinity : Binary64.ofFloat Binary64.infinity = .infinite false := by decide +kernel
  unfold nearest at h
  dsimp only at h
  split at h
  case isTrue =>
    rw [hzero] at h
    exact (Binary64.finite.inj h).1.symm
  case isFalse hfar =>
    split at h
    · rw [hinfinity] at h
      cases h
    · exact Binary64.sign_ofScientific (Nat.pos_of_ne_zero fun hzero => hfar (.inl hzero)) h

/-- A number without a sign is read as the nearest float. -/
theorem nearest_of_unsigned? {cs : List Char} {x : Float} (h : unsigned? cs = some x) :
    ∃ (n : ℕ) (power : ℤ), x = nearest n power := by
  unfold unsigned? at h
  dsimp only at h
  -- with a point and without
  split at h
  all_goals
    split at h
    · cases h
    · obtain ⟨power, -, rfl⟩ := Option.map_eq_some_iff.mp h
      exact ⟨_, _, rfl⟩

/-- Nothing that starts with a digit has a sign or is a word. -/
theorem float?_cons {c : Char} (hc : c.isDigit = true) (cs : List Char) :
    float? (c :: cs) = unsigned? (c :: cs) := by
  -- A word starts with a letter, and lower case leaves digits alone.
  have hword : word? (c :: cs) = none := by
    have hfirst : ∀ w : String, (w.toList.head?).any Char.isDigit = false →
        String.ofList ((c :: cs).map Char.toLower) ≠ w := by
      rintro w hw rfl
      rw [String.toList_ofList, List.map_cons, toLower_of_isDigit hc] at hw
      exact absurd (hw.symm.trans hc) (by decide)
    unfold word?
    split
    · next heq => exact absurd heq (hfirst _ rfl)
    · next heq => exact absurd heq (hfirst _ rfl)
    · next heq => exact absurd heq (hfirst _ rfl)
    · rfl
  unfold float?
  split
  · next heq =>
    obtain ⟨rfl, -⟩ := List.cons.inj heq
    cases hc
  · next heq =>
    obtain ⟨rfl, -⟩ := List.cons.inj heq
    cases hc
  · rw [hword, Option.none_or]

/-- **Digits with a point among them** are the digits without it, and a power of ten. -/
theorem float?_point (hne : ds ≠ []) (hds : ∀ c ∈ ds, c.isDigit = true)
    (hes : ∀ c ∈ es, c.isDigit = true) :
    float? (ds ++ '.' :: es) = some (nearest (ofDigits (ds ++ es)) (-es.length)) := by
  obtain ⟨c, cs, rfl⟩ := List.exists_cons_of_ne_nil hne
  -- The digits before the point end at the point, those after it at the end of the text.
  obtain ⟨htake, hdrop⟩ := @span_isDigit (c :: cs) ('.' :: es) hds (by rintro _ ⟨⟩; rfl)
  obtain ⟨htake', hdrop'⟩ := @span_isDigit es [] hes (by rintro _ ⟨⟩)
  rw [List.append_nil] at htake' hdrop'
  rw [List.cons_append, float?_cons (hds c List.mem_cons_self), ← List.cons_append]
  unfold unsigned?
  simp only [htake, hdrop, htake', hdrop']
  rw [if_neg (fun h => hne h.1)]
  simp [exponent?]

/-- Digits without a point are read as the whole number that they write. -/
theorem float?_digits (hne : ds ≠ []) (hds : ∀ c ∈ ds, c.isDigit = true) :
    float? ds = some (nearest (ofDigits ds) 0) := by
  obtain ⟨c, cs, rfl⟩ := List.exists_cons_of_ne_nil hne
  obtain ⟨htake, hdrop⟩ := @span_isDigit (c :: cs) [] hds (by rintro _ ⟨⟩)
  rw [List.append_nil] at htake hdrop
  rw [float?_cons (hds c List.mem_cons_self)]
  unfold unsigned?
  dsimp only
  rw [htake, hdrop]
  dsimp only
  rw [if_neg (fun h => hne h.1), List.append_nil]
  rfl

end SeriesQuery.Decimal
