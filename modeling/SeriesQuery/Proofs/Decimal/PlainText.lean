/-
  The plain text of a float is read back.

  Floats without a sign are written as digits with at most one point among them, in one of three
  ways that differ in where the point is: behind all digits, among them, or in front.  Each way
  writes the shortest digits times their power of ten, which round to the float, and reading rounds
  correctly.
-/
import SeriesQuery.Decimal.Format
import SeriesQuery.Proofs.Decimal.Shortest
import SeriesQuery.Summary.Basic

namespace SeriesQuery.Decimal

open Binary64 (Canonical RoundsTo Unpacks)
open Summary (isDecimal)

variable {x y : Float} {m n c : ℕ} {e power : ℤ} {ds es cs : List Char}

/-! ## Digits with at most one point -/

/-- A text of digits with at most one point, that writes `n · 10 ^ power`. -/
structure Writes (cs : List Char) (n : ℕ) (power : ℤ) : Prop where
  decimal : isDecimal cs = true
  read : float? cs = some (nearest n power)

/-- Digits alone write a whole number. -/
theorem writes_digits (hne : ds ≠ []) (hds : ∀ c ∈ ds, c.isDigit = true) :
    Writes ds (ofDigits ds) 0 := by
  refine ⟨?_, float?_digits hne hds⟩
  -- The digits are taken up to the end of the text, and nothing is left.
  obtain ⟨htake, hdrop⟩ := @span_isDigit ds [] hds (by rintro _ ⟨⟩)
  rw [List.append_nil] at htake hdrop
  unfold isDecimal
  rw [htake, hdrop, List.isEmpty_eq_false_iff.mpr hne]
  rfl

/-- Digits with a point among them write a decimal fraction: each digit behind the point divides by
    ten. -/
theorem writes_point (hne : ds ≠ []) (hds : ∀ c ∈ ds, c.isDigit = true) (hne' : es ≠ [])
    (hes : ∀ c ∈ es, c.isDigit = true) :
    Writes (ds ++ '.' :: es) (ofDigits (ds ++ es)) (-es.length) := by
  refine ⟨?_, float?_point hne hds hes⟩
  -- The digits are taken up to the point, and more of them are left behind it.
  obtain ⟨htake, hdrop⟩ := @span_isDigit ds ('.' :: es) hds (by rintro _ ⟨⟩; rfl)
  unfold isDecimal
  rw [htake, hdrop, List.isEmpty_eq_false_iff.mpr hne]
  show (true && (('.' == '.') && !es.isEmpty && es.all Char.isDigit)) = true
  rw [List.isEmpty_eq_false_iff.mpr hne', List.all_eq_true.mpr hes]
  rfl

/-- Wherever the point goes, the digits keep their value. -/
theorem writes_positionalText (c : ℕ) (power : ℤ) : ∃ (n : ℕ) (p : ℤ),
    Writes (positionalText .plain (Nat.toDigits 10 c) power) n p ∧
      (n * 10 ^ p : ℚ) = c * 10 ^ power := by
  -- All characters that are put together are digits, the zeros that fill up included.
  have hdigits : ∀ d ∈ Nat.toDigits 10 c, d.isDigit = true := fun d => isDigit_of_mem_toDigits
  have hzeros : ∀ {k}, ∀ d ∈ zeros k, d.isDigit = true := fun d => isDigit_of_mem_zeros
  have hne : Nat.toDigits 10 c ≠ [] := Nat.toDigits_ne_nil
  have hvalue := ofDigits_toDigits c
  generalize Nat.toDigits 10 c = ds at hdigits hne hvalue
  unfold positionalText
  dsimp only
  split
  case isTrue hnonneg =>
    -- behind all digits, where nothing is written
    obtain ⟨k, rfl⟩ := Int.eq_ofNat_of_zero_le hnonneg
    have htext : ds ++ zeros (k : ℤ).toNat ++ Style.plain.wholeSuffix.toList = ds ++ zeros k :=
      List.append_nil _
    rw [htext]
    refine ⟨_, _, writes_digits (List.append_ne_nil_of_left_ne_nil hne _)
      (List.forall_mem_append.mpr ⟨hdigits, hzeros⟩), ?_⟩
    rw [ofDigits_append_zeros, hvalue]
    push_cast
    rw [mul_one, zpow_natCast]
  case isFalse hneg =>
    split
    case isTrue hpoint =>
      -- among the digits
      obtain ⟨k, hk⟩ : ∃ k : ℕ, (k : ℤ) = ds.length + power :=
        ⟨_, Int.toNat_of_nonneg hpoint.le⟩
      rw [← hk, Int.toNat_natCast]
      have hsplit : ds.take k ++ ds.drop k = ds := List.take_append_drop k ds
      have hpower : (-(ds.drop k).length : ℤ) = power := by
        rw [List.length_drop]
        omega
      refine ⟨_, _, writes_point ?_ ?_ ?_ ?_, ?_⟩
      · rw [ne_eq, List.take_eq_nil_iff]
        rintro (hzero | hnil)
        · omega
        · exact hne hnil
      · exact fun d hd => hdigits d (List.mem_of_mem_take hd)
      · rw [ne_eq, List.drop_eq_nil_iff]
        omega
      · exact fun d hd => hdigits d (List.mem_of_mem_drop hd)
      · rw [hsplit, hvalue, hpower]
    case isFalse hpoint =>
      -- in front, with zeros for the places between
      obtain ⟨k, hk⟩ : ∃ k : ℕ, (k : ℤ) = -(ds.length + power) :=
        ⟨_, Int.toNat_of_nonneg (by omega)⟩
      rw [← hk, Int.toNat_natCast]
      have hpower : (-(zeros k ++ ds).length : ℤ) = power := by
        rw [List.length_append, length_zeros]
        omega
      refine ⟨_, _, @writes_point (zeros 1) (zeros k ++ ds) (List.cons_ne_nil _ _) hzeros
        (List.append_ne_nil_of_right_ne_nil _ hne)
        (List.forall_mem_append.mpr ⟨hzeros, hdigits⟩), ?_⟩
      rw [ofDigits_zeros_append, ofDigits_zeros_append, hvalue, hpower]

/-! ## Floats -/

/-- **The plain text of a float is read back**, bit for bit. -/
theorem plain_read (h : Binary64.ofFloat x = .finite false m e) :
    isDecimal (plain x).toList = true ∧ float? (plain x).toList = some x := by
  have htext : (plain x).toList = magnitudeText .plain m e := by
    show (Style.plain.render x).toList = _
    unfold Style.render
    rw [h]
    exact String.toList_ofList
  rw [htext]
  rcases Nat.eq_zero_or_pos m with rfl | hpos
  · -- there is one zero without a sign
    have hzero : Binary64.ofFloat 0.0 = .finite false 0 (-1074) := by decide +kernel
    obtain rfl : x = 0.0 := Binary64.eq_of_ofFloat_zero h hzero
    exact ⟨rfl, rfl⟩
  · have hx := Binary64.unpacks_of_ofFloat h hpos
    have htext : magnitudeText .plain m e = positionalText .plain
        (Nat.toDigits 10 (shortest .away m e).coefficient) (shortest .away m e).power := by
      unfold magnitudeText
      rw [if_neg hpos.ne']
      rfl
    obtain ⟨n, p, hwrites, hvalue⟩ := writes_positionalText (shortest .away m e).coefficient
      (shortest .away m e).power
    have hround : RoundsTo m e (n * 10 ^ p) := hvalue ▸ roundsTo_shortest hx.toCanonical .away
    -- A number in the interval of a positive float is not zero.
    have hn : 0 < n := by
      refine Nat.pos_of_ne_zero fun hzero => ?_
      have hlower := hround.lower hx.toCanonical
      rw [hzero, Nat.cast_zero, zero_mul] at hlower
      exact absurd hlower (not_le.mpr (zpow_pos two_pos _))
    rw [htext]
    refine ⟨hwrites.decimal, hwrites.read.trans (congrArg some ?_)⟩
    exact (unpacks_nearest hx.toCanonical hn hround).unique hx

/-- Digits write a float without a sign. -/
theorem sign_of_isDecimal {sign : Bool} (hdecimal : isDecimal cs = true)
    (hread : float? cs = some x) (h : Binary64.ofFloat x = .finite sign m e) : sign = false := by
  -- A text that starts with a digit is read without a sign.
  have hnearest : ∃ (n : ℕ) (p : ℤ), x = nearest n p := by
    rw [isDecimal, Bool.and_eq_true, Bool.not_eq_true', List.isEmpty_eq_false_iff] at hdecimal
    obtain ⟨hne, -⟩ := hdecimal
    cases cs with
    | nil => exact absurd rfl hne
    | cons c cs =>
      have hc : c.isDigit = true := by
        by_contra hc
        exact hne (List.takeWhile_cons_of_neg hc)
      rw [float?_cons hc] at hread
      exact nearest_of_unsigned? hread
  obtain ⟨n, p, rfl⟩ := hnearest
  exact sign_nearest h

end SeriesQuery.Decimal
