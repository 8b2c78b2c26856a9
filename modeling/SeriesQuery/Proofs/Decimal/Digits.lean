/-
  Lists of digits and the numbers that they write.

  `Decimal.ofDigits` reads a list of digits from the front, ten times what it has so far plus the
  next digit.  So the digits of a list behind another one are worth what they are worth alone, and
  those of the first one a power of ten more (`ofDigits_append`); zeros in front change nothing and
  zeros behind multiply by ten.  `Nat.toDigits` writes the digits back.
-/
import Mathlib.Data.Nat.Basic
import Mathlib.Tactic.Ring
import SeriesQuery.Decimal.Format
import SeriesQuery.Decimal.Reader
import SeriesQuery.Text.Blank

namespace SeriesQuery.Decimal

variable {ds es : List Char} {n : Nat}

/-! ## The number of a list -/

/-- **The digits behind count for what they are, those in front a power of ten more.** -/
theorem ofDigits_append (ds es : List Char) :
    ofDigits (ds ++ es) = ofDigits ds * 10 ^ es.length + ofDigits es := by
  -- reading goes on behind the first list from what that one is worth
  have h : ofDigits (ds ++ es) = Nat.ofDigitChars 10 es (ofDigits ds) := Nat.ofDigitChars_append 0
  rw [h, Nat.ofDigitChars_eq_ofDigitChars_zero, Nat.mul_comm]
  rfl

/-- Zeros alone write zero. -/
theorem ofDigits_zeros (n : Nat) : ofDigits (zeros n) = 0 :=
  Nat.ofDigitChars_replicate_zero

/-- A row of zeros has as many of them as asked for. -/
theorem length_zeros (n : Nat) : (zeros n).length = n := List.length_replicate

/-- The digits of a number write that number. -/
theorem ofDigits_toDigits (n : Nat) : ofDigits (Nat.toDigits 10 n) = n :=
  Nat.ofDigitChars_ten_toDigits

/-- Zeros in front count for nothing. -/
theorem ofDigits_zeros_append (k : Nat) (ds : List Char) :
    ofDigits (zeros k ++ ds) = ofDigits ds := by
  rw [ofDigits_append, ofDigits_zeros, Nat.zero_mul, Nat.zero_add]

/-- Each zero behind is a factor of ten. -/
theorem ofDigits_append_zeros (ds : List Char) (k : Nat) :
    ofDigits (ds ++ zeros k) = ofDigits ds * 10 ^ k := by
  rw [ofDigits_append, ofDigits_zeros, length_zeros, Nat.add_zero]

/-! ## Digits among characters -/

/-- Zeros are digits. -/
theorem isDigit_of_mem_zeros {c : Char} (h : c ∈ zeros n) : c.isDigit = true := by
  rw [List.eq_of_mem_replicate h]
  rfl

/-- A number is written in digits. -/
theorem isDigit_of_mem_toDigits {c : Char} (h : c ∈ Nat.toDigits 10 n) : c.isDigit = true :=
  Nat.isDigit_of_mem_toDigits (by decide) (by decide) h

/-- The code points of the ten digits. -/
theorem isDigit_iff {c : Char} : c.isDigit = true ↔ 48 ≤ c.toNat ∧ c.toNat ≤ 57 := by
  rw [Char.isDigit, Bool.and_eq_true, decide_eq_true_eq, decide_eq_true_eq]
  exact Iff.rfl

/-- No digit is blank, so there is nothing to trim off them. -/
theorem isBlank_of_isDigit {c : Char} (h : c.isDigit = true) : Text.isBlank c = false := by
  obtain ⟨hlow, hhigh⟩ := isDigit_iff.mp h
  -- no range of blanks meets the code points of the digits
  simp only [Text.isBlank, Text.blankRanges, List.any_cons, List.any_nil, Bool.or_false,
    Bool.or_eq_false_iff, Bool.and_eq_false_iff, decide_eq_false_iff_not]
  omega

/-- Digits have no case. -/
theorem toLower_of_isDigit {c : Char} (h : c.isDigit = true) : c.toLower = c := by
  obtain ⟨-, hhigh⟩ := isDigit_iff.mp h
  refine dif_neg fun hupper => ?_
  -- capitals come after the digits
  have hlow : 65 ≤ c.toNat := hupper.1
  omega

/-- Digits with something else behind them are taken as far as they go. -/
theorem span_isDigit (hds : ∀ c ∈ ds, c.isDigit = true)
    (hrest : ∀ c, es.head? = some c → c.isDigit = false) :
    (ds ++ es).takeWhile Char.isDigit = ds ∧ (ds ++ es).dropWhile Char.isDigit = es := by
  rw [List.takeWhile_append_of_pos hds, List.dropWhile_append_of_pos hds]
  cases es with
  | nil => exact ⟨List.append_nil _, rfl⟩
  | cons c rest =>
    have hc : ¬ c.isDigit = true := by
      rw [hrest c rfl]
      decide
    rw [List.takeWhile_cons_of_neg hc, List.dropWhile_cons_of_neg hc, List.append_nil]
    exact ⟨rfl, rfl⟩

/-- A row of digits that is not empty is read as its number. -/
theorem natural?_eq_some (hne : ds ≠ []) (hds : ∀ c ∈ ds, c.isDigit = true) :
    natural? ds = some (ofDigits ds) :=
  if_pos ⟨hne, List.all_eq_true.mpr hds⟩

/-- What is written of a number is read as it. -/
theorem natural?_toDigits (n : Nat) : natural? (Nat.toDigits 10 n) = some n := by
  rw [natural?_eq_some Nat.toDigits_ne_nil fun c => isDigit_of_mem_toDigits, ofDigits_toDigits]

end SeriesQuery.Decimal
