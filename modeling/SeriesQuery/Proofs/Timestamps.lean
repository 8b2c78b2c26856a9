/-
  Counts of sixty-four bits.

  An integer is the value of a count exactly if it is in the range (`Fits`).  A checked operation is
  the exact one followed by a test of the range.  Where the test is passed, the plain operation,
  which wraps around, gives the same count (`eq_of_timestamp?`).

  The quotient that is rounded down is made of three such operations.  With each of them checked
  it is found for all positive divisors (`floorQuotient?_eq_some`), so that none of them wraps
  around.
-/
import SeriesQuery.Buckets

namespace SeriesQuery

/-! ## The range of a count -/

/-- A count is found exactly for the value that it has. -/
theorem timestamp?_eq_some_iff {n : Int} {t : Timestamp} : timestamp? n = some t ↔ t.toInt = n := by
  constructor
  · exact toInt_of_timestamp?
  · rintro rfl
    exact timestamp?_toInt t

/-- Whether sixty-four signed bits hold an integer. -/
def Fits (n : Int) : Prop := Int64.minValue.toInt ≤ n ∧ n ≤ Int64.maxValue.toInt

instance (n : Int) : Decidable (Fits n) := inferInstanceAs (Decidable (_ ∧ _))

/-- The value of a count fits, being one. -/
theorem fits_toInt (t : Timestamp) : Fits t.toInt := ⟨t.le_toInt, t.toInt_le⟩

/-- What fits is found. -/
theorem timestamp?_of_fits {n : Int} (h : Fits n) : timestamp? n = some (Int64.ofInt n) := if_pos h

/-- Only integers that fit are instants. -/
theorem fits_of_timestamp? {n : Int} {t : Timestamp} (h : timestamp? n = some t) : Fits n :=
  toInt_of_timestamp? h ▸ fits_toInt t

/-- An integer that fits is not changed by being made a count. -/
theorem toInt_ofInt_of_fits {n : Int} (h : Fits n) : (Int64.ofInt n).toInt = n :=
  Int64.toInt_ofInt_of_le h.1 (Int.lt_add_one_of_le h.2)

/-- A quotient is not larger in size than what is divided. -/
theorem fits_ediv {n width : Int} (hwidth : 0 < width) (h : Fits n) : Fits (n / width) := by
  obtain ⟨hlow, hhigh⟩ := h
  have hsize : (n / width).natAbs ≤ n.natAbs := Int.natAbs_ediv_le_natAbs n width
  -- the sign of a quotient by a positive number is that of what is divided
  rcases Int.lt_or_le n 0 with hneg | hpos
  · have hquotient : n / width < 0 := Int.ediv_neg_of_neg_of_pos hneg hwidth
    have hmax : 0 ≤ Int64.maxValue.toInt := by decide
    exact ⟨by omega, by omega⟩
  · have hquotient : 0 ≤ n / width := Int.ediv_nonneg hpos (Int.le_of_lt hwidth)
    have hmin : Int64.minValue.toInt ≤ 0 := by decide
    exact ⟨by omega, by omega⟩

/-! ## Checked operations -/

section Checked

variable {a b c : Int64}

/-- An operation that wraps the exact result around gives this very result if it fits. -/
theorem eq_of_timestamp? {exact : Int → Int → Int} {op : Int64 → Int64 → Int64}
    (hop : ∀ x y, Fits x → Fits y → Int64.ofInt (exact x y) = op (.ofInt x) (.ofInt y))
    (h : timestamp? (exact a.toInt b.toInt) = some c) : op a b = c := by
  -- the operation is the exact one, made a count; and what fits is not changed by that
  have hwrap := hop a.toInt b.toInt (fits_toInt a) (fits_toInt b)
  rw [Int64.ofInt_toInt, Int64.ofInt_toInt] at hwrap
  rw [← hwrap, ← toInt_of_timestamp? h, Int64.ofInt_toInt]

/-- A sum that passes the test of the range is the wrapping sum. -/
theorem add_eq_of_timestamp? : timestamp? (a.toInt + b.toInt) = some c → a + b = c :=
  eq_of_timestamp? fun x y _ _ => Int64.ofInt_add x y

/-- A difference that passes the test of the range is the wrapping difference. -/
theorem sub_eq_of_timestamp? : timestamp? (a.toInt - b.toInt) = some c → a - b = c :=
  eq_of_timestamp? fun x y _ _ => Int64.ofInt_sub x y

/-- A product that passes the test of the range is the wrapping product. -/
theorem mul_eq_of_timestamp? : timestamp? (a.toInt * b.toInt) = some c → a * b = c :=
  eq_of_timestamp? fun x y _ _ => Int64.ofInt_mul x y

/-- A quotient that passes the test of the range, cut towards zero, is the wrapping one.  Only the
    quotient of the least count by minus one does not pass. -/
theorem div_eq_of_timestamp? : timestamp? (a.toInt.tdiv b.toInt) = some c → a / b = c :=
  eq_of_timestamp? fun _ _ hx hy => Int64.ofInt_tdiv hx.1 hx.2 hy.1 hy.2

/-- A remainder, with the sign of what is divided, is the wrapping one. -/
theorem mod_eq_of_timestamp? : timestamp? (a.toInt.tmod b.toInt) = some c → a % b = c :=
  eq_of_timestamp? fun _ _ hx hy => Int64.ofInt_tmod hx.1 hx.2 hy.1 hy.2

end Checked

/-! ## Quotients rounded down -/

/-- The quotient rounded down, every step of it checked: it is cut towards zero first, and corrected
    if that was upwards. -/
def floorQuotient? (a b : Int64) : Option Int64 := do
  let quotient ← timestamp? (a.toInt.tdiv b.toInt)
  let remainder ← timestamp? (a.toInt.tmod b.toInt)
  if remainder ≠ 0 ∧ decide (0 < remainder) ≠ decide (0 < b) then timestamp? (quotient.toInt - 1)
  else some quotient

/-- A quotient by a positive number can always be formed, and it is the one of the integers. -/
theorem floorQuotient?_eq_ediv {a b : Int64} (hb : 0 < b.toInt) :
    floorQuotient? a b = some (Int64.ofInt (a.toInt / b.toInt)) := by
  have hfloor : Fits (a.toInt / b.toInt) := fits_ediv hb (fits_toInt a)
  have hremainder : Fits (a.toInt.tmod b.toInt) := by
    have hlow := Int.lt_tmod_of_pos a.toInt hb
    have hhigh := Int.tmod_lt_of_pos a.toInt hb
    have hmax := (fits_toInt b).2
    have hmin : Int64.minValue.toInt = -Int64.maxValue.toInt - 1 := rfl
    exact ⟨by omega, by omega⟩
  -- The correction asks for the sign of the remainder, which is that of `a`. In terms of the
  -- quotient rounded down, there is something to correct exactly if `a` is negative and no multiple
  -- of `b`.
  have hpos : decide (0 < b) = true := decide_eq_true (Int64.lt_iff_toInt_lt.mpr hb)
  have hmod := Int.emod_nonneg a.toInt (Int.ne_of_gt hb)
  have hmodlt := Int.emod_lt_of_pos a.toInt hb
  have hvalue := toInt_ofInt_of_fits hremainder
  unfold floorQuotient?
  rw [timestamp?_of_fits hremainder, hpos, Int.tdiv_eq_ediv]
  rw [Int.tmod_eq_emod] at hvalue ⊢
  by_cases hexact : 0 ≤ a.toInt ∨ b.toInt ∣ a.toInt
  · -- the quotient was not cut upwards
    rw [if_pos hexact] at hvalue ⊢
    rw [if_pos hexact, Int.add_zero, timestamp?_of_fits hfloor]
    generalize Int64.ofInt (a.toInt % b.toInt - 0) = remainder at hvalue ⊢
    have hkeep : ¬ (remainder ≠ 0 ∧ decide (0 < remainder) ≠ true) := by
      rw [ne_eq, ne_eq, decide_eq_true_eq, Int64.lt_iff_toInt_lt, ← Int64.toInt_inj, hvalue,
        Int64.toInt_zero]
      omega
    exact if_neg hkeep
  · -- it was, to the integer above
    have hneg : a.toInt / b.toInt < 0 := Int.ediv_neg_of_neg_of_pos (by omega) hb
    have hcut : Fits (a.toInt / b.toInt + 1) := by
      have hmax : 0 ≤ Int64.maxValue.toInt := by decide
      obtain ⟨hlow, -⟩ := hfloor
      exact ⟨by omega, by omega⟩
    rw [if_neg hexact] at hvalue ⊢
    rw [if_neg hexact, Int.sign_eq_one_of_pos hb, timestamp?_of_fits hcut]
    generalize Int64.ofInt (a.toInt % b.toInt - b.toInt.natAbs) = remainder at hvalue ⊢
    have hcorrect : remainder ≠ 0 ∧ decide (0 < remainder) ≠ true := by
      rw [ne_eq, ne_eq, decide_eq_true_eq, Int64.lt_iff_toInt_lt, ← Int64.toInt_inj, hvalue,
        Int64.toInt_zero]
      omega
    show (if _ then timestamp? ((Int64.ofInt _).toInt - 1) else _) = _
    rw [if_pos hcorrect, toInt_ofInt_of_fits hcut, Int.add_sub_cancel, timestamp?_of_fits hfloor]

/-- Where no step leaves the range, the plain quotient is the checked one. -/
theorem floorQuotient_of_eq_some {a b quotient : Int64} (h : floorQuotient? a b = some quotient) :
    floorQuotient a b = quotient := by
  unfold floorQuotient? at h
  obtain ⟨cut, hcut, h⟩ := Option.bind_eq_some_iff.mp h
  obtain ⟨remainder, hremainder, h⟩ := Option.bind_eq_some_iff.mp h
  unfold floorQuotient
  -- each plain operation is replaced by what the checked one has found
  simp only [div_eq_of_timestamp? hcut, mod_eq_of_timestamp? hremainder]
  split at h
  case isTrue hcorrect =>
    rw [if_pos hcorrect]
    exact sub_eq_of_timestamp? h
  case isFalse hkeep =>
    rw [if_neg hkeep]
    exact Option.some.inj h

section Positive

variable {a b : Int64} (hb : 0 < b.toInt)

include hb

/-- **No step of the quotient by a positive count wraps around.** -/
theorem floorQuotient?_eq_some : floorQuotient? a b = some (floorQuotient a b) := by
  have hquotient := floorQuotient?_eq_ediv (a := a) hb
  rw [floorQuotient_of_eq_some hquotient]
  exact hquotient

/-- The quotient by a positive count is that of the integers, rounded down. -/
theorem toInt_floorQuotient : (floorQuotient a b).toInt = a.toInt / b.toInt := by
  rw [floorQuotient_of_eq_some (floorQuotient?_eq_ediv hb)]
  exact toInt_ofInt_of_fits (fits_ediv hb (fits_toInt a))

end Positive

end SeriesQuery
