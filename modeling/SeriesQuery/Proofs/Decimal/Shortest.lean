/-
  The shortest digits of a float lie in its interval.

  Everything that the search for digits compares is an integer over one denominator.  Divided by it,
  the ends of the interval are those of rounding (`ofFinite_low`, `ofFinite_high`), so that a hit on
  any grid rounds to the float.  And a hit there is, if only on the last grid: seventeen digits are
  so fine that the two points of the grid around the value are less than a unit in the last place
  apart, and one of them is nearer to the value than half a unit (`contains_neighbour`).
-/
import SeriesQuery.Decimal.Shortest
import SeriesQuery.Proofs.Decimal.Reading

namespace SeriesQuery.Decimal

open Binary64 (Canonical RoundsTo gapBelow)

variable {m c : ℕ} {e power : ℤ} {tie : Tie}

/-- A power of ten, whichever of the two factors of a grid holds it. -/
theorem tenTo_toNat (power : ℤ) :
    ((tenTo power.toNat : ℕ) : ℚ) = 10 ^ power * (tenTo (-power).toNat : ℕ) := by
  show ((10 ^ power.toNat : ℕ) : ℚ) = 10 ^ power * (10 ^ (-power).toNat : ℕ)
  push_cast
  rw [← zpow_natCast, ← zpow_natCast, ← zpow_add₀ (by norm_num)]
  congr 1
  omega

/-! ## The interval

The search compares integers over one denominator.  Here the ends and the value are turned into
numbers one by one, until a hit on a grid is a number that rounds to the float. -/

namespace Interval

/-- The denominator is not zero. -/
theorem unit_pos (m : ℕ) (e : ℤ) : 0 < (ofFinite m e).unit := by
  show 0 < 1 <<< (2 - e).toNat
  rw [Nat.one_shiftLeft]
  exact Nat.two_pow_pos _

/-- A multiple of a quarter of the last place, over the denominator. -/
theorem quarters (n : ℕ) (m : ℕ) (e : ℤ) :
    ((n <<< (e - 2).toNat : ℕ) : ℚ) = n / 4 * 2 ^ e * (ofFinite m e).unit := by
  have hunit : (ofFinite m e).unit = 2 ^ (2 - e).toNat := Nat.one_shiftLeft _
  have hsplit : (2 : ℚ) ^ e * 2 ^ (2 - e).toNat = 4 * 2 ^ (e - 2).toNat := by
    rw [← zpow_natCast, ← zpow_natCast, ← zpow_add₀ two_ne_zero,
      show (4 : ℚ) = 2 ^ (2 : ℤ) by norm_num, ← zpow_add₀ two_ne_zero]
    congr 1
    omega
  rw [hunit, Nat.shiftLeft_eq]
  push_cast
  rw [mul_assoc, hsplit]
  ring

/-- **The lower end** of the interval, over the denominator. -/
theorem ofFinite_low (hm : 0 < m) (e : ℤ) :
    ((ofFinite m e).low : ℚ) = (m - gapBelow m e) * 2 ^ e * (ofFinite m e).unit := by
  rw [show (ofFinite m e).low = (4 * m - if m = Binary64.leadingBit ∧ e > -1074 then 1 else 2) <<<
    (e - 2).toNat from rfl, quarters _ m]
  unfold gapBelow
  split
  all_goals
    rw [Nat.cast_sub (by omega)]
    push_cast
    ring

/-- The value, over the denominator. -/
theorem ofFinite_value (m : ℕ) (e : ℤ) :
    ((ofFinite m e).value : ℚ) = m * 2 ^ e * (ofFinite m e).unit := by
  rw [show (ofFinite m e).value = (4 * m) <<< (e - 2).toNat from rfl, quarters _ m]
  push_cast
  ring

/-- **The upper end** of the interval, over the denominator. -/
theorem ofFinite_high (m : ℕ) (e : ℤ) :
    ((ofFinite m e).high : ℚ) = (m + 1 / 2) * 2 ^ e * (ofFinite m e).unit := by
  rw [show (ofFinite m e).high = (4 * m + 2) <<< (e - 2).toNat from rfl, quarters _ m]
  push_cast
  ring

/-- **The interval of a float** has those numbers of a grid that round to it. -/
theorem contains_iff (hm : 0 < m) :
    ((ofFinite m e).rescale power).contains c = true ↔ RoundsTo m e (c * 10 ^ power) := by
  have hunit : (0 : ℚ) < (ofFinite m e).unit := by exact_mod_cast unit_pos m e
  obtain ⟨up, hup⟩ : ∃ up, up = tenTo (-power).toNat := ⟨_, rfl⟩
  have hpos : (0 : ℚ) < up := by
    rw [hup]
    exact_mod_cast Nat.pow_pos (by decide)
  -- The point of the grid and the two ends, over one denominator.
  have hpoint : ((c * ((ofFinite m e).unit * tenTo power.toNat) : ℕ) : ℚ) =
      c * 10 ^ power * ((ofFinite m e).unit * up) := by
    push_cast
    rw [tenTo_toNat, ← hup]
    ring
  have hlow : (((ofFinite m e).low * up : ℕ) : ℚ) =
      (m - gapBelow m e) * 2 ^ e * ((ofFinite m e).unit * up) := by
    push_cast
    rw [ofFinite_low hm]
    ring
  have hhigh : (((ofFinite m e).high * up : ℕ) : ℚ) =
      (m + 1 / 2) * 2 ^ e * ((ofFinite m e).unit * up) := by
    push_cast
    rw [ofFinite_high]
    ring
  have hscale : (0 : ℚ) < (ofFinite m e).unit * up := mul_pos hunit hpos
  show (if decide (m % 2 = 0) = true then
      decide ((ofFinite m e).low * tenTo (-power).toNat ≤
        c * ((ofFinite m e).unit * tenTo power.toNat) ∧
          c * ((ofFinite m e).unit * tenTo power.toNat) ≤
            (ofFinite m e).high * tenTo (-power).toNat)
    else
      decide ((ofFinite m e).low * tenTo (-power).toNat <
        c * ((ofFinite m e).unit * tenTo power.toNat) ∧
          c * ((ofFinite m e).unit * tenTo power.toNat) <
            (ofFinite m e).high * tenTo (-power).toNat)) = true ↔ _
  rw [← hup]
  split
  · -- An even mantissa owns its ends, and an odd one does not.
    next heven =>
    rw [decide_eq_true_eq, ← Nat.cast_le (α := ℚ), ← Nat.cast_le (α := ℚ), hpoint, hlow, hhigh,
      mul_le_mul_iff_left₀ hscale, mul_le_mul_iff_left₀ hscale]
    exact ⟨fun h => ⟨h.1, h.2, fun _ => of_decide_eq_true heven⟩, fun h => ⟨h.low, h.high⟩⟩
  · next hodd =>
    rw [decide_eq_true_eq, ← Nat.cast_lt (α := ℚ), ← Nat.cast_lt (α := ℚ), hpoint, hlow, hhigh,
      mul_lt_mul_iff_left₀ hscale, mul_lt_mul_iff_left₀ hscale]
    have hodd : ¬ m % 2 = 0 := fun heven => hodd (decide_eq_true heven)
    constructor
    · rintro ⟨hlow, hhigh⟩
      exact ⟨hlow.le, hhigh.le, fun h => by rcases h with h | h <;> linarith⟩
    · intro h
      exact ⟨h.low.lt_of_ne fun heq => hodd (h.even (.inl heq.symm)),
        h.high.lt_of_ne fun heq => hodd (h.even (.inr heq))⟩

/-! ## The points of a grid around the value

Of a grid, only two points count: the last one that is not above the value, and the one after it.
So something is found as soon as one of these two is in the interval, and on a fine grid one of them
is nearer than half a unit. -/

/-- Division with rounding goes to one of the two points around. -/
theorem roundDiv_eq (tie : Tie) (a b : ℕ) :
    roundDiv tie a b = a / b ∨ roundDiv tie a b = a / b + 1 := by
  unfold roundDiv
  dsimp only
  split
  · exact .inl rfl
  · split
    · exact .inr rfl
    · split
      · split
        · exact .inl rfl
        · exact .inr rfl
      · exact .inr rfl

/-- What is found on a grid is in the interval. -/
theorem contains_of_integer? {i : Interval} (h : i.integer? tie = some c) :
    i.contains c = true := by
  unfold integer? at h
  dsimp only at h
  split at h
  · next hbelow habove =>
    obtain rfl := Option.some.inj h
    rcases roundDiv_eq tie i.value i.unit with heq | heq
    · rwa [heq]
    · rwa [heq]
  · next hbelow _ =>
    obtain rfl := Option.some.inj h
    exact hbelow
  · next _ habove =>
    obtain rfl := Option.some.inj h
    exact habove
  · cases h

/-- A grid that has one of the two points in the interval has something to be found. -/
theorem integer?_isSome {i : Interval} (tie : Tie)
    (h : i.contains (i.value / i.unit) = true ∨ i.contains (i.value / i.unit + 1) = true) :
    (i.integer? tie).isSome = true := by
  unfold integer?
  dsimp only
  split
  · rfl
  · rfl
  · rfl
  · next hbelow habove =>
    rw [hbelow, habove] at h
    exact absurd h (by decide)

/-- The value lies between the two points. -/
theorem between (m : ℕ) (e power : ℤ) :
    let i := (ofFinite m e).rescale power
    ((i.value / i.unit : ℕ) : ℚ) * 10 ^ power ≤ m * 2 ^ e ∧
      (m * 2 ^ e : ℚ) < ((i.value / i.unit : ℕ) + 1) * 10 ^ power := by
  intro i
  -- Value and unit of the grid have one factor in common, which is taken out.
  obtain ⟨scale, hscale⟩ : ∃ scale : ℚ,
      scale = (ofFinite m e).unit * (tenTo (-power).toNat : ℕ) := ⟨_, rfl⟩
  have hpos : 0 < scale := by
    rw [hscale]
    exact mul_pos (by exact_mod_cast unit_pos m e) (by exact_mod_cast Nat.pow_pos (by decide))
  have hunit : (i.unit : ℚ) = 10 ^ power * scale := by
    show (((ofFinite m e).unit * tenTo power.toNat : ℕ) : ℚ) = _
    push_cast
    rw [tenTo_toNat, hscale]
    ring
  have hvalue : (i.value : ℚ) = m * 2 ^ e * scale := by
    show (((ofFinite m e).value * tenTo (-power).toNat : ℕ) : ℚ) = _
    push_cast
    rw [ofFinite_value, hscale]
    ring
  have hunit_pos : 0 < i.unit := by
    have hcast : (0 : ℚ) < i.unit := hunit ▸ mul_pos (by positivity) hpos
    exact_mod_cast hcast
  have hlow : ((i.value / i.unit * i.unit : ℕ) : ℚ) ≤ i.value :=
    Nat.cast_le.mpr (Nat.div_mul_le_self _ _)
  have hhigh : (i.value : ℚ) < ((i.value / i.unit + 1) * i.unit : ℕ) :=
    Nat.cast_lt.mpr (Nat.lt_mul_of_div_lt (Nat.lt_succ_self _) hunit_pos)
  push_cast at hlow hhigh
  rw [hunit, hvalue, ← mul_assoc] at hlow hhigh
  exact ⟨le_of_mul_le_mul_right hlow hpos, lt_of_mul_lt_mul_right hhigh hpos.le⟩

/-- **A fine grid has a point in the interval.**  Just above a power of two the interval reaches
    farther up than down, and the grid is finer still, so that the point above is taken. -/
theorem contains_neighbour (hcan : Canonical m e) (hfine : (10 : ℚ) ^ power < 2 ^ e)
    (hpower : m = Binary64.leadingBit → (10 : ℚ) ^ power < 1 / 2 * 2 ^ e) :
    let i := (ofFinite m e).rescale power
    i.contains (i.value / i.unit) = true ∨ i.contains (i.value / i.unit + 1) = true := by
  intro i
  obtain ⟨hbelow, habove⟩ := between m e power
  rw [contains_iff hcan.pos, contains_iff hcan.pos, Nat.cast_add_one]
  have hunit : (0 : ℚ) < 2 ^ e := zpow_pos two_pos e
  have hinside : ∀ v : ℚ, (m - gapBelow m e) * 2 ^ e < v → v < (m + 1 / 2) * 2 ^ e →
      RoundsTo m e v := fun v hlow hhigh =>
    ⟨hlow.le, hhigh.le, fun h => by rcases h with h | h <;> linarith⟩
  change ((i.value / i.unit : ℕ) : ℚ) * 10 ^ power ≤ m * 2 ^ e at hbelow
  change (m * 2 ^ e : ℚ) < ((i.value / i.unit : ℕ) + 1) * 10 ^ power at habove
  generalize ((i.value / i.unit : ℕ) : ℚ) = q at hbelow habove ⊢
  -- The point above is taken where the interval is shorter below, and otherwise the nearer one.
  by_cases hm : m = Binary64.leadingBit
  · have hgap : (m - gapBelow m e) * 2 ^ e < m * 2 ^ e :=
      mul_lt_mul_of_pos_right (sub_lt_self _ (Binary64.gapBelow_pos m e)) hunit
    exact .inr (hinside _ (hgap.trans habove) (by linarith [hpower hm]))
  · have hgap : gapBelow m e = 1 / 2 := if_neg fun h => hm h.1
    rw [hgap] at hinside
    rcases lt_or_ge ((q + 1) * 10 ^ power) ((m + 1 / 2) * 2 ^ e) with hnear | hfar
    · exact .inr (hinside _ (by linarith) hnear)
    · exact .inl (hinside _ (by linarith) (by linarith))

end Interval

/-! ## The digits

The search goes from coarse grids to fine ones, and takes the first on which there is a hit.
Whatever it stops at rounds to the float.  That it stops is shown at the last grid. -/

/-- The value of digits with their power. -/
def Digits.value (d : Digits) : ℚ := d.coefficient * 10 ^ d.power

/-- Zeros at the end are taken off without a change of value. -/
theorem Digits.value_trimZeros (fuel : ℕ) (d : Digits) : (d.trimZeros fuel).value = d.value := by
  fun_induction Digits.trimZeros fuel d with
  | case1 d => rfl
  | case2 fuel d h ih =>
    rw [ih]
    have hcoefficient : (d.coefficient : ℚ) = 10 * (d.coefficient / 10 : ℕ) := by
      exact_mod_cast (Nat.mul_div_cancel' (Nat.dvd_of_mod_eq_zero h.2)).symm
    show ((d.coefficient / 10 : ℕ) : ℚ) * 10 ^ (d.power + 1) = d.coefficient * 10 ^ d.power
    rw [hcoefficient, zpow_add_one₀ (by norm_num)]
    ring
  | case3 fuel d h => rfl

/-- The power of ten that the digits before the point are counted with is large enough for all
    floats. -/
theorem one_le_scaled (hcan : Canonical m e) : (1 : ℚ) ≤ m * 2 ^ e * 10 ^ (400 : ℤ) := by
  have hlower := (RoundsTo.self m e).lower hcan
  calc (1 : ℚ) = 2 ^ (-1075 : ℤ) * 2 ^ (1075 : ℤ) := by rw [← zpow_add₀ two_ne_zero]; rfl
    _ ≤ m * 2 ^ e * 2 ^ ((33 * 33 : ℕ) : ℤ) :=
        mul_le_mul hlower (zpow_le_zpow_right₀ one_le_two (by omega)) (by positivity)
          (by positivity)
    _ ≤ m * 2 ^ e * 10 ^ ((10 * 33 : ℕ) : ℤ) := by
        refine mul_le_mul_of_nonneg_left ?_ (by positivity)
        rw [zpow_natCast, zpow_natCast]
        exact two_pow_le_ten_pow 33
    _ ≤ m * 2 ^ e * 10 ^ (400 : ℤ) := by
        refine mul_le_mul_of_nonneg_left ?_ (by positivity)
        exact zpow_le_zpow_right₀ (by norm_num) (by omega)

/-- The value has as many digits before its point as are counted, at least. -/
theorem le_magnitude (hcan : Canonical m e) :
    (10 : ℚ) ^ ((Interval.ofFinite m e).magnitude - 1) ≤ m * 2 ^ e := by
  have hunit : (0 : ℚ) < (Interval.ofFinite m e).unit := by
    exact_mod_cast Interval.unit_pos m e
  have hten : ((tenTo 400 : ℕ) : ℚ) = 10 ^ (400 : ℤ) := by
    have hten : ((tenTo 400 : ℕ) : ℚ) = 10 ^ (400 : ℤ) * (tenTo 0 : ℕ) := tenTo_toNat 400
    rw [hten, show tenTo 0 = 1 from rfl, Nat.cast_one, mul_one]
  unfold Interval.magnitude
  generalize tenTo 400 = scale at hten
  obtain ⟨n, hn⟩ : ∃ n, n = (Interval.ofFinite m e).value * scale / (Interval.ofFinite m e).unit :=
    ⟨_, rfl⟩
  have hvalue : (((Interval.ofFinite m e).value * scale : ℕ) : ℚ) =
      m * 2 ^ e * 10 ^ (400 : ℤ) * (Interval.ofFinite m e).unit := by
    rw [Nat.cast_mul, Interval.ofFinite_value, hten]
    ring
  -- So much was multiplied that the value is at least one.
  have hpos : 0 < n := by
    rw [hn]
    refine Nat.div_pos ?_ (Interval.unit_pos m e)
    rw [← Nat.cast_le (α := ℚ), hvalue]
    exact le_mul_of_one_le_left hunit.le (one_le_scaled hcan)
  have hle : (n : ℚ) ≤ m * 2 ^ e * 10 ^ (400 : ℤ) := by
    refine le_of_mul_le_mul_right ?_ hunit
    rw [← hvalue, hn]
    exact_mod_cast Nat.div_mul_le_self _ _
  obtain ⟨hfirst, -⟩ := bounds_of_first hpos 0
  rw [← hn]
  refine le_of_mul_le_mul_right ?_ (by positivity : (0 : ℚ) < 10 ^ (400 : ℤ))
  rw [← zpow_add₀ (by norm_num)]
  refine le_trans (le_of_eq ?_) (hfirst.trans (le_trans (le_of_eq ?_) hle))
  · congr 1
    ring
  · rw [zpow_zero, mul_one]

/-- Seventeen digits are enough. -/
theorem integer?_last (hcan : Canonical m e) (tie : Tie) :
    (((Interval.ofFinite m e).rescale ((Interval.ofFinite m e).magnitude - 17)).integer?
      tie).isSome = true := by
  have hunit : (0 : ℚ) < 2 ^ e := zpow_pos two_pos e
  -- Seventeen digits: the grid is sixteen places finer than the first digit.
  have hgrid : (10 : ℚ) ^ ((Interval.ofFinite m e).magnitude - 17) * 10 ^ 16 ≤ m * 2 ^ e := by
    rw [← zpow_natCast, ← zpow_add₀ (by norm_num)]
    refine le_trans (le_of_eq ?_) (le_magnitude hcan)
    congr 1
    push_cast
    ring
  apply Interval.integer?_isSome
  refine Interval.contains_neighbour hcan ?_ ?_
  · have hm : (m : ℚ) < 2 ^ 53 := by exact_mod_cast hcan.bits
    have hvalue : (m : ℚ) * 2 ^ e < 2 ^ 53 * 2 ^ e := mul_lt_mul_of_pos_right hm hunit
    linarith
  · rintro rfl
    have hvalue : ((Binary64.leadingBit : ℕ) : ℚ) = 2 ^ 52 := by norm_num [Binary64.leadingBit]
    rw [hvalue] at hgrid
    linarith

/-- **The shortest digits round to the float.** -/
theorem roundsTo_shortest (hcan : Canonical m e) (tie : Tie) :
    RoundsTo m e (shortest tie m e).value := by
  -- The search finds something, at the latest with seventeen digits.
  obtain ⟨d, hd⟩ : ∃ d, (List.range 17).findSome? (fun count =>
      (((Interval.ofFinite m e).rescale
        ((Interval.ofFinite m e).magnitude - (count + 1 : ℕ))).integer? tie).map fun c =>
          Digits.trimZeros (count + 1)
            ⟨c, (Interval.ofFinite m e).magnitude - (count + 1 : ℕ)⟩) = some d := by
    rw [← Option.isSome_iff_exists, List.findSome?_isSome_iff]
    refine ⟨16, List.mem_range.mpr (by decide), ?_⟩
    rw [Option.isSome_map]
    exact integer?_last hcan tie
  obtain ⟨count, -, hcount⟩ := List.exists_of_findSome?_eq_some hd
  obtain ⟨c, hc, rfl⟩ := Option.map_eq_some_iff.mp hcount
  have hshortest : shortest tie m e = Digits.trimZeros (count + 1)
      ⟨c, (Interval.ofFinite m e).magnitude - (count + 1 : ℕ)⟩ := congrArg (Option.getD · _) hd
  rw [hshortest, Digits.value_trimZeros]
  exact (Interval.contains_iff hcan.pos).mp (Interval.contains_of_integer? hc)

end SeriesQuery.Decimal
