/-
  Percentiles, and the order in which the values come.

  A percentile is read off the sorted values, at a rank that depends on nothing but how many they
  are.  Without both zeros among them there is one way to sort values, and so the percentile is the
  same for every order (`percentile_perm`).

  The rank is a share of the last place.  The share is at most one, and rounding does not take the
  rank past the last place (`isRank_percentileRank`).  So what is read are values: those around the
  rank, and if the rank is the last place then this one alone, which has none after it.
-/
import SeriesQuery.Proofs.Decimal.Bounding
import SeriesQuery.Proofs.Summary.Sorting

namespace SeriesQuery

open Float.Model
open Binary64 (UpTo)

variable {p : Float} {n : ℕ} {xs ys values : List Float}

/-! ## Ranks -/

/-- The rank of the `p`-th percentile of `n` values, counted from zero. -/
def percentileRank (p : Float) (n : ℕ) : Float := p / 100.0 * Float.ofNat (n - 1)

/-- The values around the rank are in range: the one before it, and the one after it unless the rank
    is whole. -/
structure IsRank (n : ℕ) (rank : Float) : Prop where
  below : Binary64.toNat rank < n
  above : (Float.ofNat (Binary64.toNat rank) == rank) = false → Binary64.toNat rank + 1 < n

namespace Summary

/-- A percentile that is let through is in range. -/
theorem range_of_validate (h : (percentile p).validate = .ok ()) : 0.0 ≤ p ∧ p ≤ 100.0 := by
  by_contra hrange
  have h : discard (percentile? p) = .ok () := h
  unfold percentile? at h
  rw [if_neg hrange] at h
  cases h

/-- The share of a hundred that it stands for is at most one. -/
theorem upTo_share (hlow : 0.0 ≤ p) (hhigh : p ≤ 100.0) : UpTo 1 (p / 100.0) := by
  have hlow : (UnpackedFloat.zero .positive).le p.toModel.unpack = true := of_decide_eq_true hlow
  have hhigh : p.toModel.unpack.le (.finite .positive (100 * 2 ^ 46) (-46) (by decide)) = true :=
    of_decide_eq_true hhigh
  -- By the kind of `p`: the limits rule out all but zeros and positive numbers.
  cases hp : p.toModel.unpack with
  | notANumber =>
    rw [hp] at hlow
    cases hlow
  | infinity s =>
    rw [hp] at hlow hhigh
    cases s with
    | positive => cases hhigh
    | negative => cases hlow
  | zero s =>
    left
    show Binary64.IsZero (Float.ofModel (.pack
      (.div .binary64 p.toModel.unpack (100.0 : Float).toModel.unpack)))
    rw [hp, Binary64.unpack_hundred]
    cases s <;> exact Binary64.isZero_pack _
  | finite s m e hpos =>
    rw [hp] at hlow hhigh
    cases s with
    | negative => cases hlow
    | positive =>
      have hcan : Binary64.Canonical m e := Binary64.canonical_of_unpack hp
      have hhundred : Binary64.Canonical (100 * 2 ^ 46) (-46) :=
        Binary64.canonical_of_unpack Binary64.unpack_hundred
      have hone : Binary64.Canonical (2 ^ 52) (-52) :=
        Binary64.canonical_of_unpack Binary64.unpack_one
      have hvalue : ((2 ^ 52 : ℕ) : ℚ) * 2 ^ (-52 : ℤ) = 1 := by norm_num
      have hle := Binary64.scaled_le_of_compare hcan hhundred hhigh
      rw [← hvalue]
      refine Binary64.Unpacks.upTo_div ⟨hcan, hp⟩ ⟨hhundred, Binary64.unpack_hundred⟩ hone ?_
      rw [hvalue]
      exact (div_le_one (by positivity)).mpr hle

/-- **The rank is that of a value.**  It is the share of the last place, which a float holds as it
    is. -/
theorem isRank_percentileRank (hlow : 0.0 ≤ p) (hhigh : p ≤ 100.0) (hpos : 0 < n)
    (hn : n ≤ 2 ^ 53) : IsRank n (percentileRank p n) := by
  have hshare := upTo_share hlow hhigh
  obtain ⟨last, rfl⟩ : ∃ last, n = last + 1 := ⟨n - 1, by omega⟩
  have hrank : percentileRank p (last + 1) = p / 100.0 * Float.ofNat last := rfl
  rw [hrank]
  -- Of one value, the rank is a zero. Of more, it is at most the last place.
  rcases Nat.eq_zero_or_pos last with rfl | hlast
  · have hzero : Binary64.IsZero (p / 100.0 * Float.ofNat 0) :=
      Binary64.isZero_mul hshare.isFinite ⟨.positive, rfl⟩
    refine ⟨by rw [hzero.toNat_eq]; exact hpos, fun hwhole => ?_⟩
    rw [hzero.toNat_eq, Binary64.IsZero.beq ⟨.positive, rfl⟩ hzero] at hwhole
    cases hwhole
  · have hbits : last < 2 ^ 53 := by omega
    have hupTo := hshare.mul_ofNat hlast hbits
    rcases hupTo.toNat_lt_or_eq hlast hbits with hlt | heq
    · exact ⟨by omega, fun _ => by omega⟩
    · have hwhole : Binary64.toNat (p / 100.0 * Float.ofNat last) = last := by
        rw [heq, Binary64.toNat_ofNat hlast hbits]
      refine ⟨hwhole.trans_lt (Nat.lt_succ_self last), fun hapart => ?_⟩
      rw [hwhole, heq, Binary64.beq_self (heq ▸ hupTo.isFinite)] at hapart
      cases hapart

end Summary

/-! ## Reading -/

/-- The value at a rank.  At a whole rank there is one; otherwise it is on a straight line between
    the two around the rank. -/
inductive ReadAt (sorted : List Float) (rank : Float) : Float → Prop
  | whole (hbelow : Binary64.toNat rank < sorted.length)
    (hwhole : (Float.ofNat (Binary64.toNat rank) == rank) = true) :
    ReadAt sorted rank sorted[Binary64.toNat rank]
  | between (habove : Binary64.toNat rank + 1 < sorted.length)
    (hwhole : (Float.ofNat (Binary64.toNat rank) == rank) = false) :
    ReadAt sorted rank (sorted[Binary64.toNat rank] +
      (sorted[Binary64.toNat rank + 1] - sorted[Binary64.toNat rank]) *
        (rank - Float.ofNat (Binary64.toNat rank)))

/-- The percentile is read off the sorted values. -/
theorem readAt_percentileOf (h : IsRank values.length (percentileRank p values.length)) :
    ReadAt (ascendingValues values) (percentileRank p values.length) (percentileOf p values) := by
  rw [← (ascendingValues_perm values).length_eq] at h ⊢
  obtain ⟨hbelow, habove⟩ := h
  unfold percentileOf
  dsimp only
  rw [← percentileRank, List.getD_eq_getElem _ _ hbelow]
  cases hwhole : Float.ofNat (Binary64.toNat (percentileRank p (ascendingValues values).length)) ==
      percentileRank p (ascendingValues values).length with
  | true => exact .whole hbelow hwhole
  | false =>
    rw [List.getD_eq_getElem _ _ (habove hwhole)]
    exact .between (habove hwhole) hwhole

/-! ## Accumulating -/

/-- All values are kept, the last one in front. -/
theorem Accumulator.addAll_percentile (p : Float) (values xs : List Float) :
    (Accumulator.percentile p values).addAll xs = .percentile p (xs.reverse ++ values) := by
  induction xs generalizing values with
  | nil => rfl
  | cons x xs ih =>
    rw [List.reverse_cons, List.append_assoc]
    exact ih (x :: values)

namespace Summary

/-- The percentile summary of some values is their percentile. -/
theorem of_percentile (hne : values ≠ []) : (percentile p).of values = percentileOf p values := by
  have hstate : (percentile p).accumulator.addAll values = .percentile p values.reverse := by
    rw [accumulator, Accumulator.addAll_percentile, List.append_nil]
  rw [Summary.of, hstate, Accumulator.result, List.reverse_reverse, if_neg (by simpa using hne)]

/-- **A percentile depends only on which values there are**, as long as the two zeros are not both
    among them.  Whatever way the values are sorted, it is read off them at its rank, which is in
    range. -/
theorem percentile_perm (hvalid : (percentile p).validate = .ok ()) (hperm : xs.Perm ys)
    (hzeros : ¬ ((0.0 : Float) ∈ xs ∧ (-0.0 : Float) ∈ xs)) :
    (percentile p).of xs = (percentile p).of ys ∧
      ∀ sorted : List Float, sorted.Perm ys → InOrder sorted → sorted ≠ [] →
        sorted.length ≤ 2 ^ 53 →
          ReadAt sorted (percentileRank p sorted.length) ((percentile p).of xs) := by
  obtain ⟨hlow, hhigh⟩ := range_of_validate hvalid
  have hsame : ascendingValues xs = ascendingValues ys :=
    ascendingValues_eq (inOrder_ascendingValues ys)
      ((ascendingValues_perm ys).trans hperm.symm) hzeros
  constructor
  · by_cases hxs : xs = []
    · obtain rfl : ys = [] := List.nil_perm.mp (hxs ▸ hperm)
      rw [hxs]
    · have hys : ys ≠ [] := fun hys => hxs (List.perm_nil.mp (hys ▸ hperm))
      rw [of_percentile hxs, of_percentile hys]
      unfold percentileOf
      rw [hsame]
  · intro sorted hsorted horder hne hlength
    have hxs : sorted.Perm xs := hsorted.trans hperm.symm
    have hnonempty : xs ≠ [] := fun hnil => hne (List.perm_nil.mp (hnil ▸ hxs))
    have hrank := isRank_percentileRank hlow hhigh (List.length_pos_iff.mpr hne) hlength
    rw [hxs.length_eq] at hrank ⊢
    rw [of_percentile hnonempty, ← ascendingValues_eq horder hxs hzeros]
    exact readAt_percentileOf hrank

/-- The infinities, "not a number", and a zero that is there twice, in two orders. -/
theorem percentile_perm_usage :
    (percentile 75.0).of [Binary64.notANumber, 0.0, Binary64.infinity, 1.0, 0.0] =
        (percentile 75.0).of [0.0, 1.0, Binary64.infinity, 0.0, Binary64.notANumber] ∧
      ReadAt [0.0, 0.0, 1.0, Binary64.infinity, Binary64.notANumber] (percentileRank 75.0 5)
        ((percentile 75.0).of [Binary64.notANumber, 0.0, Binary64.infinity, 1.0, 0.0]) := by
  have hvalid : (percentile 75.0).validate = .ok () := by decide +kernel
  have hzeros : ¬ ((0.0 : Float) ∈ [Binary64.notANumber, 0.0, Binary64.infinity, 1.0, 0.0] ∧
      (-0.0 : Float) ∈ [Binary64.notANumber, 0.0, Binary64.infinity, 1.0, 0.0]) := by
    simp only [List.mem_cons, List.not_mem_nil, or_false]
    decide +kernel
  obtain ⟨hsame, hread⟩ := percentile_perm hvalid
    (List.reverse_perm [0.0, 1.0, Binary64.infinity, 0.0, Binary64.notANumber]) hzeros
  refine ⟨hsame, hread [0.0, 0.0, 1.0, Binary64.infinity, Binary64.notANumber] ?_ ?_
    (List.cons_ne_nil _ _) (by decide)⟩
  · have hmiddle := @List.perm_middle _ (0.0 : Float) [1.0, Binary64.infinity] [Binary64.notANumber]
    exact hmiddle.symm.cons 0.0
  · unfold InOrder
    decide +kernel

end Summary
end SeriesQuery
