/-
  Pairing samples by time, and combining two series pair by pair.

  `pairUp` walks through two ascending lists.  Whichever sample it hands on, alone or in a pair, is
  earlier than everything that is left on both sides, so the times of the pairs ascend
  (`pairTimes_ascending`).  This holds up to the last instant there is, where `pairUp` no longer
  tells a sample from the end of a list.  With the range that covers both ranges, the combination of
  two proper series is therefore a proper series (`align_wellFormed`).
-/
import SeriesQuery.Stage.Projection

namespace SeriesQuery

/-! ## Ranges

The bounds of the range that covers two ranges, as integers. -/

/-- The earlier of two instants is the least of them as integers. -/
theorem earlier_toInt (a b : Timestamp) : (earlier a b).toInt = min a.toInt b.toInt := by
  unfold earlier
  simp only [Int64.lt_iff_toInt_lt]
  split <;> omega

/-- The later of two instants is the greatest of them as integers. -/
theorem later_toInt (a b : Timestamp) : (later a b).toInt = max a.toInt b.toInt := by
  unfold later
  simp only [Int64.lt_iff_toInt_lt]
  split <;> omega

/-! ## Times of pairs

The walk takes one sample or two in each turn, and all that it leaves is later.  The induction is on
the walk itself, one case for each of its branches. -/

variable {keep : Bool} {left right : List Sample}

/-- The time of a pair; paired samples have the same one. -/
def pairTime? : Option Sample × Option Sample → Option Timestamp
  | (some l, _) => some l.time
  | (none, r) => r.map Sample.time

/-- The times of all pairs. -/
def pairTimes (keep : Bool) (left right : List Sample) : List Timestamp :=
  (pairUp keep left right).filterMap pairTime?

/-- Every pair stands at the time of a sample.  The induction is on the walk, in each of whose
    branches a pair is made of the heads of the lists or not at all. -/
theorem mem_pairTimes {t : Timestamp} (h : t ∈ pairTimes keep left right) :
    t ∈ left.map Sample.time ∨ t ∈ right.map Sample.time := by
  unfold pairTimes at h
  -- One case for each branch of the walk; where a pair is made, it stands at the head of a list.
  fun_induction pairUp keep left right with
  | case1 => exact absurd h List.not_mem_nil
  | case2 l ls hdrop ih =>
    exact (ih h).imp (List.mem_cons_of_mem _) id
  | case3 l ls hkeep ih =>
    rcases List.mem_cons.mp h with rfl | h
    · exact Or.inl List.mem_cons_self
    · exact (ih h).imp (List.mem_cons_of_mem _) id
  | case4 r rs hdrop ih =>
    exact (ih h).imp id (List.mem_cons_of_mem _)
  | case5 r rs hkeep ih =>
    rcases List.mem_cons.mp h with rfl | h
    · exact Or.inr List.mem_cons_self
    · exact (ih h).imp id (List.mem_cons_of_mem _)
  | case6 l ls r rs hlt hkeep ih =>
    rcases List.mem_cons.mp h with rfl | h
    · exact Or.inl List.mem_cons_self
    · exact (ih h).imp (List.mem_cons_of_mem _) id
  | case7 l ls r rs hlt hdrop ih =>
    exact (ih h).imp (List.mem_cons_of_mem _) id
  | case8 l ls r rs hle hlt hkeep ih =>
    rcases List.mem_cons.mp h with rfl | h
    · exact Or.inr List.mem_cons_self
    · exact (ih h).imp id (List.mem_cons_of_mem _)
  | case9 l ls r rs hle hlt hdrop ih =>
    exact (ih h).imp id (List.mem_cons_of_mem _)
  | case10 l ls r rs hle hge ih =>
    rcases List.mem_cons.mp h with rfl | h
    · exact Or.inl List.mem_cons_self
    · exact (ih h).imp (List.mem_cons_of_mem _) (List.mem_cons_of_mem _)

/-- A time before both lists is before all of their pairs. -/
theorem before_pairTimes {t : Timestamp} (hleft : ∀ x ∈ left, t < x.time)
    (hright : ∀ x ∈ right, t < x.time) : ∀ u ∈ pairTimes keep left right, t < u := by
  intro u hu
  rcases mem_pairTimes hu with hu | hu
  · obtain ⟨x, hx, rfl⟩ := List.mem_map.mp hu
    exact hleft x hx
  · obtain ⟨x, hx, rfl⟩ := List.mem_map.mp hu
    exact hright x hx

/-- A time before the head of an ascending list is before all of it. -/
theorem before_of_ascending {t : Timestamp} {x : Sample} {samples : List Sample}
    (h : Series.Ascending (x :: samples)) (ht : t < x.time) : ∀ y ∈ x :: samples, t < y.time := by
  intro y hy
  rcases List.mem_cons.mp hy with rfl | hy
  · exact ht
  · exact Int64.lt_trans ht ((List.pairwise_cons.mp h).1 y hy)

/-- **The times of the pairs of two ascending lists ascend.**  The induction is on the walk.  What
    is left after a turn is later than the pair that was made in it, on both sides. -/
theorem pairTimes_ascending (keep : Bool) (hleft : Series.Ascending left)
    (hright : Series.Ascending right) : (pairTimes keep left right).Pairwise (· < ·) := by
  unfold pairTimes
  fun_induction pairUp keep left right with
  | case1 => exact List.Pairwise.nil
  -- Where a sample is dropped, nothing is added in front. Where a pair is made, what is left on
  -- either side is later than it.
  | case2 l ls hdrop ih => exact ih (List.pairwise_cons.mp hleft).2 hright
  | case3 l ls hkeep ih =>
    obtain ⟨hl, hleft⟩ := List.pairwise_cons.mp hleft
    exact List.pairwise_cons.mpr
      ⟨before_pairTimes hl fun x hx => absurd hx List.not_mem_nil, ih hleft hright⟩
  | case4 r rs hdrop ih => exact ih hleft (List.pairwise_cons.mp hright).2
  | case5 r rs hkeep ih =>
    obtain ⟨hr, hright⟩ := List.pairwise_cons.mp hright
    exact List.pairwise_cons.mpr
      ⟨before_pairTimes (fun x hx => absurd hx List.not_mem_nil) hr, ih hleft hright⟩
  | case6 l ls r rs hlt hkeep ih =>
    obtain ⟨hl, hleft⟩ := List.pairwise_cons.mp hleft
    exact List.pairwise_cons.mpr
      ⟨before_pairTimes hl (before_of_ascending hright hlt), ih hleft hright⟩
  | case7 l ls r rs hlt hdrop ih => exact ih (List.pairwise_cons.mp hleft).2 hright
  | case8 l ls r rs hle hlt hkeep ih =>
    obtain ⟨hr, hright⟩ := List.pairwise_cons.mp hright
    exact List.pairwise_cons.mpr
      ⟨before_pairTimes (before_of_ascending hleft hlt) hr, ih hleft hright⟩
  | case9 l ls r rs hle hlt hdrop ih => exact ih hleft (List.pairwise_cons.mp hright).2
  | case10 l ls r rs hle hge ih =>
    -- neither is earlier, so the two times are one
    have htime : l.time = r.time := Int64.le_antisymm (Int64.not_lt.mp hge) (Int64.not_lt.mp hle)
    obtain ⟨hl, hleft⟩ := List.pairwise_cons.mp hleft
    obtain ⟨hr, hright⟩ := List.pairwise_cons.mp hright
    exact List.pairwise_cons.mpr
      ⟨before_pairTimes hl (htime ▸ hr), ih hleft hright⟩

/-! ## Combined series

A combination that makes its samples at the times of the pairs inherits their order, and the range
covers both sides.  The operand on the right may be merged from several series, which has to be
known to keep them proper. -/

namespace Projection

/-- A projection whose samples stand where their pairs do. -/
def KeepsTimes (p : Projection) : Prop :=
  ∀ l r y, p.combine l r = some y → pairTime? (l, r) = some y.time

/-- The samples that are combined of ascending ones ascend. -/
theorem combined_ascending {p : Projection} (hp : p.KeepsTimes) (hleft : Series.Ascending left)
    (hright : Series.Ascending right) :
    Series.Ascending ((pairUp keep left right).filterMap fun (l, r) => p.combine l r) := by
  have htimes := List.pairwise_filterMap.mp (pairTimes_ascending keep hleft hright)
  refine List.pairwise_filterMap.mpr (htimes.imp fun hbefore x hx y hy => ?_)
  exact hbefore x.time (hp _ _ x hx) y.time (hp _ _ y hy)

/-- Every combined sample stands at the time of a sample that went in. -/
theorem mem_combined {p : Projection} (hp : p.KeepsTimes) {y : Sample}
    (h : y ∈ (pairUp keep left right).filterMap fun (l, r) => p.combine l r) :
    y.time ∈ left.map Sample.time ∨ y.time ∈ right.map Sample.time := by
  obtain ⟨⟨l, r⟩, hpair, hy⟩ := List.mem_filterMap.mp h
  exact mem_pairTimes (List.mem_filterMap.mpr ⟨(l, r), hpair, hp l r y hy⟩)

/-- **The combination of two proper series is proper.** -/
theorem align_wellFormed {p : Projection} (hp : p.KeepsTimes) {l r out : Series}
    (hl : l.WellFormed) (hr : r.WellFormed) (h : p.align l r = some out) : out.WellFormed := by
  unfold align at h
  dsimp only at h
  split at h
  case h_1 => cases h
  case h_2 samples hsome =>
    obtain rfl := Option.some.inj h
    have hmin := earlier_toInt l.minTime r.minTime
    have hmax := later_toInt l.maxTime r.maxTime
    refine ⟨hl.step_pos, ?_, combined_ascending hp hl.ascending hr.ascending, fun y hy => ?_⟩
    · show earlier l.minTime r.minTime ≤ later l.maxTime r.maxTime
      have hrange := hl.range
      rw [Int64.le_iff_toInt_le] at hrange ⊢
      omega
    · -- the sample stands at a time of one side, and the range covers both
      have hinside : (l.minTime.toInt ≤ y.time.toInt ∧ y.time.toInt ≤ l.maxTime.toInt) ∨
          (r.minTime.toInt ≤ y.time.toInt ∧ y.time.toInt ≤ r.maxTime.toInt) := by
        simp only [← Int64.le_iff_toInt_le]
        rcases mem_combined hp hy with ht | ht
        · obtain ⟨x, hx, htime⟩ := List.mem_map.mp ht
          exact Or.inl (htime ▸ hl.inside x hx)
        · obtain ⟨x, hx, htime⟩ := List.mem_map.mp ht
          exact Or.inr (htime ▸ hr.inside x hx)
      show earlier l.minTime r.minTime ≤ y.time ∧ y.time ≤ later l.maxTime r.maxTime
      rw [Int64.le_iff_toInt_le, Int64.le_iff_toInt_le]
      omega

/-- Whatever is combined, the results are proper: the operand is a series from the right, or merged
    from some that are. -/
theorem combineAll_wellFormed {p : Projection} (hp : p.KeepsTimes)
    (hmerge : ∀ series, (∀ s ∈ series, s.WellFormed) → ∀ out, p.merge series = some out →
      out.WellFormed)
    {left right : List Series} (hleft : ∀ l ∈ left, l.WellFormed)
    (hright : ∀ r ∈ right, r.WellFormed) : ∀ out ∈ p.combineAll left right, out.WellFormed := by
  have hoperand : ∀ l r, p.operand? l right = some r → r.WellFormed := by
    intro l r h
    unfold operand? at h
    split at h
    case h_1 only =>
      obtain rfl := Option.some.inj h
      exact hright only List.mem_cons_self
    case h_2 =>
      exact hmerge _ (fun s hs => hright s (List.mem_filter.mp hs).1) r h
  intro out hout
  unfold combineAll at hout
  split at hout
  case isTrue => exact absurd hout List.not_mem_nil
  case isFalse =>
    obtain ⟨l, hl, h⟩ := List.mem_filterMap.mp hout
    obtain ⟨r, hr, halign⟩ := Option.bind_eq_some_iff.mp h
    exact align_wellFormed hp (hleft l hl) (hoperand l r hr) halign

end Projection
end SeriesQuery
