/-
  Adding up several series.

  `sumSamples` puts every sample into its place of an ascending list, so the sums ascend whatever
  the order in which the samples come, and they stand at the times of the samples.  The range of
  the sum covers the ranges of all series.  Hence the sum of proper series is a proper series
  (`sumSeries_wellFormed`).
-/
import SeriesQuery.Proofs.Stage.Pairing
import SeriesQuery.Stage.Arithmetic

namespace SeriesQuery

variable {time : Timestamp} {value : Float} {sums samples : List Sample}

/-! ## Sums of samples -/

/-- Adding at a time adds this time, if it is not there yet, and no other. -/
theorem mem_times_addAt {t : Timestamp} :
    t ∈ (addAt time value sums).map Sample.time ↔ t = time ∨ t ∈ sums.map Sample.time := by
  induction sums with
  | nil => simp [addAt]
  | cons x rest ih =>
    unfold addAt
    split
    case isTrue => simp
    case isFalse =>
      split
      case isTrue hsame => simp [hsame]
      case isFalse =>
        rw [List.map_cons, List.mem_cons, ih, List.map_cons, List.mem_cons]
        exact or_left_comm

/-- A sum keeps ascending: an addend goes in front of the first later sum, onto the sum of its own
    time, or further back. -/
theorem addAt_ascending (h : Series.Ascending sums) :
    Series.Ascending (addAt time value sums) := by
  induction sums with
  | nil => exact List.pairwise_singleton _ _
  | cons x rest ih =>
    obtain ⟨hx, hrest⟩ := List.pairwise_cons.mp h
    unfold addAt
    split
    -- In front of the rest, onto `x`, or after it: the three branches of the insertion.
    case isTrue hlt => exact List.pairwise_cons.mpr ⟨before_of_ascending h hlt, h⟩
    case isFalse hge =>
      split
      case isTrue hsame => exact List.pairwise_cons.mpr ⟨hsame ▸ hx, hrest⟩
      case isFalse hne =>
        -- the new time is after `x`, and so are all that were there
        have hlt : x.time < time :=
          Int64.lt_of_le_of_ne (Int64.not_lt.mp hge) fun heq => hne heq.symm
        refine List.pairwise_cons.mpr ⟨fun y hy => ?_, ih hrest⟩
        rcases mem_times_addAt.mp (List.mem_map_of_mem hy) with hy | hy
        · exact hy ▸ hlt
        · obtain ⟨z, hz, hyz⟩ := List.mem_map.mp hy
          exact hyz ▸ hx z hz

/-- The times of the sums are those that were there and those of the samples. -/
theorem mem_times_foldl_addAt {t : Timestamp} :
    t ∈ (samples.foldl (fun sums x => addAt x.time x.value sums) sums).map Sample.time ↔
      t ∈ sums.map Sample.time ∨ t ∈ samples.map Sample.time := by
  induction samples generalizing sums with
  | nil => simp
  | cons x rest ih =>
    rw [List.foldl_cons, ih, mem_times_addAt, List.map_cons, List.mem_cons, or_assoc]
    exact or_left_comm

/-- Every sample has its sum, and every sum a sample: they stand at the same times. -/
theorem mem_times_sumSamples {t : Timestamp} :
    t ∈ (sumSamples samples).map Sample.time ↔ t ∈ samples.map Sample.time := by
  unfold sumSamples
  rw [mem_times_foldl_addAt]
  simp

/-- **Sums ascend**, whatever the order of the samples. -/
theorem sumSamples_ascending : Series.Ascending (sumSamples samples) := by
  -- By induction on the samples, for any sums to start with: each step keeps them ascending.
  have hfold : ∀ sums, Series.Ascending sums →
      Series.Ascending (samples.foldl (fun sums x => addAt x.time x.value sums) sums) := by
    induction samples with
    | nil => exact fun sums h => h
    | cons x rest ih => exact fun sums h => ih _ (addAt_ascending h)
  exact hfold [] List.Pairwise.nil

/-! ## Ranges of several series -/

/-- The earlier of two times bounds the first from below. -/
theorem earlier_le_left (a b : Timestamp) : earlier a b ≤ a := by
  rw [Int64.le_iff_toInt_le, earlier_toInt]
  omega

/-- The earlier of two times bounds the second from below. -/
theorem earlier_le_right (a b : Timestamp) : earlier a b ≤ b := by
  rw [Int64.le_iff_toInt_le, earlier_toInt]
  omega

/-- The later of two times bounds the first from above. -/
theorem le_later_left (a b : Timestamp) : a ≤ later a b := by
  rw [Int64.le_iff_toInt_le, later_toInt]
  omega

/-- The later of two times bounds the second from above. -/
theorem le_later_right (a b : Timestamp) : b ≤ later a b := by
  rw [Int64.le_iff_toInt_le, later_toInt]
  omega

/-- The earlier of two times is one of them, never a time in between. -/
theorem earlier_eq_or (a b : Timestamp) : earlier a b = a ∨ earlier a b = b := by
  unfold earlier
  split
  · exact .inr rfl
  · exact .inl rfl

/-- The later of two times is one of them as well. -/
theorem later_eq_or (a b : Timestamp) : later a b = a ∨ later a b = b := by
  unfold later
  split
  · exact .inr rfl
  · exact .inl rfl

/-- What is bounded by both of its operands at each step is bounded by all of them in the end. -/
theorem foldl_bounded {r : Timestamp → Timestamp → Prop} (hrefl : ∀ a, r a a)
    (htrans : ∀ a b c, r a b → r b c → r a c) {op : Timestamp → Timestamp → Timestamp}
    (hleft : ∀ a b, r (op a b) a) (hright : ∀ a b, r (op a b) b) (f : Series → Timestamp)
    (rest : List Series) (init : Timestamp) :
    r (rest.foldl (fun t s => op t (f s)) init) init ∧
      ∀ s ∈ rest, r (rest.foldl (fun t s => op t (f s)) init) (f s) := by
  induction rest generalizing init with
  | nil => exact ⟨hrefl init, fun s hs => absurd hs List.not_mem_nil⟩
  | cons x rest ih =>
    obtain ⟨hinit, hrest⟩ := ih (op init (f x))
    refine ⟨htrans _ _ _ hinit (hleft init (f x)), fun s hs => ?_⟩
    rcases List.mem_cons.mp hs with rfl | hs
    · exact htrans _ _ _ hinit (hright init (f s))
    · exact hrest s hs

/-- What is one of its operands at each step is one of all of them in the end. -/
theorem foldl_attained {op : Timestamp → Timestamp → Timestamp}
    (hop : ∀ a b, op a b = a ∨ op a b = b) (f : Series → Timestamp) (first : Series)
    (rest : List Series) :
    rest.foldl (fun t s => op t (f s)) (f first) ∈ (first :: rest).map f := by
  -- Strengthened from the first time to any start, since the start changes at each step.
  have hfold : ∀ init, rest.foldl (fun t s => op t (f s)) init ∈ init :: rest.map f := by
    induction rest with
    | nil => exact fun init => List.mem_singleton_self init
    | cons x rest ih =>
      intro init
      rw [List.foldl_cons, List.map_cons]
      rcases List.mem_cons.mp (ih (op init (f x))) with hinit | hrest
      · rw [hinit]
        rcases hop init (f x) with h | h
        · rw [h]
          exact List.mem_cons_self
        · rw [h]
          exact List.mem_cons_of_mem _ List.mem_cons_self
      · exact List.mem_cons_of_mem _ (List.mem_cons_of_mem _ hrest)
  exact hfold (f first)

/-- The range of a sum covers all ranges. -/
theorem range_of_sum (first : Series) (rest : List Series) : ∀ s ∈ first :: rest,
    rest.foldl (fun t s => earlier t s.minTime) first.minTime ≤ s.minTime ∧
      s.maxTime ≤ rest.foldl (fun t s => later t s.maxTime) first.maxTime := by
  -- The same lemma twice, once for `≤` and once for its converse.
  obtain ⟨hmin, hmins⟩ := foldl_bounded (fun a => Int64.le_refl a)
    (fun _ _ _ => Int64.le_trans) earlier_le_left earlier_le_right Series.minTime rest first.minTime
  obtain ⟨hmax, hmaxs⟩ := foldl_bounded (r := fun a b => b ≤ a) (fun a => Int64.le_refl a)
    (fun _ _ _ hab hbc => Int64.le_trans hbc hab) le_later_left le_later_right Series.maxTime rest
    first.maxTime
  intro s hs
  rcases List.mem_cons.mp hs with rfl | hs
  · exact ⟨hmin, hmax⟩
  · exact ⟨hmins s hs, hmaxs s hs⟩

/-! ## Sums of series -/

/-- **The sum of proper series is proper.** -/
theorem sumSeries_wellFormed {series : List Series} (h : ∀ s ∈ series, s.WellFormed) {sum : Series}
    (hsum : sumSeries series = some sum) : sum.WellFormed := by
  -- Without series there is no sum, and a single one is its own; the work is with two or more.
  match series with
  | [] => cases hsum
  | [only] =>
    obtain rfl := Option.some.inj hsum
    exact h only List.mem_cons_self
  | first :: second :: rest =>
    obtain rfl := Option.some.inj hsum
    have hrange := range_of_sum first (second :: rest)
    have hfirst := h first List.mem_cons_self
    obtain ⟨hlow, hhigh⟩ := hrange first List.mem_cons_self
    refine ⟨hfirst.step_pos, Int64.le_trans hlow (Int64.le_trans hfirst.range hhigh),
      sumSamples_ascending, fun x hx => ?_⟩
    -- The sum stands at the time of a sample, and that lies in the range of its series.
    obtain ⟨y, hy, htime⟩ :=
      List.mem_map.mp (mem_times_sumSamples.mp (List.mem_map_of_mem hx))
    obtain ⟨s, hs, hys⟩ := List.mem_flatMap.mp hy
    obtain ⟨hlow, hhigh⟩ := hrange s hs
    obtain ⟨hfrom, hto⟩ := (h s hs).inside y hys
    rw [← htime]
    exact ⟨Int64.le_trans hlow hfrom, Int64.le_trans hto hhigh⟩

end SeriesQuery
