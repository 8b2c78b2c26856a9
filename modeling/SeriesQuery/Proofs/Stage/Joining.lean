/-
  Pairing samples by time is the full outer join of two lists.

  `outerJoin` says what the join is without any walk: for each time of either list, in order, the
  sample that the left list has there and the one that the right list has there.  `pairUp` walks.
  Three facts take the one to the other.  Where unmatched samples are kept, no sample is lost
  (`left_of_pairUp`, `right_of_pairUp`); each pair is what the lists have at its time
  (`samplesAt_of_mem_pairUp`); and the times of the pairs ascend.  An ascending list is determined
  by what is in it, so the times are those of the join, and with them the pairs.

  Where unmatched samples are not kept, the walk hands on the same pairs less some of them
  (`pairUp_false`).  What it leaves out is told apart by the pair alone, since a side that has
  run out counts as standing at the last instant: a lone sample there is handed on in any case.
-/
import Mathlib.Data.List.Dedup
import Mathlib.Data.List.Sort
import SeriesQuery.Proofs.Stage.Walking
import SeriesQuery.Stage.Arithmetic

namespace SeriesQuery

variable {keep : Bool} {left right samples : List Sample} {t : Timestamp} {x : Sample}
  {pair : Option Sample × Option Sample}

/-! ## The full outer join -/

/-- The times of two lists, each of them once, in ascending order. -/
def unionTimes (left right : List Sample) : List Timestamp :=
  ((left ++ right).map Sample.time).dedup.mergeSort fun t u => t ≤ u

/-- The sample at a time, if there is one. -/
def sampleAt? (t : Timestamp) (samples : List Sample) : Option Sample :=
  samples.find? fun x => x.time == t

/-- What two lists have at each of their times. -/
def outerJoin (left right : List Sample) : List (Option Sample × Option Sample) :=
  (unionTimes left right).map fun t => (sampleAt? t left, sampleAt? t right)

/-- The times of the join are those of the two lists. -/
theorem mem_unionTimes :
    t ∈ unionTimes left right ↔ t ∈ left.map Sample.time ∨ t ∈ right.map Sample.time := by
  rw [unionTimes, List.mem_mergeSort, List.mem_dedup, List.map_append, List.mem_append]

/-- The times of the join ascend, and none is repeated. -/
theorem unionTimes_ascending : (unionTimes left right).Pairwise (· < ·) := by
  have hle : (unionTimes left right).Pairwise (· ≤ ·) := List.pairwise_mergeSort' (· ≤ ·) _
  have hnodup : (unionTimes left right).Nodup :=
    (List.mergeSort_perm _ _).nodup_iff.mpr (List.nodup_dedup _)
  exact (hle.and hnodup).imp fun h => Int64.lt_of_le_of_ne h.1 h.2

/-! ## The sample at a time -/

/-- What is found at a time is one of the samples, and stands there. -/
theorem sampleAt?_eq_some (h : sampleAt? t samples = some x) : x ∈ samples ∧ x.time = t := by
  unfold sampleAt? at h
  exact ⟨List.mem_of_find?_eq_some h, by simpa using List.find?_some h⟩

/-- The sample in front is found at its time. -/
theorem sampleAt?_cons_self : sampleAt? x.time (x :: samples) = some x :=
  List.find?_cons_of_pos (beq_self_eq_true x.time)

/-- An earlier sample in front makes no difference. -/
theorem sampleAt?_cons_of_lt (h : x.time < t) :
    sampleAt? t (x :: samples) = sampleAt? t samples := by
  refine List.find?_cons_of_neg fun heq => ?_
  rw [eq_of_beq heq] at h
  exact Int64.lt_irrefl h

/-- Nothing is found before the first sample. -/
theorem sampleAt?_eq_none (h : ∀ x ∈ samples, t < x.time) : sampleAt? t samples = none := by
  refine List.find?_eq_none.mpr fun x hx heq => ?_
  have hlt := h x hx
  rw [eq_of_beq heq] at hlt
  exact Int64.lt_irrefl hlt

/-- In an ascending list a sample is the only one at its time. -/
theorem sampleAt?_of_mem (h : Series.Ascending samples) (hx : x ∈ samples) :
    sampleAt? x.time samples = some x := by
  induction samples with
  | nil => exact absurd hx List.not_mem_nil
  | cons y rest ih =>
    obtain ⟨hy, hrest⟩ := List.pairwise_cons.mp h
    rcases List.mem_cons.mp hx with rfl | hx
    · exact sampleAt?_cons_self
    · rw [sampleAt?_cons_of_lt (hy x hx)]
      exact ih hrest hx

/-- Something is found exactly at the times of the samples. -/
theorem isSome_sampleAt? : (sampleAt? t samples).isSome ↔ t ∈ samples.map Sample.time := by
  rw [sampleAt?, List.find?_isSome, List.mem_map]
  simp only [beq_iff_eq]

/-! ## The walk gives the join -/

/-- A pair is what two lists have at its time. -/
def IsPairOf (left right : List Sample) (pair : Option Sample × Option Sample) : Prop :=
  ∃ t, pairTime? pair = some t ∧ pair = (sampleAt? t left, sampleAt? t right)

/-- A time before both lists is before their pairs. -/
theorem lt_time_of_pairTime? {u : Timestamp} (hleft : ∀ x ∈ left, u < x.time)
    (hright : ∀ x ∈ right, u < x.time)
    (h : pairTime? (sampleAt? t left, sampleAt? t right) = some t) : u < t := by
  cases hl : sampleAt? t left with
  | some x =>
    obtain ⟨hx, rfl⟩ := sampleAt?_eq_some hl
    exact hleft x hx
  | none =>
    rw [hl] at h
    obtain ⟨y, hr, -⟩ := Option.map_eq_some_iff.mp h
    obtain ⟨hy, rfl⟩ := sampleAt?_eq_some hr
    exact hright y hy

/-- On the left, a sample before both lists makes no difference to their pairs. -/
theorem IsPairOf.cons_left (h : IsPairOf left right pair) (hleft : ∀ y ∈ left, x.time < y.time)
    (hright : ∀ y ∈ right, x.time < y.time) : IsPairOf (x :: left) right pair := by
  obtain ⟨t, ht, rfl⟩ := h
  refine ⟨t, ht, ?_⟩
  rw [sampleAt?_cons_of_lt (lt_time_of_pairTime? hleft hright ht)]

/-- On the right, a sample before both lists makes no difference to their pairs. -/
theorem IsPairOf.cons_right (h : IsPairOf left right pair) (hleft : ∀ y ∈ left, x.time < y.time)
    (hright : ∀ y ∈ right, x.time < y.time) : IsPairOf left (x :: right) pair := by
  obtain ⟨t, ht, rfl⟩ := h
  refine ⟨t, ht, ?_⟩
  rw [sampleAt?_cons_of_lt (lt_time_of_pairTime? hleft hright ht)]

/-- Two samples at one time before both lists, one on either side, make no difference to their
    pairs. -/
theorem IsPairOf.cons_both {y : Sample} (h : IsPairOf left right pair) (htime : x.time = y.time)
    (hleft : ∀ z ∈ left, x.time < z.time) (hright : ∀ z ∈ right, y.time < z.time) :
    IsPairOf (x :: left) (y :: right) pair := by
  obtain ⟨t, ht, rfl⟩ := h
  have hlt : x.time < t := lt_time_of_pairTime? hleft (htime ▸ hright) ht
  refine ⟨t, ht, ?_⟩
  rw [sampleAt?_cons_of_lt hlt, sampleAt?_cons_of_lt (htime ▸ hlt)]

/-- **Each pair is what the lists have at its time.**  The induction is on the walk. -/
theorem samplesAt_of_mem_pairUp (hleft : Series.Ascending left) (hright : Series.Ascending right)
    (h : pair ∈ pairUp keep left right) : IsPairOf left right pair := by
  have hnil : ∀ {u : Timestamp}, ∀ x ∈ ([] : List Sample), u < x.time :=
    fun _ hx => absurd hx List.not_mem_nil
  -- By the branches of the walk: the pair at hand is read off the fronts of the lists, and the
  -- pairs after it are later than both of these.
  fun_induction pairUp keep left right with
  | case1 => exact absurd h List.not_mem_nil
  | case2 l ls hdrop ih =>
    obtain ⟨hl, hleft⟩ := List.pairwise_cons.mp hleft
    exact (ih hleft hright h).cons_left hl hnil
  | case3 l ls hkeep ih =>
    obtain ⟨hl, hleft⟩ := List.pairwise_cons.mp hleft
    rcases List.mem_cons.mp h with rfl | h
    · exact ⟨l.time, rfl, by rw [sampleAt?_cons_self]; rfl⟩
    · exact (ih hleft hright h).cons_left hl hnil
  | case4 r rs hdrop ih =>
    obtain ⟨hr, hright⟩ := List.pairwise_cons.mp hright
    exact (ih hleft hright h).cons_right hnil hr
  | case5 r rs hkeep ih =>
    obtain ⟨hr, hright⟩ := List.pairwise_cons.mp hright
    rcases List.mem_cons.mp h with rfl | h
    · exact ⟨r.time, rfl, by rw [sampleAt?_cons_self]; rfl⟩
    · exact (ih hleft hright h).cons_right hnil hr
  | case6 l ls r rs hlt hkeep ih =>
    obtain ⟨hl, hleft⟩ := List.pairwise_cons.mp hleft
    have hr := before_of_ascending hright hlt
    rcases List.mem_cons.mp h with rfl | h
    · exact ⟨l.time, rfl, by rw [sampleAt?_cons_self, sampleAt?_eq_none hr]⟩
    · exact (ih hleft hright h).cons_left hl hr
  | case7 l ls r rs hlt hdrop ih =>
    obtain ⟨hl, hleft⟩ := List.pairwise_cons.mp hleft
    exact (ih hleft hright h).cons_left hl (before_of_ascending hright hlt)
  | case8 l ls r rs hle hlt hkeep ih =>
    obtain ⟨hr, hright⟩ := List.pairwise_cons.mp hright
    have hl := before_of_ascending hleft hlt
    rcases List.mem_cons.mp h with rfl | h
    · exact ⟨r.time, rfl, by rw [sampleAt?_cons_self, sampleAt?_eq_none hl]⟩
    · exact (ih hleft hright h).cons_right hl hr
  | case9 l ls r rs hle hlt hdrop ih =>
    obtain ⟨hr, hright⟩ := List.pairwise_cons.mp hright
    exact (ih hleft hright h).cons_right (before_of_ascending hleft hlt) hr
  | case10 l ls r rs hle hge ih =>
    -- neither is earlier, so the two times are one
    have htime : l.time = r.time := Int64.le_antisymm (Int64.not_lt.mp hge) (Int64.not_lt.mp hle)
    obtain ⟨hl, hleft⟩ := List.pairwise_cons.mp hleft
    obtain ⟨hr, hright⟩ := List.pairwise_cons.mp hright
    rcases List.mem_cons.mp h with rfl | h
    · exact ⟨l.time, rfl, by rw [sampleAt?_cons_self, htime, sampleAt?_cons_self]⟩
    · exact (ih hleft hright h).cons_both htime hl hr

/-- No sample on the left is lost, where unmatched ones are kept.  The lists need not ascend. -/
theorem left_of_pairUp (left right : List Sample) :
    (pairUp true left right).filterMap Prod.fst = left := by
  -- Each branch moves past a sample on the left together with a pair that has it, or past none
  -- there.
  fun_induction pairUp true left right with
  | case1 => rfl
  | case2 l ls hdrop ih => exact absurd hdrop.2 (by decide)
  | case3 l ls hkeep ih => exact congrArg (l :: ·) ih
  | case4 r rs hdrop ih => exact absurd hdrop.2 (by decide)
  | case5 r rs hkeep ih => exact ih
  | case6 l ls r rs hlt hkeep ih => exact congrArg (l :: ·) ih
  | case7 l ls r rs hlt hdrop ih => exact absurd rfl hdrop
  | case8 l ls r rs hle hlt hkeep ih => exact ih
  | case9 l ls r rs hle hlt hdrop ih => exact absurd rfl hdrop
  | case10 l ls r rs hle hge ih => exact congrArg (l :: ·) ih

/-- No sample on the right is lost either, as this is the left with the sides swapped. -/
theorem right_of_pairUp (left right : List Sample) :
    (pairUp true left right).filterMap Prod.snd = right := by
  rw [pairUp_swap, List.filterMap_map]
  exact left_of_pairUp right left

/-- Where unmatched samples are kept, the times of the pairs are those of the samples. -/
theorem mem_pairTimes_iff (hleft : Series.Ascending left) (hright : Series.Ascending right) :
    t ∈ pairTimes true left right ↔ t ∈ left.map Sample.time ∨ t ∈ right.map Sample.time := by
  refine ⟨mem_pairTimes, ?_⟩
  rintro (ht | ht)
  · obtain ⟨x, hx, rfl⟩ := List.mem_map.mp ht
    rw [← left_of_pairUp left right] at hx
    obtain ⟨⟨l, r⟩, hpair, rfl⟩ := List.mem_filterMap.mp hx
    exact List.mem_filterMap.mpr ⟨(some x, r), hpair, rfl⟩
  · obtain ⟨y, hy, rfl⟩ := List.mem_map.mp ht
    rw [← right_of_pairUp left right] at hy
    obtain ⟨⟨l, r⟩, hpair, rfl⟩ := List.mem_filterMap.mp hy
    -- the sample on the left, if there is one, stands at the same time
    obtain ⟨t, ht, hsides⟩ := samplesAt_of_mem_pairUp hleft hright hpair
    obtain ⟨-, rfl⟩ := sampleAt?_eq_some (Prod.mk.inj hsides).2.symm
    exact List.mem_filterMap.mpr ⟨(l, some y), hpair, ht⟩

/-- The times of the pairs and those of the join are one list, since both ascend. -/
theorem pairTimes_eq_unionTimes (hleft : Series.Ascending left) (hright : Series.Ascending right) :
    pairTimes true left right = unionTimes left right :=
  (pairTimes_ascending true hleft hright).eq_of_mem_iff unionTimes_ascending fun _ =>
    (mem_pairTimes_iff hleft hright).trans mem_unionTimes.symm

/-- **Where unmatched samples are kept, the walk gives the join.** -/
theorem pairUp_eq_outerJoin (hleft : Series.Ascending left) (hright : Series.Ascending right) :
    pairUp true left right = outerJoin left right := by
  rw [outerJoin, ← pairTimes_eq_unionTimes hleft hright, pairTimes, List.map_filterMap]
  -- A pair is what the lists have at its time, so it is found again by this time.
  have hself : ∀ pair ∈ pairUp true left right,
      (pairTime? pair).map (fun t => (sampleAt? t left, sampleAt? t right)) = some pair := by
    intro pair hpair
    obtain ⟨t, ht, hsides⟩ := samplesAt_of_mem_pairUp hleft hright hpair
    rw [ht, hsides]
    rfl
  rw [List.filterMap_congr hself, List.filterMap_some]

/-! ## What is left out -/

/-- A pair that is handed on in any case: both samples are there, or the one that is there stands at
    the last instant. -/
def AlwaysPaired (pair : Option Sample × Option Sample) : Prop :=
  (pair.1.isSome ∧ pair.2.isSome) ∨ pairTime? pair = some Int64.maxValue

instance (pair : Option Sample × Option Sample) : Decidable (AlwaysPaired pair) :=
  inferInstanceAs (Decidable (_ ∨ _))

/-- A lone sample on the left is handed on at the last instant only. -/
theorem alwaysPaired_left : AlwaysPaired (some x, none) ↔ x.time = Int64.maxValue := by
  simp [AlwaysPaired, pairTime?]

/-- A lone sample on the right is handed on at the last instant only. -/
theorem alwaysPaired_right : AlwaysPaired (none, some x) ↔ x.time = Int64.maxValue := by
  simp [AlwaysPaired, pairTime?]

/-- Where unmatched samples are not kept, the other pairs are left out.  The lists need not ascend:
    a sample that is earlier than another one does not stand at the last instant. -/
theorem pairUp_false (left right : List Sample) :
    pairUp false left right = (pairUp true left right).filter fun pair => AlwaysPaired pair := by
  -- To be before the last instant is not to stand at it.
  have hbefore : ∀ {u : Timestamp}, u < Int64.maxValue ↔ ¬ u = Int64.maxValue := fun {u} =>
    Int64.lt_iff_le_and_ne.trans (and_iff_right (Int64.le_maxValue u))
  have hearlier : ∀ {u v : Timestamp}, u < v → ¬ u = Int64.maxValue := fun {_ v} hlt =>
    hbefore.mp (Int64.lt_of_lt_of_le hlt (Int64.le_maxValue v))
  fun_induction pairUp true left right with
  | case1 => rw [pairUp]; rfl
  | case2 l ls hdrop ih => exact absurd hdrop.2 (by decide)
  | case3 l ls hkeep ih =>
    rw [pairUp, List.filter_cons, ih]
    simp only [hbefore, and_true, alwaysPaired_left, decide_eq_true_eq, ite_not]
  | case4 r rs hdrop ih => exact absurd hdrop.2 (by decide)
  | case5 r rs hkeep ih =>
    rw [pairUp, List.filter_cons, ih]
    simp only [hbefore, and_true, alwaysPaired_right, decide_eq_true_eq, ite_not]
  | case6 l ls r rs hlt hkeep ih =>
    rw [pairUp, if_pos hlt, if_neg Bool.false_ne_true, List.filter_cons_of_neg, ih]
    simpa only [decide_eq_true_eq, alwaysPaired_left] using hearlier hlt
  | case7 l ls r rs hlt hdrop ih => exact absurd rfl hdrop
  | case8 l ls r rs hle hlt hkeep ih =>
    rw [pairUp, if_neg hle, if_pos hlt, if_neg Bool.false_ne_true, List.filter_cons_of_neg, ih]
    simpa only [decide_eq_true_eq, alwaysPaired_right] using hearlier hlt
  | case9 l ls r rs hle hlt hdrop ih => exact absurd rfl hdrop
  | case10 l ls r rs hle hge ih =>
    rw [pairUp, if_neg hle, if_neg hge, List.filter_cons_of_pos, ih]
    exact decide_eq_true (.inl ⟨rfl, rfl⟩)

/-! ## The calls at one time -/

/-- Whether a sample of the pair stands at a time. -/
def standsAt (t : Timestamp) (pair : Option Sample × Option Sample) : Bool :=
  pair.1.any (fun x => x.time == t) || pair.2.any (fun x => x.time == t)

/-- In the join, a sample of the pair for one time stands at this time. -/
theorem standsAt_samplesAt {u : Timestamp} (h : u ∈ unionTimes left right) :
    standsAt t (sampleAt? u left, sampleAt? u right) = (u == t) := by
  rw [mem_unionTimes, ← isSome_sampleAt?, ← isSome_sampleAt?] at h
  have hside : ∀ samples, (sampleAt? u samples).any (fun x => x.time == t) =
      ((sampleAt? u samples).isSome && u == t) := by
    intro samples
    cases hat : sampleAt? u samples with
    | none => rfl
    | some x =>
      obtain ⟨-, rfl⟩ := sampleAt?_eq_some hat
      rfl
  rw [standsAt, hside, hside, ← Bool.and_or_distrib_right, (Bool.or_eq_true ..).mpr h,
    Bool.true_and]

/-- The join has one pair for each time. -/
theorem filter_standsAt_outerJoin (h : t ∈ unionTimes left right) :
    (outerJoin left right).filter (standsAt t) = [(sampleAt? t left, sampleAt? t right)] := by
  have hnodup : (unionTimes left right).Nodup := unionTimes_ascending.imp Int64.ne_of_lt
  rw [outerJoin, List.filter_map]
  have htime : ∀ u ∈ unionTimes left right,
      (standsAt t ∘ fun u => (sampleAt? u left, sampleAt? u right)) u = (u == t) :=
    fun u hu => standsAt_samplesAt hu
  rw [List.filter_congr htime, List.filter_beq, List.count_eq_one_of_mem hnodup h]
  rfl

/-- Two samples at one time meet, whether or not unmatched ones are kept. -/
theorem filter_standsAt_pairUp {y : Sample} (hleft : Series.Ascending left)
    (hright : Series.Ascending right) (hx : x ∈ left) (hy : y ∈ right) (htime : x.time = y.time) :
    (pairUp keep left right).filter (standsAt x.time) = [(some x, some y)] := by
  have hunion : x.time ∈ unionTimes left right :=
    mem_unionTimes.mpr (.inl (List.mem_map_of_mem hx))
  have hpair := filter_standsAt_outerJoin hunion
  rw [sampleAt?_of_mem hleft hx, htime, sampleAt?_of_mem hright hy, ← htime,
    ← pairUp_eq_outerJoin hleft hright] at hpair
  cases keep with
  | true => exact hpair
  | false =>
    have hboth : AlwaysPaired (some x, some y) := .inl ⟨rfl, rfl⟩
    rw [pairUp_false, List.filter_comm, hpair]
    exact List.filter_cons_of_pos (decide_eq_true hboth)

/-! ## What comes out -/

/-- The items, if there are any. -/
def unlessEmpty {α : Type} : List α → Option (List α)
  | [] => none
  | items => some items

/-- There is nothing only without items. -/
theorem unlessEmpty_eq_none_iff {α : Type} {items : List α} :
    unlessEmpty items = none ↔ items = [] := by
  cases items <;> simp [unlessEmpty]

/-- Items that are there are all of them. -/
theorem eq_of_unlessEmpty {α : Type} {items kept : List α} (h : unlessEmpty items = some kept) :
    items = kept := by
  cases items with
  | nil => cases h
  | cons x xs => exact Option.some.inj h

/-- The samples of a combination are those that are made of the pairs, in their order. -/
theorem samples_align (p : Projection) (l r : Series) :
    (p.align l r).map Series.samples =
      unlessEmpty ((pairUp p.keepUnmatched l.samples r.samples).filterMap fun (x, y) =>
        p.combine x y) := by
  unfold Projection.align
  dsimp only
  -- whatever the samples are, an empty list of them makes no series
  generalize (pairUp p.keepUnmatched l.samples r.samples).filterMap _ = produced
  cases produced with
  | nil => rfl
  | cons x rest => rfl

/-- Arithmetic makes a sample of every pair, at its time. -/
theorem times_align (a : Arithmetic) (l r : Series) :
    ((a.projection.align l r).map fun out => out.samples.map Sample.time) =
      unlessEmpty (pairTimes a.keepUnmatched l.samples r.samples) := by
  have htime : ∀ pair : Option Sample × Option Sample,
      (a.projection.combine pair.1 pair.2).map Sample.time = pairTime? pair := by
    rintro ⟨_ | x, _ | y⟩
    · rfl
    · rfl
    · rfl
    · rfl
  -- Whether samples are there does not depend on what is read of them.
  have hmap : ∀ {produced : List Sample}, (unlessEmpty produced).map (List.map Sample.time) =
      unlessEmpty (produced.map Sample.time) := by
    rintro (_ | ⟨x, rest⟩)
    · rfl
    · rfl
  have hcompose : (fun out : Series => out.samples.map Sample.time) =
      List.map Sample.time ∘ Series.samples := rfl
  rw [hcompose, ← Option.map_map, samples_align, hmap, List.map_filterMap, pairTimes,
    List.filterMap_congr fun pair _ => htime pair]
  rfl

/-- **Where unmatched samples are kept, combining loses nothing.**  Kept or not, the samples that
    come out are made of the pairs, one after the other, and two samples at one time make exactly
    one of the pairs.  Where unmatched samples are kept, the pairs are the full outer join, and
    arithmetic makes a sample at every time of the two series. -/
theorem align_outerJoin (p : Projection) {l r : Series} (hl : Series.Ascending l.samples)
    (hr : Series.Ascending r.samples) :
    (p.align l r).map Series.samples =
      unlessEmpty ((pairUp p.keepUnmatched l.samples r.samples).filterMap fun (x, y) =>
        p.combine x y) ∧
    (∀ x ∈ l.samples, ∀ y ∈ r.samples, x.time = y.time →
      (pairUp p.keepUnmatched l.samples r.samples).filter (standsAt x.time) =
        [(some x, some y)]) ∧
    (p.keepUnmatched = true →
      pairUp p.keepUnmatched l.samples r.samples = outerJoin l.samples r.samples ∧
      (p.align l r).map Series.samples =
        unlessEmpty ((outerJoin l.samples r.samples).filterMap fun (x, y) => p.combine x y)) ∧
    ∀ a : Arithmetic, a.keepUnmatched = true →
      ((a.projection.align l r).map fun out => out.samples.map Sample.time) =
        unlessEmpty (unionTimes l.samples r.samples) := by
  refine ⟨samples_align p l r,
    fun x hx y hy htime => filter_standsAt_pairUp hl hr hx hy htime, fun hkeep => ?_,
    fun a hkeep => ?_⟩
  · have hpairs : pairUp p.keepUnmatched l.samples r.samples = outerJoin l.samples r.samples := by
      rw [hkeep]
      exact pairUp_eq_outerJoin hl hr
    rw [samples_align, hpairs]
    exact ⟨rfl, rfl⟩
  · rw [times_align, hkeep, pairTimes_eq_unionTimes hl hr]

/-- Times below zero and at the last instant, of which both sides have the last one and one more. -/
theorem align_outerJoin_usage :
    let l : Series :=
      { samples := [⟨-5, 1.0⟩, ⟨0, 2.0⟩, ⟨Int64.maxValue, 3.0⟩], labels := .empty, minTime := -5,
        maxTime := Int64.maxValue, step := 5, title := none }
    let r : Series :=
      { samples := [⟨0, 4.0⟩, ⟨7, 5.0⟩, ⟨Int64.maxValue, 6.0⟩], labels := .empty, minTime := 0,
        maxTime := Int64.maxValue, step := 7, title := none }
    let a : Arithmetic := ⟨.add, "right", [], true⟩
    Series.Ascending l.samples ∧ Series.Ascending r.samples ∧ a.projection.keepUnmatched = true ∧
    (a.projection.align l r).map Series.samples =
      unlessEmpty ((pairUp a.projection.keepUnmatched l.samples r.samples).filterMap fun (x, y) =>
        a.projection.combine x y) ∧
    (pairUp a.projection.keepUnmatched l.samples r.samples).filter (standsAt Int64.maxValue) =
      [(some ⟨Int64.maxValue, 3.0⟩, some ⟨Int64.maxValue, 6.0⟩)] ∧
    pairUp a.projection.keepUnmatched l.samples r.samples = outerJoin l.samples r.samples ∧
    ((a.projection.align l r).map fun out => out.samples.map Sample.time) =
      unlessEmpty (unionTimes l.samples r.samples) := by
  intro l r a
  have hl : Series.Ascending l.samples := by unfold Series.Ascending; decide
  have hr : Series.Ascending r.samples := by unfold Series.Ascending; decide
  obtain ⟨hsamples, hcommon, hkept, htimes⟩ := align_outerJoin a.projection hl hr
  exact ⟨hl, hr, rfl, hsamples, hcommon ⟨Int64.maxValue, 3.0⟩ (by simp [l]) ⟨Int64.maxValue, 6.0⟩
    (by simp [r]) rfl, (hkept rfl).1, htimes a rfl⟩

/-! ## What comes out without unmatched samples -/

/-- The pair of a time of the join stands at this time. -/
theorem pairTime?_samplesAt (h : t ∈ unionTimes left right) :
    pairTime? (sampleAt? t left, sampleAt? t right) = some t := by
  rw [mem_unionTimes, ← isSome_sampleAt?, ← isSome_sampleAt?] at h
  cases hl : sampleAt? t left with
  | some x => exact congrArg some (sampleAt?_eq_some hl).2
  | none =>
    rw [hl] at h
    obtain ⟨y, hr⟩ := Option.isSome_iff_exists.mp (h.resolve_left Bool.false_ne_true)
    rw [hr]
    exact congrArg some (sampleAt?_eq_some hr).2

/-- A time that both lists have. -/
def Shared (left right : List Sample) (t : Timestamp) : Prop :=
  t ∈ left.map Sample.time ∧ t ∈ right.map Sample.time

instance (left right : List Sample) (t : Timestamp) : Decidable (Shared left right t) :=
  inferInstanceAs (Decidable (_ ∧ _))

/-- Which times are left: those of both lists, and the last instant. -/
theorem alwaysPaired_samplesAt (h : t ∈ unionTimes left right) :
    AlwaysPaired (sampleAt? t left, sampleAt? t right) ↔
      Shared left right t ∨ t = Int64.maxValue := by
  rw [AlwaysPaired, pairTime?_samplesAt h, isSome_sampleAt?, isSome_sampleAt?, Option.some.injEq,
    Shared]

/-- **The times without unmatched samples** are the shared ones, and the last instant. -/
theorem pairTimes_false (hleft : Series.Ascending left) (hright : Series.Ascending right) :
    pairTimes false left right =
      (unionTimes left right).filter fun t => Shared left right t ∨ t = Int64.maxValue := by
  -- The test on pairs becomes one on their times.
  have hkept : ∀ t ∈ unionTimes left right,
      ((fun pair => decide (AlwaysPaired pair)) ∘
        fun t => (sampleAt? t left, sampleAt? t right)) t =
          decide (Shared left right t ∨ t = Int64.maxValue) :=
    fun t ht => decide_eq_decide.mpr (alwaysPaired_samplesAt ht)
  have htime : ∀ t ∈ unionTimes left right,
      (pairTime? ∘ fun t => (sampleAt? t left, sampleAt? t right)) t = some t :=
    fun t ht => pairTime?_samplesAt ht
  rw [pairTimes, pairUp_false, pairUp_eq_outerJoin hleft hright, outerJoin, List.filter_map,
    List.filterMap_map, List.filter_congr hkept,
    List.filterMap_congr fun t ht => htime t (List.mem_of_mem_filter ht), List.filterMap_some]

/-- **A lone sample is handed on at the last instant only**, where both sides have a sample or
    neither has, if none is. -/
theorem lone_pair_iff (hleft : Series.Ascending left) (hright : Series.Ascending right) :
    (∀ pair ∈ pairUp false left right, pair.1.isSome ∧ pair.2.isSome) ↔
      (Int64.maxValue ∈ left.map Sample.time ↔ Int64.maxValue ∈ right.map Sample.time) := by
  rw [pairUp_false, pairUp_eq_outerJoin hleft hright, ← isSome_sampleAt?, ← isSome_sampleAt?]
  constructor
  · intro h
    -- The pair of the last instant is handed on, if there is one, and so has both samples.
    have hlast : Int64.maxValue ∈ unionTimes left right →
        (sampleAt? Int64.maxValue left).isSome ∧ (sampleAt? Int64.maxValue right).isSome := by
      intro hunion
      exact h _ (List.mem_filter.mpr ⟨List.mem_map_of_mem hunion,
        decide_eq_true ((alwaysPaired_samplesAt hunion).mpr (.inr rfl))⟩)
    rw [mem_unionTimes, ← isSome_sampleAt?, ← isSome_sampleAt?] at hlast
    exact ⟨fun hl => (hlast (.inl hl)).2, fun hr => (hlast (.inr hr)).1⟩
  · intro h pair hpair
    obtain ⟨hjoin, halways⟩ := List.mem_filter.mp hpair
    obtain ⟨t, hunion, rfl⟩ := List.mem_map.mp hjoin
    -- At a shared time both have a sample; at the last instant both or neither.
    rcases (alwaysPaired_samplesAt hunion).mp (of_decide_eq_true halways) with hboth | rfl
    · rw [isSome_sampleAt?, isSome_sampleAt?]
      exact hboth
    · rw [mem_unionTimes, ← isSome_sampleAt?, ← isSome_sampleAt?] at hunion
      exact hunion.elim (fun hl => ⟨hl, h.mp hl⟩) fun hr => ⟨h.mpr hr, hr⟩

/-- The samples that arithmetic makes of them stand there. -/
theorem times_align_false {a : Arithmetic} (ha : a.keepUnmatched = false) {l r : Series}
    (hl : Series.Ascending l.samples) (hr : Series.Ascending r.samples) :
    ((a.projection.align l r).map fun out => out.samples.map Sample.time) =
      unlessEmpty ((unionTimes l.samples r.samples).filter fun t =>
        Shared l.samples r.samples t ∨ t = Int64.maxValue) := by
  rw [times_align, ha, pairTimes_false hl hr]

/-- If the last instant is in both lists or in neither, it is no exception. -/
theorem filter_shared (hlast : Int64.maxValue ∈ left.map Sample.time ↔
      Int64.maxValue ∈ right.map Sample.time) :
    ((unionTimes left right).filter fun t => Shared left right t ∨ t = Int64.maxValue) =
      (unionTimes left right).filter fun t => Shared left right t := by
  refine List.filter_congr fun t ht => decide_eq_decide.mpr ?_
  refine or_iff_left_of_imp ?_
  rintro rfl
  rcases mem_unionTimes.mp ht with hl | hr
  · exact ⟨hl, hlast.mp hl⟩
  · exact ⟨hlast.mpr hr, hr⟩

/-- The times that come out are then shared, and none comes out only if none is. -/
theorem align_shared {a : Arithmetic} (ha : a.keepUnmatched = false) {l r : Series}
    (hl : Series.Ascending l.samples) (hr : Series.Ascending r.samples)
    (hlast : Int64.maxValue ∈ l.samples.map Sample.time ↔
      Int64.maxValue ∈ r.samples.map Sample.time) :
    (∀ out, a.projection.align l r = some out →
      ∀ x ∈ out.samples, Shared l.samples r.samples x.time) ∧
    (a.projection.align l r = none ↔ ∀ t, ¬ Shared l.samples r.samples t) := by
  have htimes := times_align_false ha hl hr
  rw [filter_shared hlast] at htimes
  constructor
  · intro out hout x hx
    rw [hout, Option.map_some] at htimes
    have hmem : x.time ∈ out.samples.map Sample.time := List.mem_map_of_mem hx
    have hsame := eq_of_unlessEmpty htimes.symm
    rw [← hsame] at hmem
    exact of_decide_eq_true (List.mem_filter.mp hmem).2
  · rw [← Option.map_eq_none_iff, htimes, unlessEmpty_eq_none_iff, List.filter_eq_nil_iff]
    constructor
    · intro h t ht
      exact h t (mem_unionTimes.mpr (.inl ht.1)) (decide_eq_true ht)
    · intro h t _ ht
      exact h t (of_decide_eq_true ht)

/-- **Where unmatched samples are not kept, they do not get through, but for the last instant.** If
    no series has a lone sample there, every time that comes out is shared, and nothing comes out
    only if no time is. -/
theorem align_alwaysPaired (p : Projection) (hkeep : p.keepUnmatched = false) {l r : Series}
    (hl : Series.Ascending l.samples) (hr : Series.Ascending r.samples) :
    pairUp p.keepUnmatched l.samples r.samples =
        (outerJoin l.samples r.samples).filter (fun pair => AlwaysPaired pair) ∧
    ((∀ pair ∈ pairUp p.keepUnmatched l.samples r.samples, pair.1.isSome ∧ pair.2.isSome) ↔
      (Int64.maxValue ∈ l.samples.map Sample.time ↔ Int64.maxValue ∈ r.samples.map Sample.time)) ∧
    ∀ a : Arithmetic, a.keepUnmatched = false →
      ((a.projection.align l r).map fun out => out.samples.map Sample.time) =
        unlessEmpty ((unionTimes l.samples r.samples).filter fun t =>
          Shared l.samples r.samples t ∨ t = Int64.maxValue) ∧
      ((Int64.maxValue ∈ l.samples.map Sample.time ↔
          Int64.maxValue ∈ r.samples.map Sample.time) →
        (∀ out, a.projection.align l r = some out →
          ∀ x ∈ out.samples, Shared l.samples r.samples x.time) ∧
        (a.projection.align l r = none ↔ ∀ t, ¬ Shared l.samples r.samples t)) := by
  rw [hkeep]
  refine ⟨?_, lone_pair_iff hl hr, fun a ha => ⟨times_align_false ha hl hr, align_shared ha hl hr⟩⟩
  rw [pairUp_false, pairUp_eq_outerJoin hl hr]

/-- Unmatched samples on both sides, one of them next to the last instant, and a time that both
    have. -/
theorem align_alwaysPaired_usage :
    let l : Series :=
      { samples := [⟨-5, 1.0⟩, ⟨0, 2.0⟩], labels := .empty, minTime := -5, maxTime := 0, step := 5,
        title := none }
    let r : Series :=
      { samples := [⟨0, 4.0⟩, ⟨Int64.maxValue - 1, 5.0⟩], labels := .empty, minTime := 0,
        maxTime := Int64.maxValue, step := 7, title := none }
    let a : Arithmetic := ⟨.add, "right", [], false⟩
    a.projection.keepUnmatched = false ∧ Series.Ascending l.samples ∧ Series.Ascending r.samples ∧
    (∀ pair ∈ pairUp a.projection.keepUnmatched l.samples r.samples,
      pair.1.isSome ∧ pair.2.isSome) ∧
    a.keepUnmatched = false ∧
    (Int64.maxValue ∈ l.samples.map Sample.time ↔ Int64.maxValue ∈ r.samples.map Sample.time) ∧
    ((a.projection.align l r).map fun out => out.samples.map Sample.time) =
      unlessEmpty ((unionTimes l.samples r.samples).filter fun t =>
        Shared l.samples r.samples t ∨ t = Int64.maxValue) ∧
    a.projection.align l r ≠ none := by
  intro l r a
  have hl : Series.Ascending l.samples := by unfold Series.Ascending; decide
  have hr : Series.Ascending r.samples := by unfold Series.Ascending; decide
  have hlast : Int64.maxValue ∈ l.samples.map Sample.time ↔
      Int64.maxValue ∈ r.samples.map Sample.time := by decide
  obtain ⟨-, hboth, harithmetic⟩ := align_alwaysPaired a.projection rfl hl hr
  obtain ⟨htimes, hshared⟩ := harithmetic a rfl
  have hzero : Shared l.samples r.samples 0 := by decide
  exact ⟨rfl, hl, hr, hboth.mpr hlast, rfl, hlast, htimes,
    fun hnone => (hshared hlast).2.mp hnone 0 hzero⟩

/-- **At the last instant a lone sample does get through.**  The two series have no time in common,
    and yet a sample comes out. -/
theorem lone_sample_combined :
    let l : Series :=
      { samples := [⟨Int64.maxValue, 1.0⟩], labels := .empty, minTime := Int64.maxValue,
        maxTime := Int64.maxValue, step := 10, title := none }
    let r : Series :=
      { samples := [⟨0, 2.0⟩], labels := .empty, minTime := 0, maxTime := 0, step := 10,
        title := none }
    let a : Arithmetic := ⟨.add, "right", [], false⟩
    Series.Ascending l.samples ∧ Series.Ascending r.samples ∧
    (∀ t, ¬ Shared l.samples r.samples t) ∧
    pairUp a.projection.keepUnmatched l.samples r.samples =
      [(some ⟨Int64.maxValue, 1.0⟩, none)] ∧
    (a.projection.align l r).map Series.samples =
      some [⟨Int64.maxValue, Binary64.notANumber⟩] := by
  intro l r a
  have hl : Series.Ascending l.samples := List.pairwise_singleton _ _
  have hr : Series.Ascending r.samples := List.pairwise_singleton _ _
  have hshared : ∀ t, ¬ Shared l.samples r.samples t := by
    rintro t ⟨hleft, hright⟩
    obtain rfl := List.mem_singleton.mp hleft
    exact absurd (List.mem_singleton.mp hright) (by decide)
  have hpairs : pairUp a.projection.keepUnmatched l.samples r.samples =
      [(some ⟨Int64.maxValue, 1.0⟩, none)] := by
    show pairUp false [⟨Int64.maxValue, 1.0⟩] [⟨0, 2.0⟩] = _
    rw [pairUp, if_neg (by decide), if_pos (by decide), if_neg Bool.false_ne_true, pairUp,
      if_neg (by decide), pairUp]
  refine ⟨hl, hr, hshared, hpairs, ?_⟩
  rw [samples_align, hpairs]
  rfl

end SeriesQuery
