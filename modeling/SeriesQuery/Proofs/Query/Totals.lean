/-
  The totals of a profile.

  Counters and times are added up by additions that stop at the largest number there is.  A sum
  which has stopped stays where it is, as long as nothing negative is added.  So the sum made in
  steps is the exact sum, cut once (`foldl_clamped`), and neither the order of the shards nor that
  of their entries has an influence on it.

  A report keeps its counters in a list, in the order of their names, and looks them up by name.
  As long as every name has its counter (`Complete`), adding the lists is adding for each of the
  names, so that every counter of the totals is a sum of its own (`foldl_add`).
-/
import SeriesQuery.Proofs.Timestamps
import SeriesQuery.Query.Profile
import Mathlib.Algebra.BigOperators.Group.List.Basic
import Mathlib.Algebra.Order.BigOperators.Group.List
import Mathlib.Algebra.Order.Ring.Int
import Mathlib.Algebra.Order.Ring.Nat
import Mathlib.Algebra.Order.Monoid.Unbundled.MinMax
import Mathlib.Data.List.Perm.Basic

namespace SeriesQuery

/-! ## Sums that stop

A sum of amounts that are not negative, in steps that stop at the top, agrees with the exact sum,
cut at the end: having stopped, it stays at the top, and the exact sum is beyond.  This is said once
for any ordered monoid, and used for counters and for times. -/

section Clamped

variable {σ α M : Type} [AddCommMonoid M] [LinearOrder M] [IsOrderedAddMonoid M]

/-- What is cut before an amount is added is beyond the top with it and without it. -/
theorem min_add_min {top a s : M} (ha : 0 ≤ a) : min top (a + min top s) = min top (a + s) := by
  rw [← min_add_add_left, ← min_assoc, min_eq_left (le_add_of_nonneg_left ha)]

/-- Amounts that are cut before they are added have the same sum, once that is cut as well. -/
theorem min_sum_min {top : M} (htop : 0 ≤ top) {amount : α → M} (hamount : ∀ x, 0 ≤ amount x)
    (items : List α) :
    min top (items.map fun x => min top (amount x)).sum = min top (items.map amount).sum := by
  induction items with
  | nil => rfl
  | cons x rest ih =>
    have hcut : 0 ≤ (rest.map fun x => min top (amount x)).sum :=
      List.sum_nonneg (List.forall_mem_map.mpr fun x _ => le_min htop (hamount x))
    rw [List.map_cons, List.sum_cons, List.map_cons, List.sum_cons]
    calc min top (min top (amount x) + (rest.map fun x => min top (amount x)).sum)
        = min top (amount x + (rest.map fun x => min top (amount x)).sum) := by
          rw [add_comm, min_add_min hcut, add_comm]
      _ = min top (amount x + min top (rest.map amount).sum) := by
          rw [← min_add_min (hamount x), ih]
      _ = min top (amount x + (rest.map amount).sum) := min_add_min (hamount x)

/-- **A sum made in steps that stop is the exact sum, cut once**, for amounts that are not
    negative. -/
theorem foldl_clamped (read : σ → M) {step : σ → α → σ} {amount : α → M} {top : M}
    (hstep : ∀ s x, 0 ≤ amount x → read (step s x) = min top (read s + amount x))
    {items : List α} (hitems : ∀ x ∈ items, 0 ≤ amount x) {s : σ} (hs : read s ≤ top) :
    read (items.foldl step s) = min top (read s + (items.map amount).sum) := by
  induction items generalizing s with
  | nil => simpa using hs
  | cons x rest ih =>
    obtain ⟨hx, hrest⟩ := List.forall_mem_cons.mp hitems
    have hsum : 0 ≤ (rest.map amount).sum := List.sum_nonneg (by simpa using hrest)
    have hread := hstep s x hx
    have hnext : read (step s x) ≤ top := hread ▸ min_le_left _ _
    calc read (rest.foldl step (step s x))
        = min top (min top (read s + amount x) + (rest.map amount).sum) := by
          rw [ih hrest hnext, hread]
      _ = min top (read s + amount x + (rest.map amount).sum) := by
          -- where the step has stopped, the exact sum is beyond the top as well
          rw [add_comm, min_add_min hsum, add_comm]
      _ = min top (read s + ((x :: rest).map amount).sum) := by
          rw [List.map_cons, List.sum_cons, add_assoc]

end Clamped

/-- A number that is not too small is cut at the greatest counter. -/
theorem toInt_saturate {n : Int} (h : Int64.minValue.toInt ≤ n) :
    (saturate n).toInt = min Int64.maxValue.toInt n := by
  rw [saturate, if_neg (by omega)]
  by_cases hlarge : Int64.maxValue.toInt < n
  · rw [if_pos hlarge, min_eq_left (by omega)]
  · rw [if_neg hlarge, toInt_ofInt_of_fits ⟨h, by omega⟩, min_eq_right (by omega)]

/-- A time is cut at the greatest number of nanoseconds. -/
theorem toNat_toNanos (time : Nat) : (toNanos time).toNat = min (UInt64.size - 1) time := by
  rw [toNanos]
  by_cases hfits : time < UInt64.size
  · rw [if_pos hfits, UInt64.toNat_ofNat_of_lt' hfits, Nat.min_eq_right (by omega)]
  · rw [if_neg hfits, UInt64.toNat_ofNat_of_lt' (by decide), Nat.min_eq_left (by omega)]

namespace ProfileStats

/-- Adding a counter that is not negative stops at the top, and nowhere else. -/
theorem toInt_addCounter (a : Int64) {b : Int64} (hb : 0 ≤ b.toInt) :
    (addCounter a b).toInt = min Int64.maxValue.toInt (a.toInt + b.toInt) := by
  have ha : Int64.minValue.toInt ≤ a.toInt := (fits_toInt a).1
  exact toInt_saturate (by omega)

-- with a negative counter, the order would matter
example : addCounter (addCounter Int64.maxValue 1) (-1) ≠
    addCounter (addCounter Int64.maxValue (-1)) 1 := by decide

/-- Adding times stops at the top. -/
theorem toNat_addNanos (a b : UInt64) :
    (addNanos a b).toNat = min (UInt64.size - 1) (a.toNat + b.toNat) :=
  toNat_toNanos (a.toNat + b.toNat)

/-! ## Counters by name

Statistics are added place by place.  As long as both sides have a counter for each name, in the
order of the names, this is addition name by name. -/

variable {s t : ProfileStats} {stats : List ProfileStats} {name : String}

/-- Whether every name has its counter. -/
def Complete (s : ProfileStats) : Prop := s.counters = counterNames.map s.get

/-- A counter that was listed under its name is found there. -/
theorem get_of_map {f : String → Int64} (h : s.counters = counterNames.map f)
    (hname : name ∈ counterNames) : s.get name = f name := by
  -- By induction on the names: the first one that matches is the one looked for.
  have hlookup : ∀ names : List String, name ∈ names →
      (names.zip (names.map f)).lookup name = some (f name) := by
    intro names hmem
    induction names with
    | nil => exact absurd hmem List.not_mem_nil
    | cons first rest ih =>
      rw [List.map_cons, List.zip_cons_cons]
      by_cases hfirst : name = first
      · rw [hfirst, List.lookup_cons_self]
      · rw [List.lookup_cons, beq_eq_false_iff_ne.mpr hfirst]
        exact ih ((List.mem_cons.mp hmem).resolve_left hfirst)
  rw [get, h, hlookup counterNames hname]
  rfl

/-- Counters that were listed for all names are complete. -/
theorem complete_of_map {f : String → Int64} (h : s.counters = counterNames.map f) :
    s.Complete :=
  h.trans (List.map_congr_left fun _ hname => (get_of_map h hname).symm)

/-- The totals start complete. -/
theorem complete_empty : Complete {} := complete_of_map (f := fun _ => 0) rfl

/-- In empty totals every counter is zero. -/
theorem get_empty (hname : name ∈ counterNames) : get {} name = 0 :=
  get_of_map (f := fun _ => 0) rfl hname

/-- What is read from an entry is complete. -/
theorem complete_ofEntry (e : ProfileEntry) : (ofEntry e).Complete :=
  complete_of_map (f := counter e.debug) rfl

/-- The counters read from an entry are those that it states. -/
theorem get_ofEntry (e : ProfileEntry) (hname : name ∈ counterNames) :
    (ofEntry e).get name = counter e.debug name :=
  get_of_map rfl hname

/-- The labels, the time and the counters by name are all there is. -/
theorem Complete.ext (hs : s.Complete) (ht : t.Complete)
    (hdescription : s.description = t.description) (hstages : s.stages = t.stages)
    (hnanos : s.nanos = t.nanos) (hget : ∀ name ∈ counterNames, s.get name = t.get name) :
    s = t := by
  have hcounters : s.counters = t.counters := by
    rw [hs, ht]
    exact List.map_congr_left hget
  cases s
  cases t
  rw [mk.injEq]
  exact ⟨hdescription, hstages, hnanos, hcounters⟩

/-- Complete counters are added name by name. -/
theorem counters_add (hs : s.Complete) (ht : t.Complete) :
    (s.add t).counters = counterNames.map fun name => addCounter (s.get name) (t.get name) := by
  rw [add, hs, ht, List.zipWith_map, List.zipWith_self]

/-- **Every counter of the totals is a sum of its own**, and no label comes to them. -/
theorem foldl_add (hs : s.Complete) (hstats : ∀ t ∈ stats, t.Complete) :
    (stats.foldl add s).Complete ∧
    (stats.foldl add s).description = s.description ∧
    (stats.foldl add s).stages = s.stages ∧
    ∀ name ∈ counterNames, (stats.foldl add s).get name =
      (stats.map fun t => t.get name).foldl addCounter (s.get name) := by
  -- The totals so far are any complete ones, since they change with each of the statistics.
  induction stats generalizing s with
  | nil => exact ⟨hs, rfl, rfl, fun _ _ => rfl⟩
  | cons t rest ih =>
    obtain ⟨ht, hrest⟩ := List.forall_mem_cons.mp hstats
    have hcounters := counters_add hs ht
    obtain ⟨hcomplete, hdescription, hstages, hget⟩ := ih (complete_of_map hcounters) hrest
    refine ⟨hcomplete, hdescription, hstages, fun name hname => ?_⟩
    rw [List.foldl_cons, hget name hname, get_of_map hcounters hname]
    rfl

/-! ## Exact sums

`IsSum` says what totals are without saying how they were made.  It does not depend on the order of
the items, and it determines the totals. -/

/-- Totals that hold the exact sums over some items, cut at the largest number of their kind. -/
structure IsSum {α : Type} (totals : ProfileStats) (items : List α) (count : α → String → Int64)
    (time : α → UInt64) : Prop where
  counters : ∀ name ∈ counterNames, (totals.get name).toInt =
    min Int64.maxValue.toInt (items.map fun x => (count x name).toInt).sum
  nanos : totals.nanos.toNat = min (UInt64.size - 1) (items.map fun x => (time x).toNat).sum

/-- One counter of the totals, whatever the others read as. -/
theorem toInt_get_foldl_add (hstats : ∀ t ∈ stats, t.Complete) (hname : name ∈ counterNames)
    (hnonneg : ∀ t ∈ stats, 0 ≤ (t.get name).toInt) :
    ((stats.foldl add {}).get name).toInt =
      min Int64.maxValue.toInt (stats.map fun t => (t.get name).toInt).sum := by
  obtain ⟨-, -, -, hget⟩ := foldl_add complete_empty hstats
  have hcounts : ∀ n ∈ stats.map fun t => t.get name, 0 ≤ n.toInt :=
    List.forall_mem_map.mpr hnonneg
  have hsum := foldl_clamped Int64.toInt (fun n _ => toInt_addCounter n) hcounts (fits_toInt 0).2
  rw [hget name hname, get_empty hname, hsum, List.map_map]
  exact congrArg _ (Int.zero_add _)

/-- The time of the totals, whatever the counters read as. -/
theorem toNat_nanos_foldl_add (stats : List ProfileStats) :
    (stats.foldl add {}).nanos.toNat =
      min (UInt64.size - 1) (stats.map fun t => t.nanos.toNat).sum := by
  have hadd : ∀ s t : ProfileStats, 0 ≤ t.nanos.toNat →
      (s.add t).nanos.toNat = min (UInt64.size - 1) (s.nanos.toNat + t.nanos.toNat) :=
    fun s t _ => toNat_addNanos s.nanos t.nanos
  have hsum := foldl_clamped (fun s : ProfileStats => s.nanos.toNat) hadd
    (fun t (_ : t ∈ stats) => Nat.zero_le _) (s := {}) (Nat.zero_le _)
  exact hsum.trans (congrArg _ (Nat.zero_add _))

/-- **The totals are exact sums** over statistics that are complete and not negative. -/
theorem isSum_foldl_add (hstats : ∀ t ∈ stats, t.Complete)
    (hnonneg : ∀ t ∈ stats, ∀ name ∈ counterNames, 0 ≤ (t.get name).toInt) :
    IsSum (stats.foldl add {}) stats get nanos where
  counters name hname := toInt_get_foldl_add hstats hname fun t ht => hnonneg t ht name hname
  nanos := toNat_nanos_foldl_add stats

namespace IsSum

variable {α : Type} {items items' : List α} {count : α → String → Int64} {time : α → UInt64}

/-- A sum over values that are made from items is one over the items. -/
theorem of_map {β : Type} {f : α → β} {count' : β → String → Int64} {time' : β → UInt64}
    (h : IsSum t (items.map f) count' time')
    (hcount : ∀ x ∈ items, ∀ name ∈ counterNames, count' (f x) name = count x name)
    (htime : ∀ x ∈ items, time' (f x) = time x) : IsSum t items count time where
  counters := by
    intro name hname
    rw [h.counters name hname, List.map_map]
    exact congrArg (fun amounts : List Int => min _ amounts.sum)
      (List.map_congr_left fun x hx => congrArg Int64.toInt (hcount x hx name hname))
  nanos := by
    rw [h.nanos, List.map_map]
    exact congrArg (fun amounts : List Nat => min _ amounts.sum)
      (List.map_congr_left fun x hx => congrArg UInt64.toNat (htime x hx))

/-- The items of a sum come in any order. -/
theorem perm (h : IsSum t items count time) (hperm : items.Perm items') :
    IsSum t items' count time where
  counters name hname := by rw [h.counters name hname, (hperm.map _).sum_eq]
  nanos := by rw [h.nanos, (hperm.map _).sum_eq]

/-- The items determine the sums. -/
theorem unique (hs : IsSum s items count time) (ht : IsSum t items count time) :
    (∀ name ∈ counterNames, s.get name = t.get name) ∧ s.nanos = t.nanos := by
  constructor
  · intro name hname
    exact Int64.toInt_inj.mp ((hs.counters name hname).trans (ht.counters name hname).symm)
  · exact UInt64.toNat_inj.mp (hs.nanos.trans ht.nanos.symm)

end IsSum

end ProfileStats

/-! ## Entries that count

Entries of other queries and empty entries are left out of a report.  What is left is one list over
all shards, and reordering shards and entries reorders this list. -/

/-- Whether an entry is one of an unfold aggregation with something in it. -/
def ProfileEntry.Counted (e : ProfileEntry) : Prop :=
  e.queryName = unfoldQueryName ∧ e.debug ≠ []

/-- The test that a report makes of an entry. -/
theorem ProfileStats.counts_iff {e : ProfileEntry} : counts e = true ↔ e.Counted := by
  simp [counts, ProfileEntry.Counted]

instance : DecidablePred ProfileEntry.Counted := fun _ =>
  decidable_of_iff _ ProfileStats.counts_iff

namespace ProfileReport

open ProfileStats ProfileEntry

/-- The entries of a shard that count, in their order. -/
def countedOf (p : ShardProfile) : List ProfileEntry := p.entries.filter Counted

/-- The entries that count, shard by shard. -/
def countedEntries (profiles : List ShardProfile) : List ProfileEntry := profiles.flatMap countedOf

/-- The same profiles in another order of the shards and of the entries of each shard. -/
def Reordered (profiles profiles' : List ShardProfile) : Prop :=
  ∃ middle, profiles.Perm middle ∧
    List.Forall₂ (fun p q => p.shard = q.shard ∧ p.entries.Perm q.entries) middle profiles'

variable {profiles profiles' : List ShardProfile}

/-- A shard lists its entries that count. -/
theorem aggregations_shardStats (p : ShardProfile) :
    (shardStats p).aggregations = (countedOf p).map ofEntry := by
  -- The report filters by a Boolean test, `countedOf` by the proposition.
  have hcounts : counts = fun e => decide e.Counted := by
    funext e
    rw [Bool.eq_iff_iff, counts_iff, decide_eq_true_iff]
  rw [shardStats, hcounts, countedOf]

/-- The totals are made of all entries that count, shard after shard. -/
theorem totals_ofShards (profiles : List ShardProfile) :
    (ofShards profiles).totals = ((countedEntries profiles).map ofEntry).foldl add {} := by
  have hall : (profiles.map shardStats).flatMap ShardStats.aggregations =
      (countedEntries profiles).map ofEntry := by
    rw [List.flatMap_map, countedEntries, List.map_flatMap]
    exact List.flatMap_congr fun p _ => aggregations_shardStats p
  rw [← hall]
  rfl

/-- **The report lists the shards with an entry that counts**, in their order, each of them with all
    such entries. -/
theorem shards_ofShards (profiles : List ShardProfile) :
    (ofShards profiles).shards = (profiles.filter fun p => ∃ e ∈ p.entries, e.Counted).map fun p =>
      ⟨p.shard, (countedOf p).map ofEntry⟩ := by
  have hlisted : ((fun s : ShardStats => !s.aggregations.isEmpty) ∘ shardStats) =
      fun p => decide (∃ e ∈ p.entries, e.Counted) := by
    funext p
    rw [Function.comp_apply, aggregations_shardStats, Bool.eq_iff_iff, decide_eq_true_iff]
    simp [countedOf]
  -- Each shard becomes what it lists, and is left out if that is nothing.
  have hstats : shardStats = fun p => ⟨p.shard, (countedOf p).map ofEntry⟩ := by
    funext p
    rw [← aggregations_shardStats]
    rfl
  rw [← hlisted, ← hstats, ← List.filter_map]
  rfl

/-- A shard that is not listed has nothing to add. -/
theorem countedEntries_filter (profiles : List ShardProfile) :
    countedEntries (profiles.filter fun p => ∃ e ∈ p.entries, e.Counted) =
      countedEntries profiles := by
  unfold countedEntries
  induction profiles with
  | nil => rfl
  | cons p rest ih =>
    by_cases hlisted : ∃ e ∈ p.entries, e.Counted
    · rw [List.filter_cons_of_pos (by simpa using hlisted), List.flatMap_cons, List.flatMap_cons,
        ih]
    · -- nothing of this shard counts, so it may be dropped before the entries are put together
      have hnone : countedOf p = [] := by
        simpa [countedOf] using hlisted
      rw [List.filter_cons_of_neg (by simpa using hlisted), List.flatMap_cons, ih, hnone,
        List.nil_append]

/-- What the report lists, put together, is what the totals are made of. -/
theorem listed_ofShards (profiles : List ShardProfile) :
    (ofShards profiles).shards.flatMap ShardStats.aggregations =
      (countedEntries profiles).map ofEntry := by
  rw [shards_ofShards, List.flatMap_map, ← countedEntries_filter profiles, countedEntries,
    List.map_flatMap]

/-- Reordered profiles have the same entries that count. -/
theorem Reordered.counted_perm (h : Reordered profiles profiles') :
    (countedEntries profiles).Perm (countedEntries profiles') := by
  obtain ⟨middle, hshards, hentries⟩ := h
  -- First the shards change places, then the entries within each of them.
  refine (hshards.flatMap_right countedOf).trans ?_
  clear hshards
  induction hentries with
  | nil => exact .nil
  | cons hhead _ ih => exact (hhead.2.filter Counted).append ih

/-! ## The report -/

/-- Whether no entry that counts has a counter which reads as negative. -/
def NonNegative (profiles : List ShardProfile) : Prop :=
  ∀ e ∈ countedEntries profiles, ∀ name ∈ counterNames, 0 ≤ counter e.debug name

instance (profiles : List ShardProfile) : Decidable (NonNegative profiles) :=
  inferInstanceAs (Decidable (∀ e ∈ countedEntries profiles, _))

/-- One counter of the totals is a sum over the entries that count, whatever the others read as. -/
theorem toInt_get_totals {name : String} (hname : name ∈ counterNames)
    (hnonneg : ∀ e ∈ countedEntries profiles, 0 ≤ (counter e.debug name).toInt) :
    ((ofShards profiles).totals.get name).toInt = min Int64.maxValue.toInt
      ((countedEntries profiles).map fun e => (counter e.debug name).toInt).sum := by
  have hget : ∀ e : ProfileEntry, (ofEntry e).get name = counter e.debug name :=
    fun e => get_ofEntry e hname
  rw [totals_ofShards, toInt_get_foldl_add ?_ hname ?_, List.map_map]
  · exact congrArg (fun amounts : List Int => min _ amounts.sum)
      (List.map_congr_left fun e _ => congrArg Int64.toInt (hget e))
  · exact List.forall_mem_map.mpr fun e _ => complete_ofEntry e
  · refine List.forall_mem_map.mpr fun e he => ?_
    rw [hget e]
    exact hnonneg e he

/-- The total time is the sum of all times, cut to the greatest one that there is. -/
theorem toNat_nanos_totals (profiles : List ShardProfile) :
    (ofShards profiles).totals.nanos.toNat = min (UInt64.size - 1)
      ((countedEntries profiles).map fun e => e.nanos.toNat).sum := by
  rw [totals_ofShards, toNat_nanos_foldl_add, List.map_map]
  rfl

/-- The listed entries have the sums of the totals. -/
theorem isSum_listed (h : NonNegative profiles) :
    IsSum (ofShards profiles).totals ((countedEntries profiles).map ofEntry) get
      ProfileStats.nanos := by
  rw [totals_ofShards]
  refine isSum_foldl_add ?_ ?_
  · exact List.forall_mem_map.mpr fun e _ => complete_ofEntry e
  · refine List.forall_mem_map.mpr fun e he name hname => ?_
    rw [get_ofEntry e hname]
    exact Int64.le_iff_toInt_le.mp (h e he name hname)

/-- The entries that count have them as well, by the numbers that are read from them. -/
theorem isSum_totals (h : NonNegative profiles) :
    IsSum (ofShards profiles).totals (countedEntries profiles) (fun e => counter e.debug)
      ProfileEntry.nanos :=
  (isSum_listed h).of_map (fun e _ _ hname => get_ofEntry e hname) fun _ _ => rfl

/-- The totals have all counters and no label. -/
theorem complete_totals (profiles : List ShardProfile) :
    (ofShards profiles).totals.Complete ∧ (ofShards profiles).totals.description = none ∧
    (ofShards profiles).totals.stages = none := by
  have hentries : ∀ t ∈ (countedEntries profiles).map ofEntry, t.Complete :=
    List.forall_mem_map.mpr fun e _ => complete_ofEntry e
  obtain ⟨hcomplete, hdescription, hstages, -⟩ := foldl_add complete_empty hentries
  rw [totals_ofShards]
  exact ⟨hcomplete, hdescription, hstages⟩

/-- Totals do not depend on the order in which the counted entries come. -/
theorem totals_eq_of_perm (h : NonNegative profiles)
    (hperm : (countedEntries profiles).Perm (countedEntries profiles')) :
    (ofShards profiles').totals = (ofShards profiles).totals := by
  have h' : NonNegative profiles' := fun e he => h e (hperm.mem_iff.mpr he)
  -- Both are the exact sums over the same entries, and such sums are unique.
  obtain ⟨hget, hnanos⟩ := (isSum_totals h').unique ((isSum_totals h).perm hperm)
  obtain ⟨hcomplete, hdescription, hstages⟩ := complete_totals profiles
  obtain ⟨hcomplete', hdescription', hstages'⟩ := complete_totals profiles'
  exact hcomplete'.ext hcomplete (hdescription'.trans hdescription.symm)
    (hstages'.trans hstages.symm) hnanos hget

/-- **The totals of a profile are exact.**  For counters that do not read as negative, every total
    is the sum over all entries that count, cut at the largest number of its kind, whatever the
    order of the shards and of their entries.  The report lists the shards with such an entry, and
    the totals are the sums of what it lists. -/
theorem ofShards_exact (h : NonNegative profiles) :
    let report := ofShards profiles
    IsSum report.totals (countedEntries profiles) (fun e => counter e.debug) ProfileEntry.nanos ∧
    (∀ profiles', Reordered profiles profiles' → (ofShards profiles').totals = report.totals) ∧
    (report.shards = (profiles.filter fun p => ∃ e ∈ p.entries, e.Counted).map fun p =>
      ⟨p.shard, (countedOf p).map ofEntry⟩) ∧
    IsSum report.totals (report.shards.flatMap ShardStats.aggregations) get
      ProfileStats.nanos := by
  refine ⟨isSum_totals h, fun profiles' hreordered => ?_, shards_ofShards profiles, ?_⟩
  · exact totals_eq_of_perm h hreordered.counted_perm
  · rw [listed_ofShards]
    exact isSum_listed h

/-- Two counters and two times that are too large together, with an entry between them that does not
    count, and then in another order. -/
theorem ofShards_exact_usage :
    let entry (query : String) (chunks : Int) (nanos : UInt64) : ProfileEntry :=
      ⟨query, "", nanos, [("total_chunks", .integer chunks), ("live_doc_count", .real 2.5)]⟩
    let full := entry unfoldQueryName 9223372036854775807 18446744073709551615
    let one := entry unfoldQueryName 1 1
    let other := entry "fetch" (-1) 1
    let profiles : List ShardProfile := [⟨"a", [full, other, one]⟩, ⟨"b", [other]⟩, ⟨"c", [one]⟩]
    let turned : List ShardProfile := [⟨"c", [one]⟩, ⟨"a", [one, full, other]⟩, ⟨"b", [other]⟩]
    let report := ofShards profiles
    NonNegative profiles ∧ (ofShards turned).totals = report.totals ∧
    report.totals.get "total_chunks" = Int64.maxValue ∧ report.totals.get "live_doc_count" = 6 ∧
    report.totals.nanos.toNat = 18446744073709551615 ∧
    report.shards.map ShardStats.shard = ["a", "c"] := by
  intro entry full one other profiles turned report
  have hnonneg : NonNegative profiles := by decide +kernel
  have hreordered : Reordered profiles turned := by
    have hentries : [full, other, one].Perm [one, full, other] :=
      List.perm_append_singleton one [full, other]
    exact ⟨_, List.perm_append_singleton _ [_, _],
      .cons ⟨rfl, .rfl⟩ (.cons ⟨rfl, hentries⟩ (.cons ⟨rfl, .rfl⟩ .nil))⟩
  obtain ⟨hsum, hsame, hshards, -⟩ := ofShards_exact hnonneg
  refine ⟨hnonneg, hsame turned hreordered, ?_, ?_, ?_, ?_⟩
  · refine Int64.toInt_inj.mp ((hsum.counters "total_chunks" (by decide)).trans ?_)
    decide +kernel
  · refine Int64.toInt_inj.mp ((hsum.counters "live_doc_count" (by decide)).trans ?_)
    decide +kernel
  · refine hsum.nanos.trans ?_
    decide +kernel
  · rw [hshards]
    decide +kernel

end ProfileReport
end SeriesQuery
