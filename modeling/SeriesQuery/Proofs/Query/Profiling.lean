/-
  What the profile of an execution counts.

  The entry for an unfold aggregation on a shard starts from the statistics of the storage, whatever
  they hold, and puts what the execution has counted itself in the places of the same names
  (`Shard.get?_entryOf`).  So no statistics reach the execution's own counters, and no entry is left
  without anything in it: the report has all entries of all shards (`shards_profile`).

  Every total is then one sum over the shards and the unfold aggregations (`shows_total`).  For the
  execution's own counters, that is a sum of what there was to count (`execute_ownCounters`).  A
  counter of the storage, however, stands in every entry of its shard, and is added as many times
  (`execute_storageCounter`).
-/
import SeriesQuery.Proofs.Query.Totals
import SeriesQuery.Proofs.Query.TwoPhase
import Mathlib.Algebra.BigOperators.Ring.Finset
import Mathlib.Data.List.ProdSigma

namespace SeriesQuery

/-! ## Counters that show numbers

Counters are integers of sixty-four bits that stop at the largest one.  What a counter shows is a
natural number, and a sum of counters shows the sum of these. -/

/-- Whether a counter shows a number: as it is if there is such a counter, else as the largest. -/
def Shows (counter : Int64) (n : Nat) : Prop := counter.toInt = min Int64.maxValue.toInt n

instance (counter : Int64) (n : Nat) : Decidable (Shows counter n) :=
  inferInstanceAs (Decidable (_ = _))

namespace Shows

variable {α : Type} {counter : Int64} {n : Nat}

/-- A number that fits is shown exactly. -/
theorem exact (h : Shows counter n) (hn : (n : Int) ≤ Int64.maxValue.toInt) : counter.toInt = n :=
  h.trans (min_eq_right hn)

/-- No number is shown as a negative one. -/
theorem nonneg (h : Shows counter n) : 0 ≤ counter.toInt := by
  rw [h]
  exact le_min (by decide) (Int.natCast_nonneg n)

/-- A number that is cut to a counter is shown by it. -/
theorem of_saturate (n : Nat) : Shows (saturate n) n :=
  toInt_saturate (le_trans (by decide) (Int.natCast_nonneg n))

/-- A counter that is the cut sum of some counters shows the sum of what these show. -/
theorem of_sum {items : List α} {single : α → Int64} {amount : α → Nat}
    (hitems : ∀ x ∈ items, Shows (single x) (amount x))
    (h : counter.toInt = min Int64.maxValue.toInt (items.map fun x => (single x).toInt).sum) :
    Shows counter (items.map amount).sum := by
  -- The amounts are natural numbers, and the counters are integers.
  have hcast : ((items.map amount).sum : Nat) = (items.map fun x => (amount x : Int)).sum := by
    rw [Nat.cast_list_sum, List.map_map]
    rfl
  rw [Shows, h, hcast, ← min_sum_min (by decide) fun x => Int.natCast_nonneg (amount x)]
  exact congrArg (fun amounts : List Int => min _ amounts.sum) (List.map_congr_left hitems)

end Shows

/-! ## One entry

An entry is made by writing the execution's own counters over the statistics of the storage.
Whatever these hold, each own counter has its value afterwards, and each other name has what the
storage has for it. -/

/-- What the leading stages of an unfold aggregation give on a shard. -/
def Shard.outputOf (shard : Shard) (a : Aggregation) : List Series :=
  (Stage.runAll (Stage.shardPrefix a.stages) (shard.seriesOf a.name)).toOption.getD []

/-- The counters that an execution keeps itself. -/
inductive OwnCounter
  | inputSeries
  | inputSamples
  | outputSeries

namespace OwnCounter

/-- The name that a counter has in an entry. -/
def name : OwnCounter → String
  | inputSeries => "total_input_series"
  | inputSamples => "total_samples"
  | outputSeries => "total_output_series"

/-- What there is to count for an unfold aggregation on a shard. -/
def count (shard : Shard) (a : Aggregation) : OwnCounter → Nat
  | inputSeries => (shard.seriesOf a.name).length
  | inputSamples => ((shard.seriesOf a.name).map Series.size).sum
  | outputSeries => (shard.outputOf a).length

/-- All of them are counters of the report. -/
theorem name_mem (c : OwnCounter) : c.name ∈ counterNames := by
  cases c <;> decide

end OwnCounter

/-- Stages by their names. -/
def stagesText : List Stage → String
  | [] => noStages
  | stages => String.intercalate "," (stages.map Stage.name)

/-- There is always a text: for no stage it is a word of its own. -/
theorem stagesText_ne_empty (stages : List Stage) : stagesText stages ≠ "" := by
  -- No stage has an empty name, and a comma stands between two of them.
  have hname : ∀ s : Stage, s.name ≠ "" := by
    intro s
    cases s <;> simp [Stage.name]
  match stages with
  | [] => decide
  | [s] => simpa [stagesText] using hname s
  | s :: t :: rest =>
    simp only [stagesText, List.map_cons, String.intercalate_cons_cons]
    simp

namespace Shard

variable {shard : Shard} {unfolds : List Aggregation} {a : Aggregation} {cancelled : Bool}

/-- The entry for an unfold aggregation whose leading stages have run. -/
def entryOf (shard : Shard) (a : Aggregation) : ProfileEntry :=
  profileEntry shard a (shard.elapsed a.name) (shard.outputOf a)

/-- What a key of an entry has: what the execution puts there, or what the statistics have. -/
theorem get?_entryOf (shard : Shard) (a : Aggregation) (key : String) :
    let own (c : OwnCounter) : Option Json := some (.integer (c.count shard a))
    (shard.entryOf a).debug.get? key =
      if key = OwnCounter.inputSamples.name then own .inputSamples
      else if key = OwnCounter.outputSeries.name then own .outputSeries
      else if key = OwnCounter.inputSeries.name then own .inputSeries
      else if key = "stages" then some (.string (stagesText (Stage.shardPrefix a.stages)))
      else shard.statistics.get? key := by
  have htext : (if (Stage.shardPrefix a.stages).isEmpty then noStages
      else String.intercalate "," ((Stage.shardPrefix a.stages).map Stage.name)) =
        stagesText (Stage.shardPrefix a.stages) := by
    cases Stage.shardPrefix a.stages <;> rfl
  have hsamples : ((shard.seriesOf a.name).flatMap Series.samples).length =
      OwnCounter.inputSamples.count shard a := List.length_flatMap
  -- The last value that was put under a key is the one that is found there.
  simp only [entryOf, profileEntry, Json.Members.get?_insert, htext, hsamples]
  rfl

/-- The entry shows what was counted, whatever the statistics hold under the name. -/
theorem counter_own (shard : Shard) (a : Aggregation) (c : OwnCounter) :
    Shows (ProfileStats.counter (shard.entryOf a).debug c.name) (c.count shard a) := by
  have hget : (shard.entryOf a).debug.get? c.name = some (.integer (c.count shard a)) := by
    rw [get?_entryOf]
    cases c <;> rfl
  rw [ProfileStats.counter, hget]
  exact Shows.of_saturate _

/-- A counter that the execution does not keep itself is the storage's. -/
theorem get?_entryOf_of_storage {name : String} (hname : name ∈ counterNames)
    (hother : ∀ c : OwnCounter, c.name ≠ name) :
    (shard.entryOf a).debug.get? name = shard.statistics.get? name := by
  have hstages : name ≠ "stages" := fun h => absurd (h ▸ hname) (by decide)
  rw [get?_entryOf, if_neg (hother .inputSamples).symm, if_neg (hother .outputSeries).symm,
    if_neg (hother .inputSeries).symm, if_neg hstages]

/-- The entry names the stages that have run on the shard. -/
theorem stagesOf_entryOf (shard : Shard) (a : Aggregation) :
    ProfileStats.stagesOf (shard.entryOf a).debug = stagesText (Stage.shardPrefix a.stages) := by
  have hget : (shard.entryOf a).debug.get? "stages" =
      some (.string (stagesText (Stage.shardPrefix a.stages))) := by
    rw [get?_entryOf]
    rfl
  rw [ProfileStats.stagesOf, hget]
  exact if_neg (stagesText_ne_empty _)

/-- Every entry counts, as there is always something in it. -/
theorem counted_entryOf (shard : Shard) (a : Aggregation) : (shard.entryOf a).Counted := by
  refine ⟨rfl, fun hempty => ?_⟩
  have hget := get?_entryOf shard a "total_samples"
  rw [hempty] at hget
  cases hget

/-! ## All entries

Shards hand in their entries in the order of the unfold aggregations.  None of them is empty, so
that the report leaves none out, and a total is a sum over all pairs of a shard and an unfold
aggregation. -/

/-- All entries of a shard. -/
def profileOf (unfolds : List Aggregation) (shard : Shard) : ShardProfile :=
  ⟨shard.id, unfolds.map shard.entryOf⟩

/-- Whether the leading stages of an unfold aggregation run through on a shard. -/
def Completes (shard : Shard) (a : Aggregation) : Prop :=
  Stage.runAll (Stage.shardPrefix a.stages) (shard.seriesOf a.name) = .ok (shard.outputOf a)

/-- An unfold aggregation that runs through on a shard leaves its entry. -/
theorem runOnShard_entry {out : PartialResult × ProfileEntry}
    (h : runOnShard cancelled shard a = .ok out) :
    shard.Completes a ∧ out.2 = shard.entryOf a := by
  obtain ⟨hrun, -, hentry⟩ := runOnShard_eq_ok h
  have hout : shard.outputOf a = out.1.series := by
    rw [outputOf, hrun]
    rfl
  rw [Completes, entryOf, hout]
  exact ⟨hrun, hentry⟩

/-- A shard that runs through hands in the entries of all unfold aggregations. -/
theorem runShard_profile {o : ShardOutcome} (h : runShard cancelled unfolds shard = .ok o) :
    (∀ a ∈ unfolds, shard.Completes a) ∧ o.profile = shard.profileOf unfolds := by
  obtain ⟨outputs, houtputs, ho⟩ := bind_eq_ok.mp h
  obtain rfl := pure_eq_ok.mp ho
  constructor
  · intro a ha
    obtain ⟨out, hout⟩ := exists_ok_of_mapM houtputs ha
    exact (runOnShard_entry hout).1
  · have hentries : outputs.map Prod.snd = unfolds.map shard.entryOf :=
      map_of_mapM houtputs fun a _ out hout => (runOnShard_entry hout).2
    rw [profileOf, ← hentries]

end Shard

namespace ProfileReport

open ProfileStats

variable {shards : List Shard} {unfolds : List Aggregation} {name : String}

/-- Every entry of a shard's profile counts, so the counted ones are all of them. -/
theorem countedOf_profileOf (unfolds : List Aggregation) (shard : Shard) :
    countedOf (shard.profileOf unfolds) = unfolds.map shard.entryOf := by
  refine List.filter_eq_self.mpr (List.forall_mem_map.mpr fun a _ => ?_)
  exact decide_eq_true (shard.counted_entryOf a)

/-- **The report has all entries of all shards.** -/
theorem shards_profile (hunfolds : unfolds ≠ []) (shards : List Shard) :
    (ofShards (shards.map (Shard.profileOf unfolds))).shards =
      shards.map fun shard => ⟨shard.id, unfolds.map fun a => ofEntry (shard.entryOf a)⟩ := by
  have hlisted : ∀ p ∈ shards.map (Shard.profileOf unfolds), ∃ e ∈ p.entries, e.Counted := by
    obtain ⟨a, ha⟩ := List.exists_mem_of_ne_nil unfolds hunfolds
    exact List.forall_mem_map.mpr fun shard _ =>
      ⟨shard.entryOf a, List.mem_map_of_mem ha, shard.counted_entryOf a⟩
  rw [shards_ofShards, List.filter_eq_self.mpr fun p hp => decide_eq_true (hlisted p hp),
    List.map_map]
  refine List.map_congr_left fun shard _ => ?_
  rw [Function.comp_apply, countedOf_profileOf, List.map_map]
  rfl

/-- There is an entry for each shard and each unfold aggregation. -/
theorem countedEntries_profile (unfolds : List Aggregation) (shards : List Shard) :
    countedEntries (shards.map (Shard.profileOf unfolds)) =
      (shards.product unfolds).map fun p => p.1.entryOf p.2 := by
  rw [List.product, countedEntries, List.flatMap_map, List.map_flatMap]
  refine List.flatMap_congr fun shard _ => ?_
  rw [countedOf_profileOf, List.map_map]
  rfl

/-- A sum over pairs is one over the shards, and for each over the aggregations. -/
theorem sum_product (amount : Shard → Aggregation → Nat) :
    ((shards.product unfolds).map fun p => amount p.1 p.2).sum =
      (shards.map fun shard => (unfolds.map (amount shard)).sum).sum := by
  rw [List.product, List.map_flatMap, List.flatMap_def, List.sum_flatten,
    List.map_map]
  refine congrArg List.sum (List.map_congr_left fun shard _ => ?_)
  rw [Function.comp_apply, List.map_map]
  rfl

/-- **Every total is one sum over the shards and the unfold aggregations**, as soon as all entries
    show a number under its name. -/
theorem shows_total (hname : name ∈ counterNames) {amount : Shard → Aggregation → Nat}
    (hentries : ∀ shard ∈ shards, ∀ a ∈ unfolds,
      Shows (counter (shard.entryOf a).debug name) (amount shard a)) :
    Shows ((ofShards (shards.map (Shard.profileOf unfolds))).totals.get name)
      (shards.map fun shard => (unfolds.map (amount shard)).sum).sum := by
  -- The entries are those of the pairs of a shard and an aggregation.
  have hpairs : ∀ p ∈ shards.product unfolds,
      Shows (counter (p.1.entryOf p.2).debug name) (amount p.1 p.2) := by
    intro p hp
    obtain ⟨hshard, ha⟩ := List.mem_product.mp hp
    exact hentries p.1 hshard p.2 ha
  -- No number is negative, so the sum is cut once, at the end.
  have hnonneg : ∀ e ∈ countedEntries (shards.map (Shard.profileOf unfolds)),
      0 ≤ (counter e.debug name).toInt := by
    rw [countedEntries_profile]
    exact List.forall_mem_map.mpr fun p hp => (hpairs p hp).nonneg
  have htotal := toInt_get_totals hname hnonneg
  rw [countedEntries_profile, List.map_map] at htotal
  rw [← sum_product]
  exact Shows.of_sum hpairs htotal

end ProfileReport

/-! ## Executions

An execution that succeeds with a profile has run all shards through, so that its report is the one
of all entries. -/

/-- How the small query is executed with a profile. -/
def Usage.profiled : Config := { Config.sequential with profile := true }

section Executions

variable {config : Config} {cancelled : Bool} {registry : Registry} {shards : List Shard}
  {outcome : Outcome}

/-- Without an unfold aggregation there is nothing to answer a query from. -/
theorem unfolds_ne_nil_of_execute (h : execute config cancelled registry shards = .ok outcome) :
    registry.unfolds ≠ [] := by
  intro hnone
  obtain ⟨order, outcomes, unfolded, -, -, -, hunfold, hresults, hseries⟩ := execute_eq_ok h
  have hkeys := unfoldPhase_keys hunfold
  rw [hnone, List.map_nil, List.map_eq_nil_iff] at hkeys
  -- By induction on the evaluation: with nothing there to read, nothing is appended.
  have hempty : outcome.results = [] := by
    refine foldlM_invariant (fun results => results = []) ?_ hkeys hresults
    rintro results a next - rfl hnext
    cases hsource : a.source with
    | shards =>
      rw [evaluate, hsource] at hnext
      exact (pure_eq_ok.mp hnext).symm
    | aggregation references input =>
      obtain ⟨series, -, hread, -⟩ := evaluate_eq_ok hsource hnext
      cases hread
  rw [hempty] at hseries
  cases hseries

/-- With a profile asked for, all shards come to the report with all unfold aggregations. -/
theorem execute_profile (hprofile : config.profile = true)
    (h : execute config cancelled registry shards = .ok outcome) :
    (∀ shard ∈ shards, ∀ a ∈ registry.unfolds, shard.Completes a) ∧
      outcome.profile = some (.ofShards (shards.map (Shard.profileOf registry.unfolds))) := by
  obtain ⟨final, order, outcomes, unfolded, -, -, -, hunfold, hcoord⟩ := execute_phases h
  obtain ⟨hshards, -⟩ := unfoldPhase_eq_ok.mp hunfold
  constructor
  · intro shard hshard
    obtain ⟨o, ho⟩ := exists_ok_of_mapM hshards hshard
    exact (Shard.runShard_profile ho).1
  · have hprofiles : outcomes.map ShardOutcome.profile =
        shards.map (Shard.profileOf registry.unfolds) :=
      map_of_mapM hshards fun shard _ o ho => (Shard.runShard_profile ho).2
    obtain ⟨-, -, -, hreport⟩ := coordinatorPhase_eq_ok hcoord
    rw [hreport, if_pos hprofile, hprofiles]

/-- Whether counters say what an unfold aggregation has done on a shard. -/
structure Describes (shard : Shard) (a : Aggregation) (stats : ProfileStats) : Prop where
  description : stats.description = some a.name
  stages : stats.stages = some (stagesText (Stage.shardPrefix a.stages))
  completes : shard.Completes a
  counters : ∀ c : OwnCounter, Shows (stats.get c.name) (c.count shard a)

/-- The statistics read from an entry describe the work it was made for. -/
theorem describes_ofEntry {shard : Shard} {a : Aggregation} (h : shard.Completes a) :
    Describes shard a (.ofEntry (shard.entryOf a)) where
  description := rfl
  stages := congrArg some (shard.stagesOf_entryOf a)
  completes := h
  counters c := by
    rw [ProfileStats.get_ofEntry _ c.name_mem]
    exact shard.counter_own a c

/-- **The time of a profile is the sum of what the shards' clocks have shown**, cut at the largest
    time that there is. -/
theorem execute_time (hprofile : config.profile = true)
    (h : execute config cancelled registry shards = .ok outcome) :
    ∃ report, outcome.profile = some report ∧
      report.totals.nanos.toNat = min (UInt64.size - 1)
        (shards.map fun shard => (registry.unfolds.map fun a => shard.elapsed a.name).sum).sum := by
  obtain ⟨-, hreport⟩ := execute_profile hprofile h
  refine ⟨_, hreport, ?_⟩
  have hcut : ∀ p ∈ shards.product registry.unfolds, (p.1.entryOf p.2).nanos.toNat =
      min (UInt64.size - 1) (p.1.elapsed p.2.name) := fun p _ => toNat_toNanos _
  rw [ProfileReport.toNat_nanos_totals, ProfileReport.countedEntries_profile, List.map_map,
    ← ProfileReport.sum_product fun shard a => shard.elapsed a.name]
  -- each entry has cut its time already
  exact (congrArg (fun times : List Nat => min _ times.sum) (List.map_congr_left hcut)).trans
    (min_sum_min (Nat.zero_le _) (fun _ => Nat.zero_le _) _)

/-- **The statistics of the storage reach no counter that the execution keeps itself.**  Whatever
    they are, the report lists the shards in their order, each with an entry that describes its work
    for every unfold aggregation, and the totals are the sums over all of them. -/
theorem execute_ownCounters (hprofile : config.profile = true)
    (h : execute config cancelled registry shards = .ok outcome) :
    ∃ report, outcome.profile = some report ∧
      List.Forall₂ (fun (shard : Shard) (listed : ShardStats) => listed.shard = shard.id ∧
        List.Forall₂ (Describes shard) registry.unfolds listed.aggregations)
        shards report.shards ∧
      ∀ c : OwnCounter, Shows (report.totals.get c.name)
        (shards.map fun shard => (registry.unfolds.map fun a => c.count shard a).sum).sum := by
  obtain ⟨hcompletes, hreport⟩ := execute_profile hprofile h
  refine ⟨_, hreport, ?_, fun c => ?_⟩
  · rw [ProfileReport.shards_profile (unfolds_ne_nil_of_execute h), List.forall₂_map_right_iff,
      List.forall₂_same]
    refine fun shard hshard => ⟨rfl, ?_⟩
    rw [List.forall₂_map_right_iff, List.forall₂_same]
    exact fun a ha => describes_ofEntry (hcompletes shard hshard a ha)
  · exact ProfileReport.shows_total c.name_mem fun shard _ a _ => shard.counter_own a c

/-- Two shards with statistics under the names of the execution's own counters. -/
theorem execute_ownCounters_usage :
    let odd : Json.Members :=
      [ ("stages", .integer 5), ("total_samples", .string "many"),
        ("total_input_series", .integer (-7)), ("total_output_series", .real 0.5) ]
    let cpu := [Usage.reading "x" 61000 0.5 1000, Usage.reading "y" 5000 0.25 1000,
      Usage.reading "z" 7000 0.75 1000]
    let memory := [{ Usage.reading "x" 62000 3.0 1000 with
      samples := [⟨62000, 3.0⟩, ⟨63000, 4.0⟩], maxTime := 63000 }]
    let shards : List Shard :=
      [⟨"a", [("cpu", cpu)], odd, fun _ => 500⟩, ⟨"b", [("memory", memory)], odd, fun _ => 70⟩]
    ∃ outcome report,
      execute Usage.profiled false Usage.registry shards = .ok outcome ∧
      outcome.profile = some report ∧ report.shards.length = 2 ∧
      (report.totals.get "total_input_series").toInt = 4 ∧
      (report.totals.get "total_samples").toInt = 5 ∧
      (report.totals.get "total_output_series").toInt = 3 := by
  intro odd cpu memory shards
  obtain ⟨outcome, houtcome⟩ :
      ∃ outcome, execute Usage.profiled false Usage.registry shards = .ok outcome := by
    rw [execute_of_resolved rfl Usage.final_eq Usage.order_eq]
    exact ⟨_, rfl⟩
  obtain ⟨report, hreport, hshards, htotals⟩ := execute_ownCounters rfl houtcome
  exact ⟨outcome, report, houtcome, hreport, hshards.length_eq.symm,
    (htotals .inputSeries).exact (by decide), (htotals .inputSamples).exact (by decide),
    (htotals .outputSeries).exact (by decide)⟩

/-- **A counter of the storage is added once for every unfold aggregation.** -/
theorem execute_storageCounter (hprofile : config.profile = true)
    (h : execute config cancelled registry shards = .ok outcome) {name : String}
    (hname : name ∈ counterNames) (hstorage : ∀ c : OwnCounter, c.name ≠ name)
    {value : Shard → Nat}
    (hvalue : ∀ shard ∈ shards, shard.statistics.get? name = some (.integer (value shard))) :
    ∃ report, outcome.profile = some report ∧
      Shows (report.totals.get name)
        (shards.map fun shard => registry.unfolds.length * value shard).sum := by
  obtain ⟨-, hreport⟩ := execute_profile hprofile h
  have hentries : ∀ shard ∈ shards, ∀ a ∈ registry.unfolds,
      Shows (ProfileStats.counter (shard.entryOf a).debug name) (value shard) := by
    intro shard hshard a _
    rw [ProfileStats.counter, shard.get?_entryOf_of_storage hname hstorage, hvalue shard hshard]
    exact Shows.of_saturate (value shard)
  have htotal := ProfileReport.shows_total hname hentries
  refine ⟨_, hreport, ?_⟩
  simpa using htotal

/-- Two shards with chunks, for two unfold aggregations. -/
def Usage.stored : List Shard :=
  [ { id := "a", series := [], statistics := [("total_chunks", .integer 3)] },
    { id := "b", series := [], statistics := [("total_chunks", .integer 5)] } ]

/-- The small query succeeds on them. -/
theorem Usage.execute_stored :
    ∃ outcome, execute profiled false Usage.registry stored = .ok outcome := by
  rw [execute_of_resolved rfl final_eq order_eq]
  exact ⟨_, rfl⟩

/-- Their eight chunks are in two entries each. -/
theorem execute_storageCounter_usage :
    ∃ outcome report, execute Usage.profiled false Usage.registry Usage.stored = .ok outcome ∧
      outcome.profile = some report ∧ (report.totals.get "total_chunks").toInt = 16 := by
  obtain ⟨outcome, houtcome⟩ := Usage.execute_stored
  have hstorage : ∀ c : OwnCounter, c.name ≠ "total_chunks" := by
    intro c
    cases c <;> decide
  have hvalue : ∀ shard ∈ Usage.stored, shard.statistics.get? "total_chunks" =
      some (.integer (if shard.id = "a" then 3 else 5 : Nat)) :=
    List.forall_mem_cons.mpr ⟨rfl, List.forall_mem_singleton.mpr rfl⟩
  obtain ⟨report, hreport, htotal⟩ :=
    execute_storageCounter rfl houtcome (by decide) hstorage hvalue
  exact ⟨outcome, report, houtcome, hreport, htotal.exact (by decide)⟩

/-- The report has more chunks than there are on the shards. -/
theorem storageCounter_repeated :
    ∃ outcome report, ∃ value : Shard → Nat,
      execute Usage.profiled false Usage.registry Usage.stored = .ok outcome ∧
      outcome.profile = some report ∧
      (∀ shard ∈ Usage.stored,
        shard.statistics.get? "total_chunks" = some (.integer (value shard))) ∧
      ¬Shows (report.totals.get "total_chunks") (Usage.stored.map value).sum := by
  obtain ⟨outcome, houtcome⟩ := Usage.execute_stored
  obtain ⟨-, hreport⟩ := execute_profile rfl houtcome
  refine ⟨outcome, _, fun shard => if shard.id = "a" then 3 else 5, houtcome, hreport, ?_, ?_⟩
  · exact List.forall_mem_cons.mpr ⟨rfl, List.forall_mem_singleton.mpr rfl⟩
  · decide

end Executions
end SeriesQuery
