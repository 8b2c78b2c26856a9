/-
  Queries that were cancelled beforehand.

  The flag is looked at before every stage and nowhere else.  Stages are run in three places: on a
  shard, after the merge of what the shards hand in, and in a coordinator aggregation.  In each of
  them there may be none, and there may be no shard at all, so that a cancelled query may well get
  to its end.

  The query is followed with the flag and without it, side by side (`Stops`).  Either there is a
  stage to run, and then the flag stops the query with nothing else having failed before; or there
  is none, and then both succeed alike.  This passes along `>>=`, `mapM` and `foldlM`, so that each
  part of a query only has to say which of its stages would run.
-/
import SeriesQuery.Proofs.Query.Dependencies
import SeriesQuery.Proofs.Stage.Reducing

namespace SeriesQuery

/-! ## With the flag and without it -/

/-- How a computation with the flag ends, beside the same one without it: what would run is
    cancelled, and if nothing would run then both give the same result. -/
def Stops {α : Type} (runs : Prop) (flagged free : Except QueryError α) : Prop :=
  (runs ∧ ∃ activity, flagged = .error (.failed activity .cancelled)) ∨
    ¬runs ∧ ∃ output, flagged = .ok output ∧ free = .ok output

namespace Stops

variable {α β : Type} {runs later : Prop} {x y : Except QueryError α}

/-- A computation that has its result already is not stopped. -/
theorem of_result (output : α) : Stops False (.ok output) (.ok output) :=
  Or.inr ⟨id, output, rfl, rfl⟩

/-- What would run may be described in another way. -/
theorem congr (h : Stops runs x y) (heq : runs ↔ later) : Stops later x y := by
  rw [Stops, ← heq]
  exact h

/-- One after the other, the first one that has something to run is stopped. -/
theorem bind {f g : α → Except QueryError β} (h : Stops runs x y)
    (hf : ∀ output, x = .ok output → Stops later (f output) (g output)) :
    Stops (runs ∨ later) (x >>= f) (y >>= g) := by
  -- Stopped in the first part, stopped in the second one, or in neither.
  rcases h with ⟨hruns, activity, rfl⟩ | ⟨hnot, output, rfl, rfl⟩
  · exact Or.inl ⟨Or.inl hruns, activity, rfl⟩
  · rcases hf output rfl with ⟨hlater, hstopped⟩ | ⟨hnone, hthrough⟩
    · exact Or.inl ⟨Or.inr hlater, hstopped⟩
    · exact Or.inr ⟨fun h => h.elim hnot hnone, hthrough⟩

/-- Whatever is made of a result in the end runs no stage. -/
theorem map (h : Stops runs x y) (f : α → β) :
    Stops runs (do return f (← x)) (do return f (← y)) :=
  (h.bind fun output _ => of_result (f output)).congr (or_iff_left not_false)

/-- Along a list, the first item with something to run is where the query is stopped. -/
theorem mapM {f g : β → Except QueryError α} {needs : β → Prop} {xs : List β}
    (h : ∀ b ∈ xs, Stops (needs b) (f b) (g b)) :
    Stops (∃ b ∈ xs, needs b) (xs.mapM f) (xs.mapM g) := by
  induction xs with
  | nil => exact (of_result []).congr (by simp)
  | cons b xs ih =>
    have hrest := ih fun c hc => h c (List.mem_cons_of_mem b hc)
    rw [List.mapM_cons, List.mapM_cons]
    refine ((h b List.mem_cons_self).bind fun output _ => hrest.map (output :: ·)).congr ?_
    rw [List.exists_mem_cons_iff]

/-- In a fold, every item is followed from the state that those before it have led to. -/
theorem foldlM {f g : α → β → Except QueryError α} {needs : β → Prop} {init : α} {xs : List β}
    (h : ∀ done b rest before, xs = done ++ b :: rest → done.foldlM f init = .ok before →
      Stops (needs b) (f before b) (g before b)) :
    Stops (∃ b ∈ xs, needs b) (xs.foldlM f init) (xs.foldlM g init) := by
  induction xs generalizing init with
  | nil => exact (of_result init).congr (by simp)
  | cons b xs ih =>
    rw [List.foldlM_cons, List.foldlM_cons]
    have hfirst := h [] b xs init rfl rfl
    refine (hfirst.bind fun next hnext => ih fun done c rest before hsplit hbefore => ?_).congr ?_
    · -- what leads on from `next` leads on from `init`, with `b` before it
      refine h (b :: done) c rest before (by rw [hsplit, List.cons_append]) ?_
      rw [List.foldlM_cons, hnext, ok_bind]
      exact hbefore
    · rw [List.exists_mem_cons_iff]

/-- **The flag cancels exactly what would run.** -/
theorem cancelled_iff (h : Stops runs x y) :
    (∃ activity, x = .error (.failed activity .cancelled)) ↔ runs := by
  rcases h with ⟨hruns, hstopped⟩ | ⟨hnot, output, rfl, rfl⟩
  · exact iff_of_true hstopped hruns
  · refine iff_of_false ?_ hnot
    rintro ⟨activity, h⟩
    cases h

/-- The flag lets no other failure be seen. -/
theorem eq_cancelled (h : Stops runs x y) {e : QueryError} (herror : x = .error e) :
    ∃ activity, e = .failed activity .cancelled := by
  rcases h with ⟨-, activity, rfl⟩ | ⟨-, output, rfl, -⟩
  · exact ⟨activity, (Except.error.inj herror).symm⟩
  · cases herror

/-- If nothing would run, the flag makes no difference. -/
theorem exists_result (h : Stops runs x y) (hnot : ¬runs) :
    ∃ output, x = .ok output ∧ y = .ok output := by
  rcases h with ⟨hruns, -⟩ | ⟨-, hthrough⟩
  · exact absurd hruns hnot
  · exact hthrough

end Stops

/-! ## The parts of a query -/

variable {registry : Registry} {shards : List Shard} {order : List Aggregation}

/-- The flag is looked at before every stage, so no stage of a list is run. -/
theorem stops_runStages (activity : Activity) (a : Aggregation) (results : Results)
    (stages : List Stage) (input : List Series) :
    Stops (stages ≠ []) (during activity (runStages true a results stages input))
      (during activity (runStages false a results stages input)) := by
  cases stages with
  | nil => exact (Stops.of_result input).congr (by simp)
  | cons s stages => exact Or.inl ⟨List.cons_ne_nil s stages, activity, rfl⟩

/-- A shard runs the leading stages of every unfold aggregation. -/
theorem stops_runShard (unfolds : List Aggregation) (shard : Shard) :
    Stops (∃ a ∈ unfolds, Stage.shardPrefix a.stages ≠ []) (runShard true unfolds shard)
      (runShard false unfolds shard) := by
  refine (Stops.mapM fun a _ => ?_).map _
  exact (stops_runStages (.runningShard shard.id a.name) a [] (Stage.shardPrefix a.stages)
    (shard.seriesOf a.name)).map _

/-- Merging does not fail: only `head` reduces, and something is there to be reduced. -/
theorem exists_mergePartials_ok (stages : List Stage) (partials : List PartialResult) :
    ∃ merged, mergePartials stages partials = .ok merged := by
  unfold mergePartials
  split
  case isTrue => exact ⟨[], rfl⟩
  case isFalse hsome =>
    rw [List.isEmpty_iff] at hsome
    split
    case h_2 => exact ⟨_, rfl⟩
    case h_1 stage _ =>
      cases stage with
      | head limit =>
        obtain ⟨reduced, hreduced⟩ := Stage.exists_reduce_head limit hsome
        exact ⟨reduced.series, map_eq_ok.mpr ⟨reduced, hreduced, rfl⟩⟩
      | _ => exact ⟨_, rfl⟩

/-- The merge runs no stage; the deferred ones come after it. -/
theorem stops_finishUnfold (outcomes : List ShardOutcome) (results : Results) (a : Aggregation) :
    Stops (Stage.deferred a.stages ≠ []) (finishUnfold true outcomes results a)
      (finishUnfold false outcomes results a) := by
  unfold finishUnfold
  obtain ⟨merged, hmerged⟩ := exists_mergePartials_ok (Stage.shardPrefix a.stages)
    (outcomes.filterMap fun o => o.results.find? fun p => p.name == a.name)
  simp only [during_eq_ok.mpr hmerged, ok_bind]
  exact (stops_runStages (.finishing a.name) a results (Stage.deferred a.stages) merged).map _

/-- All shards, and then all merges. -/
theorem stops_unfoldPhase (registry : Registry) (shards : List Shard) :
    Stops ((∃ shard ∈ shards, ∃ a ∈ registry.unfolds, Stage.shardPrefix a.stages ≠ []) ∨
        ∃ a ∈ registry.unfolds, Stage.deferred a.stages ≠ [])
      (unfoldPhase true registry shards) (unfoldPhase false registry shards) := by
  refine (Stops.mapM fun shard _ => stops_runShard registry.unfolds shard).bind fun outcomes _ => ?_
  exact (Stops.foldlM fun _ a _ before _ _ => stops_finishUnfold outcomes before a).map _

/-- A coordinator aggregation whose input is there runs its stages, if it has any. -/
theorem stops_evaluate {a : Aggregation} {references : List (String × String)} {input : String}
    (ha : a.source = .aggregation references input) {results : Results} {series : List Series}
    (hinput : results.lookup (a.resolve input) = some series) :
    Stops (a.stages ≠ []) (evaluate true results a) (evaluate false results a) := by
  rw [evaluate_eq ha, evaluate_eq ha, hinput]
  exact (stops_runStages (.evaluating a.name) a results a.stages series).map _

/-- In the order that was found, every input is there and so is the answer. -/
theorem stops_coordinatorPhase (hr : registry.Consistent) {final : String}
    (hfinal : registry.final = .ok final) (horder : registry.order = .ok order) (config : Config)
    (outcomes : List ShardOutcome) {unfolded : Results}
    (hkeys : unfolded.map Prod.fst = registry.unfolds.map Aggregation.name) :
    Stops (∃ a ∈ order, a.stages ≠ [])
      (coordinatorPhase config true final order outcomes unfolded)
      (coordinatorPhase config false final order outcomes unfolded) := by
  -- In the order, what an aggregation reads has been evaluated before it, so the search for its
  -- input does not fail in the place of its stages.
  have hevaluated : Stops (∃ a ∈ order, a.stages ≠ []) (order.foldlM (evaluate true) unfolded)
      (order.foldlM (evaluate false) unfolded) := by
    refine Stops.foldlM fun done a rest before hsplit hbefore => ?_
    have hcoord := Registry.isCoordinator_of_order hr horder a (by rw [hsplit]; simp)
    obtain ⟨references, input, hsource⟩ := a.exists_source hcoord
    obtain ⟨series, hseries⟩ := reads_found hr horder hsplit hkeys hbefore _
      (Aggregation.resolve_input_mem_reads hsource)
    exact stops_evaluate hsource hseries
  refine (hevaluated.bind fun results hresults => ?_).congr (or_iff_left not_false)
  have hnames := keys_perm_names hr horder hkeys hresults
  have hmem := hnames.mem_iff.mpr (Registry.final_registered hfinal)
  obtain ⟨series, hseries⟩ := Results.exists_lookup hmem
  rw [hseries]
  exact Stops.of_result _

/-! ## The whole query -/

/-- A query has a stage to run: on a shard, after the merge, or in a coordinator aggregation. -/
inductive MustRun (registry : Registry) (shards : List Shard) : Prop
  | onShard {shard : Shard} {a : Aggregation} (hshard : shard ∈ shards) (ha : a ∈ registry.unfolds)
      (h : Stage.shardPrefix a.stages ≠ [])
  | finishing {a : Aggregation} (ha : a ∈ registry.unfolds) (h : Stage.deferred a.stages ≠ [])
  | evaluating {a : Aggregation} (ha : a ∈ registry.coordinators) (h : a.stages ≠ [])

/-- The three places, whatever the order of evaluation. -/
theorem mustRun_iff (horder : order.Perm registry.coordinators) :
    (((∃ shard ∈ shards, ∃ a ∈ registry.unfolds, Stage.shardPrefix a.stages ≠ []) ∨
        ∃ a ∈ registry.unfolds, Stage.deferred a.stages ≠ []) ∨
      ∃ a ∈ order, a.stages ≠ []) ↔ MustRun registry shards := by
  constructor
  · rintro ((⟨shard, hshard, a, ha, h⟩ | ⟨a, ha, h⟩) | ⟨a, ha, h⟩)
    · exact .onShard hshard ha h
    · exact .finishing ha h
    · exact .evaluating (horder.mem_iff.mp ha) h
  · rintro (⟨hshard, ha, h⟩ | ⟨ha, h⟩ | ⟨ha, h⟩)
    · exact Or.inl (Or.inl ⟨_, hshard, _, ha, h⟩)
    · exact Or.inl (Or.inr ⟨_, ha, h⟩)
    · exact Or.inr ⟨_, horder.mem_iff.mpr ha, h⟩

/-- The whole query, once final aggregation and order have been found. -/
theorem stops_execute (hr : registry.Consistent) {config : Config}
    (hconfig : config.validate = .ok ()) {final : String} (hfinal : registry.final = .ok final)
    (horder : registry.order = .ok order) (shards : List Shard) :
    Stops (MustRun registry shards) (execute config true registry shards)
      (execute config false registry shards) := by
  rw [execute_of_resolved hconfig hfinal horder, execute_of_resolved hconfig hfinal horder]
  obtain ⟨hperm, -, -⟩ := Registry.order_sound hr horder
  refine ((stops_unfoldPhase registry shards).bind fun phase hphase => ?_).congr
    (mustRun_iff hperm)
  exact stops_coordinatorPhase hr hfinal horder config phase.1 (unfoldPhase_keys hphase)

/-- **A query that was cancelled beforehand runs no stage.**  Let the configuration be valid, and
    let final aggregation and order be found.  Then the query is cancelled exactly if it has a stage
    to run, and a failure is never any other: no stage has come to refuse its series.  If it has
    none then it succeeds, with the outcome that it has without the flag. -/
theorem execute_cancelled (hr : registry.Reachable) {config : Config}
    (hconfig : config.validate = .ok ()) {final : String} (hfinal : registry.final = .ok final)
    (horder : registry.order = .ok order) (shards : List Shard) :
    ((∃ activity, execute config true registry shards = .error (.failed activity .cancelled)) ↔
        MustRun registry shards) ∧
      (∀ e, execute config true registry shards = .error e →
        ∃ activity, e = .failed activity .cancelled) ∧
      (¬MustRun registry shards → ∃ outcome, execute config true registry shards = .ok outcome ∧
        execute config false registry shards = .ok outcome) := by
  have hstops := stops_execute hr.consistent hconfig hfinal horder shards
  exact ⟨hstops.cancelled_iff, fun e => hstops.eq_cancelled, hstops.exists_result⟩

/-- With the flag, the small query is cancelled before it refuses a series whose step is ninety
    seconds, and without any shard as well.  A reading alone has no stage, and is answered. -/
theorem execute_cancelled_usage :
    (∃ activity, execute .sequential true Usage.registry [Usage.coarse] =
        .error (.failed activity .cancelled)) ∧
      (∃ activity, execute .sequential true Usage.registry [] =
        .error (.failed activity .cancelled)) ∧
      ∃ outcome, execute .sequential true (.ofAttempts [Usage.memory]) Usage.shards =
          .ok outcome ∧
        execute .sequential false (.ofAttempts [Usage.memory]) Usage.shards = .ok outcome := by
  have hvalid : Config.sequential.validate = .ok () := rfl
  have hcancelled := execute_cancelled Usage.reachable hvalid Usage.final_eq Usage.order_eq
  -- a coordinator aggregation with a stage needs no shard to be evaluated
  have hmust : ∀ shards, MustRun Usage.registry shards := fun shards =>
    .evaluating (a := Usage.top) (by simp [Usage.coordinators_eq]) (by simp [Usage.top])
  have hmemory : Registry.order (.ofAttempts [Usage.memory]) = .ok [] := by
    rw [Registry.order_eq_schedule (by decide) (by decide)]
    rfl
  refine ⟨(hcancelled _).1.mpr (hmust _), (hcancelled _).1.mpr (hmust _), ?_⟩
  refine (execute_cancelled ⟨[Usage.memory], rfl⟩ hvalid rfl hmemory Usage.shards).2.2 ?_
  rintro (⟨-, ha, h⟩ | ⟨ha, h⟩ | ⟨ha, h⟩)
  · obtain rfl := List.mem_singleton.mp ha
    exact h rfl
  · obtain rfl := List.mem_singleton.mp ha
    exact h rfl
  · cases ha

end SeriesQuery
