/-
  The one way in which a query fails once it is resolved.

  Most of the failures that are written into the stages and into `execute` cannot happen after final
  aggregation and order have been found, each for a reason of its own:

  * a binary stage run on one list: on shards there are none, elsewhere operands are passed along;
  * an absent operand or input: all that an aggregation reads has a result at its turn
    (`reads_found`);
  * a reduction that the stage does not support, or one of nothing: merging is exact
    (`Stage.mergePartials_eq_runAll`);
  * no result for the answer: the final aggregation is registered, and all those have one.

  What is left is a downsampling that refuses a series which has come to it (`Stage.RefusedAt`).
-/
import SeriesQuery.Proofs.Query.Dependencies
import SeriesQuery.Proofs.Query.TwoPhase

namespace SeriesQuery

/-! ## What a stage refuses -/

/-- A downsampling refuses a series: its interval is below the step, or its buckets do not fit. -/
def Downsampling.Refuses (d : Downsampling) (x : Series) (cause : Invalid) : Prop :=
  d.apply x = .error (.invalid cause) ∧
    (cause = .intervalBelowStep d.interval x.step ∨
      cause = .bucketsOverflow x.minTime x.maxTime d.interval)

theorem Downsampling.apply_eq_error {d : Downsampling} {x : Series} {e : Error}
    (h : d.apply x = .error e) : ∃ cause, e = .invalid cause ∧ d.Refuses x cause := by
  have hcase := h
  unfold apply at hcase
  split at hcase
  case isTrue => cases hcase
  case isFalse =>
    split at hcase
    case isTrue =>
      obtain rfl := Except.error.inj hcase
      exact ⟨_, rfl, h, Or.inl rfl⟩
    case isFalse =>
      split at hcase
      case h_1 =>
        obtain rfl := Except.error.inj hcase
        exact ⟨_, rfl, h, Or.inr rfl⟩
      case h_2 => cases hcase

namespace Stage

/-- A unary stage fails only if it is a downsampling, and one of the series is refused. -/
theorem run_eq_error {s : Stage} (h : s.isBinary = false) {input : List Series} {e : Error}
    (hrun : s.run input = .error e) :
    ∃ d x cause, s = summarize d ∧ x ∈ input ∧ d.Refuses x cause ∧ e = .invalid cause := by
  cases s with
  | summarize d =>
    obtain ⟨x, hx, happly⟩ := exists_error_of_mapM hrun
    obtain ⟨cause, he, hrefuse⟩ := Downsampling.apply_eq_error happly
    exact ⟨d, x, cause, rfl, hx, hrefuse, he⟩
  | head limit => cases hrun
  | scale factor => cases hrun
  | scaleToSeconds seconds => cases hrun
  | arithmetic a => cases h
  | union right => cases h

/-- A binary stage that has both operands does not fail. -/
theorem runBinary_eq_ok {s : Stage} {reference : String} (h : s.right? = some reference)
    (left right : List Series) : ∃ output, s.runBinary (some left) (some right) = .ok output := by
  cases s with
  | arithmetic a => exact ⟨_, rfl⟩
  | union r => exact ⟨_, rfl⟩
  | head limit => cases h
  | summarize d => cases h
  | scale factor => cases h
  | scaleToSeconds seconds => cases h

/-- Of some stages of `a` that are run on `input`, a downsampling refuses a series that the stages
    before it have made. -/
def RefusedAt (a : Aggregation) (results : Results) (stages : List Stage) (input : List Series)
    (cause : Invalid) : Prop :=
  ∃ before d after reached x, stages = before ++ summarize d :: after ∧
    runStages false a results before input = .ok reached ∧ x ∈ reached ∧ d.Refuses x cause

/-- **Stages that have their operands fail in a downsampling only.** -/
theorem runStages_eq_error {a : Aggregation} {results : Results} {stages : List Stage}
    (hfound : ∀ s ∈ stages, ∀ reference, s.right? = some reference →
      ∃ right, results.lookup (a.resolve reference) = some right)
    {input : List Series} {e : Error} (h : runStages false a results stages input = .error e) :
    ∃ cause, e = .invalid cause ∧ RefusedAt a results stages input cause := by
  obtain ⟨before, s, after, reached, rfl, hreached, hs⟩ := foldlM_eq_error h
  cases hright : s.right? with
  | some reference =>
    obtain ⟨right, hoperand⟩ := hfound s (by simp) reference hright
    obtain ⟨output, hok⟩ := runBinary_eq_ok hright reached right
    rw [runStage_binary hright, hoperand, hok] at hs
    cases hs
  | none =>
    have hbinary : s.isBinary = false := by simp [isBinary, hright]
    rw [runStage_unary hright] at hs
    obtain ⟨d, x, cause, rfl, hx, hrefuse, rfl⟩ := run_eq_error hbinary hs
    exact ⟨cause, rfl, before, d, after, reached, x, rfl, hreached, hx, hrefuse⟩

/-- Unary stages need no operands. -/
theorem runAll_eq_error {stages : List Stage} (h : ∀ s ∈ stages, s.isBinary = false)
    (a : Aggregation) {input : List Series} {e : Error} (hrun : runAll stages input = .error e) :
    ∃ cause, e = .invalid cause ∧ RefusedAt a [] stages input cause := by
  rw [← runStages_eq_runAll h a [] input] at hrun
  refine runStages_eq_error (fun s hs reference hright => ?_) hrun
  have hunary := h s hs
  rw [isBinary, hright] at hunary
  cases hunary

end Stage

/-! ## What a query refuses -/

variable {registry : Registry} {shards : List Shard} {order : List Aggregation}

/-- A failure that is due to the series and not to the shape of the query: a downsampling refuses a
    series, on a shard, on what is gathered from all shards, or on the results of others. -/
inductive RefusedIn (registry : Registry) (shards : List Shard) (order : List Aggregation) :
    QueryError → Prop
  | onShard {a : Aggregation} {shard : Shard} {cause : Invalid} (ha : a ∈ registry.unfolds)
      (hshard : shard ∈ shards)
      (h : Stage.RefusedAt a [] (Stage.shardPrefix a.stages) (shard.seriesOf a.name) cause) :
      RefusedIn registry shards order (.failed (.runningShard shard.id a.name) (.invalid cause))
  | finishing {a : Aggregation} {cause : Invalid} (ha : a ∈ registry.unfolds)
      (h : Stage.RefusedAt a [] a.stages (gathered shards a.name) cause) :
      RefusedIn registry shards order (.failed (.finishing a.name) (.invalid cause))
  | evaluating {done rest : List Aggregation} {a : Aggregation} {outcomes : List ShardOutcome}
      {unfolded before : Results} {references : List (String × String)} {input : String}
      {series : List Series} {cause : Invalid} (hsplit : order = done ++ a :: rest)
      (hunfold : unfoldPhase false registry shards = .ok (outcomes, unfolded))
      (hbefore : done.foldlM (evaluate false) unfolded = .ok before)
      (hsource : a.source = .aggregation references input)
      (hinput : before.lookup (a.resolve input) = some series)
      (h : Stage.RefusedAt a before a.stages series cause) :
      RefusedIn registry shards order (.failed (.evaluating a.name) (.invalid cause))

theorem refusedIn_of_unfoldPhase (hr : registry.Consistent) {e : QueryError}
    (h : unfoldPhase false registry shards = .error e) : RefusedIn registry shards order e := by
  obtain ⟨a, ha, cause, ⟨shard, hshard, rfl, hrun⟩ | ⟨rfl, hrun⟩⟩ := unfoldPhase_eq_error hr h
  · obtain ⟨invalid, rfl, hrefused⟩ :=
      Stage.runAll_eq_error (fun _ => Stage.unary_of_mem_shardPrefix) a hrun
    exact .onShard ha hshard hrefused
  · obtain ⟨invalid, rfl, hrefused⟩ := Stage.runAll_eq_error (hr.unary a ha) a hrun
    exact .finishing ha hrefused

/-- A coordinator aggregation whose turn has come fails only in a downsampling. -/
theorem refusedIn_of_evaluate (hr : registry.Consistent) (horder : registry.order = .ok order)
    {done rest : List Aggregation} {a : Aggregation} (hsplit : order = done ++ a :: rest)
    {outcomes : List ShardOutcome} {unfolded before : Results}
    (hunfold : unfoldPhase false registry shards = .ok (outcomes, unfolded))
    (hbefore : done.foldlM (evaluate false) unfolded = .ok before) {e : QueryError}
    (h : evaluate false before a = .error e) : RefusedIn registry shards order e := by
  have hcoord : a.isCoordinator = true :=
    Registry.isCoordinator_of_order hr horder a (by rw [hsplit]; simp)
  obtain ⟨references, input, hsource⟩ := a.exists_source hcoord
  have hfound := reads_found hr horder hsplit (unfoldPhase_keys hunfold) hbefore
  rcases evaluate_eq_error hsource h with ⟨hnone, -⟩ | ⟨series, cause, hseries, hrun, rfl⟩
  · -- the input is among what is read, so it is there
    obtain ⟨series, hseries⟩ := hfound _ (Aggregation.resolve_input_mem_reads hsource)
    rw [hnone] at hseries
    cases hseries
  · have hoperands : ∀ s ∈ a.stages, ∀ reference, s.right? = some reference →
        ∃ right, before.lookup (a.resolve reference) = some right := fun s hs reference hright =>
      hfound _ (Aggregation.resolve_right_mem_reads hcoord hs hright)
    obtain ⟨invalid, rfl, hrefused⟩ := Stage.runStages_eq_error hoperands hrun
    exact .evaluating hsplit hunfold hbefore hsource hseries hrefused

/-- **A resolved query fails in a downsampling only.**  Let the configuration be valid, and let
    final aggregation and order be found.  If the query fails all the same, then a `summarize` of
    some aggregation refuses a series that has come to it, and this is the error that is
    reported. -/
theorem execute_refused (hr : registry.Reachable) {config : Config}
    (hconfig : config.validate = .ok ()) {final : String} (hfinal : registry.final = .ok final)
    (horder : registry.order = .ok order) {e : QueryError}
    (h : execute config false registry shards = .error e) : RefusedIn registry shards order e := by
  have hc := hr.consistent
  rw [execute_of_resolved hconfig hfinal horder] at h
  rcases bind_eq_error.mp h with hphase | ⟨⟨outcomes, unfolded⟩, hunfold, hphase⟩
  · exact refusedIn_of_unfoldPhase hc hphase
  · rcases coordinatorPhase_eq_error hphase with
      ⟨done, a, rest, before, hsplit, hbefore, hfail⟩ | ⟨results, hresults, hnone, -⟩
    · exact refusedIn_of_evaluate hc horder hsplit hunfold hbefore hfail
    · -- the final aggregation is registered, and so it has a result
      have hperm := keys_perm_names hc horder (unfoldPhase_keys hunfold) hresults
      have hmem := hperm.mem_iff.mpr (Registry.final_registered hfinal)
      obtain ⟨series, hseries⟩ := Results.exists_lookup hmem
      rw [hnone] at hseries
      cases hseries

/-- The small query refuses a series whose step is ninety seconds: the buckets are shorter. -/
theorem execute_refused_usage :
    ∃ e, execute .sequential false Usage.registry [Usage.coarse] = .error e ∧
      RefusedIn Usage.registry [Usage.coarse] [Usage.total, Usage.top] e := by
  have hfail : execute .sequential false Usage.registry [Usage.coarse] =
        .error (.failed (.runningShard "a" "cpu") (.invalid (.intervalBelowStep 60000 90000))) := by
    rw [execute_of_resolved rfl Usage.final_eq Usage.order_eq]
    rfl
  exact ⟨_, hfail, execute_refused Usage.reachable rfl Usage.final_eq Usage.order_eq hfail⟩

end SeriesQuery
