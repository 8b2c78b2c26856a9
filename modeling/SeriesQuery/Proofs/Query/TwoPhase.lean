/-
  Two phases give what one phase would.

  An unfold aggregation runs in two phases: its leading stages on every shard, the others at the
  coordinator after the merge.  Here its result is compared with `singlePhase`, which gathers the
  series of all shards first and then runs all stages from left to right.

  1. On each shard, what is handed in for an aggregation is what its leading stages give
     (`mapM_handedIn`); names that differ keep the results of the aggregations apart.
  2. Merging these and running the other stages is the single-phase run, failures included
     (`finishUnfold_eq`).  This is `Stage.mergePartials_eq_runAll` at work.
  3. Hence the unfold phase succeeds exactly if every single-phase run does, with their results
     (`unfoldPhase_eq_ok_iff`), and the shards matter through what is gathered from them only.
-/
import SeriesQuery.Proofs.Query.Course
import SeriesQuery.Proofs.Stage.Splitting

namespace SeriesQuery

/-! ## A query in a single phase -/

/-- All series that the shards have for an aggregation, one shard after the other. -/
def gathered (shards : List Shard) (name : String) : List Series :=
  shards.flatMap fun shard => shard.seriesOf name

/-- All stages of an aggregation, from left to right, on all that the shards have for it. -/
def singlePhase (shards : List Shard) (a : Aggregation) : Except Error (List Series) :=
  Stage.runAll a.stages (gathered shards a.name)

/-- The single-phase results of some aggregations, under their names. -/
def singlePhases (shards : List Shard) (unfolds : List Aggregation) : Except Error Results :=
  unfolds.mapM fun a => (a.name, ·) <$> singlePhase shards a

/-- What is gathered is all that a single-phase run depends on. -/
theorem singlePhases_congr {shards shards' : List Shard} {unfolds : List Aggregation}
    (h : ∀ a ∈ unfolds, gathered shards' a.name = gathered shards a.name) :
    singlePhases shards' unfolds = singlePhases shards unfolds := by
  unfold singlePhases
  induction unfolds with
  | nil => rfl
  | cons a unfolds ih =>
    rw [List.mapM_cons, List.mapM_cons, ih fun b hb => h b (List.mem_cons_of_mem a hb)]
    unfold singlePhase
    rw [h a List.mem_cons_self]

/-- The single-phase results are found under the names of their aggregations. -/
theorem lookup_singlePhases {shards : List Shard} {unfolds : List Aggregation}
    (hnodup : (unfolds.map Aggregation.name).Nodup) {results : Results}
    (h : singlePhases shards unfolds = .ok results) : ∀ a ∈ unfolds, ∃ output,
      singlePhase shards a = .ok output ∧ results.lookup a.name = some output := by
  have hnamed : List.Forall₂ (fun a p => p.1 = a.name ∧ singlePhase shards a = .ok p.2)
      unfolds results := by
    refine (mapM_eq_ok.mp h).imp fun a p hp => ?_
    obtain ⟨output, houtput, rfl⟩ := map_eq_ok.mp hp
    exact ⟨rfl, houtput⟩
  intro a ha
  obtain ⟨p, hp, houtput⟩ := find?_of_forall₂ hnamed hnodup a ha
  exact ⟨p.2, houtput, Results.lookup_of_find? hp⟩

/-! ## On the shards

A shard runs the leading stages of every unfold aggregation and hands in the results in one list.
No two aggregations share a name, so each result is found again under its name. -/

variable {registry : Registry} {shards : List Shard} {outcomes : List ShardOutcome}

/-- The results that shards hand in for an aggregation. -/
def handedIn (outcomes : List ShardOutcome) (name : String) : List PartialResult :=
  outcomes.filterMap fun o => o.results.find? fun p => p.name == name

/-- An unfold aggregation runs its leading stages on what the shard has for it, and reports what
    they give. -/
theorem runOnShard_eq_ok {cancelled : Bool} {a : Aggregation} {shard : Shard}
    {out : PartialResult × ProfileEntry} (h : runOnShard cancelled shard a = .ok out) :
    Stage.runAll (Stage.shardPrefix a.stages) (shard.seriesOf a.name) = .ok out.1.series ∧
      out.1.name = a.name ∧
      out.2 = profileEntry shard a (shard.elapsed a.name) out.1.series := by
  obtain ⟨output, houtput, hpair⟩ := bind_eq_ok.mp h
  obtain rfl := pure_eq_ok.mp hpair
  exact ⟨Stage.runAll_of_runStages (during_eq_ok.mp houtput), rfl, rfl⟩

/-- On a shard, the result of every unfold aggregation is found under its name. -/
theorem runShard_find? (hr : registry.Consistent) {shard : Shard} {o : ShardOutcome}
    (h : runShard false registry.unfolds shard = .ok o) :
    ∀ a ∈ registry.unfolds, ∃ p, o.results.find? (fun p => p.name == a.name) = some p ∧
      Stage.runAll (Stage.shardPrefix a.stages) (shard.seriesOf a.name) = .ok p.series := by
  obtain ⟨outputs, houts, ho⟩ := bind_eq_ok.mp h
  obtain rfl := pure_eq_ok.mp ho
  refine find?_of_forall₂ (List.forall₂_map_right_iff.mpr ?_) hr.unfolds_nodup
  refine (mapM_eq_ok.mp houts).imp fun a out hout => ?_
  obtain ⟨hrun, hname, -⟩ := runOnShard_eq_ok hout
  exact ⟨hname, hrun⟩

/-- Over all shards, what is handed in for an aggregation is what its leading stages give. -/
theorem mapM_handedIn (hr : registry.Consistent)
    (h : shards.mapM (runShard false registry.unfolds) = .ok outcomes) :
    ∀ a ∈ registry.unfolds,
      (shards.map fun shard => shard.seriesOf a.name).mapM
          (Stage.runAll (Stage.shardPrefix a.stages)) =
        .ok ((handedIn outcomes a.name).map PartialResult.series) := by
  intro a ha
  have hall := mapM_eq_ok.mp h
  clear h
  induction hall with
  | nil => rfl
  | cons ho hrest ih =>
    obtain ⟨p, hp, hrun⟩ := runShard_find? hr ho a ha
    rw [List.map_cons, List.mapM_cons, hrun, ok_bind, ih, ok_bind]
    unfold handedIn
    rw [List.filterMap_cons, hp]
    rfl

/-- A shard fails only in an unfold aggregation whose leading stages do. -/
theorem exists_runShard_ok {shard : Shard}
    (h : ∀ a ∈ registry.unfolds, ∃ output,
      Stage.runAll (Stage.shardPrefix a.stages) (shard.seriesOf a.name) = .ok output) :
    ∃ o, runShard false registry.unfolds shard = .ok o := by
  have hall : ∀ a ∈ registry.unfolds, ∃ out, runOnShard false shard a = .ok out := by
    intro a ha
    obtain ⟨output, houtput⟩ := h a ha
    unfold runOnShard
    rw [Stage.runStages_shardPrefix, houtput]
    exact ⟨_, rfl⟩
  obtain ⟨outputs, houts⟩ := exists_mapM_eq_ok hall
  unfold runShard
  rw [houts]
  exact ⟨_, rfl⟩

/-- If every single-phase run succeeds, so does every shard. -/
theorem exists_runShards_ok
    (h : ∀ a ∈ registry.unfolds, ∃ output, singlePhase shards a = .ok output) :
    ∃ outcomes, shards.mapM (runShard false registry.unfolds) = .ok outcomes := by
  refine exists_mapM_eq_ok fun shard hshard => exists_runShard_ok fun a ha => ?_
  obtain ⟨output, houtput⟩ := h a ha
  unfold singlePhase gathered at houtput
  rw [Stage.runAll_shardPrefix_deferred, List.flatMap_def] at houtput
  obtain ⟨merged, hmerged, -⟩ := bind_eq_ok.mp houtput
  -- The whole gets through the leading stages, so each part does, this shard's among them.
  obtain ⟨outputs, houts⟩ := Stage.exists_runAll_shardPrefix_iff.mp ⟨merged, hmerged⟩
  exact exists_ok_of_mapM houts (List.mem_map_of_mem hshard)

/-! ## At the coordinator

For one aggregation, merging and the deferred stages continue where the shards have stopped.  Taken
over all aggregations, the phase is a row of single-phase runs, each of which appends its result. -/

/-- **An unfold aggregation ends with its single-phase result**, or with its single-phase error. -/
theorem finishUnfold_eq (hr : registry.Consistent)
    (h : shards.mapM (runShard false registry.unfolds) = .ok outcomes) {a : Aggregation}
    (ha : a ∈ registry.unfolds) (results : Results) :
    finishUnfold false outcomes results a =
      (fun p => results ++ [p]) <$>
        ((a.name, ·) <$> during (.finishing a.name) (singlePhase shards a)) := by
  have hparts := mapM_handedIn hr h a ha
  obtain ⟨merged, hmerged⟩ := Stage.exists_runAll_shardPrefix_iff.mpr ⟨_, hparts⟩
  have hmerge := (Stage.mergePartials_eq_runAll hparts).trans hmerged
  have hsingle : singlePhase shards a = Stage.runAll (Stage.deferred a.stages) merged := by
    unfold singlePhase gathered
    rw [Stage.runAll_shardPrefix_deferred, List.flatMap_def, hmerged, ok_bind]
  have hrun := Stage.runStages_deferred (hr.unary a ha) a results merged
  show (during (.merging a.name)
      (mergePartials (Stage.shardPrefix a.stages) (handedIn outcomes a.name)) >>= _) = _
  rw [hmerge, hsingle]
  show (during (.finishing a.name) (runStages false a results (Stage.deferred a.stages) merged) >>=
    _) = _
  rw [hrun]
  cases Stage.runAll (Stage.deferred a.stages) merged with
  | error e => rfl
  | ok output => rfl

/-- **The unfold phase is the single-phase run of every unfold aggregation**: it succeeds exactly if
    they all do, and with their results. -/
theorem unfoldPhase_eq_ok_iff (hr : registry.Consistent) {unfolded : Results} :
    (∃ outcomes, unfoldPhase false registry shards = .ok (outcomes, unfolded)) ↔
      singlePhases shards registry.unfolds = .ok unfolded := by
  have hfinish : ∀ outcomes, shards.mapM (runShard false registry.unfolds) = .ok outcomes →
      (registry.unfolds.foldlM (finishUnfold false outcomes) [] = .ok unfolded ↔
        singlePhases shards registry.unfolds = .ok unfolded) := by
    intro outcomes houtcomes
    rw [foldlM_append_eq_mapM (fun results a ha => finishUnfold_eq hr houtcomes ha results),
      map_eq_ok]
    unfold singlePhases
    simp only [List.nil_append, exists_eq_right, mapM_eq_ok, map_eq_ok, during_eq_ok]
  constructor
  · rintro ⟨outcomes, h⟩
    obtain ⟨houtcomes, hunfolded⟩ := unfoldPhase_eq_ok.mp h
    exact (hfinish outcomes houtcomes).mp hunfolded
  · intro h
    have hsingle : ∀ a ∈ registry.unfolds, ∃ output, singlePhase shards a = .ok output := by
      intro a ha
      obtain ⟨p, hp⟩ := exists_ok_of_mapM h ha
      obtain ⟨output, houtput, -⟩ := map_eq_ok.mp hp
      exact ⟨output, houtput⟩
    obtain ⟨outcomes, houtcomes⟩ := exists_runShards_ok hsingle
    exact ⟨outcomes, unfoldPhase_eq_ok.mpr ⟨houtcomes, (hfinish outcomes houtcomes).mpr h⟩⟩

/-- A row of single-phase runs succeeds if each of them does. -/
theorem exists_singlePhases_ok {unfolds : List Aggregation}
    (h : ∀ a ∈ unfolds, ∀ cause, singlePhase shards a ≠ .error cause) :
    ∃ results, singlePhases shards unfolds = .ok results := by
  refine exists_mapM_eq_ok fun a ha => ?_
  obtain ⟨output, houtput⟩ := exists_ok_of_ne_error (h a ha)
  exact ⟨(a.name, output), by rw [houtput]; rfl⟩

/-- The unfold phase fails exactly if some single-phase run does. -/
theorem unfoldPhase_eq_error_iff (hr : registry.Consistent) :
    (∃ e, unfoldPhase false registry shards = .error e) ↔
      ∃ a ∈ registry.unfolds, ∃ cause, singlePhase shards a = .error cause := by
  constructor
  · rintro ⟨e, he⟩
    by_contra hnone
    have hsingle : ∀ a ∈ registry.unfolds, ∀ cause, singlePhase shards a ≠ .error cause :=
      fun a ha cause hcause => hnone ⟨a, ha, cause, hcause⟩
    obtain ⟨results, hresults⟩ := exists_singlePhases_ok hsingle
    obtain ⟨outcomes, hok⟩ := (unfoldPhase_eq_ok_iff hr).mpr hresults
    rw [hok] at he
    cases he
  · rintro ⟨a, ha, cause, hcause⟩
    cases hphase : unfoldPhase false registry shards with
    | error e => exact ⟨e, rfl⟩
    | ok phase =>
      -- A success would be one of every single-phase run, this one among them.
      have hall := (unfoldPhase_eq_ok_iff hr).mp ⟨phase.1, hphase⟩
      obtain ⟨p, hp⟩ := exists_ok_of_mapM hall ha
      rw [hcause] at hp
      cases hp

/-- Where the unfold phase fails: in the leading stages of an unfold aggregation on a shard, or at
    the coordinator, and then as its single-phase run does.  The merge itself never fails. -/
theorem unfoldPhase_eq_error (hr : registry.Consistent) {e : QueryError}
    (h : unfoldPhase false registry shards = .error e) :
    ∃ a ∈ registry.unfolds, ∃ cause,
      (∃ shard ∈ shards, e = .failed (.runningShard shard.id a.name) cause ∧
        Stage.runAll (Stage.shardPrefix a.stages) (shard.seriesOf a.name) = .error cause) ∨
      e = .failed (.finishing a.name) cause ∧ singlePhase shards a = .error cause := by
  rcases bind_eq_error.mp h with hshards | ⟨outcomes, houtcomes, h⟩
  · obtain ⟨shard, hshard, hrun⟩ := exists_error_of_mapM hshards
    rcases bind_eq_error.mp hrun with houts | ⟨outputs, -, hpure⟩
    · obtain ⟨a, ha, hone⟩ := exists_error_of_mapM houts
      rcases bind_eq_error.mp hone with hstages | ⟨output, -, hpure⟩
      · obtain ⟨cause, hcause, rfl⟩ := during_eq_error.mp hstages
        rw [Stage.runStages_shardPrefix] at hcause
        exact ⟨a, ha, cause, Or.inl ⟨shard, hshard, rfl, hcause⟩⟩
      · cases hpure
    · cases hpure
  · rcases bind_eq_error.mp h with hfold | ⟨unfolded, -, hpure⟩
    · have hstep := fun results a ha => finishUnfold_eq hr houtcomes (a := a) ha results
      rw [foldlM_append_eq_mapM hstep] at hfold
      obtain ⟨a, ha, hone⟩ := exists_error_of_mapM (map_eq_error.mp hfold)
      obtain ⟨cause, hcause, rfl⟩ := during_eq_error.mp (map_eq_error.mp hone)
      exact ⟨a, ha, cause, Or.inr ⟨rfl, hcause⟩⟩
    · cases hpure

/-! ## Whole queries

What comes after the unfold phase looks at its results alone.  So the shards matter through what is
gathered from them, and an execution ends as its single-phase runs and its coordinator aggregations
do. -/

/-- Whether an activity belongs to the unfold phase. -/
def Activity.onUnfolds : Activity → Bool
  | runningShard _ _ | merging _ | finishing _ => true
  | _ => false

/-- What a query answers, without the report on how it went. -/
def Outcome.answer (o : Outcome) : String × List Series × Results :=
  (o.final, o.series, o.results)

/-- The coordinator phase depends on what the shards handed in by the report only. -/
theorem coordinatorPhase_answer (config : Config) (cancelled : Bool) (final : String)
    (order : List Aggregation) (outcomes outcomes' : List ShardOutcome) (unfolded : Results) :
    (coordinatorPhase config cancelled final order outcomes unfolded).toOption.map Outcome.answer =
      (coordinatorPhase config cancelled final order outcomes' unfolded).toOption.map
        Outcome.answer := by
  unfold coordinatorPhase
  cases order.foldlM (evaluate cancelled) unfolded with
  | error e => rfl
  | ok results =>
    rw [ok_bind, ok_bind]
    cases results.lookup final with
    | none => rfl
    | some series => rfl

/-- The coordinator phase does not fail in an activity of the unfold phase. -/
theorem onUnfolds_of_coordinatorPhase {config : Config} {cancelled : Bool} {final : String}
    {order : List Aggregation} (horder : ∀ a ∈ order, a.isCoordinator = true) {unfolded : Results}
    {activity : Activity} {cause : Error}
    (h : coordinatorPhase config cancelled final order outcomes unfolded =
      .error (.failed activity cause)) : activity.onUnfolds = false := by
  rcases coordinatorPhase_eq_error h with ⟨done, a, rest, before, rfl, -, hfail⟩ | ⟨-, -, -, he⟩
  · obtain ⟨references, input, hsource⟩ := a.exists_source (horder a (by simp))
    rcases evaluate_eq_error hsource hfail with ⟨-, he⟩ | ⟨series, cause', -, -, he⟩
    · obtain ⟨rfl, -⟩ := QueryError.failed.inj he
      rfl
    · obtain ⟨rfl, -⟩ := QueryError.failed.inj he
      rfl
  · cases he

/-- In a successful query, every unfold aggregation has its single-phase result. -/
theorem lookup_of_execute (hr : registry.Consistent) {config : Config} {outcome : Outcome}
    (h : execute config false registry shards = .ok outcome) :
    ∀ a ∈ registry.unfolds, ∃ output,
      singlePhase shards a = .ok output ∧ outcome.results.lookup a.name = some output := by
  obtain ⟨order, outcomes, unfolded, -, -, horder, hunfold, hresults, -⟩ := execute_eq_ok h
  have hsingle := (unfoldPhase_eq_ok_iff hr).mp ⟨outcomes, hunfold⟩
  have hcoord := Registry.isCoordinator_of_order hr horder
  intro a ha
  obtain ⟨output, houtput, hlookup⟩ := lookup_singlePhases hr.unfolds_nodup hsingle a ha
  exact ⟨output, houtput, (evaluateAll_extends hcoord hresults).lookup_eq_some hlookup⟩

/-- A query fails in the unfold phase exactly if it gets there and some single-phase run fails. -/
theorem execute_fails_onUnfolds_iff (hr : registry.Consistent) (config : Config) :
    (∃ activity cause, activity.onUnfolds = true ∧
        execute config false registry shards = .error (.failed activity cause)) ↔
      config.validate = .ok () ∧ (∃ final, registry.final = .ok final) ∧
        (∃ order, registry.order = .ok order) ∧
        ∃ a ∈ registry.unfolds, ∃ cause, singlePhase shards a = .error cause := by
  constructor
  · rintro ⟨activity, cause, hactivity, h⟩
    rcases execute_eq_error h with ⟨cause', he⟩ | ⟨cause', -, he⟩ | ⟨cause', -, he⟩ |
      ⟨final, order, hconfig, hfinal, horder, hphase⟩
    · cases he
    · obtain ⟨rfl, -⟩ := QueryError.failed.inj he
      cases hactivity
    · obtain ⟨rfl, -⟩ := QueryError.failed.inj he
      cases hactivity
    · refine ⟨hconfig, ⟨final, hfinal⟩, ⟨order, horder⟩, ?_⟩
      rcases hphase with hunfold | ⟨outcomes, unfolded, -, hcoord⟩
      · exact (unfoldPhase_eq_error_iff hr).mp ⟨_, hunfold⟩
      · have horder := Registry.isCoordinator_of_order hr horder
        have hnot := onUnfolds_of_coordinatorPhase horder hcoord
        rw [hactivity] at hnot
        cases hnot
  · rintro ⟨hconfig, ⟨final, hfinal⟩, ⟨order, horder⟩, hfail⟩
    obtain ⟨e, he⟩ := (unfoldPhase_eq_error_iff hr).mpr hfail
    have hrun : execute config false registry shards = .error e := by
      rw [execute_of_resolved hconfig hfinal horder, he, error_bind]
    obtain ⟨a, -, cause, ⟨shard, -, rfl, -⟩ | ⟨rfl, -⟩⟩ := unfoldPhase_eq_error hr he
    · exact ⟨.runningShard shard.id a.name, cause, rfl, hrun⟩
    · exact ⟨.finishing a.name, cause, rfl, hrun⟩

/-- Shards from which the same is gathered lead to the same answer. -/
theorem execute_answer_congr (hr : registry.Consistent) (config : Config) {shards' : List Shard}
    (h : ∀ a ∈ registry.unfolds, gathered shards' a.name = gathered shards a.name) :
    (execute config false registry shards').toOption.map Outcome.answer =
      (execute config false registry shards).toOption.map Outcome.answer := by
  have hsame := singlePhases_congr h
  rw [execute_eq, execute_eq]
  cases config.validate.mapError QueryError.configuration with
  | error e => rfl
  | ok u =>
    cases during .findingFinal registry.final with
    | error e => rfl
    | ok final =>
      cases during .ordering registry.order with
      | error e => rfl
      | ok order =>
        simp only [ok_bind]
        cases hsingle : singlePhases shards registry.unfolds with
        | ok unfolded =>
          obtain ⟨outcomes, hok⟩ := (unfoldPhase_eq_ok_iff hr).mpr hsingle
          obtain ⟨outcomes', hok'⟩ := (unfoldPhase_eq_ok_iff hr).mpr (hsame.trans hsingle)
          rw [hok, hok']
          exact coordinatorPhase_answer config false final order outcomes' outcomes unfolded
        | error e =>
          -- Neither phase has a result, since that would be one of the single-phase runs.
          have hfail : ∀ shards, singlePhases shards registry.unfolds = .error e →
              ∃ e', unfoldPhase false registry shards = .error e' := by
            intro shards hsingle
            cases hphase : unfoldPhase false registry shards with
            | error e' => exact ⟨e', rfl⟩
            | ok phase =>
              have hok := (unfoldPhase_eq_ok_iff hr).mp ⟨phase.1, hphase⟩
              rw [hsingle] at hok
              cases hok
          obtain ⟨e₁, he₁⟩ := hfail shards hsingle
          obtain ⟨e₂, he₂⟩ := hfail shards' (hsame.trans hsingle)
          rw [he₁, he₂]
          rfl

/-- **Two phases give what one would.**  A query that succeeds has, for every unfold aggregation,
    the result of all its stages on everything that the shards have for it.  A query that gets to
    the unfold phase fails there exactly if one of these single-phase runs fails.  So the shards
    matter through what is gathered from them only, not through how it is spread. -/
theorem execute_eq_singlePhase {registry : Registry} (hr : registry.Reachable) (config : Config)
    (shards : List Shard) :
    (∀ outcome, execute config false registry shards = .ok outcome →
      ∀ a ∈ registry.unfolds, ∃ output,
        singlePhase shards a = .ok output ∧ outcome.results.lookup a.name = some output) ∧
    ((∃ activity cause, activity.onUnfolds = true ∧
        execute config false registry shards = .error (.failed activity cause)) ↔
      config.validate = .ok () ∧ (∃ final, registry.final = .ok final) ∧
        (∃ order, registry.order = .ok order) ∧
        ∃ a ∈ registry.unfolds, ∃ cause, singlePhase shards a = .error cause) ∧
    ∀ shards', (∀ a ∈ registry.unfolds, gathered shards' a.name = gathered shards a.name) →
      (execute config false registry shards').toOption.map Outcome.answer =
        (execute config false registry shards).toOption.map Outcome.answer :=
  ⟨fun _ h => lookup_of_execute hr.consistent h,
    execute_fails_onUnfolds_iff hr.consistent config,
    fun _ h => execute_answer_congr hr.consistent config h⟩

/-- In the small query `cpu` has its single-phase result, and one shard with everything on it would
    lead to the same answer. -/
theorem execute_eq_singlePhase_usage :
    let all : Shard :=
      { id := "all"
        series := [("cpu", gathered Usage.shards "cpu"), ("memory", gathered Usage.shards "memory")]
        statistics := [] }
    (∃ outcome, execute .sequential false Usage.registry Usage.shards = .ok outcome ∧
      ∃ output, singlePhase Usage.shards Usage.cpu = .ok output ∧
        outcome.results.lookup "cpu" = some output) ∧
    (execute .sequential false Usage.registry [all]).toOption.map Outcome.answer =
      (execute .sequential false Usage.registry Usage.shards).toOption.map Outcome.answer := by
  intro all
  obtain ⟨hresults, -, hspread⟩ := execute_eq_singlePhase Usage.reachable .sequential Usage.shards
  obtain ⟨outcome, hok⟩ := Usage.execute_ok
  have hmem : Usage.cpu ∈ Usage.registry.unfolds := by simp [Usage.unfolds_eq]
  refine ⟨⟨outcome, hok, hresults outcome hok Usage.cpu hmem⟩, hspread _ fun a ha => ?_⟩
  have hnames : a = Usage.cpu ∨ a = Usage.memory := by simpa [Usage.unfolds_eq] using ha
  rcases hnames with rfl | rfl
  · rfl
  · rfl

end SeriesQuery
