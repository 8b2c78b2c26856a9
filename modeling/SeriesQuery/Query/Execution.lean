/-
  Executing a query over shards.

  First, every shard runs the leading stages of each unfold aggregation on its own series.  Then
  the coordinator merges what the shards give, runs the other stages of these aggregations, and
  evaluates the coordinator aggregations in their order.  The answer is the result of the final
  aggregation.

  The outcome does not depend on how many shards are worked on at a time, so the mode has no part in
  it beyond its validity.  A query that was cancelled beforehand stops at the first stage.  The
  clock that a profile is timed with is part of what a shard has (`Shard.elapsed`).
-/
import SeriesQuery.Query.Config
import SeriesQuery.Query.Profile
import SeriesQuery.Query.Registry

namespace SeriesQuery

/-- What one shard has for a query. -/
structure Shard where
  id : String
  /-- The series that were fetched for each unfold aggregation. -/
  series : List (String × List Series)
  /-- Counters of the storage, reported with the profile. -/
  statistics : Json.Members
  /-- The nanoseconds that pass on the shard's clock while it works on an unfold aggregation. -/
  elapsed : String → Nat := fun _ => 0

namespace Shard

variable {s : Shard} {name : String} {found : List Series}

/-- The series of a shard for an aggregation; none if there is nothing under its name. -/
def seriesOf (s : Shard) (name : String) : List Series :=
  (s.series.lookup name).getD []

theorem seriesOf_of_lookup (h : s.series.lookup name = some found) : s.seriesOf name = found := by
  rw [seriesOf, h, Option.getD_some]

theorem seriesOf_of_absent (h : s.series.lookup name = none) : s.seriesOf name = [] := by
  rw [seriesOf, h, Option.getD_none]

end Shard

/-- The results of aggregations by name, in the order in which they came. -/
abbrev Results := List (String × List Series)

/-- What a query was doing when it failed. -/
inductive Activity
  | findingFinal
  | ordering
  | runningShard (shard aggregation : String)
  | merging (aggregation : String)
  | finishing (aggregation : String)
  | readingInput (aggregation : String)
  | evaluating (aggregation : String)
  deriving Repr, DecidableEq

def Activity.message : Activity → String
  | findingFinal => "resolving final aggregation"
  | ordering => "ordering coordinator aggregations"
  | runningShard shard name => "shard '" ++ shard ++ "' failed in aggregation '" ++ name ++ "'"
  | merging name => "merging shard results of '" ++ name ++ "'"
  | finishing name => "coordinator stages of '" ++ name ++ "'"
  | readingInput name => "input of '" ++ name ++ "'"
  | evaluating name => "evaluating coordinator aggregation '" ++ name ++ "'"

/-- Why a query fails. -/
inductive QueryError
  | configuration (cause : ConfigError)
  | failed (during : Activity) (cause : Error)
  | noResult (final : String)
  deriving Repr, DecidableEq

def QueryError.message : QueryError → String
  | configuration cause => cause.message
  | failed during cause => during.message ++ ": " ++ cause.message
  | noResult final => "final aggregation '" ++ final ++ "' produced no result"

/-- Says what was being done when a step failed. -/
def during (activity : Activity) (result : Except Error α) : Except QueryError α :=
  result.mapError (.failed activity)

/-! ## Stages in a row -/

/-- One stage of an aggregation.  A binary one takes its right operand from the results so far,
    where it may be missing. -/
def runStage (cancelled : Bool) (a : Aggregation) (results : Results) (input : List Series)
    (stage : Stage) : Except Error (List Series) :=
  if cancelled then .error .cancelled
  else match stage.right? with
    | some reference => stage.runBinary (some input) (results.lookup (a.resolve reference))
    | none => stage.run input

/-- Stages of an aggregation, one after the other. -/
def runStages (cancelled : Bool) (a : Aggregation) (results : Results) (stages : List Stage)
    (input : List Series) : Except Error (List Series) :=
  stages.foldlM (runStage cancelled a results) input

section Stages

variable {cancelled : Bool} {a : Aggregation} {results : Results} {stage : Stage}
  {stages : List Stage} {input output : List Series}

theorem runStage_cancelled : runStage true a results input stage = .error .cancelled := rfl

/-- A stage without a right operand looks at no results. -/
theorem runStage_unary (h : stage.right? = none) :
    runStage false a results input stage = stage.run input := by
  simp [runStage, h]

/-- A stage with one takes what stands behind the reference, which may be nothing. -/
theorem runStage_binary {reference : String} (h : stage.right? = some reference) :
    runStage false a results input stage =
      stage.runBinary (some input) (results.lookup (a.resolve reference)) := by
  simp [runStage, h]

theorem runStages_nil : runStages cancelled a results [] input = .ok input := rfl

/-- The first stage, and then the others on what it gives. -/
theorem runStages_cons : runStages cancelled a results (stage :: stages) input =
    runStage cancelled a results input stage >>= runStages cancelled a results stages := rfl

/-- Stages that succeed were not cancelled, or there were none. -/
theorem runStages_of_ok (h : runStages cancelled a results stages input = .ok output) :
    runStages false a results stages input = .ok output := by
  cases cancelled with
  | false => exact h
  | true =>
    cases stages with
    | nil => exact h
    | cons stage stages =>
      rw [runStages_cons, runStage_cancelled] at h
      cases h

end Stages

/-! ## On a shard -/

/-- What a shard hands in: a result for each unfold aggregation, and its reports. -/
structure ShardOutcome where
  results : List PartialResult
  profile : ShardProfile

/-- The report about an aggregation on a shard: the counters of the storage, with those that the
    execution itself keeps put in their places, and the time that it took. -/
def profileEntry (shard : Shard) (a : Aggregation) (elapsed : Nat) (output : List Series) :
    ProfileEntry :=
  let input := shard.seriesOf a.name
  let stages := Stage.shardPrefix a.stages
  let names := if stages.isEmpty then noStages else String.intercalate "," (stages.map Stage.name)
  let count (n : Nat) : Json := .integer n
  let debug := shard.statistics
    |>.insert "stages" (.string names)
    |>.insert "total_input_series" (count input.length)
    |>.insert "total_output_series" (count output.length)
    |>.insert "total_samples" (count (input.flatMap Series.samples).length)
  { queryName := unfoldQueryName, description := a.name, nanos := toNanos elapsed, debug }

/-- One unfold aggregation on a shard. -/
def runOnShard (cancelled : Bool) (shard : Shard) (a : Aggregation) :
    Except QueryError (PartialResult × ProfileEntry) := do
  let output ← during (.runningShard shard.id a.name)
    (runStages cancelled a [] (Stage.shardPrefix a.stages) (shard.seriesOf a.name))
  return ({ name := a.name, series := output, metadata := [("shard_id", .string shard.id)] },
    profileEntry shard a (shard.elapsed a.name) output)

/-- All unfold aggregations on a shard. -/
def runShard (cancelled : Bool) (unfolds : List Aggregation) (shard : Shard) :
    Except QueryError ShardOutcome := do
  let outputs ← unfolds.mapM (runOnShard cancelled shard)
  return { results := outputs.map Prod.fst, profile := ⟨shard.id, outputs.map Prod.snd⟩ }

/-! ## At the coordinator -/

/-- The shards' results for one aggregation put together: reduced if the last stage on the shards
    asks for it, else one after the other. -/
def mergePartials (stages : List Stage) (partials : List PartialResult) :
    Except Error (List Series) :=
  if partials.isEmpty then .ok []
  else match stages.getLast? with
    | some stage =>
      if stage.isGlobal then PartialResult.series <$> stage.reduce partials
      else .ok (partials.flatMap PartialResult.series)
    | none => .ok (partials.flatMap PartialResult.series)

/-- One unfold aggregation at the coordinator. -/
def finishUnfold (cancelled : Bool) (outcomes : List ShardOutcome) (results : Results)
    (a : Aggregation) : Except QueryError Results := do
  let partials := outcomes.filterMap fun o => o.results.find? fun p => p.name == a.name
  let merged ← during (.merging a.name) (mergePartials (Stage.shardPrefix a.stages) partials)
  let output ← during (.finishing a.name)
    (runStages cancelled a results (Stage.deferred a.stages) merged)
  return results ++ [(a.name, output)]

/-- One coordinator aggregation. -/
def evaluate (cancelled : Bool) (results : Results) (a : Aggregation) :
    Except QueryError Results := do
  match a.source with
  | .shards => return results
  | .aggregation _ input =>
    let source := a.resolve input
    let series ← during (.readingInput a.name)
      ((results.lookup source).elim (.error (.unknownAggregation source)) .ok)
    let output ← during (.evaluating a.name) (runStages cancelled a results a.stages series)
    return results ++ [(a.name, output)]

/-! ## The whole query -/

/-- The result of a query. -/
structure Outcome where
  /-- The name of the final aggregation. -/
  final : String
  /-- Its result. -/
  series : List Series
  /-- The results of all aggregations. -/
  results : Results
  profile : Option ProfileReport

/-- Executes a query. -/
def execute (config : Config) (cancelled : Bool) (registry : Registry) (shards : List Shard) :
    Except QueryError Outcome := do
  config.validate.mapError .configuration
  let final ← during .findingFinal registry.final
  let order ← during .ordering registry.order
  let outcomes ← shards.mapM (runShard cancelled registry.unfolds)
  let unfolded ← registry.unfolds.foldlM (finishUnfold cancelled outcomes) []
  let results ← order.foldlM (evaluate cancelled) unfolded
  match results.lookup final with
  | none => throw (.noResult final)
  | some series =>
    let profile :=
      if config.profile then some (ProfileReport.ofShards (outcomes.map ShardOutcome.profile))
      else none
    return { final, series, results, profile }

end SeriesQuery
