/-
  The course of an execution.

  `execute` is cut here into the two parts that it consists of once the final aggregation and the
  order are known: the unfold aggregations, on the shards and then at the coordinator
  (`unfoldPhase`), and the coordinator aggregations after them (`coordinatorPhase`).  `execute_eq`
  says that nothing is lost by the cut; the lemmas on success and failure of the parts are all that
  later proofs use.

  Results only ever grow at their end.  What is found once is therefore found to the end
  (`evaluateAll_extends`), and the names in the results tell how far an execution has come
  (`evaluateAll_keys`).
-/
import SeriesQuery.Proofs.Query.Ordering
import SeriesQuery.Query.Execution

namespace SeriesQuery

/-! ## Saying what was being done -/

/-- Saying what was being done has no part in a success. -/
theorem during_eq_ok {α : Type} {activity : Activity} {x : Except Error α} {a : α} :
    during activity x = .ok a ↔ x = .ok a := by
  cases x with
  | ok b => simp [during, Except.mapError]
  | error e => simp [during, Except.mapError]

/-- An activity adds to a failure what was being done. -/
theorem during_eq_error {α : Type} {activity : Activity} {x : Except Error α} {e : QueryError} :
    during activity x = .error e ↔ ∃ cause, x = .error cause ∧ e = .failed activity cause := by
  cases x with
  | ok b => simp [during, Except.mapError]
  | error cause =>
    simp only [during, Except.mapError, Except.error.injEq, exists_eq_left']
    exact eq_comm

/-! ## The two phases -/

/-- What the shards hand in, and the results of the unfold aggregations made of it. -/
def unfoldPhase (cancelled : Bool) (registry : Registry) (shards : List Shard) :
    Except QueryError (List ShardOutcome × Results) := do
  let outcomes ← shards.mapM (runShard cancelled registry.unfolds)
  let unfolded ← registry.unfolds.foldlM (finishUnfold cancelled outcomes) []
  return (outcomes, unfolded)

/-- The evaluation of the coordinator aggregations, and the answer. -/
def coordinatorPhase (config : Config) (cancelled : Bool) (final : String)
    (order : List Aggregation) (outcomes : List ShardOutcome) (unfolded : Results) :
    Except QueryError Outcome := do
  let results ← order.foldlM (evaluate cancelled) unfolded
  match results.lookup final with
  | none => throw (.noResult final)
  | some series =>
    let profile :=
      if config.profile then some (ProfileReport.ofShards (outcomes.map ShardOutcome.profile))
      else none
    return { final, series, results, profile }

/-- An execution is the search for final aggregation and order, and then the two phases. -/
theorem execute_eq (config : Config) (cancelled : Bool) (registry : Registry)
    (shards : List Shard) :
    execute config cancelled registry shards = (do
      config.validate.mapError .configuration
      let final ← during .findingFinal registry.final
      let order ← during .ordering registry.order
      let phase ← unfoldPhase cancelled registry shards
      coordinatorPhase config cancelled final order phase.1 phase.2) := by
  unfold execute unfoldPhase coordinatorPhase
  -- Step by step: an error at any of them ends both sides at once.
  cases config.validate.mapError QueryError.configuration with
  | error e => rfl
  | ok u =>
    cases during .findingFinal registry.final with
    | error e => rfl
    | ok final =>
      cases during .ordering registry.order with
      | error e => rfl
      | ok order =>
        cases shards.mapM (runShard cancelled registry.unfolds) with
        | error e => rfl
        | ok outcomes =>
          simp only [ok_bind]
          cases registry.unfolds.foldlM (finishUnfold cancelled outcomes) [] with
          | error e => rfl
          | ok unfolded => rfl

/-- Once final aggregation and order are known, only the two phases are left. -/
theorem execute_of_resolved {config : Config} {registry : Registry} {final : String}
    {order : List Aggregation} (hconfig : config.validate = .ok ())
    (hfinal : registry.final = .ok final) (horder : registry.order = .ok order) (cancelled : Bool)
    (shards : List Shard) :
    execute config cancelled registry shards = (do
      let phase ← unfoldPhase cancelled registry shards
      coordinatorPhase config cancelled final order phase.1 phase.2) := by
  rw [execute_eq, hconfig, hfinal, horder]
  rfl

/-- The coordinator phase succeeds with the result of the final aggregation, and with a report if
    one is asked for. -/
theorem coordinatorPhase_eq_ok {config : Config} {cancelled : Bool} {final : String}
    {order : List Aggregation} {outcomes : List ShardOutcome} {unfolded : Results}
    {outcome : Outcome}
    (h : coordinatorPhase config cancelled final order outcomes unfolded = .ok outcome) :
    outcome.final = final ∧ order.foldlM (evaluate cancelled) unfolded = .ok outcome.results ∧
      outcome.results.lookup final = some outcome.series ∧
      outcome.profile = if config.profile then
          some (ProfileReport.ofShards (outcomes.map ShardOutcome.profile))
        else none := by
  obtain ⟨results, hresults, h⟩ := bind_eq_ok.mp h
  split at h
  case h_1 => cases h
  case h_2 series hseries =>
    obtain rfl := pure_eq_ok.mp h
    exact ⟨rfl, hresults, hseries, rfl⟩

/-- A successful execution gets through both phases. -/
theorem execute_phases {config : Config} {cancelled : Bool} {registry : Registry}
    {shards : List Shard} {outcome : Outcome}
    (h : execute config cancelled registry shards = .ok outcome) :
    ∃ final order outcomes unfolded,
      config.validate = .ok () ∧ registry.final = .ok final ∧ registry.order = .ok order ∧
      unfoldPhase cancelled registry shards = .ok (outcomes, unfolded) ∧
      coordinatorPhase config cancelled final order outcomes unfolded = .ok outcome := by
  rw [execute_eq, bind_eq_ok] at h
  obtain ⟨⟨⟩, hconfig, h⟩ := h
  obtain ⟨final, hfinal, h⟩ := bind_eq_ok.mp h
  obtain ⟨order, horder, h⟩ := bind_eq_ok.mp h
  obtain ⟨⟨outcomes, unfolded⟩, hunfold, h⟩ := bind_eq_ok.mp h
  have hvalid : config.validate = .ok () := by
    cases hv : config.validate with
    | ok u => rfl
    | error e => simp [hv, Except.mapError] at hconfig
  exact ⟨final, order, outcomes, unfolded, hvalid, during_eq_ok.mp hfinal,
    during_eq_ok.mp horder, hunfold, h⟩

/-- **The course of a successful execution.** -/
theorem execute_eq_ok {config : Config} {cancelled : Bool} {registry : Registry}
    {shards : List Shard} {outcome : Outcome}
    (h : execute config cancelled registry shards = .ok outcome) :
    ∃ order outcomes unfolded,
      config.validate = .ok () ∧ registry.final = .ok outcome.final ∧
      registry.order = .ok order ∧
      unfoldPhase cancelled registry shards = .ok (outcomes, unfolded) ∧
      order.foldlM (evaluate cancelled) unfolded = .ok outcome.results ∧
      outcome.results.lookup outcome.final = some outcome.series := by
  obtain ⟨final, order, outcomes, unfolded, hvalid, hfinal, horder, hunfold, hcoord⟩ :=
    execute_phases h
  obtain ⟨rfl, hresults, hseries, -⟩ := coordinatorPhase_eq_ok hcoord
  exact ⟨order, outcomes, unfolded, hvalid, hfinal, horder, hunfold, hresults, hseries⟩

/-- Where an execution fails: in the configuration, in finding the final aggregation or the order,
    or in one of the two phases. -/
theorem execute_eq_error {config : Config} {cancelled : Bool} {registry : Registry}
    {shards : List Shard} {e : QueryError}
    (h : execute config cancelled registry shards = .error e) :
    (∃ cause, e = .configuration cause) ∨
      (∃ cause, registry.final = .error cause ∧ e = .failed .findingFinal cause) ∨
      (∃ cause, registry.order = .error cause ∧ e = .failed .ordering cause) ∨
      ∃ final order, config.validate = .ok () ∧ registry.final = .ok final ∧
        registry.order = .ok order ∧
        (unfoldPhase cancelled registry shards = .error e ∨
          ∃ outcomes unfolded, unfoldPhase cancelled registry shards = .ok (outcomes, unfolded) ∧
            coordinatorPhase config cancelled final order outcomes unfolded = .error e) := by
  -- The first question that fails says how the execution ends.
  cases hconfig : config.validate with
  | error cause =>
    rw [execute_eq, hconfig] at h
    exact Or.inl ⟨cause, (Except.error.inj h).symm⟩
  | ok u =>
    cases hfinal : registry.final with
    | error cause =>
      rw [execute_eq, hconfig, hfinal] at h
      exact Or.inr (Or.inl ⟨cause, rfl, (Except.error.inj h).symm⟩)
    | ok final =>
      cases horder : registry.order with
      | error cause =>
        rw [execute_eq, hconfig, hfinal, horder] at h
        exact Or.inr (Or.inr (Or.inl ⟨cause, rfl, (Except.error.inj h).symm⟩))
      | ok order =>
        rw [execute_of_resolved hconfig hfinal horder] at h
        refine Or.inr (Or.inr (Or.inr ⟨final, order, rfl, rfl, rfl, ?_⟩))
        rcases bind_eq_error.mp h with hunfold | ⟨phase, hunfold, hcoord⟩
        · exact Or.inl hunfold
        · exact Or.inr ⟨phase.1, phase.2, hunfold, hcoord⟩

/-! ## Results by name

Results are a list of pairs in which the first one counts.  As every step appends one under a new
name, earlier results stay where they are found. -/

namespace Results

/-- Nothing is found under a name that is not there. -/
theorem lookup_eq_none {results : Results} {name : String} (h : name ∉ results.map Prod.fst) :
    results.lookup name = none := by
  rw [List.lookup_eq_none_iff]
  intro p hp
  rw [bne_iff_ne]
  exact fun heq => h (heq ▸ List.mem_map_of_mem hp)

/-- A result that is appended under a new name is found. -/
theorem lookup_append_self {results : Results} {name : String} (h : results.lookup name = none)
    (output : List Series) : (results ++ [(name, output)]).lookup name = some output := by
  rw [List.lookup_append, h, Option.none_or, List.lookup_cons_self]

/-- Every name in the results has one. -/
theorem exists_lookup {results : Results} {name : String} (h : name ∈ results.map Prod.fst) :
    ∃ series, results.lookup name = some series := by
  rw [← Option.isSome_iff_exists, List.lookup_isSome_iff]
  obtain ⟨p, hp, rfl⟩ := List.mem_map.mp h
  exact ⟨p, hp, by simp⟩

/-- To look up is to find the first result under the name. -/
theorem lookup_of_find? {results : Results} {name : String} {p : String × List Series}
    (h : results.find? (fun q => q.1 == name) = some p) : results.lookup name = some p.2 := by
  induction results with
  | nil => cases h
  | cons q results ih =>
    rw [List.find?_cons] at h
    rw [List.lookup_cons, BEq.comm]
    cases hq : q.1 == name with
    | true =>
      rw [hq] at h
      rw [Option.some.inj h]
    | false =>
      rw [hq] at h
      exact ih h

/-- What is found is among the results. -/
theorem mem_of_lookup {results : Results} {name : String} {series : List Series}
    (h : results.lookup name = some series) : (name, series) ∈ results := by
  obtain ⟨before, after, heq, -⟩ := List.lookup_eq_some_iff.mp h
  rw [heq]
  simp

/-- If each step appends a result under the name of its aggregation, then the names of all of them
    are appended. -/
theorem foldlM_keys {f : Results → Aggregation → Except QueryError Results} {xs : List Aggregation}
    (hf : ∀ results, ∀ a ∈ xs, ∀ out, f results a = .ok out →
      ∃ output, out = results ++ [(a.name, output)]) {results out : Results}
    (h : xs.foldlM f results = .ok out) :
    out.map Prod.fst = results.map Prod.fst ++ xs.map Aggregation.name := by
  -- The results grow with each step, so they are any at the start.
  induction xs generalizing results with
  | nil =>
    obtain rfl := pure_eq_ok.mp h
    rw [List.map_nil, List.append_nil]
  | cons a xs ih =>
    rw [List.foldlM_cons, bind_eq_ok] at h
    obtain ⟨next, hnext, hrest⟩ := h
    obtain ⟨output, rfl⟩ := hf results a List.mem_cons_self next hnext
    rw [ih (fun results b hb => hf results b (List.mem_cons_of_mem a hb)) hrest]
    simp

end Results

/-! ## Finishing unfold aggregations

After the shards, the unfold aggregations are finished one by one in the order of registration, each
with what was handed in for it. -/

/-- The unfold phase succeeds exactly if all shards do and all its aggregations are finished. -/
theorem unfoldPhase_eq_ok {cancelled : Bool} {registry : Registry} {shards : List Shard}
    {outcomes : List ShardOutcome} {unfolded : Results} :
    unfoldPhase cancelled registry shards = .ok (outcomes, unfolded) ↔
      shards.mapM (runShard cancelled registry.unfolds) = .ok outcomes ∧
        registry.unfolds.foldlM (finishUnfold cancelled outcomes) [] = .ok unfolded := by
  unfold unfoldPhase
  rw [bind_eq_ok]
  constructor
  · rintro ⟨outcomes', houtcomes, h⟩
    obtain ⟨unfolded', hunfolded, hpair⟩ := bind_eq_ok.mp h
    obtain ⟨rfl, rfl⟩ := Prod.mk.inj (pure_eq_ok.mp hpair)
    exact ⟨houtcomes, hunfolded⟩
  · rintro ⟨houtcomes, hunfolded⟩
    exact ⟨outcomes, houtcomes, bind_eq_ok.mpr ⟨unfolded, hunfolded, rfl⟩⟩

/-- To finish an unfold aggregation is to append what its merged and deferred stages give. -/
theorem finishUnfold_append {cancelled : Bool} {outcomes : List ShardOutcome}
    {results out : Results} {a : Aggregation}
    (h : finishUnfold cancelled outcomes results a = .ok out) :
    ∃ output, out = results ++ [(a.name, output)] := by
  obtain ⟨merged, -, h⟩ := bind_eq_ok.mp h
  obtain ⟨output, -, h⟩ := bind_eq_ok.mp h
  exact ⟨output, (pure_eq_ok.mp h).symm⟩

/-- The unfold phase ends with a result for every unfold aggregation, and with no other. -/
theorem unfoldPhase_keys {cancelled : Bool} {registry : Registry} {shards : List Shard}
    {outcomes : List ShardOutcome} {unfolded : Results}
    (h : unfoldPhase cancelled registry shards = .ok (outcomes, unfolded)) :
    unfolded.map Prod.fst = registry.unfolds.map Aggregation.name := by
  obtain ⟨-, hunfolded⟩ := unfoldPhase_eq_ok.mp h
  have hkeys := Results.foldlM_keys (fun results a _ out => finishUnfold_append) hunfolded
  rwa [List.map_nil, List.nil_append] at hkeys

/-! ## Evaluating coordinator aggregations

Coordinator aggregations follow in the order of evaluation.  Each reads results that are there and
appends its own. -/

/-- A coordinator aggregation has a source to read. -/
theorem Aggregation.exists_source {a : Aggregation} (h : a.isCoordinator = true) :
    ∃ references input, a.source = .aggregation references input := by
  cases hs : a.source with
  | shards => simp [isCoordinator, hs] at h
  | aggregation references input => exact ⟨references, input, rfl⟩

/-- To evaluate an aggregation is to run its stages on its input and to append what they give. -/
theorem evaluate_eq {a : Aggregation} {references : List (String × String)} {input : String}
    (ha : a.source = .aggregation references input) (cancelled : Bool) (results : Results) :
    evaluate cancelled results a = (do
      let series ← during (.readingInput a.name)
        ((results.lookup (a.resolve input)).elim
          (.error (.unknownAggregation (a.resolve input))) .ok)
      let output ← during (.evaluating a.name) (runStages cancelled a results a.stages series)
      return results ++ [(a.name, output)]) := by
  unfold evaluate
  rw [ha]

/-- An evaluation that succeeds has found its input and run all stages. -/
theorem evaluate_eq_ok {a : Aggregation} {references : List (String × String)} {input : String}
    (ha : a.source = .aggregation references input) {cancelled : Bool} {results out : Results}
    (h : evaluate cancelled results a = .ok out) :
    ∃ series output, results.lookup (a.resolve input) = some series ∧
      runStages cancelled a results a.stages series = .ok output ∧
      out = results ++ [(a.name, output)] := by
  rw [evaluate_eq ha, bind_eq_ok] at h
  obtain ⟨series, hseries, h⟩ := h
  obtain ⟨output, houtput, h⟩ := bind_eq_ok.mp h
  refine ⟨series, output, ?_, during_eq_ok.mp houtput, (pure_eq_ok.mp h).symm⟩
  -- What was read is what is there under the name.
  have hread := during_eq_ok.mp hseries
  cases hl : results.lookup (a.resolve input) with
  | none => simp [hl] at hread
  | some found =>
    have hfound : found = series := by simpa [hl] using hread
    rw [hfound]

/-- An evaluation fails at its input, which nothing has given, or in its stages. -/
theorem evaluate_eq_error {a : Aggregation} {references : List (String × String)} {input : String}
    (ha : a.source = .aggregation references input) {cancelled : Bool} {results : Results}
    {e : QueryError} (h : evaluate cancelled results a = .error e) :
    (results.lookup (a.resolve input) = none ∧
        e = .failed (.readingInput a.name) (.unknownAggregation (a.resolve input))) ∨
      ∃ series cause, results.lookup (a.resolve input) = some series ∧
        runStages cancelled a results a.stages series = .error cause ∧
        e = .failed (.evaluating a.name) cause := by
  rw [evaluate_eq ha] at h
  -- Without its input, an aggregation does not come to its stages.
  cases hl : results.lookup (a.resolve input) with
  | none =>
    rw [hl] at h
    exact Or.inl ⟨rfl, (Except.error.inj h).symm⟩
  | some series =>
    rw [hl] at h
    have hstages : (do
        let output ← during (.evaluating a.name) (runStages cancelled a results a.stages series)
        return results ++ [(a.name, output)]) = Except.error e := h
    rcases bind_eq_error.mp hstages with hrun | ⟨output, -, hpure⟩
    · obtain ⟨cause, hcause, he⟩ := during_eq_error.mp hrun
      exact Or.inr ⟨series, cause, rfl, hcause, he⟩
    · cases hpure

/-- Results are appended to, never changed. -/
theorem evaluate_append {a : Aggregation} (ha : a.isCoordinator = true) {cancelled : Bool}
    {results out : Results} (h : evaluate cancelled results a = .ok out) :
    ∃ output, out = results ++ [(a.name, output)] := by
  obtain ⟨references, input, hsource⟩ := a.exists_source ha
  obtain ⟨-, output, -, -, hout⟩ := evaluate_eq_ok hsource h
  exact ⟨output, hout⟩

/-- The names in the results are those from before, and then those evaluated, in their order. -/
theorem evaluateAll_keys {order : List Aggregation} (horder : ∀ a ∈ order, a.isCoordinator = true)
    {cancelled : Bool} {results out : Results}
    (h : order.foldlM (evaluate cancelled) results = .ok out) :
    out.map Prod.fst = results.map Prod.fst ++ order.map Aggregation.name :=
  Results.foldlM_keys (fun _ a ha _ => evaluate_append (horder a ha)) h

/-- What was found before coordinator aggregations are evaluated is found after it. -/
theorem evaluateAll_extends {order : List Aggregation}
    (horder : ∀ a ∈ order, a.isCoordinator = true) {cancelled : Bool} {results out : Results}
    (h : order.foldlM (evaluate cancelled) results = .ok out) : results <+: out := by
  refine foldlM_invariant (fun mid => results <+: mid) ?_ (List.prefix_refl results) h
  intro mid a next ha hmid hnext
  obtain ⟨output, rfl⟩ := evaluate_append (horder a ha) hnext
  exact hmid.trans (List.prefix_append mid [(a.name, output)])

/-- The coordinator phase fails at some aggregation, all before it evaluated, or finds no answer. -/
theorem coordinatorPhase_eq_error {config : Config} {cancelled : Bool} {final : String}
    {order : List Aggregation} {outcomes : List ShardOutcome} {unfolded : Results} {e : QueryError}
    (h : coordinatorPhase config cancelled final order outcomes unfolded = .error e) :
    (∃ done a rest before, order = done ++ a :: rest ∧
        done.foldlM (evaluate cancelled) unfolded = .ok before ∧
        evaluate cancelled before a = .error e) ∨
      ∃ results, order.foldlM (evaluate cancelled) unfolded = .ok results ∧
        results.lookup final = none ∧ e = .noResult final := by
  -- Either some evaluation fails or all of them succeed and there is no answer among them.
  rcases bind_eq_error.mp h with hfold | ⟨results, hresults, hanswer⟩
  · exact Or.inl (foldlM_eq_error hfold)
  · split at hanswer
    case h_1 hnone => exact Or.inr ⟨results, hresults, hnone, (Except.error.inj hanswer).symm⟩
    case h_2 => cases hanswer

/-! ## A small query

Two readings of the shards, their union, and the first series of it: a query on which the theorems
about executions can be tried. -/

namespace Usage

/-- Usage by host: the latest value of each minute, of two hosts, and the greatest of two
    minutes. -/
def cpu : Aggregation where
  name := "cpu"
  stages := [.summarize ⟨60000, .last, false⟩, .head 2, .summarize ⟨120000, .max, true⟩]
  source := .shards

/-- Everything that the shards have. -/
def memory : Aggregation where
  name := "memory"
  stages := []
  source := .shards

/-- The two readings together. -/
def total : Aggregation where
  name := "total"
  stages := [.union "right"]
  source := .aggregation [("left", "cpu"), ("right", "memory")] "left"

/-- The first series of that. -/
def top : Aggregation where
  name := "top"
  stages := [.head 1]
  source := .aggregation [("all", "total")] "all"

/-- The second attempt at `cpu` is refused. -/
def registry : Registry := .ofAttempts [cpu, top, cpu, memory, total]

/-- A series with one sample. -/
def reading (host : String) (time : Timestamp) (value : Float) (step : Int64) : Series where
  samples := [⟨time, value⟩]
  labels := Labels.empty.insert "host" host
  minTime := time
  maxTime := time
  step := step
  title := none

/-- Three shards, none of which has both readings. -/
def shards : List Shard :=
  [ { id := "a", series := [("cpu", [reading "x" 61000 0.5 1000])], statistics := [] },
    { id := "b", series := [("memory", [reading "x" 62000 3.0 1000])], statistics := [] },
    { id := "c", series := [("cpu", [reading "y" 5000 0.25 1000, reading "z" 7000 0.75 1000])],
      statistics := [] } ]

/-- A shard with a series whose step is ninety seconds, longer than the buckets of `cpu`. -/
def coarse : Shard :=
  { id := "a", series := [("cpu", [reading "x" 61000 0.5 90000])], statistics := [] }

/-- The registry was reached by attempts. -/
theorem reachable : registry.Reachable := ⟨_, rfl⟩

/-- The small query has two readings. -/
theorem unfolds_eq : registry.unfolds = [cpu, memory] := rfl

/-- The small query has two aggregations over its readings, in the order they came in. -/
theorem coordinators_eq : registry.coordinators = [top, total] := rfl

/-- Nothing reads `top`, so it has the answer. -/
theorem final_eq : registry.final = .ok "top" := by
  have hfree : registry.unreferenced = ["top"] := rfl
  simp only [Registry.final, coordinators_eq, hfree, ascendingNames, List.mergeSort_singleton]

/-- In the small query `top` reads `total`, which has to be first. -/
theorem order_eq : registry.order = .ok [total, top] := by
  rw [Registry.order_eq_schedule (by decide) (by decide)]
  rfl

/-- The query succeeds. -/
theorem execute_ok :
    ∃ outcome, execute .sequential false registry shards = .ok outcome := by
  rw [execute_of_resolved rfl final_eq order_eq]
  exact ⟨_, rfl⟩

end Usage
end SeriesQuery
