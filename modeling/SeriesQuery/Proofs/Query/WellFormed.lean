/-
  Proper series in, proper series out: the invariant of whole queries.

  The stages build their series without any check.  That they are proper all the same has a reason
  in each kind of stage: `head` picks, scaling keeps the times, downsampling stays on the grid and
  inside the new range (`Downsampling.apply_wellFormed`), and arithmetic pairs ascending samples
  inside the range of both operands (`Projection.combineAll_wellFormed`, `sumSeries_wellFormed`).
  One lemma says so for a stage on one list, one for a stage on two; everything after them only
  passes the invariant on, through the shards, the merge and the evaluation.
-/
import SeriesQuery.Proofs.Query.Course
import SeriesQuery.Proofs.Stage.Downsampling
import SeriesQuery.Proofs.Stage.Merging
import SeriesQuery.Proofs.Stage.Reducing

namespace SeriesQuery

/-- Every series of a list is proper. -/
def AllWellFormed (series : List Series) : Prop := ∀ s ∈ series, s.WellFormed

/-- Every series of every result is proper. -/
def Results.WellFormed (results : Results) : Prop := ∀ entry ∈ results, AllWellFormed entry.2

/-- The first of some proper series are proper. -/
theorem AllWellFormed.take {series : List Series} (h : AllWellFormed series) (n : Nat) :
    AllWellFormed (series.take n) := fun s hs => h s (List.mem_of_mem_take hs)

/-- Proper series after proper series are proper. -/
theorem AllWellFormed.append {left right : List Series} (hl : AllWellFormed left)
    (hr : AllWellFormed right) : AllWellFormed (left ++ right) := by
  intro s hs
  rcases List.mem_append.mp hs with hs | hs
  · exact hl s hs
  · exact hr s hs

/-- A proper result may be added to proper results. -/
theorem Results.WellFormed.append {results : Results} (h : results.WellFormed) (name : String)
    {output : List Series} (houtput : AllWellFormed output) :
    Results.WellFormed (results ++ [(name, output)]) := by
  intro entry hentry
  rcases List.mem_append.mp hentry with hentry | hentry
  · exact h entry hentry
  · obtain rfl := List.mem_singleton.mp hentry
    exact houtput

/-- What is looked up in proper results is proper. -/
theorem Results.WellFormed.lookup {results : Results} (h : results.WellFormed) {name : String}
    {series : List Series} (hseries : results.lookup name = some series) : AllWellFormed series :=
  h (name, series) (Results.mem_of_lookup hseries)

/-! ## Stages

The invariant is carried by the stages alone: there is one case for each kind, on one list or on
two.  A row of stages keeps what each of them keeps. -/

/-- Values have no part in being proper. -/
theorem Series.mapValues_wellFormed {s : Series} (h : s.WellFormed) (f : Float → Float) :
    (s.mapValues f).WellFormed := by
  -- Every sample keeps its time, and the range and the step are those of before.
  refine ⟨h.step_pos, h.range, List.pairwise_map.mpr h.ascending, fun x hx => ?_⟩
  obtain ⟨y, hy, rfl⟩ := List.mem_map.mp hx
  exact h.inside y hy

/-- The samples of arithmetic stand where their operands do. -/
theorem Arithmetic.projection_keepsTimes (a : Arithmetic) : a.projection.KeepsTimes := by
  intro l r y h
  cases l with
  | some l =>
    cases r with
    | some r =>
      obtain rfl := Option.some.inj h
      rfl
    | none =>
      obtain rfl := Option.some.inj h
      rfl
  | none =>
    cases r with
    | some r =>
      obtain rfl := Option.some.inj h
      rfl
    | none => cases h

namespace Stage

/-- **A stage on one list keeps series proper.** -/
theorem run_wellFormed {s : Stage} {input output : List Series} (hinput : AllWellFormed input)
    (h : s.run input = .ok output) : AllWellFormed output := by
  cases s with
  | head limit =>
    obtain rfl := Except.ok.inj h
    exact hinput.take limit.toNat
  | summarize d =>
    intro out hout
    obtain ⟨x, hx, happly⟩ := exists_mem_of_mapM h hout
    exact Downsampling.apply_wellFormed happly (hinput x hx)
  | scale factor =>
    obtain rfl := Except.ok.inj h
    intro out hout
    obtain ⟨x, hx, rfl⟩ := List.mem_map.mp hout
    exact Series.mapValues_wellFormed (hinput x hx) _
  | scaleToSeconds seconds =>
    obtain rfl := Except.ok.inj h
    intro out hout
    obtain ⟨x, hx, rfl⟩ := List.mem_map.mp hout
    exact Series.mapValues_wellFormed (hinput x hx) _
  | arithmetic a => cases h
  | union right => cases h

/-- **A stage on two lists keeps series proper.** -/
theorem runBinary_wellFormed {s : Stage} {left right : Option (List Series)}
    (hleft : ∀ l, left = some l → AllWellFormed l) (hright : ∀ r, right = some r → AllWellFormed r)
    {output : List Series} (h : s.runBinary left right = .ok output) : AllWellFormed output := by
  cases s with
  | arithmetic a =>
    cases left with
    | none => cases h
    | some l =>
      cases right with
      | none => cases h
      | some r =>
        obtain rfl := Except.ok.inj h
        exact Projection.combineAll_wellFormed a.projection_keepsTimes
          (fun _ hseries _ hsum => sumSeries_wellFormed hseries hsum) (hleft l rfl) (hright r rfl)
  | union reference =>
    cases left with
    | none => cases h
    | some l =>
      cases right with
      | none => cases h
      | some r =>
        obtain rfl := Except.ok.inj h
        exact (hleft l rfl).append (hright r rfl)
  | head limit => cases h
  | summarize d => cases h
  | scale factor => cases h
  | scaleToSeconds seconds => cases h

end Stage

variable {cancelled : Bool}

/-- Stages in a row keep series proper, whatever results they look at. -/
theorem runStages_wellFormed {a : Aggregation} {results : Results} (hresults : results.WellFormed)
    {stages : List Stage} {input output : List Series} (hinput : AllWellFormed input)
    (h : runStages cancelled a results stages input = .ok output) : AllWellFormed output := by
  refine foldlM_invariant AllWellFormed (fun series s next _ hseries hs => ?_) hinput
    (runStages_of_ok h)
  -- A stage with a right operand runs on two lists, and any other on one.
  cases hright : s.right? with
  | some reference =>
    rw [runStage_binary hright] at hs
    refine Stage.runBinary_wellFormed ?_ (fun r hr => hresults.lookup hr) hs
    rintro l ⟨⟩
    exact hseries
  | none =>
    rw [runStage_unary hright] at hs
    exact Stage.run_wellFormed hseries hs

/-! ## On the shards

What a shard hands in is what its stages make of its own series, or of none. -/

/-- Everything that a shard has is proper. -/
def Shard.WellFormed (shard : Shard) : Prop := ∀ entry ∈ shard.series, AllWellFormed entry.2

/-- What is stored for an aggregation is proper, if anything is. -/
theorem Shard.seriesOf_wellFormed {shard : Shard} (h : shard.WellFormed) (name : String) :
    AllWellFormed (shard.seriesOf name) := by
  cases hlookup : shard.series.lookup name with
  | none =>
    rw [seriesOf_of_absent hlookup]
    exact fun s hs => absurd hs List.not_mem_nil
  | some series =>
    rw [seriesOf_of_lookup hlookup]
    exact h (name, series) (Results.mem_of_lookup hlookup)

/-- A shard that holds proper series hands in proper series. -/
theorem runShard_wellFormed {unfolds : List Aggregation} {shard : Shard} (hshard : shard.WellFormed)
    {o : ShardOutcome} (h : runShard cancelled unfolds shard = .ok o) :
    ∀ p ∈ o.results, AllWellFormed p.series := by
  obtain ⟨outputs, houtputs, ho⟩ := bind_eq_ok.mp h
  obtain rfl := pure_eq_ok.mp ho
  intro p hp
  obtain ⟨out, hout, rfl⟩ := List.mem_map.mp hp
  obtain ⟨a, -, ha⟩ := exists_mem_of_mapM houtputs hout
  obtain ⟨output, houtput, hpair⟩ := bind_eq_ok.mp ha
  obtain rfl := pure_eq_ok.mp hpair
  have hnone : Results.WellFormed [] := fun entry hentry => absurd hentry List.not_mem_nil
  exact runStages_wellFormed hnone (Shard.seriesOf_wellFormed hshard a.name)
    (during_eq_ok.mp houtput)

/-! ## At the coordinator

Every step of the coordinator appends one result, made of series that were handed in or of earlier
results. -/

/-- Merging takes from the results that are handed in. -/
theorem mergePartials_wellFormed {stages : List Stage} {partials : List PartialResult}
    (hpartials : ∀ p ∈ partials, AllWellFormed p.series) {output : List Series}
    (h : mergePartials stages partials = .ok output) : AllWellFormed output := by
  have hall : AllWellFormed (partials.flatMap PartialResult.series) := by
    intro s hs
    obtain ⟨p, hp, hs⟩ := List.mem_flatMap.mp hs
    exact hpartials p hp s hs
  unfold mergePartials at h
  split at h
  case isTrue =>
    obtain rfl := Except.ok.inj h
    exact fun s hs => absurd hs List.not_mem_nil
  case isFalse =>
    split at h
    case h_1 stage _ =>
      split at h
      case isTrue =>
        obtain ⟨reduced, hreduced, rfl⟩ := map_eq_ok.mp h
        -- Only `head` reduces, and it takes the first of all series.
        cases stage with
        | head limit =>
          rw [(Stage.reduce_head_eq_ok.mp hreduced).1]
          exact hall.take limit.toNat
        | _ => cases hreduced
      case isFalse =>
        obtain rfl := Except.ok.inj h
        exact hall
    case h_2 =>
      obtain rfl := Except.ok.inj h
      exact hall

/-- The deferred stages start from merged series, and those are proper. -/
theorem finishUnfold_wellFormed {outcomes : List ShardOutcome}
    (houtcomes : ∀ o ∈ outcomes, ∀ p ∈ o.results, AllWellFormed p.series) {results out : Results}
    (hresults : results.WellFormed) {a : Aggregation}
    (h : finishUnfold cancelled outcomes results a = .ok out) : out.WellFormed := by
  obtain ⟨merged, hmerged, h⟩ := bind_eq_ok.mp h
  obtain ⟨output, houtput, h⟩ := bind_eq_ok.mp h
  obtain rfl := pure_eq_ok.mp h
  have hmerged : AllWellFormed merged := by
    refine mergePartials_wellFormed (fun p hp => ?_) (during_eq_ok.mp hmerged)
    obtain ⟨o, ho, hfind⟩ := List.mem_filterMap.mp hp
    exact houtcomes o ho p (List.mem_of_find?_eq_some hfind)
  exact hresults.append a.name (runStages_wellFormed hresults hmerged (during_eq_ok.mp houtput))

/-- A coordinator aggregation is evaluated on results, and those are proper. -/
theorem evaluate_wellFormed {results out : Results} (hresults : results.WellFormed)
    {a : Aggregation} (h : evaluate cancelled results a = .ok out) : out.WellFormed := by
  cases hsource : a.source with
  | shards =>
    simp only [evaluate, hsource] at h
    exact pure_eq_ok.mp h ▸ hresults
  | aggregation references input =>
    obtain ⟨series, output, hseries, houtput, rfl⟩ := evaluate_eq_ok hsource h
    exact hresults.append a.name
      (runStages_wellFormed hresults (hresults.lookup hseries) houtput)

/-! ## Whole queries

The unfold phase starts from no results, and the evaluation from those of the unfold phase.  Both
are folds, so the invariant of a step is that of the whole. -/

/-- Proper series on the shards lead to proper results of all unfold aggregations. -/
theorem unfoldPhase_wellFormed {registry : Registry} {shards : List Shard}
    (hshards : ∀ shard ∈ shards, shard.WellFormed) {outcomes : List ShardOutcome}
    {unfolded : Results}
    (h : unfoldPhase cancelled registry shards = .ok (outcomes, unfolded)) :
    unfolded.WellFormed := by
  obtain ⟨houtcomes, hunfolded⟩ := unfoldPhase_eq_ok.mp h
  -- Everything handed in comes from a shard, and the shards hold proper series.
  have hpartials : ∀ o ∈ outcomes, ∀ p ∈ o.results, AllWellFormed p.series := by
    intro o ho
    obtain ⟨shard, hshard, hrun⟩ := exists_mem_of_mapM houtcomes ho
    exact runShard_wellFormed (hshards shard hshard) hrun
  exact foldlM_invariant Results.WellFormed
    (fun results a out _ hresults ha => finishUnfold_wellFormed hpartials hresults ha)
    (fun entry hentry => absurd hentry List.not_mem_nil) hunfolded

/-- **A query keeps series proper.**  If every series on every shard is proper, then so is every
    series in every result of a query that succeeds, and in its answer. -/
theorem execute_wellFormed {config : Config} {registry : Registry} {shards : List Shard}
    (hshards : ∀ shard ∈ shards, ∀ entry ∈ shard.series, ∀ s ∈ entry.2, s.WellFormed)
    {outcome : Outcome} (h : execute config cancelled registry shards = .ok outcome) :
    (∀ entry ∈ outcome.results, ∀ s ∈ entry.2, s.WellFormed) ∧
      ∀ s ∈ outcome.series, s.WellFormed := by
  obtain ⟨order, outcomes, unfolded, -, -, -, hunfold, hresults, hanswer⟩ := execute_eq_ok h
  have hunfolded := unfoldPhase_wellFormed hshards hunfold
  -- The answer is one of the results, so it is enough that all of these are proper.
  have hall : outcome.results.WellFormed := foldlM_invariant Results.WellFormed
    (fun results a out _ hresults ha => evaluate_wellFormed hresults ha) hunfolded hresults
  exact ⟨hall, hall.lookup hanswer⟩

/-- The small query starts from proper series, and ends with such. -/
theorem execute_wellFormed_usage :
    (∀ shard ∈ Usage.shards, ∀ entry ∈ shard.series, ∀ s ∈ entry.2, s.WellFormed) ∧
    ∃ outcome, execute .sequential false Usage.registry Usage.shards = .ok outcome ∧
      ∀ s ∈ outcome.series, s.WellFormed := by
  -- a reading has one sample, and its range is this sample's time
  have hreading : ∀ host time value step, 0 < step →
      (Usage.reading host time value step).WellFormed := by
    intro host time value step hstep
    refine ⟨hstep, Int64.le_refl time, List.pairwise_singleton _ _, fun x hx => ?_⟩
    obtain rfl := List.mem_singleton.mp hx
    exact ⟨Int64.le_refl time, Int64.le_refl time⟩
  have hshards : ∀ shard ∈ Usage.shards, ∀ entry ∈ shard.series, ∀ s ∈ entry.2, s.WellFormed := by
    simp only [Usage.shards, List.forall_mem_cons, List.not_mem_nil, false_imp_iff, implies_true,
      and_true]
    exact ⟨hreading _ _ _ _ (by decide), hreading _ _ _ _ (by decide),
      hreading _ _ _ _ (by decide), hreading _ _ _ _ (by decide)⟩
  obtain ⟨outcome, hok⟩ := Usage.execute_ok
  exact ⟨hshards, outcome, hok, (execute_wellFormed hshards hok).2⟩

end SeriesQuery
