/-
  The outcome of a query does not depend on the order of registration.

  Two registries with the same aggregations in different orders are compared, question by question.

  * `final` goes by which names are referenced, and what it reports is sorted by name
    (`Registry.final_congr`).
  * `order` starts from the aggregations sorted by name, so the schedule is the same one.  Only the
    unknown name that it may report is that of the first aggregation registered
    (`Registry.order_congr`).
  * An unfold aggregation does not look at other results.  So after the unfold phase there is the
    same result under each name, though in a different place (`unfoldPhase_congr`).
  * A coordinator aggregation looks results up by name, so where these agree it appends the same
    result (`evaluate_congr`), and so do all of them in their order (`evaluateAll_congr`).

  A list of definitions that registers leads to a registry of just these (`registerAll_eq_ok_iff`),
  hence every permutation of it registers as well and leads to the same outcome.
-/
import SeriesQuery.Proofs.Query.FinalAggregation
import SeriesQuery.Proofs.Query.TwoPhase

namespace SeriesQuery

/-! ## The questions asked of a registry -/

namespace Registry

variable {r r' : Registry}

/-- The aggregations on shards are the same ones. -/
theorem unfolds_perm (h : r'.aggregations.Perm r.aggregations) : r'.unfolds.Perm r.unfolds :=
  h.filter _

/-- The coordinator aggregations are the same ones. -/
theorem coordinators_perm (h : r'.aggregations.Perm r.aggregations) :
    r'.coordinators.Perm r.coordinators :=
  h.filter _

/-- What is referenced does not depend on the order. -/
theorem referenced_congr (h : r'.aggregations.Perm r.aggregations) {name : String} :
    r'.Referenced name ↔ r.Referenced name := by
  unfold Referenced
  simp only [(coordinators_perm h).mem_iff]

/-- Registering in another order leaves the names that are not referenced as they are. -/
theorem unreferenced_perm (hr : r.Consistent) (h : r'.aggregations.Perm r.aggregations) :
    r'.unreferenced.Perm r.unreferenced := by
  refine (List.perm_ext_iff_of_nodup (unreferenced_nodup (hr.perm h)) (unreferenced_nodup hr)).mpr
    fun name => ?_
  rw [mem_unreferenced, mem_unreferenced, referenced_congr h]
  simp only [(coordinators_perm h).mem_iff]

/-- Without coordinator aggregations, what counts is how many there are on shards. -/
theorem final_of_no_coordinators (hnone : r.coordinators = []) :
    r.final = match r.unfolds with
      | [only] => .ok only.name
      | unfolds => .error (.aggregationCount unfolds.length) := by
  unfold final
  split
  case h_1 => rfl
  case h_2 hsome =>
    rw [hnone] at hsome
    cases hsome

/-- The final aggregation, or the reason why there is none, is the same. -/
theorem final_congr (hr : r.Consistent) (h : r'.aggregations.Perm r.aggregations) :
    r'.final = r.final := by
  have hcoord := coordinators_perm h
  -- Without coordinator aggregations it is the only one on shards, if there is only one; otherwise
  -- it is the one that is not referenced.
  by_cases hnone : r.coordinators = []
  · have hnone' : r'.coordinators = [] := (hnone ▸ hcoord).eq_nil
    have hunfolds := unfolds_perm h
    rw [final_of_no_coordinators hnone, final_of_no_coordinators hnone']
    split
    case h_1 only honly =>
      rw [honly, List.singleton_perm] at hunfolds
      rw [← hunfolds]
    case h_2 hmany =>
      split
      case h_1 only honly =>
        rw [honly, List.perm_singleton] at hunfolds
        exact absurd hunfolds (hmany only)
      case h_2 => rw [hunfolds.length_eq]
  · have hnone' : r'.coordinators ≠ [] := fun hnil => hnone (hnil ▸ hcoord.symm).eq_nil
    rw [final_of_coordinators hnone, final_of_coordinators hnone',
      ascendingNames_congr (unreferenced_perm hr h)]

/-- Whether all names that are read are known is no matter of order either. -/
theorem readsKnown_congr (h : r'.aggregations.Perm r.aggregations) :
    r'.ReadsKnown ↔ r.ReadsKnown := by
  unfold ReadsKnown Knows
  simp only [(coordinators_perm h).mem_iff, (h.map Aggregation.name).mem_iff]

/-- The order, or the cycle that is in its way, is the same, unless unknown names are read; then
    both registries report one. -/
theorem order_congr (hr : r.Consistent) (h : r'.aggregations.Perm r.aggregations) :
    r'.order = r.order ∨ ∃ name name', r.order = .error (.unknownAggregation name) ∧
      r'.order = .error (.unknownAggregation name') := by
  by_cases hknown : r.ReadsKnown
  · have hknown' := (readsKnown_congr h).mpr hknown
    have hcoord := coordinators_perm h
    left
    unfold order
    rw [readsKnown_iff.mp hknown, readsKnown_iff.mp hknown', byName_congr hr hcoord,
      hcoord.length_eq]
  · have hunknown' := mt (readsKnown_congr h).mp hknown
    obtain ⟨name, hname⟩ := (order_unknown_iff hr).mpr hknown
    obtain ⟨name', hname'⟩ := (order_unknown_iff (hr.perm h)).mpr hunknown'
    exact Or.inr ⟨name, name', hname, hname'⟩

end Registry

/-! ## Results that agree -/

/-- That there are the same results under the same names, in whatever order. -/
def Results.Agree (results' results : Results) : Prop :=
  ∀ name, results'.lookup name = results.lookup name

/-- Results that agree still do so after the same results were appended to them. -/
theorem Results.Agree.append {results results' : Results} (h : results'.Agree results)
    (added : Results) : Results.Agree (results' ++ added) (results ++ added) := by
  intro name
  rw [List.lookup_append, List.lookup_append, h name]

variable {r r' : Registry} {shards : List Shard}

/-- A phase on unfold aggregations that succeeds has the results of single-phase runs, and these do
    not depend on the place of an aggregation among the others. -/
theorem agree_of_unfoldPhase (hr : r.Consistent) (h : r'.aggregations.Perm r.aggregations)
    {outcomes outcomes' : List ShardOutcome} {unfolded unfolded' : Results}
    (hphase : unfoldPhase false r shards = .ok (outcomes, unfolded))
    (hphase' : unfoldPhase false r' shards = .ok (outcomes', unfolded')) :
    unfolded'.Agree unfolded := by
  have hr' := hr.perm h
  have hperm := Registry.unfolds_perm h
  have hsingle := (unfoldPhase_eq_ok_iff hr).mp ⟨outcomes, hphase⟩
  have hsingle' := (unfoldPhase_eq_ok_iff hr').mp ⟨outcomes', hphase'⟩
  intro name
  -- A name that belongs to no unfold aggregation has no result in either.
  by_cases hname : name ∈ r.unfolds.map Aggregation.name
  · obtain ⟨a, ha, rfl⟩ := List.mem_map.mp hname
    obtain ⟨output, houtput, hfound⟩ := lookup_singlePhases hr.unfolds_nodup hsingle a ha
    obtain ⟨output', houtput', hfound'⟩ :=
      lookup_singlePhases hr'.unfolds_nodup hsingle' a (hperm.mem_iff.mpr ha)
    rw [houtput] at houtput'
    rw [hfound, hfound', Except.ok.inj houtput']
  · have hname' : name ∉ r'.unfolds.map Aggregation.name := fun hmem =>
      hname ((hperm.map Aggregation.name).mem_iff.mp hmem)
    rw [← unfoldPhase_keys hphase] at hname
    rw [← unfoldPhase_keys hphase'] at hname'
    rw [Results.lookup_eq_none hname, Results.lookup_eq_none hname']

/-- Whether the phase on unfold aggregations fails does not depend on their order. -/
theorem unfoldPhase_fails_congr (hr : r.Consistent) (h : r'.aggregations.Perm r.aggregations)
    (shards : List Shard) :
    (∃ e, unfoldPhase false r' shards = .error e) ↔ ∃ e, unfoldPhase false r shards = .error e := by
  rw [unfoldPhase_eq_error_iff hr, unfoldPhase_eq_error_iff (hr.perm h)]
  simp only [(Registry.unfolds_perm h).mem_iff]

/-- The unfold aggregations fail in both orders, or have results that agree. -/
theorem unfoldPhase_congr (hr : r.Consistent) (h : r'.aggregations.Perm r.aggregations)
    (shards : List Shard) :
    (∃ e e', unfoldPhase false r shards = .error e ∧ unfoldPhase false r' shards = .error e') ∨
    ∃ outcomes unfolded outcomes' unfolded',
      unfoldPhase false r shards = .ok (outcomes, unfolded) ∧
      unfoldPhase false r' shards = .ok (outcomes', unfolded') ∧ unfolded'.Agree unfolded := by
  have hfails := unfoldPhase_fails_congr hr h shards
  cases hphase : unfoldPhase false r shards with
  | error e =>
    obtain ⟨e', he'⟩ := hfails.mpr ⟨e, hphase⟩
    exact Or.inl ⟨e, e', rfl, he'⟩
  | ok phase =>
    cases hphase' : unfoldPhase false r' shards with
    | error e' =>
      obtain ⟨e, he⟩ := hfails.mp ⟨e', hphase'⟩
      rw [hphase] at he
      cases he
    | ok phase' =>
      exact Or.inr ⟨phase.1, phase.2, phase'.1, phase'.2, rfl, rfl,
        agree_of_unfoldPhase hr h hphase hphase'⟩

variable {results results' : Results}

/-- An evaluation appends the same to results that agree, or fails in the same way. -/
theorem evaluate_congr (h : results'.Agree results) (cancelled : Bool) (a : Aggregation) :
    ∃ added : Except QueryError Results,
      evaluate cancelled results a = (results ++ ·) <$> added ∧
      evaluate cancelled results' a = (results' ++ ·) <$> added := by
  cases hsource : a.source with
  | shards =>
    unfold evaluate
    rw [hsource]
    refine ⟨.ok [], ?_, ?_⟩
    · exact congrArg Except.ok (List.append_nil results).symm
    · exact congrArg Except.ok (List.append_nil results').symm
  | aggregation references input =>
    rw [evaluate_eq hsource, evaluate_eq hsource, h]
    cases results.lookup (a.resolve input) with
    | none => exact ⟨.error _, rfl, rfl⟩
    | some series =>
      have hrun : runStages cancelled a results' a.stages series =
          runStages cancelled a results a.stages series :=
        runStages_congr (fun _ _ reference _ => h (a.resolve reference)) series
      show ∃ added, (during (.evaluating a.name) (runStages cancelled a results a.stages series) >>=
          _) = _ ∧
        (during (.evaluating a.name) (runStages cancelled a results' a.stages series) >>= _) = _
      rw [hrun]
      cases runStages cancelled a results a.stages series with
      | error cause => exact ⟨.error _, rfl, rfl⟩
      | ok output => exact ⟨.ok [(a.name, output)], rfl, rfl⟩

/-- Evaluating several aggregations keeps results in agreement: what one of them has appended is
    there for the next on both sides.  The induction is on the order of evaluation, for any two
    results that agree. -/
theorem evaluateAll_congr (h : results'.Agree results) (cancelled : Bool)
    (order : List Aggregation) :
    ∃ added : Except QueryError Results,
      order.foldlM (evaluate cancelled) results = (results ++ ·) <$> added ∧
      order.foldlM (evaluate cancelled) results' = (results' ++ ·) <$> added := by
  induction order generalizing results results' with
  | nil =>
    refine ⟨.ok [], ?_, ?_⟩
    · exact congrArg Except.ok (List.append_nil results).symm
    · exact congrArg Except.ok (List.append_nil results').symm
  | cons a order ih =>
    obtain ⟨first, hfirst, hfirst'⟩ := evaluate_congr h cancelled a
    rw [List.foldlM_cons, List.foldlM_cons, hfirst, hfirst']
    -- If the first fails, nothing more is evaluated; otherwise its result is there for the rest.
    cases first with
    | error e => exact ⟨.error e, rfl, rfl⟩
    | ok output =>
      obtain ⟨rest, hrest, hrest'⟩ := ih (h.append output)
      refine ⟨(output ++ ·) <$> rest, ?_, ?_⟩
      · show order.foldlM (evaluate cancelled) (results ++ output) = _
        rw [hrest, ← comp_map]
        simp only [Function.comp_def, List.append_assoc]
      · show order.foldlM (evaluate cancelled) (results' ++ output) = _
        rw [hrest', ← comp_map]
        simp only [Function.comp_def, List.append_assoc]

/-! ## Executions that end alike -/

/-- That two executions both fail, or both answer, and then with the same final aggregation, the
    same series, and the same results under the same names. -/
inductive EndAlike : Except QueryError Outcome → Except QueryError Outcome → Prop
  | failed (e e' : QueryError) : EndAlike (.error e) (.error e')
  | answered {outcome outcome' : Outcome} (final : outcome'.final = outcome.final)
      (series : outcome'.series = outcome.series)
      (results : outcome'.results.Agree outcome.results) : EndAlike (.ok outcome) (.ok outcome')

/-- From results that agree on, two executions end alike. -/
theorem coordinatorPhase_congr {unfolded unfolded' : Results} (h : unfolded'.Agree unfolded)
    (config : Config) (cancelled : Bool) (final : String) (order : List Aggregation)
    (outcomes outcomes' : List ShardOutcome) :
    EndAlike (coordinatorPhase config cancelled final order outcomes unfolded)
      (coordinatorPhase config cancelled final order outcomes' unfolded') := by
  obtain ⟨added, hadded, hadded'⟩ := evaluateAll_congr h cancelled order
  unfold coordinatorPhase
  rw [hadded, hadded']
  cases added with
  | error e => exact .failed e e
  | ok added =>
    have hagree := h.append added
    -- Both have evaluated the same and differ only in what they started from.
    have hall : ∀ results : Results,
        (results ++ ·) <$> (.ok added : Except QueryError Results) = .ok (results ++ added) :=
      fun _ => rfl
    rw [hall, hall, ok_bind, ok_bind, hagree final]
    cases (unfolded ++ added).lookup final with
    | none => exact .failed _ _
    | some series => exact .answered rfl rfl hagree

/-- Executions on registries that differ in order only end alike. -/
theorem execute_congr (hr : r.Consistent) (h : r'.aggregations.Perm r.aggregations)
    (config : Config) (shards : List Shard) :
    EndAlike (execute config false r shards) (execute config false r' shards) := by
  have hfinal := Registry.final_congr hr h
  cases hconfig : config.validate with
  | error cause =>
    rw [execute_eq, execute_eq, hconfig]
    exact .failed _ _
  | ok u =>
    cases hname : r.final with
    | error cause =>
      rw [execute_eq, execute_eq, hconfig, hfinal, hname]
      exact .failed _ _
    | ok final =>
      rcases Registry.order_congr hr h with horder | ⟨name, name', hunknown, hunknown'⟩
      · cases hlist : r.order with
        | error cause =>
          rw [execute_eq, execute_eq, hconfig, hfinal, hname, horder, hlist]
          exact .failed _ _
        | ok order =>
          rw [execute_of_resolved hconfig hname hlist,
            execute_of_resolved hconfig (hfinal.trans hname) (horder.trans hlist)]
          rcases unfoldPhase_congr hr h shards with
            ⟨e, e', he, he'⟩ | ⟨outcomes, unfolded, outcomes', unfolded', hok, hok', hagree⟩
          · rw [he, he']
            exact .failed e e'
          · rw [hok, hok']
            exact coordinatorPhase_congr hagree config false final order outcomes outcomes'
      · rw [execute_eq, execute_eq, hconfig, hfinal, hname, hunknown, hunknown']
        exact .failed _ _

/-- **The order of registration does not matter.**  If a list of definitions registers, so does
    every permutation of it.  The final aggregation, or the reason why there is none, is the same.
    The order of evaluation, or the cycle in its way, is the same, unless both times an unknown name
    is reported.  And every execution ends alike. -/
theorem registerAll_perm {definitions definitions' : List Aggregation}
    (hperm : definitions'.Perm definitions) {r : Registry}
    (h : Registry.registerAll {} definitions = .ok r) :
    ∃ r', Registry.registerAll {} definitions' = .ok r' ∧
      r'.final = r.final ∧
      (r'.order = r.order ∨ ∃ name name', r.order = .error (.unknownAggregation name) ∧
        r'.order = .error (.unknownAggregation name')) ∧
      ∀ config shards,
        EndAlike (execute config false r shards) (execute config false r' shards) := by
  obtain ⟨hall, hr⟩ := (Registry.registerAll_eq_ok_iff Registry.Consistent.empty).mp h
  have hall : r.aggregations = definitions := hall
  -- Registered from nothing, a registry has just the definitions, in their order.
  have hsame : (Registry.mk definitions').aggregations.Perm r.aggregations := by
    rw [hall]
    exact hperm
  have hok : Registry.registerAll {} definitions' = .ok ⟨definitions'⟩ :=
    (Registry.registerAll_eq_ok_iff Registry.Consistent.empty).mpr ⟨rfl, hr.perm hsame⟩
  exact ⟨⟨definitions'⟩, hok, Registry.final_congr hr hsame, Registry.order_congr hr hsame,
    fun config shards => execute_congr hr hsame config shards⟩

/-- The small query registers backwards as well, and then has the same final aggregation and order,
    and executions that end as before. -/
theorem registerAll_perm_usage :
    ∃ r', Registry.registerAll {} [Usage.total, Usage.memory, Usage.top, Usage.cpu] = .ok r' ∧
      r'.final = .ok "top" ∧ r'.order = .ok [Usage.total, Usage.top] ∧
      EndAlike (execute .sequential false Usage.registry Usage.shards)
        (execute .sequential false r' Usage.shards) := by
  have hperm : [Usage.total, Usage.memory, Usage.top, Usage.cpu].Perm
      [Usage.cpu, Usage.top, Usage.memory, Usage.total] := by decide
  obtain ⟨r', hok, hfinal, horder, hend⟩ := registerAll_perm hperm (r := Usage.registry) rfl
  refine ⟨r', hok, hfinal.trans Usage.final_eq, ?_, hend .sequential Usage.shards⟩
  rcases horder with hsame | ⟨name, -, hunknown, -⟩
  · exact hsame.trans Usage.order_eq
  · rw [Usage.order_eq] at hunknown
    cases hunknown

end SeriesQuery
