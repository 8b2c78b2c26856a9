/-
  What a finished query satisfies: the equations of its aggregations.

  Coordinator aggregations are evaluated one by one, and each sees the results of that time.  Here
  it is shown that it might as well have seen the results of the end.

  * The names in the results tell what is there, and no name comes twice.  At its turn an
    aggregation is therefore new, and all that it reads has a result (`reads_found`).
  * Results are appended to, never changed, so what was read then is what stands there at the end
    (`settled_of_order`).
  * Stages look at the results only where they read (`runStages_congr`).  Hence every aggregation is
    the outcome of its stages on the finished results (`EquationIn`).
-/
import SeriesQuery.Proofs.Query.Course

namespace SeriesQuery

variable {cancelled : Bool} {registry : Registry} {shards : List Shard}

/-! ## What stages read -/

/-- The input of an aggregation is among what it reads. -/
theorem Aggregation.resolve_input_mem_reads {a : Aggregation} {references : List (String × String)}
    {input : String} (ha : a.source = .aggregation references input) :
    a.resolve input ∈ a.reads := by
  rw [reads, ha]
  exact List.mem_append_right _ List.mem_cons_self

/-- The right operands of a coordinator aggregation's stages are among the names that it reads. -/
theorem Aggregation.resolve_right_mem_reads {a : Aggregation} (ha : a.isCoordinator = true)
    {s : Stage} (hs : s ∈ a.stages) {reference : String} (hright : s.right? = some reference) :
    a.resolve reference ∈ a.reads := by
  obtain ⟨references, input, hsource⟩ := a.exists_source ha
  have hoperand : a.resolve reference ∈ a.operands :=
    List.mem_map_of_mem (List.mem_filterMap.mpr ⟨s, hs, hright⟩)
  rw [reads, hsource]
  exact List.mem_append_right _ (List.mem_cons_of_mem _ hoperand)

/-- Results that agree where the stages read are as good as each other. -/
theorem runStages_congr {a : Aggregation} {results results' : Results} {stages : List Stage}
    (h : ∀ s ∈ stages, ∀ reference, s.right? = some reference →
      results'.lookup (a.resolve reference) = results.lookup (a.resolve reference))
    (input : List Series) :
    runStages cancelled a results' stages input = runStages cancelled a results stages input := by
  induction stages generalizing input with
  | nil => rfl
  | cons s stages ih =>
    have hstage : runStage cancelled a results' input s = runStage cancelled a results input s := by
      unfold runStage
      cases hright : s.right? with
      | none => rfl
      | some reference => simp only [h s List.mem_cons_self reference hright]
    have htail := ih fun t ht => h t (List.mem_cons_of_mem s ht)
    rw [runStages_cons, runStages_cons, hstage]
    cases runStage cancelled a results input s with
    | error e => rfl
    | ok output => exact htail output

/-! ## The results at the turn of an aggregation -/

/-- At its turn, a coordinator aggregation finds all that it reads. -/
theorem reads_found (hr : registry.Consistent) {order done rest : List Aggregation}
    {a : Aggregation} (horder : registry.order = .ok order) (hsplit : order = done ++ a :: rest)
    {unfolded before : Results}
    (hkeys : unfolded.map Prod.fst = registry.unfolds.map Aggregation.name)
    (hbefore : done.foldlM (evaluate cancelled) unfolded = .ok before) :
    ∀ name ∈ a.reads, ∃ series, before.lookup name = some series := by
  intro name hname
  have hcoord := Registry.isCoordinator_of_order hr horder
  have hdone := evaluateAll_keys (fun b hb => hcoord b (by rw [hsplit]; simp [hb])) hbefore
  have hmem := Registry.reads_available hr horder hsplit name hname
  rw [← hkeys, ← hdone] at hmem
  exact Results.exists_lookup hmem

/-- The names in the results at the end are those that are registered, each once. -/
theorem keys_perm_names (hr : registry.Consistent) {order : List Aggregation}
    (horder : registry.order = .ok order) {unfolded results : Results}
    (hkeys : unfolded.map Prod.fst = registry.unfolds.map Aggregation.name)
    (hresults : order.foldlM (evaluate cancelled) unfolded = .ok results) :
    (results.map Prod.fst).Perm (registry.aggregations.map Aggregation.name) := by
  have hcoord := Registry.isCoordinator_of_order hr horder
  obtain ⟨hperm, -, -⟩ := Registry.order_sound hr horder
  rw [evaluateAll_keys hcoord hresults, hkeys, ← List.map_append]
  exact (((List.Perm.refl registry.unfolds).append hperm).trans
    registry.unfolds_append_coordinators).map Aggregation.name

/-- An evaluation in which nothing is missing and nothing is overwritten: at its turn every
    aggregation is new, what it reads has a result, and that result is still there at the end. -/
def Settled (cancelled : Bool) (order : List Aggregation) (unfolded results : Results) : Prop :=
  ∀ done a rest, order = done ++ a :: rest →
    ∃ before, done.foldlM (evaluate cancelled) unfolded = .ok before ∧
      before.lookup a.name = none ∧
      ∀ name ∈ a.reads, ∃ series,
        before.lookup name = some series ∧ results.lookup name = some series

/-- **The order settles everything.** -/
theorem settled_of_order (hr : registry.Consistent) {order : List Aggregation}
    (horder : registry.order = .ok order) {unfolded results : Results}
    (hkeys : unfolded.map Prod.fst = registry.unfolds.map Aggregation.name)
    (hresults : order.foldlM (evaluate cancelled) unfolded = .ok results) :
    Settled cancelled order unfolded results := by
  intro done a rest hsplit
  have hcoord := Registry.isCoordinator_of_order hr horder
  have hnodup := (keys_perm_names hr horder hkeys hresults).nodup_iff.mpr hr.names_nodup
  have hallkeys := evaluateAll_keys hcoord hresults
  rw [hsplit] at hresults
  obtain ⟨before, after, hbefore, ha, hrest⟩ := foldlM_split hresults
  have hextends : before <+: results := by
    have hlater : (a :: rest).foldlM (evaluate cancelled) before = .ok results := by
      rw [List.foldlM_cons, ha]
      exact hrest
    exact evaluateAll_extends (fun b hb => hcoord b (hsplit ▸ List.mem_append_right done hb)) hlater
  refine ⟨before, hbefore, ?_, fun name hname => ?_⟩
  · -- the names are those of `before`, then `a`'s own and others, all of them different
    have hdone := evaluateAll_keys
      (fun b hb => hcoord b (hsplit ▸ List.mem_append_left (a :: rest) hb)) hbefore
    rw [hallkeys, hsplit, List.map_append, ← List.append_assoc, ← hdone, List.map_cons] at hnodup
    have hnew : a.name ∉ before.map Prod.fst := fun hmem =>
      (List.nodup_append.mp hnodup).2.2 a.name hmem a.name List.mem_cons_self rfl
    exact Results.lookup_eq_none hnew
  · obtain ⟨series, hseries⟩ := reads_found hr horder hsplit hkeys hbefore name hname
    exact ⟨series, hseries, hextends.lookup_eq_some hseries⟩

/-! ## The equations -/

/-- The equation of an aggregation in finished results: what stands under its name is what its
    stages give on what stands under its input, with right operands from these same results. -/
def Aggregation.EquationIn (a : Aggregation) (results : Results) : Prop :=
  ∃ references input left output, a.source = .aggregation references input ∧
    results.lookup (a.resolve input) = some left ∧
    runStages false a results a.stages left = .ok output ∧
    results.lookup a.name = some output

/-- What was settled at its turn satisfies the equation at the end. -/
theorem equationIn_of_settled {order : List Aggregation}
    (hcoord : ∀ a ∈ order, a.isCoordinator = true) {unfolded results : Results}
    (hresults : order.foldlM (evaluate cancelled) unfolded = .ok results)
    (hsettled : Settled cancelled order unfolded results) :
    ∀ a ∈ order, a.EquationIn results := by
  intro a ha
  obtain ⟨references, input, hsource⟩ := a.exists_source (hcoord a ha)
  obtain ⟨done, rest, hsplit⟩ := List.append_of_mem ha
  obtain ⟨before, hbefore, hnew, hreads⟩ := hsettled done a rest hsplit
  rw [hsplit] at hresults
  obtain ⟨before', after, hbefore', heval, hrest⟩ := foldlM_split hresults
  obtain rfl : before = before' := Except.ok.inj (hbefore.symm.trans hbefore')
  obtain ⟨left, output, hleft, hstages, rfl⟩ := evaluate_eq_ok hsource heval
  -- Wherever the stages look, the results of then and of the end agree.
  have hagree : ∀ name ∈ a.reads, results.lookup name = before.lookup name := by
    intro name hname
    obtain ⟨series, hthen, hend⟩ := hreads name hname
    rw [hthen, hend]
  have hinput := hagree _ (Aggregation.resolve_input_mem_reads hsource)
  have hrun : runStages false a results a.stages left = .ok output := by
    rw [runStages_congr fun s hs reference hright =>
      hagree _ (Aggregation.resolve_right_mem_reads (hcoord a ha) hs hright)]
    exact runStages_of_ok hstages
  have hname := Results.lookup_append_self hnew output
  have hextends := evaluateAll_extends
    (fun b hb => hcoord b (by rw [hsplit]; simp [hb])) hrest
  exact ⟨references, input, left, output, hsource, hinput.trans hleft, hrun,
    hextends.lookup_eq_some hname⟩

/-- **A successful query satisfies all of its equations.**  It has one result for every registered
    name, its answer is the result of the final aggregation, and every coordinator aggregation
    satisfies its equation in the finished results.  Nothing is read before it is there, and nothing
    that was read changes afterwards. -/
theorem execute_satisfies_equations (hr : registry.Reachable) {config : Config} {outcome : Outcome}
    (h : execute config cancelled registry shards = .ok outcome) :
    (outcome.results.map Prod.fst).Perm (registry.aggregations.map Aggregation.name) ∧
    (outcome.results.map Prod.fst).Nodup ∧
    registry.final = .ok outcome.final ∧
    outcome.results.lookup outcome.final = some outcome.series ∧
    (∀ a ∈ registry.coordinators, a.EquationIn outcome.results) ∧
    ∃ order outcomes unfolded, registry.order = .ok order ∧ order.Perm registry.coordinators ∧
      unfoldPhase cancelled registry shards = .ok (outcomes, unfolded) ∧
      order.foldlM (evaluate cancelled) unfolded = .ok outcome.results ∧
      Settled cancelled order unfolded outcome.results := by
  have hc := hr.consistent
  obtain ⟨order, outcomes, unfolded, -, hfinal, horder, hunfold, hresults, hanswer⟩ :=
    execute_eq_ok h
  have hkeys := unfoldPhase_keys hunfold
  have hperm := keys_perm_names hc horder hkeys hresults
  have hcoord := Registry.isCoordinator_of_order hc horder
  obtain ⟨hall, -, -⟩ := Registry.order_sound hc horder
  have hsettled := settled_of_order hc horder hkeys hresults
  have hequations := equationIn_of_settled hcoord hresults hsettled
  exact ⟨hperm, hperm.nodup_iff.mpr hc.names_nodup, hfinal, hanswer,
    fun a ha => hequations a (hall.mem_iff.mpr ha),
    order, outcomes, unfolded, horder, hall, hunfold, hresults, hsettled⟩

/-- In the small query, `total` and `top` satisfy their equations. -/
theorem execute_satisfies_equations_usage :
    ∃ outcome, execute .sequential false Usage.registry Usage.shards = .ok outcome ∧
      Usage.total.EquationIn outcome.results ∧ Usage.top.EquationIn outcome.results := by
  obtain ⟨outcome, hok⟩ := Usage.execute_ok
  obtain ⟨-, -, -, -, hequations, -⟩ := execute_satisfies_equations Usage.reachable hok
  rw [Usage.coordinators_eq] at hequations
  exact ⟨outcome, hok, hequations Usage.total (by simp), hequations Usage.top (by simp)⟩

end SeriesQuery
