/-
  Compiling a pipeline is compiling its calls.

  A pipeline is built from the inside out: the node of the first call goes into that of the second,
  and so on, and the last one is the root.  Its spine, read from the far end, is therefore the calls
  in their order (`pipeline_spine`), and no node of it has more than one input.  So what is known of
  spines applies: the stages of the root are those of its nodes one by one, and each of these has
  the stages that its call has alone.

  The nodes are numbered in the order of the calls.  In compiling, the numbers play no part.
-/
import SeriesQuery.Proofs.Plan.Requests
import SeriesQuery.Proofs.Plan.Spines

namespace SeriesQuery.Planner

variable {calls : List Call} {count : Nat} {current root : PlanNode} {e : Error}

/-- The node of a call alone, with the number that is given. -/
def nodeAt (count : Nat) (c : Call) : Except Error PlanNode :=
  ((nodeOf (PlanStep.ofCall c)).run count).1

theorem nodeAt_eq (count : Nat) (c : Call) :
    nodeAt count c = (fun step => .mk count step []) <$> PlanStep.ofCall c := by
  unfold nodeAt nodeOf
  cases PlanStep.ofCall c with
  | error e => rfl
  | ok step => rfl

/-! ## Building

The planner builds a pipeline from its first call on and puts each node on top of the one before.
Read from the far end, the spine of what it builds is therefore the row of the calls. -/

/-- What follows a node gets it with the number that was next, and goes on with the one after. -/
theorem run_nodeOf_bind (step : Except Error PlanStep) (next : PlanNode → Planner PlanNode)
    (count : Nat) :
    ((nodeOf step >>= next).run count).1 =
      step >>= fun s => ((next (.mk count s [])).run (count + 1)).1 := by
  unfold nodeOf
  cases step with
  | error e => rfl
  | ok s => rfl

/-- What is built of a call and of those after it fails as their row does, if what is built after
    the call does. -/
theorem bind_ofCall_eq_error {c : Call} {build : PlanStep → Except Error PlanNode}
    (h : ∀ step, build step = .error e ↔ calls.mapM PlanStep.ofCall = .error e) :
    (PlanStep.ofCall c >>= build) = .error e ↔
      (c :: calls).mapM PlanStep.ofCall = .error e := by
  rw [List.mapM_cons, bind_eq_error, bind_eq_error]
  refine or_congr Iff.rfl (exists_congr fun step => and_congr_right fun _ => ?_)
  exact (h step).trans map_eq_error.symm

/-- A chain fails as the row of its calls does. -/
theorem chain_eq_error :
    ((chain current calls).run count).1 = .error e ↔ calls.mapM PlanStep.ofCall = .error e := by
  induction calls generalizing current count with
  | nil =>
    constructor
    · intro h
      cases h
    · intro h
      cases h
  | cons c rest ih =>
    rw [chain, run_nodeOf_bind]
    exact bind_ofCall_eq_error fun step => ih

/-- A chain puts its nodes on top of the spine that is there, with the numbers from `count` on. -/
theorem chain_spine (h : ((chain current calls).run count).1 = .ok root) :
    ∃ added, root.spine.reverse = current.spine.reverse ++ added ∧
      added.map PlanNode.id = List.range' count calls.length ∧
      List.Forall₂ (fun n c => n.inputs.length ≤ 1 ∧ PlanStep.ofCall c = .ok n.step) added
        calls := by
  induction calls generalizing current count with
  | nil =>
    obtain rfl := pure_eq_ok.mp h
    exact ⟨[], (List.append_nil _).symm, rfl, .nil⟩
  | cons c rest ih =>
    rw [chain, run_nodeOf_bind, bind_eq_ok] at h
    obtain ⟨step, hstep, h⟩ := h
    obtain ⟨added, hspine, hnumbers, hadded⟩ := ih h
    have hnode : (PlanNode.mk count step []).addInput current = .mk count step [current] := rfl
    refine ⟨.mk count step [current] :: added, ?_, ?_, .cons ⟨Nat.le_refl 1, hstep⟩ hadded⟩
    · rw [hspine, hnode, PlanNode.spine, List.reverse_cons, List.append_assoc,
        List.singleton_append]
    · rw [List.map_cons, hnumbers]
      rfl

/-- A pipeline fails as the row of its calls does. -/
theorem pipeline_eq_error (hsome : calls ≠ []) :
    ((pipeline calls).run count).1 = .error e ↔ calls.mapM PlanStep.ofCall = .error e := by
  obtain ⟨c, rest, rfl⟩ := List.exists_cons_of_ne_nil hsome
  rw [pipeline, run_nodeOf_bind]
  exact bind_ofCall_eq_error fun step => chain_eq_error

/-- Seen from the far end, the spine of a pipeline has the steps of its calls in their order, and
    the numbers from `count` on. -/
theorem pipeline_spine (h : ((pipeline calls).run count).1 = .ok root) :
    root.spine.reverse.map PlanNode.id = List.range' count calls.length ∧
      List.Forall₂ (fun n c => n.inputs.length ≤ 1 ∧ PlanStep.ofCall c = .ok n.step)
        root.spine.reverse calls := by
  cases calls with
  | nil => cases h
  | cons c rest =>
    rw [pipeline, run_nodeOf_bind, bind_eq_ok] at h
    obtain ⟨step, hstep, h⟩ := h
    obtain ⟨added, hspine, hnumbers, hadded⟩ := chain_spine h
    have hfirst : root.spine.reverse = .mk count step [] :: added := hspine
    rw [hfirst, List.map_cons, hnumbers]
    exact ⟨rfl, .cons ⟨Nat.zero_le 1, hstep⟩ hadded⟩

/-! ## Compiling

Compiling goes along the spine from its far end, and so in the order of the calls.  The numbers of
the nodes do not matter to it. -/

/-- A pipeline has the stages of its calls, one after the other. -/
theorem stages?_of_pipeline (h : ((pipeline calls).run count).1 = .ok root) (k : Nat) :
    root.stages? = List.flatten <$> calls.mapM (planned k) := by
  obtain ⟨hinputs, hsteps⟩ := (List.forall₂_and_left _ _).mp (pipeline_spine h).2
  have hlinear : root.Linear := fun n hn => hinputs n (List.mem_reverse.mpr hn)
  have hown : List.Forall₂ (fun n c => n.ownStages? = planned k c) root.spine.reverse calls := by
    refine hsteps.imp fun n c hstep => ?_
    rw [planned_eq, plannedStage, hstep]
    rfl
  rw [PlanNode.stages?_of_linear hlinear, mapM_congr_forall₂ hown]

/-- A fetch that the planner takes has no stages. -/
theorem planned_fetch {c : Call} (hfetch : c.function = "fetch") {step : PlanStep}
    (h : PlanStep.ofCall c = .ok step) (k : Nat) : planned k c = .ok [] := by
  have hof : PlanStep.ofCall c = PlanStep.fetchOf c := by
    obtain ⟨function, arguments⟩ := c
    obtain rfl : function = "fetch" := hfetch
    unfold PlanStep.ofCall
    rfl
  rw [hof] at h
  obtain ⟨words, -, hwords⟩ := bind_eq_ok.mp h
  rw [planned_eq, plannedStage, hof, h]
  split at hwords
  · cases hwords
  · obtain rfl := pure_eq_ok.mp hwords
    rfl

/-- **A pipeline is compiled call by call.**  It can be built exactly if the node of every call can,
    and else it fails as the first call that fails.  Once it is built, its stages are those of the
    calls, joined in their order, where a fetch has none; and if a call has no stages because its
    parameters are wrong, the pipeline is refused as the first such call. -/
theorem pipeline_compiled {calls : List Call} (hsome : calls ≠ []) (count k : Nat) :
    ((∃ root, ((pipeline calls).run count).1 = .ok root) ↔
        ∀ c ∈ calls, ∃ n, nodeAt k c = .ok n) ∧
      (∀ e, ((pipeline calls).run count).1 = .error e ↔ FirstFailure (nodeAt k) calls e) ∧
      ∀ root, ((pipeline calls).run count).1 = .ok root →
        root.stages? = List.flatten <$> calls.mapM (planned k) ∧
        (∀ e, root.stages? = .error e ↔ FirstFailure (planned k) calls e) ∧
        ∀ c ∈ calls, c.function = "fetch" → planned k c = .ok [] := by
  have hnodes : calls.mapM (nodeAt k) =
      List.map (fun step => .mk k step []) <$> calls.mapM PlanStep.ofCall := by
    rw [← mapM_map_result]
    exact congrArg (calls.mapM ·) (funext (nodeAt_eq k))
  have herror : ∀ e, ((pipeline calls).run count).1 = .error e ↔
      FirstFailure (nodeAt k) calls e := by
    intro e
    rw [pipeline_eq_error hsome, ← mapM_eq_error, hnodes, map_eq_error]
  have hrow : (∃ nodes, calls.mapM (nodeAt k) = .ok nodes) ↔ ∀ c ∈ calls, ∃ n, nodeAt k c = .ok n :=
    ⟨fun ⟨_, h⟩ _ hc => exists_ok_of_mapM h hc, exists_mapM_eq_ok⟩
  have hok : (∃ root, ((pipeline calls).run count).1 = .ok root) ↔
      ∀ c ∈ calls, ∃ n, nodeAt k c = .ok n :=
    (exists_ok_congr fun e => (herror e).trans mapM_eq_error.symm).trans hrow
  refine ⟨hok, herror, fun root hroot => ?_⟩
  have hstages := stages?_of_pipeline hroot k
  refine ⟨hstages, fun e => ?_, fun c hc hfetch => ?_⟩
  · rw [hstages, map_eq_error, mapM_eq_error]
  · obtain ⟨n, hn⟩ := hok.mp ⟨root, hroot⟩ c hc
    rw [nodeAt_eq] at hn
    obtain ⟨step, hstep, -⟩ := map_eq_ok.mp hn
    exact planned_fetch hfetch hstep k

/-- A pipeline with a second fetch in it, and a pipeline with two calls that the planner takes and
    that cannot be compiled. -/
theorem pipeline_compiled_usage :
    let fetch : Call := ⟨"fetch", [.value "cpu"]⟩
    let head : Call := ⟨"head", [.value "3"]⟩
    let union : Call := ⟨"union", [.value "disk"]⟩
    let unnamed : Call := ⟨"union", [.value ""]⟩
    let halted : Call := ⟨"scaleToSeconds", [.value "0"]⟩
    (∃ root, ((pipeline [fetch, head, fetch, union]).run 5).1 = .ok root ∧
        root.stages? = .ok [.head 3, .union "disk"]) ∧
      ∃ root, ((pipeline [fetch, unnamed, halted]).run 5).1 = .ok root ∧
        root.stages? = .error (.invalid .referenceEmpty) := by
  intro fetch head union unnamed halted
  have hnode : ∀ {c} (step), PlanStep.ofCall c = .ok step → ∃ n, nodeAt 0 c = .ok n := by
    intro c step h
    rw [nodeAt_eq, h]
    exact ⟨_, rfl⟩
  have hfetch : ∃ n, nodeAt 0 fetch = .ok n := hnode (.fetch "cpu") (by decide +kernel)
  have hhead : ∃ n, nodeAt 0 head = .ok n := hnode (.apply (.head 3)) (by decide +kernel)
  have hunion : ∃ n, nodeAt 0 union = .ok n :=
    hnode (.apply (.union "disk")) (by decide +kernel)
  have hunnamed : ∃ n, nodeAt 0 unnamed = .ok n :=
    hnode (.apply (.union "")) (by decide +kernel)
  have hhalted : ∃ n, nodeAt 0 halted = .ok n :=
    hnode (.apply (.scaleToSeconds 0.0)) (by decide +kernel)
  constructor
  · obtain ⟨hbuilt, -, hcompiled⟩ :=
      pipeline_compiled (List.cons_ne_nil fetch [head, fetch, union]) 5 0
    obtain ⟨root, hroot⟩ := hbuilt.mpr (by simp [hfetch, hhead, hunion])
    refine ⟨root, hroot, ?_⟩
    rw [(hcompiled root hroot).1]
    decide +kernel
  · obtain ⟨hbuilt, -, hcompiled⟩ :=
      pipeline_compiled (List.cons_ne_nil fetch [unnamed, halted]) 5 0
    obtain ⟨root, hroot⟩ := hbuilt.mpr (by simp [hfetch, hunnamed, hhalted])
    refine ⟨root, hroot, ?_⟩
    rw [(hcompiled root hroot).1]
    decide +kernel

end SeriesQuery.Planner
