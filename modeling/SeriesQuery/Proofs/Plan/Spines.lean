/-
  What a plan of any shape is compiled to.

  Compiling goes from the root through single inputs; the nodes on this way are the spine of the
  plan.  A spine ends where there is no input, or several.  Parameters are checked on the way back
  only.  So a node with several inputs is refused whatever else is wrong (`stages?_of_branching`),
  and on a spine without one the nodes are compiled each on its own, the farthest first
  (`stages?_of_linear`).  What is wrong with a step is said by `Stage.Refused`, apart from the
  checks; two lemmas compare it with what the checks do.
-/
import SeriesQuery.Proofs.Stage.Building

namespace SeriesQuery

/-! ## Parameters

What is wrong with a stage is a relation with one rule for each check, and no rule speaks of the
order of the checks except for the percentile, which is looked at after the interval. -/

/-- What is wrong with the parameters of a stage in a plan. -/
inductive Stage.Refused : Stage → Invalid → Prop
  | noLimit : Refused (head 0) (.limitNotPositive 0)
  | unsignedLimit {limit : UInt64} (h : greatestLimit < limit) :
    Refused (head limit) (.limitTooLarge limit)
  | interval {d : Downsampling} (h : d.interval ≤ 0) :
    Refused (summarize d) (.intervalNotPositive d.interval)
  | percentile {d : Downsampling} {p : Float} (hinterval : 0 < d.interval)
    (hsummary : d.summary = .percentile p) (h : ¬(0.0 ≤ p ∧ p ≤ 100.0)) :
    Refused (summarize d) (.percentileOutOfRange p)
  | factor {factor : Float} (h : factor.isFinite = false) :
    Refused (scale factor) (.factorNotFinite factor)
  | seconds {seconds : Float} (h : ¬(seconds.isFinite = true ∧ 0.0 < seconds)) :
    Refused (scaleToSeconds seconds) (.secondsNotPositive seconds)
  | operand {a : Arithmetic} (h : a.right = "") : Refused (arithmetic a) .referenceEmpty
  | united : Refused (union "") .referenceEmpty

namespace PlanStep

/-- The stage that a step applies.  A fetch applies none. -/
def applied? : PlanStep → Option Stage
  | fetch _ => none
  | apply s => some s

/-- The step applies a stage with wrong parameters. -/
def Refused (step : PlanStep) (cause : Invalid) : Prop :=
  ∃ s, step = apply s ∧ s.Refused cause

/-- A step with wrong parameters is refused for what is wrong with them. -/
theorem stage?_of_refused {step : PlanStep} {cause : Invalid} (h : step.Refused cause) :
    step.stage? = .error (.invalid cause) := by
  obtain ⟨s, rfl, h⟩ := h
  cases h with
  | noLimit => rfl
  | @unsignedLimit limit h =>
    show (if limit ≤ Stage.greatestLimit then _ else _) = _
    rw [if_neg (UInt64.not_le.mpr h)]
  | @interval d h =>
    show some <$> ((if d.interval ≤ 0 then _ else _) >>= _) = _
    rw [if_pos h]
    rfl
  | @percentile d p hinterval hsummary h =>
    show some <$> ((if d.interval ≤ 0 then _ else d.summary.validate) >>= _) = _
    rw [if_neg (Int64.not_le.mpr hinterval), hsummary, Summary.validate, Summary.percentile?,
      if_neg h]
    rfl
  | @factor factor h =>
    show some <$> ((if factor.isFinite then _ else _) >>= _) = _
    rw [if_neg (by rw [h]; exact Bool.false_ne_true)]
    rfl
  | @seconds seconds h =>
    show some <$> ((if seconds.isFinite ∧ 0.0 < seconds then _ else _) >>= _) = _
    rw [if_neg h]
    rfl
  | @operand a h =>
    show some <$> ((if a.right = "" then _ else _) >>= _) = _
    rw [if_pos h]
    rfl
  | united => rfl

/-- A step with nothing wrong is compiled to the stage that it applies. -/
theorem stage?_of_not_refused {step : PlanStep} (h : ∀ cause, ¬step.Refused cause) :
    step.stage? = .ok step.applied? := by
  cases step with
  | fetch query => rfl
  | apply s =>
    have hstage : ∀ cause, ¬s.Refused cause := fun cause hs => h cause ⟨s, rfl, hs⟩
    -- All kinds but `head` are checked as they stand.
    have hchecked : s.validate = .ok () → some <$> s.checked = .ok (some s) := by
      intro hvalid
      rw [Stage.checked_eq_ok.mpr ⟨hvalid, rfl⟩]
      rfl
    cases s with
    | head limit =>
      have hle : limit ≤ Stage.greatestLimit :=
        UInt64.not_lt.mp fun hgreat => hstage _ (.unsignedLimit hgreat)
      have hne : limit ≠ 0 := by
        rintro rfl
        exact hstage _ .noLimit
      -- A limit in range is positive as a signed number too, and so passes the constructor.
      have hpos : 0 < limit.toInt64 := (Stage.pos_toInt64_iff limit).mpr ⟨hne, hle⟩
      show (if limit ≤ Stage.greatestLimit then _ else _) = _
      rw [if_pos hle, Stage.head?_eq_ok.mpr ⟨hpos, rfl⟩, UInt64.toUInt64_toInt64]
      rfl
    | summarize d =>
      refine hchecked ?_
      have hinterval : 0 < d.interval := Int64.not_le.mp fun hle => hstage _ (.interval hle)
      show (if d.interval ≤ 0 then _ else d.summary.validate) = _
      rw [if_neg (Int64.not_le.mpr hinterval)]
      cases hsummary : d.summary with
      | percentile p =>
        have hp : 0.0 ≤ p ∧ p ≤ 100.0 :=
          not_not.mp fun hp => hstage _ (.percentile hinterval hsummary hp)
        rw [Summary.validate, Summary.percentile?, if_pos hp]
        rfl
      | _ => rfl
    | scale factor =>
      refine hchecked (if_pos (Bool.of_not_eq_false ?_))
      exact fun hfactor => hstage _ (.factor hfactor)
    | scaleToSeconds seconds =>
      exact hchecked (if_pos (not_not.mp fun hseconds => hstage _ (.seconds hseconds)))
    | arithmetic a => exact hchecked (if_neg fun hright => hstage _ (.operand hright))
    | union right =>
      refine hchecked (if_neg ?_)
      rintro rfl
      exact hstage _ .united

/-- Nothing is wrong with a step exactly if it is compiled to the stage that it applies. -/
theorem not_refused_iff {step : PlanStep} :
    (∀ cause, ¬step.Refused cause) ↔ step.stage? = .ok step.applied? := by
  constructor
  · exact stage?_of_not_refused
  · intro h cause hrefused
    rw [stage?_of_refused hrefused] at h
    cases h

end PlanStep

namespace PlanNode

/-! ## Spines

Compiling is a recursion over the tree, but it looks at one path of it.  The spine is this path as a
list, and over the list compiling is a loop from its far end. -/

/-- The nodes from the root on that are reached through single inputs. -/
def spine : PlanNode → List PlanNode
  | mk id step [] => [mk id step []]
  | mk id step [input] => mk id step [input] :: input.spine
  | mk id step inputs => [mk id step inputs]

/-- No node of the spine has several inputs. -/
def Linear (root : PlanNode) : Prop := ∀ n ∈ root.spine, n.inputs.length ≤ 1

/-- The stages of a node alone, whatever its inputs. -/
def ownStages? (n : PlanNode) : Except Error (List Stage) := Option.toList <$> n.step.stage?

/-- A node with several inputs at the end of the spine is refused, and nothing else matters. -/
theorem stages?_of_branching {root n : PlanNode} (hn : n ∈ root.spine)
    (hinputs : 2 ≤ n.inputs.length) :
    root.stages? = .error (.unsupported (.branching n.step.label n.id n.inputs.length)) := by
  induction root using stages?.induct with
  -- The induction follows the compiler: no input, a single one, or several.
  | case1 id step =>
    obtain rfl := List.mem_singleton.mp hn
    exact absurd hinputs (Nat.not_succ_le_zero 1)
  | case2 id step input ih =>
    rcases List.mem_cons.mp hn with rfl | hn
    · exact absurd hinputs (Nat.not_succ_le_self 1)
    · rw [stages?, ih hn]
      rfl
  | case3 id step inputs hnil hsingle =>
    rw [spine.eq_3 id step inputs hnil hsingle] at hn
    obtain rfl := List.mem_singleton.mp hn
    exact stages?.eq_3 id step inputs hnil hsingle

/-- **A plan on whose spine no node has several inputs** is compiled node by node, the farthest from
    the root first.  The induction follows the compiler, which adds the stages of the root behind
    those of its input. -/
theorem stages?_of_linear {root : PlanNode} (h : root.Linear) :
    root.stages? = List.flatten <$> root.spine.reverse.mapM ownStages? := by
  induction root using stages?.induct with
  | case1 id step =>
    show _ = List.flatten <$> ([] ++ [mk id step []]).mapM ownStages?
    rw [flatten_mapM_concat, stages?, ownStages?]
    show _ = (Option.toList <$> step.stage? >>= fun own => pure own)
    cases step.stage? with
    | error e => rfl
    | ok o => rfl
  | case2 id step input ih =>
    have hinput : input.Linear := fun n hn => h n (List.mem_cons_of_mem _ hn)
    rw [spine, List.reverse_cons, flatten_mapM_concat, ← ih hinput, stages?, ownStages?]
    cases input.stages? with
    | error e => rfl
    | ok before =>
      show _ = (Option.toList <$> step.stage? >>= fun own => pure (before ++ own))
      cases step.stage? with
      | error e => rfl
      | ok o => rfl
  | case3 id step inputs hnil hsingle =>
    have hlength : inputs.length ≤ 1 := by
      refine h (mk id step inputs) ?_
      rw [spine.eq_3 id step inputs hnil hsingle]
      exact List.mem_singleton_self _
    rcases inputs with _ | ⟨input, _ | ⟨other, rest⟩⟩
    · exact (hnil rfl).elim
    · exact (hsingle input rfl).elim
    · simp at hlength

/-! ## The verdict

A spine with several inputs at its end is refused for these.  Any other one is refused for its
farthest node with wrong parameters, and compiled if there is none.  The three cases exclude each
other, and there is no fourth. -/

/-- The stages that the steps of the spine apply, the farthest from the root first. -/
def applied (root : PlanNode) : List Stage :=
  root.spine.reverse.filterMap fun n => n.step.applied?

/-- If the farthest node with wrong parameters is known, so is the reason why the plan is
    refused. -/
theorem stages?_of_refused {root n : PlanNode} (hlinear : root.Linear)
    {above below : List PlanNode} (hspine : root.spine = above ++ n :: below) {cause : Invalid}
    (hn : n.step.Refused cause) (hbelow : ∀ m ∈ below, ∀ c, ¬m.step.Refused c) :
    root.stages? = .error (.invalid cause) := by
  -- Seen from the far end, the nodes below come first, and none of them is refused.
  have hreverse : root.spine.reverse = below.reverse ++ n :: above.reverse := by
    rw [hspine, List.reverse_append, List.reverse_cons, List.append_assoc, List.singleton_append]
  have hdone : ∀ m ∈ below.reverse, ∃ own, m.ownStages? = .ok own := by
    intro m hm
    rw [ownStages?, PlanStep.not_refused_iff.mp (hbelow m (List.mem_reverse.mp hm))]
    exact ⟨_, rfl⟩
  have hown : n.ownStages? = .error (.invalid cause) := by
    rw [ownStages?, PlanStep.stage?_of_refused hn]
    rfl
  rw [stages?_of_linear hlinear, map_eq_error, mapM_eq_error]
  exact ⟨below.reverse, n, above.reverse, hreverse, hdone, hown⟩

/-- If no node has wrong parameters, every step gives the stage that it applies. -/
theorem stages?_of_not_refused {root : PlanNode} (hlinear : root.Linear)
    (h : ∀ n ∈ root.spine, ∀ c, ¬n.step.Refused c) : root.stages? = .ok root.applied := by
  have hown : root.spine.reverse.mapM ownStages? =
      .ok (root.spine.reverse.map fun n => n.step.applied?.toList) := by
    rw [mapM_eq_ok, List.forall₂_map_right_iff, List.forall₂_same]
    intro n hn
    rw [ownStages?, PlanStep.not_refused_iff.mp (h n (List.mem_reverse.mp hn))]
    rfl
  rw [stages?_of_linear hlinear, hown, applied, List.filterMap_eq_flatMap_toList,
    List.flatMap_def]
  rfl

/-- **Every plan has one verdict.**  If a node of the spine has several inputs, the plan is refused
    for it, whatever else is wrong.  If there is none, the plan is refused for the farthest step
    with wrong parameters.  If there is none of these either, the plan is compiled to the stages of
    its steps, the farthest first, and they are all valid. -/
theorem stages?_verdict (root : PlanNode) :
    (∀ n ∈ root.spine, 2 ≤ n.inputs.length →
      root.stages? = .error (.unsupported (.branching n.step.label n.id n.inputs.length))) ∧
    (root.Linear → ∀ above n below cause, root.spine = above ++ n :: below →
      n.step.Refused cause → (∀ m ∈ below, ∀ c, ¬m.step.Refused c) →
        root.stages? = .error (.invalid cause)) ∧
    (root.Linear → (∀ n ∈ root.spine, ∀ c, ¬n.step.Refused c) →
      root.stages? = .ok root.applied ∧ ∀ s ∈ root.applied, s.validate = .ok ()) := by
  refine ⟨?branching, ?refused, ?compiled⟩
  case branching => exact fun n hn hinputs => stages?_of_branching hn hinputs
  case refused =>
    intro hlinear above n below cause hspine hn hbelow
    exact stages?_of_refused hlinear hspine hn hbelow
  case compiled =>
    intro hlinear h
    have hok := stages?_of_not_refused hlinear h
    refine ⟨hok, fun s hs => ?_⟩
    exact (Stage.Built.ofPlan hok hs).valid

/-- Three plans: one with two inputs far from a root that is wrong as well, one with two wrong
    steps, and one with nothing wrong. -/
theorem stages?_verdict_usage :
    let fetched (id : Nat) : PlanNode := .mk id (.fetch "cpu") []
    let forked : PlanNode :=
      .mk 3 (.apply (.head 0)) [.mk 2 (.apply (.union "disk")) [fetched 0, fetched 1]]
    let wrong : PlanNode :=
      .mk 2 (.apply (.union "")) [.mk 1 (.apply (.head 0)) [fetched 0]]
    let right : PlanNode :=
      .mk 2 (.apply (.union "disk")) [.mk 1 (.apply (.head 3)) [fetched 0]]
    forked.stages? = .error (.unsupported (.branching "UNION(disk)" 2 2)) ∧
      wrong.stages? = .error (.invalid (.limitNotPositive 0)) ∧
      right.stages? = .ok [.head 3, .union "disk"] := by
  intro fetched forked wrong right
  have hfetched : ∀ id c, ¬(fetched id).step.Refused c :=
    fun id => PlanStep.not_refused_iff.mpr rfl
  have hwrong : wrong.Linear := by simp [Linear, wrong, fetched, spine, inputs]
  have hright : right.Linear := by simp [Linear, right, fetched, spine, inputs]
  refine ⟨?forked, ?wrong, ?right⟩
  case forked =>
    refine (stages?_verdict forked).1 (.mk 2 (.apply (.union "disk")) [fetched 0, fetched 1]) ?_
      (Nat.le_refl 2)
    exact List.mem_cons_of_mem _ List.mem_cons_self
  case wrong =>
    refine (stages?_verdict wrong).2.1 hwrong [wrong] (.mk 1 (.apply (.head 0)) [fetched 0])
      [fetched 0] (.limitNotPositive 0) rfl ⟨_, rfl, .noLimit⟩ ?_
    exact List.forall_mem_singleton.mpr (hfetched 0)
  case right =>
    refine ((stages?_verdict right).2.2 hright ?_).1
    have hhead : ∀ c, ¬(PlanStep.apply (.head 3)).Refused c := PlanStep.not_refused_iff.mpr rfl
    have hunion : ∀ c, ¬(PlanStep.apply (.union "disk")).Refused c :=
      PlanStep.not_refused_iff.mpr rfl
    exact List.forall_mem_cons.mpr
      ⟨hunion, List.forall_mem_cons.mpr ⟨hhead, List.forall_mem_singleton.mpr (hfetched 0)⟩⟩

end PlanNode
end SeriesQuery
