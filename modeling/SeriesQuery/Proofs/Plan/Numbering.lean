/-
  Numbers count the nodes that are made.

  All numbers come from `fresh`.  So it is enough to write down, for a computation that is put
  together with `fresh` in it, what each of them has returned: that is `Draws`.  Whatever the
  computation, the numbers written down are those from the count on, without a gap, and the count
  moves on by as many (`Draws.consecutive`).

  How many they are is a matter of each demand.  A call is read before a number is drawn for it, so
  one that is refused draws none; and a pipeline goes through its calls from the front, so one that
  is refused has drawn a number for each call before the one that fails.  `Met` says this case by
  case, and an `Account` follows a planner through a row of demands, refused or not.
-/
import SeriesQuery.Proofs.Plan.Pipelines

namespace SeriesQuery.Planner

/-! ## Drawing numbers -/

/-- From `count` on, a computation draws the numbers `ids`, one after the other, and ends with
    `result` and the count `after`. -/
inductive Draws : {α : Type} → Planner α → Nat → List Nat → Except Error α → Nat → Prop
  | give {α : Type} (a : α) (count : Nat) : Draws (pure a) count [] (.ok a) count
  | refuse {α : Type} (e : Error) (count : Nat) :
    Draws (throw e : Planner α) count [] (.error e) count
  | fresh {count id after : Nat} (h : fresh.run count = (.ok id, after)) :
    Draws fresh count [id] (.ok id) after
  | bind {α β : Type} {x : Planner α} {f : α → Planner β} {a : α} {result : Except Error β}
    {count middle after : Nat} {ids more : List Nat} (hx : Draws x count ids (.ok a) middle)
    (hf : Draws (f a) middle more result after) :
    Draws (x >>= f) count (ids ++ more) result after
  | cutShort {α β : Type} {x : Planner α} {f : α → Planner β} {e : Error} {count after : Nat}
    {ids : List Nat} (hx : Draws x count ids (.error e) after) :
    Draws (x >>= f) count ids (.error e) after

section Draws

variable {α β : Type} {x : Planner α} {f : α → Planner β} {result : Except Error α}
  {count middle after : Nat} {ids : List Nat} {a : α} {e : Error}

/-- What follows a success goes on from the count that was reached. -/
theorem run_bind_ok (h : x.run count = (.ok a, middle)) :
    (x >>= f).run count = (f a).run middle := by
  show ExceptT.bindCont f (x.run count).1 (x.run count).2 = _
  rw [h]
  rfl

/-- What follows an error is left out, and the count stays. -/
theorem run_bind_error (h : x.run count = (.error e, after)) :
    (x >>= f).run count = (.error e, after) := by
  show ExceptT.bindCont f (x.run count).1 (x.run count).2 = _
  rw [h]
  rfl

/-- What is drawn is what the run draws. -/
theorem Draws.run_eq (h : Draws x count ids result after) : x.run count = (result, after) := by
  induction h with
  | give a count => rfl
  | refuse e count => rfl
  | fresh h => exact h
  | bind _ _ ihx ihf => rw [run_bind_ok ihx, ihf]
  | cutShort _ ihx => exact run_bind_error ihx

/-- **The numbers drawn are consecutive**, from the count on. -/
theorem Draws.consecutive (h : Draws x count ids result after) :
    ids = List.range' count ids.length ∧ after = count + ids.length := by
  induction h with
  | give a count => exact ⟨rfl, rfl⟩
  | refuse e count => exact ⟨rfl, rfl⟩
  | @fresh count id after h =>
    cases h
    exact ⟨rfl, rfl⟩
  | @bind _ _ _ _ _ _ count middle after ids more _ _ ihx ihf =>
    -- the numbers of the second part start where those of the first part end
    obtain ⟨hids, rfl⟩ := ihx
    obtain ⟨hmore, rfl⟩ := ihf
    rw [List.length_append, ← List.range'_append_1, ← hids, ← hmore]
    exact ⟨rfl, Nat.add_assoc ..⟩
  | cutShort _ ihx => exact ihx

/-- What is made of the result draws nothing. -/
theorem Draws.map (g : α → β) (h : Draws x count ids result after) :
    Draws (do return g (← x)) count ids (g <$> result) after := by
  cases result with
  | error e => exact .cutShort h
  | ok a =>
    have hbind := Draws.bind (f := fun a => pure (g a)) h (.give (g a) after)
    rwa [List.append_nil] at hbind

end Draws

/-! ## Demands -/

/-- How a call is read: by its name, or as a call of one kind whatever its name. -/
inductive CallKind
  | named
  | fetch
  | head
  | summarize
  | scale
  | scaleToSeconds
  | arithmetic
  | union

/-- The step that a call is read as. -/
def CallKind.read : CallKind → Call → Except Error PlanStep
  | named => PlanStep.ofCall
  | fetch => PlanStep.fetchOf
  | head => PlanStep.headOf
  | summarize => PlanStep.summarizeOf
  | scale => PlanStep.scaleOf
  | scaleToSeconds => PlanStep.scaleToSecondsOf
  | arithmetic => PlanStep.arithmeticOf
  | union => PlanStep.unionOf

/-- What a planner is asked for. -/
inductive Demand
  /-- A number for itself. -/
  | number
  /-- A node of a step that is there already. -/
  | node (step : PlanStep)
  | call (kind : CallKind) (c : Call)
  | pipeline (calls : List Call)

/-- What a demand is answered with. -/
inductive Answer
  | number (id : Nat)
  | node (root : PlanNode)

/-- What the planner does about a demand. -/
def Demand.run : Demand → Planner Answer
  | number => do return .number (← fresh)
  | node step => do return .node (← Planner.node step)
  | call kind c => do return .node (← nodeOf (kind.read c))
  | pipeline calls => do return .node (← Planner.pipeline calls)

/-- All demands in turn.  A demand that is refused does not keep the next one from being met. -/
def serve (demands : List Demand) : StateM Nat (List (Except Error Answer)) :=
  demands.mapM fun d => d.run.run

/-- How a demand is met from `count` on: the numbers that it takes, and the answer. -/
inductive Met (count : Nat) : Demand → List Nat → Except Error Answer → Prop
  | number : Met count .number [count] (.ok (.number count))
  | node (step : PlanStep) : Met count (.node step) [count] (.ok (.node (.mk count step [])))
  | call {kind : CallKind} {c : Call} {step : PlanStep} (h : kind.read c = .ok step) :
    Met count (.call kind c) [count] (.ok (.node (.mk count step [])))
  | refusedCall {kind : CallKind} {c : Call} {e : Error} (h : kind.read c = .error e) :
    Met count (.call kind c) [] (.error e)
  /-- From the far end to the root, the nodes are those of the calls, with consecutive numbers. -/
  | pipeline {calls : List Call} {root : PlanNode} (hsome : calls ≠ [])
    (hnodes : List.Forall₂ (fun n c => n.inputs.length ≤ 1 ∧ PlanStep.ofCall c = .ok n.step)
      root.spine.reverse calls)
    (hnumbers : root.spine.reverse.map PlanNode.id = List.range' count calls.length) :
    Met count (.pipeline calls) (List.range' count calls.length) (.ok (.node root))
  /-- The calls before the one that fails have taken a number each. -/
  | refusedPipeline {before rest : List Call} {c : Call} {e : Error}
    (hbefore : ∀ b ∈ before, ∃ step, PlanStep.ofCall b = .ok step)
    (h : PlanStep.ofCall c = .error e) :
    Met count (.pipeline (before ++ c :: rest)) (List.range' count before.length) (.error e)
  | emptyPipeline : Met count (.pipeline []) [] (.error (.invalid .pipelineEmpty))

/-! ## Single nodes and rows of calls -/

variable {calls : List Call} {current : PlanNode} {count : Nat}

/-- A node takes one number. -/
theorem draws_node (step : PlanStep) (count : Nat) :
    Draws (node step) count [count] (.ok (.mk count step [])) (count + 1) :=
  .bind (.fresh rfl) (.give _ _)

/-- A step that was read takes a number, and one that was not takes none. -/
theorem draws_nodeOf_ok (step : PlanStep) (count : Nat) :
    Draws (nodeOf (.ok step)) count [count] (.ok (.mk count step [])) (count + 1) :=
  draws_node step count

/-- A refused call draws no number, and so leaves no gap. -/
theorem draws_nodeOf_error (e : Error) (count : Nat) :
    Draws (nodeOf (.error e)) count [] (.error e) count :=
  .cutShort (.refuse e count)

/-- What a row of calls comes to: a node, with a number for each call, or the error of the first
    call that fails, with a number for each call before it. -/
inductive Row (count : Nat) : List Call → List Nat → Except Error PlanNode → Prop
  | built (calls : List Call) (root : PlanNode) :
    Row count calls (List.range' count calls.length) (.ok root)
  | refused {before rest : List Call} {c : Call} {e : Error}
    (hbefore : ∀ b ∈ before, ∃ step, PlanStep.ofCall b = .ok step)
    (h : PlanStep.ofCall c = .error e) :
    Row count (before ++ c :: rest) (List.range' count before.length) (.error e)

/-- A call that was read, in front of a row, takes the number before. -/
theorem Row.cons {c : Call} {step : PlanStep} {ids : List Nat} {result : Except Error PlanNode}
    (hstep : PlanStep.ofCall c = .ok step) (h : Row (count + 1) calls ids result) :
    Row count (c :: calls) (count :: ids) result := by
  cases h with
  | built calls root => exact .built (c :: calls) root
  | refused hbefore h => exact .refused (List.forall_mem_cons.mpr ⟨⟨step, hstep⟩, hbefore⟩) h

/-- A call in front of a row takes the first number, unless it fails. -/
theorem draws_nodeOf_bind {c : Call} {next : PlanNode → Planner PlanNode}
    (h : ∀ step, ∃ ids result after, Draws (next (.mk count step [])) (count + 1) ids result after ∧
      Row (count + 1) calls ids result) :
    ∃ ids result after, Draws (nodeOf (PlanStep.ofCall c) >>= next) count ids result after ∧
      Row count (c :: calls) ids result := by
  -- A call is read before a number is drawn for it.
  cases hc : PlanStep.ofCall c with
  | error e =>
    have hnone : ∀ b ∈ ([] : List Call), ∃ step, PlanStep.ofCall b = .ok step :=
      fun b hb => absurd hb List.not_mem_nil
    exact ⟨[], .error e, count, .cutShort (draws_nodeOf_error e count), .refused hnone hc⟩
  | ok step =>
    obtain ⟨ids, result, after, hdraws, hrow⟩ := h step
    exact ⟨count :: ids, result, after, .bind (draws_nodeOf_ok step count) hdraws,
      hrow.cons hc⟩

/-- The calls after the first one are a row, on top of any node. -/
theorem draws_chain : ∃ ids result after, Draws (chain current calls) count ids result after ∧
    Row count calls ids result := by
  induction calls generalizing current count with
  | nil => exact ⟨[], .ok current, count, .give current count, .built [] current⟩
  | cons c rest ih => exact draws_nodeOf_bind fun step => ih

/-- A pipeline with calls in it draws the numbers of its nodes one after the other, up to the first
    call that is refused, if there is one. -/
theorem draws_pipeline (hsome : calls ≠ []) :
    ∃ ids result after, Draws (Planner.pipeline calls) count ids result after ∧
      Row count calls ids result := by
  obtain ⟨c, rest, rfl⟩ := List.exists_cons_of_ne_nil hsome
  exact draws_nodeOf_bind fun step => draws_chain

/-- **Every demand is met.** -/
theorem exists_met (d : Demand) (count : Nat) :
    ∃ ids answer after, Draws d.run count ids answer after ∧ Met count d ids answer := by
  cases d with
  | number => exact ⟨_, _, _, .map _ (.fresh rfl), .number⟩
  | node step => exact ⟨_, _, _, .map _ (draws_node step count), .node step⟩
  | call kind c =>
    -- The number is drawn after the call was read, so it depends on whether that succeeds.
    cases hread : kind.read c with
    | error e =>
      have hdraws := draws_nodeOf_error e count
      rw [← hread] at hdraws
      exact ⟨_, _, _, hdraws.map _, .refusedCall hread⟩
    | ok step =>
      have hdraws := draws_nodeOf_ok step count
      rw [← hread] at hdraws
      exact ⟨_, _, _, hdraws.map _, .call hread⟩
  | pipeline calls =>
    -- No calls at all are refused before any number is drawn.
    by_cases hsome : calls = []
    · subst hsome
      exact ⟨_, _, _, .cutShort (.refuse _ count), .emptyPipeline⟩
    · obtain ⟨ids, result, after, hdraws, hrow⟩ := @draws_pipeline calls count hsome
      refine ⟨ids, _, after, .map _ hdraws, ?_⟩
      cases hrow with
      | built calls root =>
        obtain ⟨hnumbers, hnodes⟩ := pipeline_spine (congrArg Prod.fst hdraws.run_eq)
        exact .pipeline hsome hnodes hnumbers
      | refused hbefore h => exact .refusedPipeline hbefore h

/-! ## Sessions -/

/-- A demand with the numbers that it took and the answer that it got. -/
structure Entry where
  demand : Demand
  drawn : List Nat
  answer : Except Error Answer

/-- The account of a planner: each demand finds the count that the one before has left, draws its
    numbers there and is met there. -/
inductive Account : Nat → List Entry → Nat → Prop
  | nil (count : Nat) : Account count [] count
  | cons {entry : Entry} {log : List Entry} {count middle after : Nat}
    (hdraws : Draws entry.demand.run count entry.drawn entry.answer middle)
    (hmet : Met count entry.demand entry.drawn entry.answer) (h : Account middle log after) :
    Account count (entry :: log) after

/-- **No number is left out or taken twice** in an account. -/
theorem Account.consecutive {log : List Entry} {count after : Nat} (h : Account count log after) :
    log.flatMap Entry.drawn = List.range' count (log.flatMap Entry.drawn).length ∧
      after = count + (log.flatMap Entry.drawn).length := by
  induction h with
  | nil count => exact ⟨rfl, rfl⟩
  | @cons entry log count middle after hdraws hmet h ih =>
    obtain ⟨hdrawn, rfl⟩ := hdraws.consecutive
    obtain ⟨hlog, rfl⟩ := ih
    rw [List.flatMap_cons, List.length_append, ← List.range'_append_1, ← hdrawn, ← hlog]
    exact ⟨rfl, Nat.add_assoc ..⟩

/-- The first demand is met from the count on, and the others from where it has left it. -/
theorem serve_cons {d : Demand} {rest : List Demand} {count middle : Nat}
    {answer : Except Error Answer} (h : d.run.run count = (answer, middle)) :
    serve (d :: rest) count = (answer :: (serve rest middle).1, (serve rest middle).2) := by
  rw [serve, List.mapM_cons]
  show (((d.run.run count).1 :: (serve rest (d.run.run count).2).1),
    (serve rest (d.run.run count).2).2) = _
  rw [h]

/-- There is an account of every run. -/
theorem exists_account (demands : List Demand) (count : Nat) :
    ∃ log, log.map Entry.demand = demands ∧ log.map Entry.answer = (serve demands count).1 ∧
      Account count log (serve demands count).2 := by
  -- The count moves on with each demand, so the account is made for any count to start from.
  induction demands generalizing count with
  | nil => exact ⟨[], rfl, rfl, .nil count⟩
  | cons d rest ih =>
    obtain ⟨ids, answer, middle, hdraws, hmet⟩ := exists_met d count
    obtain ⟨log, hdemands, hanswers, haccount⟩ := ih middle
    rw [serve_cons hdraws.run_eq]
    refine ⟨⟨d, ids, answer⟩ :: log, ?_, ?_, .cons hdraws hmet haccount⟩
    · rw [List.map_cons, hdemands]
    · rw [List.map_cons, hanswers]

/-- **Numbers count the nodes that are made.**  Whatever a new planner is asked for, the numbers
    that it draws are 0, 1, 2 and so on, without a gap, and each demand takes those that it
    needs. -/
theorem serve_numbers (demands : List Demand) :
    ∃ log, log.map Entry.demand = demands ∧ log.map Entry.answer = (serve demands 0).1 ∧
      Account 0 log (serve demands 0).2 ∧
      log.flatMap Entry.drawn = List.range (serve demands 0).2 := by
  obtain ⟨log, hdemands, hanswers, haccount⟩ := exists_account demands 0
  obtain ⟨hdrawn, hcount⟩ := haccount.consecutive
  refine ⟨log, hdemands, hanswers, haccount, ?_⟩
  rw [List.range_eq_range', hcount, Nat.zero_add]
  exact hdrawn

/-- The third call of the pipeline is refused, so two numbers are gone when the next one is asked
    for. -/
example :
    let refused := .pipeline [⟨"head", []⟩, ⟨"head", [.value "3"]⟩, ⟨"head", [.value "0"]⟩]
    (serve [refused, .number] 0).2 = 3 := by
  decide +kernel

end SeriesQuery.Planner
