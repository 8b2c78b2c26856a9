/-
  Running stages on parts of a list of series.

  A list of series that is spread over several parts can be worked on part by part, up to the cut
  that `Stage.shardPrefix` makes.  Two facts carry this.

  * A stage that is neither binary nor global treats every series on its own.  It therefore commutes
    with `++` (`run_append`), and so does a list of such stages (`runAll_append_input`), failures
    included: the whole fails exactly if a part does.
  * The cut leaves such stages only, with at most one `head` after them (`shardPrefix_cases`).  To
    keep the first `n` series of every part, and then the first `n` of what is left, is to keep the
    first `n` of all (`take_flatten_map_take`).

  `mergePartials_eq_runAll` puts them together: what the parts hand in, merged, is what the whole
  gives.
-/
import SeriesQuery.Proofs.Stage.Reducing
import SeriesQuery.Query.Execution

namespace SeriesQuery.Stage

/-! ## Stages in a row -/

/-- All stages, one after the other, each on one list of series. -/
def runAll (stages : List Stage) (input : List Series) : Except Error (List Series) :=
  stages.foldlM (fun series stage => stage.run series) input

/-- The first stage runs first, and the others on what it gives. -/
theorem runAll_cons (s : Stage) (stages : List Stage) (input : List Series) :
    runAll (s :: stages) input = s.run input >>= runAll stages := rfl

/-- Stages that are joined run one list of them after the other. -/
theorem runAll_append (before after : List Stage) (input : List Series) :
    runAll (before ++ after) input = runAll before input >>= runAll after := by
  unfold runAll
  rw [List.foldlM_append]

/-- The stages on the shards and then those at the coordinator are all stages. -/
theorem runAll_shardPrefix_deferred (stages : List Stage) (input : List Series) :
    runAll stages input = runAll (shardPrefix stages) input >>= runAll (deferred stages) := by
  rw [← runAll_append, shardPrefix_append_deferred]

/-- Unary stages of an aggregation run as they are, whatever the results so far. -/
theorem runStages_eq_runAll {stages : List Stage} (h : ∀ s ∈ stages, s.isBinary = false)
    (a : Aggregation) (results : Results) (input : List Series) :
    runStages false a results stages input = runAll stages input := by
  induction stages generalizing input with
  | nil => exact runStages_nil
  | cons s stages ih =>
    -- What is not binary has no right operand to be looked up.
    have hunary : s.right? = none := by
      have hs := h s List.mem_cons_self
      simpa [isBinary] using hs
    rw [runStages_cons, runStage_unary hunary, runAll_cons]
    cases s.run input with
    | error e => rfl
    | ok output => exact ih (fun t ht => h t (List.mem_cons_of_mem s ht)) output

/-! ## Stages that treat every series on its own -/

/-- A stage that takes one list, and whose results need no reduction. -/
def IsLocal (s : Stage) : Prop := s.isBinary = false ∧ s.isGlobal = false

/-- A local stage on two lists in a row is the stage on each of them. -/
theorem run_append {s : Stage} (h : s.IsLocal) (left right : List Series) :
    s.run (left ++ right) = do return (← s.run left) ++ (← s.run right) := by
  obtain ⟨hbinary, hglobal⟩ := h
  cases s with
  | head limit => cases hglobal
  | summarize d => exact List.mapM_append
  | scale factor => simp [run, pure, Except.pure]
  | scaleToSeconds seconds => simp [run, pure, Except.pure]
  | arithmetic a => cases hbinary
  | union right => cases hbinary

/-- A local stage gives nothing for nothing. -/
theorem run_nil {s : Stage} (h : s.IsLocal) : s.run [] = .ok [] := by
  obtain ⟨hbinary, hglobal⟩ := h
  cases s with
  | head limit => cases hglobal
  | summarize d => rfl
  | scale factor => rfl
  | scaleToSeconds seconds => rfl
  | arithmetic a => cases hbinary
  | union right => cases hbinary

/-- Local stages give nothing for nothing. -/
theorem runAll_nil_input {stages : List Stage} (h : ∀ s ∈ stages, s.IsLocal) :
    runAll stages [] = .ok [] := by
  induction stages with
  | nil => rfl
  | cons s stages ih =>
    rw [runAll_cons, run_nil (h s List.mem_cons_self), ok_bind]
    exact ih fun t ht => h t (List.mem_cons_of_mem s ht)

/-- **Local stages commute with `++`**: on two lists in a row they succeed exactly if they do on
    each, and give the two results in a row.  The induction is on the stages; the two halves stay
    apart from the first stage on. -/
theorem runAll_append_input {stages : List Stage} (h : ∀ s ∈ stages, s.IsLocal)
    {left right output : List Series} :
    runAll stages (left ++ right) = .ok output ↔
      ∃ x y, runAll stages left = .ok x ∧ runAll stages right = .ok y ∧ output = x ++ y := by
  induction stages generalizing left right with
  | nil =>
    constructor
    · intro hrun
      exact ⟨left, right, rfl, rfl, (Except.ok.inj hrun).symm⟩
    · rintro ⟨x, y, hx, hy, rfl⟩
      rw [Except.ok.inj hx, Except.ok.inj hy]
      rfl
  | cons s stages ih =>
    have ih := fun left right => @ih (fun t ht => h t (List.mem_cons_of_mem s ht)) left right
    simp only [runAll_cons, run_append (h s List.mem_cons_self)]
    cases hl : s.run left with
    | error e => simp
    | ok l =>
      cases hr : s.run right with
      | error e => simp
      | ok r => exact ih l r

/-- Local stages on any number of lists in a row succeed exactly if they do on each, and give the
    results in a row.  By induction on the lists, the first of which is split off by
    `runAll_append_input`. -/
theorem runAll_flatten {stages : List Stage} (h : ∀ s ∈ stages, s.IsLocal)
    {inputs : List (List Series)} {output : List Series} :
    runAll stages inputs.flatten = .ok output ↔
      ∃ outputs, inputs.mapM (runAll stages) = .ok outputs ∧ output = outputs.flatten := by
  induction inputs generalizing output with
  | nil =>
    rw [List.flatten_nil, runAll_nil_input h, List.mapM_nil]
    constructor
    · intro hout
      exact ⟨[], rfl, (Except.ok.inj hout).symm⟩
    · rintro ⟨outputs, hout, rfl⟩
      rw [← pure_eq_ok.mp hout]
      rfl
  | cons input inputs ih =>
    rw [List.flatten_cons, runAll_append_input h, List.mapM_cons]
    constructor
    · rintro ⟨x, y, hx, hy, rfl⟩
      obtain ⟨outputs, houts, rfl⟩ := ih.mp hy
      exact ⟨x :: outputs, by rw [hx, houts]; rfl, rfl⟩
    · rintro ⟨outputs, houts, rfl⟩
      obtain ⟨x, hx, hrest⟩ := bind_eq_ok.mp houts
      obtain ⟨ys, hys, hpure⟩ := bind_eq_ok.mp hrest
      obtain rfl := pure_eq_ok.mp hpure
      exact ⟨x, ys.flatten, hx, ih.mpr ⟨ys, hys, rfl⟩, rfl⟩

/-! ## The cut -/

/-- What is left for the coordinator runs as it is, if all stages of the aggregation are unary. -/
theorem runStages_deferred {stages : List Stage} (h : ∀ s ∈ stages, s.isBinary = false)
    (a : Aggregation) (results : Results) (input : List Series) :
    runStages false a results (deferred stages) input = runAll (deferred stages) input :=
  runStages_eq_runAll (fun s hs => h s (List.mem_of_mem_drop hs)) a results input

/-- The stages on a shard are local, but for a `head` that may stand at their end.  By induction on
    the stages: the prefix ends before a binary stage, and after a global one. -/
theorem shardPrefix_cases (stages : List Stage) :
    (∀ s ∈ shardPrefix stages, s.IsLocal) ∨
      ∃ locals limit, shardPrefix stages = locals ++ [head limit] ∧ ∀ s ∈ locals, s.IsLocal := by
  induction stages with
  | nil => exact Or.inl fun s hs => absurd hs (List.not_mem_nil)
  | cons s stages ih =>
    unfold shardPrefix at ih ⊢
    rw [shardPrefixLength]
    cases hbinary : s.isBinary with
    | true => exact Or.inl fun t ht => absurd ht (List.not_mem_nil)
    | false =>
      cases hglobal : s.isGlobal with
      | true =>
        -- Of the kinds of stages, only `head` is global.
        cases s with
        | head limit => exact Or.inr ⟨[], limit, rfl, fun t ht => absurd ht (List.not_mem_nil)⟩
        | _ => cases hglobal
      | false =>
        have hs : s.IsLocal := ⟨hbinary, hglobal⟩
        rcases ih with hlocal | ⟨locals, limit, heq, hlocal⟩
        · refine Or.inl fun t ht => ?_
          rcases List.mem_cons.mp ht with rfl | ht
          · exact hs
          · exact hlocal t ht
        · refine Or.inr ⟨s :: locals, limit, congrArg (s :: ·) heq, fun t ht => ?_⟩
          rcases List.mem_cons.mp ht with rfl | ht
          · exact hs
          · exact hlocal t ht

/-- No stage on a shard is binary. -/
theorem unary_of_mem_shardPrefix {s : Stage} {stages : List Stage} (h : s ∈ shardPrefix stages) :
    s.isBinary = false := by
  rcases shardPrefix_cases stages with hlocal | ⟨locals, limit, heq, hlocal⟩
  · exact (hlocal s h).1
  · rw [heq] at h
    rcases List.mem_append.mp h with h | h
    · exact (hlocal s h).1
    · rw [List.mem_singleton.mp h]
      rfl

/-- The stages on a shard run as they are. -/
theorem runStages_shardPrefix (stages : List Stage) (a : Aggregation) (results : Results)
    (input : List Series) :
    runStages false a results (shardPrefix stages) input = runAll (shardPrefix stages) input :=
  runStages_eq_runAll (fun _ => unary_of_mem_shardPrefix) a results input

/-- Where the stages on a shard have run through, they have run as they are. -/
theorem runAll_of_runStages {stages : List Stage} {cancelled : Bool} {a : Aggregation}
    {results : Results} {input output : List Series}
    (h : runStages cancelled a results (shardPrefix stages) input = .ok output) :
    runAll (shardPrefix stages) input = .ok output := by
  rw [← runStages_shardPrefix stages a results]
  exact runStages_of_ok h

/-- Stages that end with `head` are those before it, cut to the limit. -/
theorem runAll_append_head (locals : List Stage) (limit : UInt64) :
    runAll (locals ++ [head limit]) =
      fun input => List.take limit.toNat <$> runAll locals input := by
  funext input
  rw [runAll_append]
  cases runAll locals input with
  | error e => rfl
  | ok output => rfl

/-- Nothing on the shards gives nothing. -/
theorem runAll_shardPrefix_nil (stages : List Stage) : runAll (shardPrefix stages) [] = .ok [] := by
  rcases shardPrefix_cases stages with hlocal | ⟨locals, limit, heq, hlocal⟩
  · exact runAll_nil_input hlocal
  · rw [heq, runAll_append_head]
    show List.take limit.toNat <$> runAll locals [] = _
    rw [runAll_nil_input hlocal]
    show Except.ok (List.take limit.toNat []) = _
    rw [List.take_nil]

/-- The whole gets through the stages on the shards exactly if every part does. -/
theorem exists_runAll_shardPrefix_iff {stages : List Stage} {inputs : List (List Series)} :
    (∃ output, runAll (shardPrefix stages) inputs.flatten = .ok output) ↔
      ∃ outputs, inputs.mapM (runAll (shardPrefix stages)) = .ok outputs := by
  rcases shardPrefix_cases stages with hlocal | ⟨locals, limit, heq, hlocal⟩
  · constructor
    · rintro ⟨output, h⟩
      obtain ⟨outputs, houts, -⟩ := (runAll_flatten hlocal).mp h
      exact ⟨outputs, houts⟩
    · rintro ⟨outputs, h⟩
      exact ⟨outputs.flatten, (runAll_flatten hlocal).mpr ⟨outputs, h, rfl⟩⟩
  · rw [heq, runAll_append_head, mapM_map_result]
    constructor
    · rintro ⟨output, h⟩
      obtain ⟨all, hall, -⟩ := map_eq_ok.mp h
      obtain ⟨outputs, houts, -⟩ := (runAll_flatten hlocal).mp hall
      exact ⟨_, map_eq_ok.mpr ⟨outputs, houts, rfl⟩⟩
    · rintro ⟨outputs, h⟩
      obtain ⟨alls, halls, -⟩ := map_eq_ok.mp h
      have hall := (runAll_flatten hlocal).mpr ⟨alls, halls, rfl⟩
      exact ⟨_, map_eq_ok.mpr ⟨alls.flatten, hall, rfl⟩⟩

/-! ## Merging -/

/-- **Merging is exact.**  If the results handed in are those of the parts, then merging them gives
    what the stages on the shards would give on all parts in a row. -/
theorem mergePartials_eq_runAll {stages : List Stage} {inputs : List (List Series)}
    {partials : List PartialResult}
    (h : inputs.mapM (runAll (shardPrefix stages)) = .ok (partials.map PartialResult.series)) :
    mergePartials (shardPrefix stages) partials = runAll (shardPrefix stages) inputs.flatten := by
  cases partials with
  | nil =>
    obtain rfl : inputs = [] := by simpa using mapM_eq_ok.mp h
    exact (runAll_shardPrefix_nil stages).symm
  | cons first rest =>
    have hflat : (first :: rest).flatMap PartialResult.series =
        ((first :: rest).map PartialResult.series).flatten := List.flatMap_def
    rcases shardPrefix_cases stages with hlocal | ⟨locals, limit, heq, hlocal⟩
    · rw [(runAll_flatten hlocal).mpr ⟨_, h, hflat⟩]
      unfold mergePartials
      rw [if_neg (by simp)]
      cases hlast : (shardPrefix stages).getLast? with
      | none => rfl
      | some last =>
        -- The last stage is local, so nothing is reduced, and the results are only joined.
        have hglobal := (hlocal last (List.mem_of_getLast? hlast)).2
        simp only [hglobal, Bool.false_eq_true, if_false]
    · rw [heq, runAll_append_head, mapM_map_result] at h
      obtain ⟨outputs, houts, hcut⟩ := map_eq_ok.mp h
      rw [heq, runAll_append_head]
      show _ = List.take limit.toNat <$> runAll locals inputs.flatten
      rw [(runAll_flatten hlocal).mpr ⟨outputs, houts, rfl⟩]
      -- The last stage is `head`, whose reduction cuts once more.
      obtain ⟨reduced, hreduced⟩ := exists_reduce_head limit (List.cons_ne_nil first rest)
      unfold mergePartials
      rw [if_neg (by simp), List.getLast?_concat]
      show PartialResult.series <$> (head limit).reduce (first :: rest) = _
      rw [hreduced]
      show Except.ok reduced.series = _
      rw [(reduce_head_eq_ok.mp hreduced).1, hflat, ← hcut,
        take_flatten_map_take outputs (Nat.le_refl _)]
      rfl

end SeriesQuery.Stage
