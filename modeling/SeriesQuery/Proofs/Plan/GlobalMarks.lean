/-
  Which steps of an explanation stand for a reduction.

  A step is marked as global if its stage is, which only `head` is.  What shards hand in is reduced
  once at most, through the last stage that they have run (`ReducesThrough`).  The two agree on the
  shards, since a global stage ends the part of the stages that runs there
  (`next_of_isGlobal_of_lt`).  They differ at the coordinator, where a further `head` is marked and
  merely takes the first series of one list (`deferred_head_marked`).
-/
import SeriesQuery.Plan.Explanation
import SeriesQuery.Query.Execution

namespace SeriesQuery

variable {stages : List Stage} {i : Nat}

/-! ## Reductions

What is handed in is reduced in one place, and only if the last stage on the shards asks for it. -/

/-- What shards hand in is reduced through the stage at a place: it is the last one that they run,
    and to merge their results is to reduce them by it. -/
def ReducesThrough (stages : List Stage) (i : Nat) : Prop :=
  i + 1 = Stage.shardPrefixLength stages ∧ ∃ s, stages[i]? = some s ∧
    ∀ partials, partials ≠ [] →
      mergePartials (Stage.shardPrefix stages) partials = PartialResult.series <$> s.reduce partials

/-- Results are merged in the way that the last stage on the shards asks for. -/
theorem mergePartials_of_getLast? {s : Stage} (h : stages.getLast? = some s)
    {partials : List PartialResult} (hsome : partials ≠ []) :
    mergePartials stages partials =
      if s.isGlobal then PartialResult.series <$> s.reduce partials
      else .ok (partials.flatMap PartialResult.series) := by
  have hempty : ¬partials.isEmpty = true := by
    rw [List.isEmpty_iff]
    exact hsome
  unfold mergePartials
  rw [if_neg hempty, h]

theorem getLast?_shardPrefix (h : i + 1 = Stage.shardPrefixLength stages) :
    (Stage.shardPrefix stages).getLast? = stages[i]? := by
  have hlt : i < stages.length := by
    have hle := Stage.shardPrefixLength_le stages
    omega
  rw [Stage.shardPrefix, ← h, List.getLast?_take, if_neg (Nat.succ_ne_zero i), Nat.add_sub_cancel,
    List.getElem?_eq_getElem hlt]
  rfl

/-- Results are reduced through the last stage on the shards exactly if it is global. -/
theorem reducesThrough_iff :
    ReducesThrough stages i ↔
      i + 1 = Stage.shardPrefixLength stages ∧ ∃ s, stages[i]? = some s ∧ s.isGlobal = true := by
  refine and_congr_right fun hlast => exists_congr fun s => and_congr_right fun hs => ?_
  have hmerge := fun (partials : List PartialResult) =>
    @mergePartials_of_getLast? _ _ ((getLast?_shardPrefix hlast).trans hs) partials
  constructor
  · intro h
    -- A stage that is not global refuses to reduce, while merging never fails for it.
    cases hglobal : s.isGlobal with
    | true => rfl
    | false =>
      have hone := h [⟨"", [], []⟩] (List.cons_ne_nil _ _)
      rw [hmerge _ (List.cons_ne_nil _ _), hglobal] at hone
      cases s with
      | head limit => cases hglobal
      | _ => cases hone
  · intro hglobal partials hsome
    rw [hmerge partials hsome, if_pos hglobal]

/-! ## Global stages on the shards

The part of the stages that runs on the shards ends with its first global one.  So it has at most
one, at its end. -/

/-- After a global stage that runs on the shards, no other stage does.  By induction on the stages:
    the first one decides whether any other one runs there. -/
theorem next_of_isGlobal_of_lt {s : Stage} (hlt : i < Stage.shardPrefixLength stages)
    (hs : stages[i]? = some s) (hglobal : s.isGlobal = true) :
    i + 1 = Stage.shardPrefixLength stages := by
  induction stages generalizing i with
  | nil => exact absurd hlt (Nat.not_lt_zero i)
  | cons first rest ih =>
    rw [Stage.shardPrefixLength] at hlt ⊢
    by_cases hbinary : first.isBinary = true
    · rw [if_pos hbinary] at hlt
      exact absurd hlt (Nat.not_lt_zero i)
    rw [if_neg hbinary] at hlt ⊢
    by_cases hfirst : first.isGlobal = true
    · rw [if_pos hfirst] at hlt ⊢
      omega
    rw [if_neg hfirst] at hlt ⊢
    cases i with
    | zero =>
      obtain rfl := Option.some.inj hs
      exact absurd hglobal hfirst
    | succ i => exact congrArg (· + 1) (ih (Nat.lt_of_succ_lt_succ hlt) hs)

namespace Explanation

/-! ## Marks

On the shards a mark and a reduction are the same thing.  At the coordinator there are marks without
reductions, and these are all exceptions. -/

/-- The step at a place is about the stage there. -/
theorem steps_eq_some {step : ExplainedStep} (h : (ofStages stages).steps[i]? = some step) :
    ∃ s, stages[i]? = some s ∧ step.isGlobal = s.isGlobal ∧
      (step.phase = .shard ↔ i < Stage.shardPrefixLength stages) := by
  unfold ofStages at h
  rw [List.getElem?_map, List.getElem?_zipIdx, Option.map_map] at h
  obtain ⟨s, hs, rfl⟩ := Option.map_eq_some_iff.mp h
  refine ⟨s, hs, rfl, ?_⟩
  show (if 0 + i < Stage.shardPrefixLength stages then Phase.shard else .coordinator) = _ ↔ _
  rw [Nat.zero_add]
  split
  case isTrue hlt => exact iff_of_true rfl hlt
  case isFalse hge => exact iff_of_false (fun h => by cases h) hge

theorem exists_step {s : Stage} (h : stages[i]? = some s) :
    ∃ step, (ofStages stages).steps[i]? = some step := by
  unfold ofStages
  rw [List.getElem?_map, List.getElem?_zipIdx, h]
  exact ⟨_, rfl⟩

/-- Each step is marked exactly if what shards hand in is reduced through its stage. -/
def MarksReductions (stages : List Stage) : Prop :=
  ∀ i step, (ofStages stages).steps[i]? = some step →
    (step.isGlobal = true ↔ ReducesThrough stages i)

/-- What shards hand in is reduced through a stage exactly if it is marked and runs on the
    shards. -/
theorem reducesThrough_iff_marked {step : ExplainedStep}
    (h : (ofStages stages).steps[i]? = some step) :
    ReducesThrough stages i ↔ step.isGlobal = true ∧ step.phase = .shard := by
  obtain ⟨s, hs, hmark, hphase⟩ := steps_eq_some h
  rw [reducesThrough_iff, hmark, hphase]
  constructor
  · rintro ⟨hlast, s', hs', hglobal⟩
    obtain rfl := Option.some.inj (hs.symm.trans hs')
    exact ⟨hglobal, by omega⟩
  · rintro ⟨hglobal, hlt⟩
    exact ⟨next_of_isGlobal_of_lt hlt hs hglobal, s, hs, hglobal⟩

/-- Among the marked steps those on the shards stand for a reduction, and no others.  So all marks
    are right exactly if no stage is marked that is left to the coordinator, where nothing is
    reduced. -/
theorem reductions_marked (stages : List Stage) :
    (∀ i step, (ofStages stages).steps[i]? = some step →
      (ReducesThrough stages i ↔ step.isGlobal = true ∧ step.phase = .shard)) ∧
    (MarksReductions stages ↔ ∀ s ∈ Stage.deferred stages, s.isGlobal = false) := by
  refine ⟨fun i step => reducesThrough_iff_marked, ?_, ?_⟩
  · intro hmarks s hs
    obtain ⟨k, hk⟩ := List.mem_iff_getElem?.mp hs
    rw [Stage.deferred, List.getElem?_drop] at hk
    obtain ⟨step, hstep⟩ := exists_step hk
    obtain ⟨s', hs', hmark, hphase⟩ := steps_eq_some hstep
    obtain rfl := Option.some.inj (hk.symm.trans hs')
    rw [← hmark, Bool.eq_false_iff]
    intro htrue
    have hreduces := (hmarks _ _ hstep).mp htrue
    have hlt := hphase.mp ((reducesThrough_iff_marked hstep).mp hreduces).2
    omega
  · intro hnone i step hstep
    obtain ⟨s, hs, hmark, hphase⟩ := steps_eq_some hstep
    rw [reducesThrough_iff_marked hstep, hphase]
    refine ⟨fun hglobal => ⟨hglobal, ?_⟩, And.left⟩
    refine Nat.lt_of_not_ge fun hge => ?_
    have hmem : s ∈ Stage.deferred stages := by
      refine List.mem_iff_getElem?.mpr ⟨i - Stage.shardPrefixLength stages, ?_⟩
      rw [Stage.deferred, List.getElem?_drop, Nat.add_sub_cancel' hge, hs]
    rw [hmark, hnone s hmem] at hglobal
    exact Bool.false_ne_true hglobal

/-- With one `head` on the shards and none after it, the marks are right, and what the shards hand
    in is reduced through the second stage. -/
theorem reductions_marked_usage :
    ReducesThrough [.scale 2.0, .head 5, .scaleToSeconds 1.0] 1 ∧
      MarksReductions [.scale 2.0, .head 5, .scaleToSeconds 1.0] := by
  obtain ⟨hreduces, hmarks⟩ := reductions_marked [.scale 2.0, .head 5, .scaleToSeconds 1.0]
  constructor
  · exact (hreduces 1 ⟨2, "head", (Stage.head 5).explanation.text, .shard, true, none⟩ rfl).mpr
      ⟨rfl, rfl⟩
  · refine hmarks.mpr fun s hs => ?_
    obtain rfl := List.mem_singleton.mp hs
    rfl

/-- A `head` after a `head` is marked, although what the shards hand in is reduced through the first
    one and the second one gets a single list. -/
theorem deferred_head_marked :
    ¬MarksReductions [.head 3, .head 2] := by
  intro hmarks
  have hmarked := hmarks 1
    ⟨2, "head", (Stage.head 2).explanation.text, .coordinator, true, none⟩ rfl
  have hlast : 1 + 1 = Stage.shardPrefixLength [.head 3, .head 2] := (hmarked.mp rfl).1
  revert hlast
  decide

end Explanation
end SeriesQuery
