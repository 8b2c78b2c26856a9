/-
  One accumulator for one bucket after another.

  An accumulator is given values and is reset, in any order and any number of times (`Event`).  It
  is to go on after a reset as a new one would.  This is shown of the whole state and not of the
  results alone: after any events the state is that of a new accumulator which was given the values
  since the last reset and nothing else (`run_accumulator`).  A reset is the only step at which
  there is something to show, since all that a state keeps through it is which function it belongs
  to, and adding values does not change that (`reset_addAll`).
-/
import Mathlib.Data.List.Induction
import SeriesQuery.Summary.Accumulator

namespace SeriesQuery

/-! ## Adding and resetting -/

namespace Accumulator

/-- A value that is added is data. -/
theorem hasData_add (x : Float) (a : Accumulator) : (a.add x).hasData = true := by
  cases a with
  | min least => cases least <;> rfl
  | max greatest => cases greatest <;> rfl
  | sum total seen => rfl
  | avg total count => exact decide_eq_true (Nat.succ_pos count)
  | last value => rfl
  | stdDev count mean squares => exact decide_eq_true (Nat.succ_pos count)
  | percentile p values => rfl

/-- Adding one more value is adding it last. -/
theorem addAll_append (xs : List Float) (x : Float) (a : Accumulator) :
    a.addAll (xs ++ [x]) = (a.addAll xs).add x := by
  unfold addAll
  rw [List.foldl_append]
  rfl

/-- What was added is forgotten. -/
theorem reset_add (x : Float) (a : Accumulator) : (a.add x).reset = a.reset := by
  cases a with
  | min least => cases least <;> rfl
  | max greatest => cases greatest <;> rfl
  | _ => rfl

/-- However many were added, all of them are forgotten. -/
theorem reset_addAll (xs : List Float) (a : Accumulator) : (a.addAll xs).reset = a.reset := by
  induction xs generalizing a with
  | nil => rfl
  | cons x xs ih => exact (ih (a.add x)).trans (reset_add x a)

end Accumulator

namespace Summary

/-- A new accumulator has no data. -/
theorem hasData_accumulator (s : Summary) : s.accumulator.hasData = false := by
  cases s
  all_goals rfl

/-- A new accumulator has nothing to forget. -/
theorem reset_accumulator (s : Summary) : s.accumulator.reset = s.accumulator := by
  cases s
  all_goals rfl

/-- An accumulator has data exactly if it was given any. -/
theorem hasData_addAll (s : Summary) (xs : List Float) :
    (s.accumulator.addAll xs).hasData = true ↔ xs ≠ [] := by
  rcases List.eq_nil_or_concat xs with rfl | ⟨ys, y, rfl⟩
  · simp [Accumulator.addAll, s.hasData_accumulator]
  · rw [List.concat_eq_append, Accumulator.addAll_append, Accumulator.hasData_add]
    simp

/-- Nothing is summed up to "not a number". -/
theorem of_nil (s : Summary) : s.of [] = Binary64.notANumber := by
  cases s
  all_goals rfl

end Summary

/-! ## Events -/

namespace Accumulator

/-- What happens to an accumulator: it is given a value, or it is reset. -/
inductive Event
  | value (x : Float)
  | reset
  deriving Repr, DecidableEq

/-- The state after an event. -/
def after (a : Accumulator) : Event → Accumulator
  | .value x => a.add x
  | .reset => a.reset

/-- The state after events, in their order. -/
def run (events : List Event) (a : Accumulator) : Accumulator := events.foldl after a

/-- The values that an event leaves of those before it. -/
def keptBy (values : List Float) : Event → List Float
  | .value x => values ++ [x]
  | .reset => []

/-- The values since the last reset. -/
def sinceReset (events : List Event) : List Float := events.foldl keptBy []

variable {events : List Event}

/-- A further event changes the values since the last reset by what it is. -/
theorem sinceReset_concat (events : List Event) (event : Event) :
    sinceReset (events ++ [event]) = keptBy (sinceReset events) event := by
  unfold sinceReset
  rw [List.foldl_append]
  rfl

/-- The events end with these values, and before them there is a reset or nothing. -/
theorem eq_append_sinceReset (events : List Event) :
    events = (sinceReset events).map .value ∨
      ∃ earlier, events = earlier ++ .reset :: (sinceReset events).map .value := by
  -- Induction from the end, where the last event decides what is left of the others.
  induction events using List.reverseRecOn with
  | nil => exact .inl rfl
  | append_singleton events event ih =>
    rw [sinceReset_concat]
    cases event with
    | reset => exact .inr ⟨events, rfl⟩
    | value x =>
      have hlast : (keptBy (sinceReset events) (.value x)).map Event.value =
          (sinceReset events).map .value ++ [.value x] := List.map_append
      rw [hlast]
      -- the value joins those since the last reset, be there such a reset or not
      rcases ih with hall | ⟨earlier, hsplit⟩
      · exact .inl (congrArg (· ++ [.value x]) hall)
      · refine .inr ⟨earlier, ?_⟩
        rw [← List.cons_append, ← List.append_assoc, ← hsplit]

/-- **The state is that of a new accumulator** which was given the values since the last reset. -/
theorem run_accumulator (s : Summary) (events : List Event) :
    s.accumulator.run events = s.accumulator.addAll (sinceReset events) := by
  induction events using List.reverseRecOn with
  | nil => rfl
  | append_singleton events event ih =>
    have hstep : s.accumulator.run (events ++ [event]) =
        (s.accumulator.run events).after event := by
      unfold run
      rw [List.foldl_append]
      rfl
    rw [hstep, ih, sinceReset_concat]
    cases event with
    | value x => exact (addAll_append _ x _).symm
    | reset => exact (reset_addAll _ _).trans s.reset_accumulator

end Accumulator

/-- **A reused accumulator behaves like a new one.**  After any events, it has data exactly if a
    value came after the last reset, and its result is the summary of the values since then; of no
    values this is "not a number".  The beginning of a list of events is one as well, so this holds
    at every step on the way. -/
theorem Summary.run_reused (s : Summary) (events : List Accumulator.Event) :
    let values := Accumulator.sinceReset events
    (events = values.map .value ∨ ∃ earlier, events = earlier ++ .reset :: values.map .value) ∧
      s.accumulator.run events = s.accumulator.addAll values ∧
      ((s.accumulator.run events).hasData = true ↔ values ≠ []) ∧
      (s.accumulator.run events).result = s.of values ∧
      s.of [] = Binary64.notANumber := by
  intro values
  have hstate := Accumulator.run_accumulator s events
  refine ⟨Accumulator.eq_append_sinceReset events, hstate, ?_, ?_, s.of_nil⟩
  · rw [hstate]
    exact s.hasData_addAll values
  · rw [hstate]
    rfl

/-- A mean that was reset: the hundred before it does not count. -/
example : let mean := Summary.avg.accumulator.run [.value 100.0, .reset, .value 2.0, .value 3.0]
    mean.hasData = true ∧ mean.result = 2.5 := by decide +kernel

end SeriesQuery
