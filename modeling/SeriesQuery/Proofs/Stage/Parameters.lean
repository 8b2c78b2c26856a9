/-
  Parameters of stages that are read as they were written: counts, lists of texts, operators.

  Summaries are not among them: what a name is read as may have another name (`median` and `p50` are
  one summary), and some names are read as nothing.  `Summary.Named` lists the outcomes that reading
  a name can have.
-/
import SeriesQuery.Proofs.Sequencing
import SeriesQuery.Stage.Arguments

namespace SeriesQuery

/-- A count that is written as an integer is read as that count. -/
theorem Json.int64?_ofInt64 (n : Int64) : (Json.ofInt64 n).int64? = some n := by
  -- integers in a document go up to the unsigned end of the range, so that the reader has to ask
  show (if n.toInt ≤ Int64.maxValue.toInt then some (Int64.ofInt n.toInt) else none) = some n
  have hmax : n.toInt ≤ Int64.maxValue.toInt := n.toInt_le
  rw [if_pos hmax, Int64.ofInt_toInt]

/-- Texts that are written as a list are read as those texts, in their order. -/
theorem Json.strings?_ofStrings (texts : List String) :
    (Json.ofStrings texts).strings? = some texts := by
  show (texts.map Json.string).mapM Json.string? = some texts
  induction texts with
  | nil => rfl
  | cons text rest ih =>
    rw [List.map_cons, List.mapM_cons, ih]
    rfl

/-- Every operator is found by its name. -/
theorem Operator.parse?_name (operator : Operator) :
    Operator.parse? operator.name = .ok operator := by
  cases operator
  all_goals rfl

/-! ## Names of summaries -/

namespace Summary

/-- What a name can be read as. -/
inductive Named : Except Error Summary → Prop
  | plain (s : Summary) (h : ∀ p, s ≠ percentile p) : Named (.ok s)
  | percentile (p : Float)
    (h : p = 50.0 ∨ ∃ cs, isDecimal cs = true ∧ Decimal.float? cs = some p) :
    Named (percentile? p)
  | unknown (c : Invalid) : Named (.error (.invalid c))

/-- **What a name is read as**: a summary without a parameter, a percentile whose number has been
    read or is that of the median, or nothing.  Later proofs go by these cases and not by the
    names. -/
theorem named_parse? (name : String) : Named (parse? name) := by
  -- one case for each row of the table of names
  unfold parse?
  dsimp only
  split
  -- the median
  case h_10 => exact .percentile 50.0 (.inl rfl)
  -- a `p` and a number behind it, which may still be malformed
  case h_11 cs _ =>
    split
    case isTrue hdecimal =>
      cases hread : Decimal.float? cs with
      | none => exact .unknown _
      | some p => exact .percentile p (.inr ⟨cs, hdecimal, hread⟩)
    case isFalse => exact .unknown _
  case h_12 => exact .unknown _
  all_goals exact .plain _ fun p h => by cases h

/-- A percentile has to be between the ends of the range, both included. -/
theorem percentile?_eq_ok {p : Float} {s : Summary} :
    percentile? p = .ok s ↔ (0.0 ≤ p ∧ p ≤ 100.0) ∧ percentile p = s := by
  unfold percentile?
  split
  case isTrue h => simp [h]
  case isFalse h => simp [h]

end Summary

end SeriesQuery
