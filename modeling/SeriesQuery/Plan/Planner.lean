/-
  Drawing up plans from function calls.

  A planner numbers the nodes that it makes, from zero on.  A call that is refused takes no number.
  The count is kept when something fails, so in a pipeline that is refused the functions before the
  faulty one have taken theirs.
-/
import SeriesQuery.Plan.Call
import SeriesQuery.Plan.Node

namespace SeriesQuery

/-- A computation that may draw numbers and may fail. -/
abbrev Planner := ExceptT Error (StateM Nat)

namespace Planner

/-- The next number. -/
def fresh : Planner Nat := do
  let id ← getThe Nat
  set (id + 1)
  return id

/-- A node without inputs. -/
def node (step : PlanStep) : Planner PlanNode := do
  return .mk (← fresh) step []

end Planner

/-! ## Steps from calls -/

namespace PlanStep

/-- `fetch` with the words of a query. -/
def fetchOf (c : Call) : Except Error PlanStep := do
  let words ← c.texts (.argumentsNotValues "fetch")
  if words.isEmpty then .error (.invalid .queryMissing)
  else return fetch (String.intercalate " " words)

/-- `head` with a limit or without one. -/
def headOf (c : Call) : Except Error PlanStep :=
  match c.arguments with
  | [] => .ok (apply (.head Stage.defaultLimit))
  | [a] => do
    let text ← a.text .headArgumentNotValue
    match Decimal.int32? text.toList with
    | none => .error (.invalid (.headLimitNotInteger text))
    | some n =>
      if n ≤ 0 then .error (.invalid (.headLimitNotPositive n))
      else return apply (.head (UInt64.ofNat n.toNat))
  | _ => .error (.invalid .headArgumentCount)

/-- `summarize` with an interval, and perhaps a summary and an alignment. -/
def summarizeOf (c : Call) : Except Error PlanStep := do
  let texts ← c.texts (.argumentsNotValues "summarize")
  let (interval, name, alignment) ← match texts with
    | [i] => .ok (i, "sum", "false")
    | [i, f] => .ok (i, f, "false")
    | [i, f, a] => .ok (i, f, a)
    | _ => .error (.invalid .summarizeArgumentCount)
  let interval ← millis? interval
  if interval ≤ 0 then .error (.invalid (.summarizeIntervalNotPositive interval))
  else
    let summary ← Summary.parse? name
    match alignment with
    | "true" => return apply (.summarize { interval, summary, alignToStart := true })
    | "false" => return apply (.summarize { interval, summary, alignToStart := false })
    | _ => .error (.invalid (.alignmentNotBoolean alignment))

/-- A number, with blanks around it allowed. -/
def numberOf (what text : String) : Except Error Float :=
  match Decimal.float? (Text.trim text.toList) with
  | some x => .ok x
  | none => .error (.invalid (.valueNotNumber what text))

/-- `scale` with a factor. -/
def scaleOf (c : Call) : Except Error PlanStep := do
  return apply (.scale (← numberOf "scale factor" (← c.onlyText "scale")))

/-- `scaleToSeconds` with a number of seconds. -/
def scaleToSecondsOf (c : Call) : Except Error PlanStep := do
  let text ← c.onlyText "scaleToSeconds"
  return apply (.scaleToSeconds (← numberOf "scaleToSeconds argument" text))

/-- An operator with its right operand, and perhaps keys to match on. -/
def arithmeticOf (c : Call) : Except Error PlanStep := do
  let operator ← Operator.parse? c.function
  match ← c.texts (.argumentsNotValues c.function) with
  | [] => .error (.invalid (.operandMissing c.function))
  | right :: labels =>
    return apply (.arithmetic { operator, right, labels, keepUnmatched := false })

/-- `union` with its right operand. -/
def unionOf (c : Call) : Except Error PlanStep := do
  return apply (.union (← c.onlyText "union"))

/-- The step of a call. -/
def ofCall (c : Call) : Except Error PlanStep :=
  match c.function with
  | "fetch" => fetchOf c
  | "head" => headOf c
  | "summarize" => summarizeOf c
  | "scale" => scaleOf c
  | "scaleToSeconds" => scaleToSecondsOf c
  | "add" | "subtract" | "multiply" | "divide" => arithmeticOf c
  | "union" => unionOf c
  | name => .error (.invalid (.unknownFunction name))

end PlanStep

/-! ## Nodes from calls -/

namespace Planner

/-- The node of a step that was read from a call, if it could be. -/
def nodeOf (step : Except Error PlanStep) : Planner PlanNode := do
  node (← (step : Except Error PlanStep))

/-- Nodes in a chain: each takes the one before it as its input. -/
def chain (current : PlanNode) : List Call → Planner PlanNode
  | [] => return current
  | c :: rest => do
    let next ← nodeOf (PlanStep.ofCall c)
    chain (next.addInput current) rest

/-- The last node of a pipeline. -/
def pipeline : List Call → Planner PlanNode
  | [] => throw (.invalid .pipelineEmpty)
  | c :: rest => do
    let first ← nodeOf (PlanStep.ofCall c)
    chain first rest

end Planner
end SeriesQuery
