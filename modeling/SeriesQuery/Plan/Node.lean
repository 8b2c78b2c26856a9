/-
  Plans: trees of numbered nodes, and the list of stages that a linear plan stands for.

  A node fetches series or applies a stage to what its inputs give.  The parameters of a stage are
  not checked before the plan is compiled, so a plan can be drawn up, shown and thrown away.
-/
import SeriesQuery.Stage.Basic

namespace SeriesQuery

/-- What a node of a plan does. -/
inductive PlanStep
  /-- Asks the storage for series. -/
  | fetch (query : String)
  | apply (stage : Stage)
  deriving Repr, DecidableEq

namespace PlanStep

/-- The name of a step in explanations. -/
def label : PlanStep → String
  | fetch query => "FETCH(" ++ query ++ ")"
  | apply (.head limit) => s!"HEAD({limit})"
  | apply (.summarize d) =>
    s!"SUMMARIZE({d.interval}, " ++ d.summary.name ++ s!", {d.alignToStart})"
  | apply (.scale factor) => "SCALE(" ++ Decimal.fixedSix factor ++ ")"
  | apply (.scaleToSeconds seconds) => "SCALE_TO_SECONDS(" ++ Decimal.fixedSix seconds ++ ")"
  | apply (.arithmetic a) => "BINARY(" ++ a.operator.name ++ ", " ++ a.right ++ ")"
  | apply (.union right) => "UNION(" ++ right ++ ")"

/-- The stage of a step, its parameters checked.  A fetch has none, since the storage has done it
    when stages run; a limit has to be a signed number. -/
def stage? : PlanStep → Except Error (Option Stage)
  | fetch _ => .ok none
  | apply (.head limit) =>
    if limit ≤ Int64.maxValue.toUInt64 then some <$> Stage.head? limit.toInt64
    else .error (.invalid (.limitTooLarge limit))
  | apply stage => some <$> stage.checked

end PlanStep

/-- A node of a plan, with the nodes whose results it takes. -/
inductive PlanNode
  | mk (id : Nat) (step : PlanStep) (inputs : List PlanNode)
  deriving Repr

namespace PlanNode

def id : PlanNode → Nat
  | mk id _ _ => id

def step : PlanNode → PlanStep
  | mk _ step _ => step

def inputs : PlanNode → List PlanNode
  | mk _ _ inputs => inputs

/-- The node with one more input. -/
def addInput : PlanNode → PlanNode → PlanNode
  | mk id step inputs, input => mk id step (inputs ++ [input])

mutual

/-- All nodes of a tree, each before its inputs, with their depths. -/
def preorder (depth : Nat) : PlanNode → List (Nat × PlanNode)
  | mk id step inputs => (depth, mk id step inputs) :: preorderAll (depth + 1) inputs

/-- All nodes of several trees. -/
def preorderAll (depth : Nat) : List PlanNode → List (Nat × PlanNode)
  | [] => []
  | node :: rest => preorder depth node ++ preorderAll depth rest

end

/-- The stages of a linear plan in the order in which they run, which starts at the far end.  A node
    with several inputs is refused before anything below it is looked at. -/
def stages? : PlanNode → Except Error (List Stage)
  | mk _ step [] => do return (← step.stage?).toList
  | mk _ step [input] => do return (← input.stages?) ++ (← step.stage?).toList
  | mk id step inputs => .error (.unsupported (.branching step.label id inputs.length))

end PlanNode
end SeriesQuery
