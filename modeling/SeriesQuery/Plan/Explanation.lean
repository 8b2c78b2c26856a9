/-
  Explaining a list of stages: which of them run on shards, and which at the coordinator.

  `Explanation.ofStages` annotates every stage; `Explanation.text` writes the result as a report
  in a box.
-/
import SeriesQuery.Json.Printer
import SeriesQuery.Stage.Arguments

namespace SeriesQuery

/-- Where a stage runs. -/
inductive Phase
  | shard
  | coordinator
  deriving Repr, DecidableEq

def Phase.name : Phase → String
  | shard => "SHARD"
  | coordinator => "COORDINATOR"

/-- A stage with its place in a plan. -/
structure ExplainedStep where
  /-- Its place, counted from one. -/
  number : Nat
  name : String
  /-- Its arguments. -/
  description : String
  phase : Phase
  /-- Whether it is a stage whose results on several shards are reduced to one. -/
  isGlobal : Bool
  /-- The reference to its right operand. -/
  right? : Option String
  deriving Repr, DecidableEq

/-- A list of stages, annotated. -/
structure Explanation where
  steps : List ExplainedStep
  /-- How many of the steps run on shards. -/
  shardSteps : Nat
  deriving Repr, DecidableEq

namespace Explanation

def ofStages (stages : List Stage) : Explanation :=
  let shardSteps := Stage.shardPrefixLength stages
  { shardSteps
    steps := stages.zipIdx.map fun (stage, i) =>
      { number := i + 1
        name := stage.name
        description := stage.explanation.text
        phase := if i < shardSteps then .shard else .coordinator
        isGlobal := stage.isGlobal
        right? := stage.right? } }

/-! ## The report -/

/-- A line of a box: its corners, and dashes or a heading between them. -/
def ruled (left : String) (middle : List Char) (right : String) : String :=
  left ++ String.ofList middle ++ right

/-- The heading of a section, in the upper edge of its box. -/
def sectionTop (heading : String) : String :=
  let lead := "─ " ++ heading ++ " "
  ruled "┌" (lead.toList ++ List.replicate (62 - lead.length) '─') "┐"

/-- The lower edge of a section's box. -/
def sectionBottom : String := ruled "└" (List.replicate 62 '─') "┘"

/-- A number at the right end of ten places. -/
def padded (n : Nat) : String :=
  let ds := Nat.toDigits 10 n
  String.ofList (List.replicate (10 - ds.length) ' ' ++ ds)

/-- The lines about one step. -/
def stepLines (s : ExplainedStep) : List String :=
  let mark := if s.isGlobal then " [GLOBAL]" else ""
  [ "│",
    s!"│ Step {s.number}: " ++ s.name ++ " [" ++ s.phase.name ++ "]" ++ mark,
    "│   " ++ s.description ] ++
    s.right?.toList.map fun right => "│   Right operand: " ++ right

/-- The report, each line ended. -/
def text (e : Explanation) : String :=
  let total := e.steps.length
  let lines :=
    [ ruled "╔" (List.replicate 63 '═') "╗",
      "║                 STAGE PLAN EXPLANATION                        ║",
      ruled "╚" (List.replicate 63 '═') "╝",
      "",
      sectionTop "SUMMARY",
      "│ Total Stages:      " ++ padded total,
      "│ Shard Stages:      " ++ padded e.shardSteps,
      "│ Coordinator Stages:" ++ padded (total - e.shardSteps),
      sectionBottom,
      "",
      sectionTop "EXECUTION STEPS" ] ++
    e.steps.flatMap stepLines ++
    [ "│", sectionBottom ]
  String.join (lines.map (· ++ "\n"))

end Explanation
end SeriesQuery
