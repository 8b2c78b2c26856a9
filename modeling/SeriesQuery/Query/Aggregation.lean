/-
  Aggregations: the named parts of a query, and what each of them reads.

  An unfold aggregation starts from the series that the shards fetch under its name.  A coordinator
  aggregation starts from the result of another aggregation.  It refers to others by roles that it
  declares, or directly by name.
-/
import SeriesQuery.Stage.Basic

namespace SeriesQuery

/-- Where an aggregation gets its series from. -/
inductive Source
  /-- From the shards. -/
  | shards
  /-- From the aggregation that `input` refers to; `references` gives roles their names. -/
  | aggregation (references : List (String × String)) (input : String)
  deriving Repr, DecidableEq

/-- A named list of stages with a source. -/
structure Aggregation where
  name : String
  stages : List Stage
  source : Source
  deriving Repr, DecidableEq

namespace Aggregation

/-- Whether the aggregation works on the results of others. -/
def isCoordinator (a : Aggregation) : Bool :=
  match a.source with
  | .shards => false
  | .aggregation _ _ => true

/-- The roles that the aggregation declares, with the names behind them. -/
def references (a : Aggregation) : List (String × String) :=
  match a.source with
  | .shards => []
  | .aggregation references _ => references

/-- The name behind a reference: that of the role if it is one, else the reference itself. -/
def resolve (a : Aggregation) (reference : String) : String :=
  (a.references.lookup reference).getD reference

/-- The names behind all roles. -/
def referenced (a : Aggregation) : List String :=
  a.references.map Prod.snd

/-- The right operands of the binary stages. -/
def operands (a : Aggregation) : List String :=
  (a.stages.filterMap Stage.right?).map a.resolve

/-- Every name that the aggregation reads: behind its roles, as its input, and as operands. -/
def reads (a : Aggregation) : List String :=
  match a.source with
  | .shards => []
  | .aggregation _ input => a.referenced ++ a.resolve input :: a.operands

/-- The first binary stage. -/
def binaryStage? (a : Aggregation) : Option Stage :=
  a.stages.find? Stage.isBinary

end Aggregation
end SeriesQuery
