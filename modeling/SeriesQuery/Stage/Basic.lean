/-
  Stages: the steps of a pipeline, each from a list of series to a list of series.

  A unary stage takes one list.  A binary stage takes a second one, the result of another
  aggregation, to which it holds a reference.  Where a stage may run follows from its kind:

  * binary stages run at the coordinator only, where all results are at hand;
  * `head` runs on every shard and once more over the shards' results, which `reduce` combines;
  * all others run on a shard as well as at the coordinator.

  `shardPrefix` cuts a list of stages accordingly.
-/
import SeriesQuery.Json.Basic
import SeriesQuery.Stage.Arithmetic
import SeriesQuery.Stage.Downsampling

namespace SeriesQuery

/-- A step of a pipeline, with its parameters. -/
inductive Stage
  /-- The first so many series. -/
  | head (limit : UInt64)
  | summarize (d : Downsampling)
  /-- Every value times a factor. -/
  | scale (factor : Float)
  /-- Values per step turned into values per so many seconds. -/
  | scaleToSeconds (seconds : Float)
  | arithmetic (a : Arithmetic)
  /-- All series of both lists. -/
  | union (right : String)
  deriving Repr, DecidableEq

/-- Equality of parameters, floats compared by `sameNumber`. -/
instance : BEq Stage where
  beq
    | .head m, .head n => m == n
    | .summarize d, .summarize e => d == e
    | .scale x, .scale y => sameNumber x y
    | .scaleToSeconds x, .scaleToSeconds y => sameNumber x y
    | .arithmetic a, .arithmetic b => decide (a = b)
    | .union q, .union r => q == r
    | _, _ => false

/-- A list of series on its way to the coordinator, with the name of its aggregation. -/
structure PartialResult where
  name : String
  series : List Series
  metadata : Json.Members

namespace Stage

/-- The limit of `head` when none is given. -/
def defaultLimit : UInt64 := 10

/-! ## Kinds -/

def name : Stage → String
  | head _ => "head"
  | summarize _ => "summarize"
  | scale _ => "scale"
  | scaleToSeconds _ => "scaleToSeconds"
  | arithmetic _ => "arithmetic"
  | union _ => "union"

/-- The reference to the aggregation on the right, which binary stages have. -/
def right? : Stage → Option String
  | arithmetic a => some a.right
  | union right => some right
  | _ => none

/-- Whether the stage takes two lists, and so has to run at the coordinator. -/
def isBinary (s : Stage) : Bool := s.right?.isSome

/-- Whether the results of several shards have to be reduced to one. -/
def isGlobal : Stage → Bool
  | head _ => true
  | _ => false

/-! ## Parameters -/

/-- Refuses parameters that are out of range. -/
def validate : Stage → Except Error Unit
  | head limit => if limit = 0 then .error (.invalid (.limitNotPositive 0)) else .ok ()
  | summarize d => d.validate
  | scale factor =>
    if factor.isFinite then .ok () else .error (.invalid (.factorNotFinite factor))
  | scaleToSeconds seconds =>
    if seconds.isFinite ∧ 0.0 < seconds then .ok ()
    else .error (.invalid (.secondsNotPositive seconds))
  | arithmetic a => if a.right = "" then .error (.invalid .referenceEmpty) else .ok ()
  | union right => if right = "" then .error (.invalid .referenceEmpty) else .ok ()

/-- The stage itself, if its parameters are in range. -/
def checked (s : Stage) : Except Error Stage := do
  s.validate
  return s

/-- The first `limit` series, for a limit that is positive. -/
def head? (limit : Int64) : Except Error Stage :=
  if limit ≤ 0 then .error (.invalid (.limitNotPositive limit)) else .ok (head limit.toUInt64)

/-! ## Running -/

/-- What the stage makes of one list of series. -/
def run (s : Stage) (input : List Series) : Except Error (List Series) :=
  match s with
  | head limit => .ok (input.take limit.toNat)
  | summarize d => input.mapM d.apply
  | scale factor => .ok (input.map (Series.mapValues (· * factor)))
  | scaleToSeconds seconds =>
    .ok (input.map fun x => x.mapValues (· * (seconds * 1000.0 / Float.ofInt x.step.toInt)))
  | arithmetic _ | union _ => .error (.unsupported (.needsTwoInputs s.name))

/-- The series of both operands, none of which may be absent. -/
def unite (left right : Option (List Series)) : Except Error (List Series) :=
  match left, right with
  | none, _ => .error (.operandAbsent "union" .left)
  | some _, none => .error (.operandAbsent "union" .right)
  | some left, some right => .ok (left ++ right)

/-- What the stage makes of two lists of series. -/
def runBinary (s : Stage) (left right : Option (List Series)) : Except Error (List Series) :=
  match s with
  | arithmetic a => a.projection.apply left right
  | union _ => unite left right
  | _ => .error (.unsupported (.notBinary s.name))

/-- The series of several results in turn, after those that are `taken` already, up to a limit.
    Once the limit is met, the results that are left are not looked at. -/
def takeInTurn (limit : Nat) (taken : List Series) : List PartialResult → List Series
  | [] => taken
  | p :: rest =>
    if limit ≤ taken.length then taken
    else takeInTurn limit (taken ++ p.series.take (limit - taken.length)) rest

/-- One result made of the results of several shards: for `head` the first series of all of them in
    turn, under the name and the metadata of the first result. -/
def reduce (s : Stage) (partials : List PartialResult) : Except Error PartialResult :=
  match s with
  | head limit =>
    match partials with
    | [] => .error (.invalid .noPartials)
    | first :: _ => .ok { first with series := takeInTurn limit.toNat [] partials }
  | _ => .error (.unsupported (.noReduction s.name))

/-! ## Where stages run -/

/-- How many of the stages run on a shard: all before the first binary one, and none after the first
    one whose results have to be reduced. -/
def shardPrefixLength : List Stage → Nat
  | [] => 0
  | s :: rest => if s.isBinary then 0 else if s.isGlobal then 1 else shardPrefixLength rest + 1

/-- The stages that run on a shard. -/
def shardPrefix (stages : List Stage) : List Stage :=
  stages.take (shardPrefixLength stages)

/-- The stages that are left for the coordinator. -/
def deferred (stages : List Stage) : List Stage :=
  stages.drop (shardPrefixLength stages)

/-- Every stage runs on one side of the cut, and the order is kept. -/
theorem shardPrefix_append_deferred (stages : List Stage) :
    shardPrefix stages ++ deferred stages = stages :=
  List.take_append_drop _ stages

theorem shardPrefixLength_le (stages : List Stage) :
    shardPrefixLength stages ≤ stages.length := by
  induction stages with
  | nil => exact Nat.le_refl 0
  | cons s rest ih =>
    rw [shardPrefixLength, List.length_cons]
    split
    · exact Nat.zero_le _
    · split <;> omega

end Stage
end SeriesQuery
