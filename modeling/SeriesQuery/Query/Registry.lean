/-
  The registry of a query's aggregations, and the two questions that are asked of it.

  `final` finds the aggregation whose result is the answer to the query: the one coordinator
  aggregation that no other one references, or, if there are none, the only unfold aggregation.
  `order` finds an order in which the coordinator aggregations can be evaluated: each follows
  everything that it reads, and wherever several could be next, the one with the least name is.
-/
import SeriesQuery.Query.Aggregation

namespace SeriesQuery

/-- Names in ascending order of code points. -/
def ascendingNames (names : List String) : List String :=
  names.mergeSort fun a b => !(b < a : Bool)

/-- The aggregations of a query, in the order in which they were registered. -/
structure Registry where
  aggregations : List Aggregation := []
  deriving Repr, DecidableEq

namespace Registry

/-- The aggregation with a name. -/
def find? (r : Registry) (name : String) : Option Aggregation :=
  r.aggregations.find? fun a => a.name == name

/-- The aggregations that start on shards. -/
def unfolds (r : Registry) : List Aggregation :=
  r.aggregations.filter fun a => !a.isCoordinator

/-- The aggregations that work on the results of others. -/
def coordinators (r : Registry) : List Aggregation :=
  r.aggregations.filter Aggregation.isCoordinator

/-- Adds an aggregation.  Its name has to be new, and on shards there are no binary stages. -/
def register (r : Registry) (a : Aggregation) : Except Error Registry :=
  if (r.find? a.name).isSome then .error (.invalid (.nameTaken a.name))
  else match a.isCoordinator, a.binaryStage? with
    | false, some stage => .error (.invalid (.binaryInUnfold a.name stage.name))
    | _, _ => .ok ⟨r.aggregations ++ [a]⟩

/-- Adds several aggregations, one after the other. -/
def registerAll (r : Registry) (aggregations : List Aggregation) : Except Error Registry :=
  aggregations.foldlM register r

/-! ## The answer to the query -/

/-- The names of the coordinator aggregations that no coordinator aggregation references. -/
def unreferenced (r : Registry) : List String :=
  let referenced := r.coordinators.flatMap Aggregation.referenced
  (r.coordinators.map Aggregation.name).filter fun name => !referenced.contains name

/-- The name of the aggregation whose result is the answer. -/
def final (r : Registry) : Except Error String :=
  match r.coordinators with
  | [] =>
    match r.unfolds with
    | [only] => .ok only.name
    | unfolds => .error (.aggregationCount unfolds.length)
  | _ :: _ =>
    match ascendingNames r.unreferenced with
    | [] => .error .everyAggregationReferenced
    | [name] => .ok name
    | names => .error (.disconnected names)

/-! ## The order of evaluation -/

/-- The least name that an aggregation reads and nothing is registered under. -/
def unknownRead? (r : Registry) (a : Aggregation) : Option String :=
  (ascendingNames a.reads).find? fun name => (r.find? name).isNone

/-- Whether an aggregation reads none of the pending ones. -/
def isReady (pending : List Aggregation) (a : Aggregation) : Bool :=
  a.reads.all fun name => !(pending.map Aggregation.name).contains name

/-- Takes the first aggregation that is ready, and so on until none is left.  `fuel` bounds the
    number of turns. -/
def schedule : (fuel : Nat) → (pending : List Aggregation) → Except Error (List Aggregation)
  | 0, _ => .ok []
  | fuel + 1, pending =>
    match pending.find? (isReady pending) with
    | some a => do return a :: (← schedule fuel (pending.filter fun b => b.name ≠ a.name))
    | none =>
      if pending.isEmpty then .ok [] else .error (.circular (pending.map Aggregation.name))

/-- The coordinator aggregations in ascending order of names. -/
def byName (r : Registry) : List Aggregation :=
  r.coordinators.mergeSort fun a b => !(b.name < a.name : Bool)

/-- The coordinator aggregations in the order in which they can be evaluated. -/
def order (r : Registry) : Except Error (List Aggregation) :=
  match r.coordinators.findSome? r.unknownRead? with
  | some name => .error (.unknownAggregation name)
  | none => schedule r.coordinators.length r.byName

end Registry
end SeriesQuery
