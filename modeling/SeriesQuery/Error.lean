/-
  Why an operation on series, stages, plans or aggregations fails.

  An error is a cause with the values that it is about; the wording is in the two `message`
  functions only.  `Invalid` collects everything that is wrong with an argument or a parameter,
  which is by far the largest class; `Error` has the other classes beside it.
-/
import SeriesQuery.Decimal.Format

namespace SeriesQuery

/-- The two operands of a binary stage. -/
inductive Side
  | left
  | right
  deriving Repr, DecidableEq

def Side.name : Side → String
  | .left => "left"
  | .right => "right"

/-- What is wrong with an argument or a parameter. -/
inductive Invalid
  -- Series
  | stepNotPositive (step : Int64)
  | rangeReversed (first last : Int64)
  | samplesNotAscending
  | samplesOutsideRange (firstSample lastSample first last : Int64)
  -- Names
  | unknownSummary (name : String)
  | unknownOperator (name : String)
  | unknownStage (name : String)
  | unknownFunction (name : String)
  -- Parameters of stages
  | percentileOutOfRange (p : Float)
  | limitNotPositive (limit : Int64)
  | limitTooLarge (limit : UInt64)
  | intervalNotPositive (interval : Int64)
  | factorNotFinite (factor : Float)
  | secondsNotPositive (seconds : Float)
  | referenceEmpty
  -- Arguments that stages are built from
  | argumentMissing (key : String)
  | argumentNotNumber (key : String)
  | argumentNotNumeric (key text : String)
  | argumentNotString (key : String)
  | argumentNotBoolean (key : String)
  | limitNotInteger (text : String)
  | limitOfKind (kind : String)
  | operatorMissing
  | referenceMissing
  | labelsNotStrings
  -- Series that a stage cannot take
  | intervalBelowStep (interval step : Int64)
  | bucketsOverflow (first last interval : Int64)
  | noPartials
  -- Functions of a query
  | argumentsNotValues (function : String)
  | argumentNotValue (function : String)
  | argumentCountNotOne (function : String)
  | queryMissing
  | headArgumentNotValue
  | headLimitNotInteger (text : String)
  | headLimitNotPositive (limit : Int)
  | headArgumentCount
  | summarizeArgumentCount
  | summarizeIntervalNotPositive (interval : Int64)
  | alignmentNotBoolean (text : String)
  | valueNotNumber (what text : String)
  | operandMissing (function : String)
  | durationMalformed (text : String)
  | pipelineEmpty
  -- Registration
  | nameTaken (name : String)
  | binaryInUnfold (name stage : String)
  deriving Repr, DecidableEq

namespace Invalid

/-- The wording of a wrong argument. -/
def message : Invalid → String
  | stepNotPositive step => s!"Series step must be positive, got: {step}"
  | rangeReversed first last =>
    s!"Series min timestamp ({first}) is after max timestamp ({last})"
  | samplesNotAscending => "Series samples must be strictly ascending by timestamp"
  | samplesOutsideRange a b first last =>
    s!"Series samples [{a}, {b}] fall outside declared range [{first}, {last}]"
  | unknownSummary name => "Unknown summarize function: " ++ name
  | unknownOperator name => "Unknown arithmetic operator: " ++ name
  | unknownStage name => "Unknown pipeline stage: " ++ name
  | unknownFunction name => "Unknown function: " ++ name
  | percentileOutOfRange p =>
    "Percentile must be between 0 and 100, got: " ++ Decimal.plain p
  | limitNotPositive limit => s!"Limit must be positive, got: {limit}"
  | limitTooLarge limit => s!"Limit out of range, got: {limit}"
  | intervalNotPositive interval => s!"Interval must be positive, got: {interval}"
  | factorNotFinite factor => "Scale factor must be finite, got: " ++ Decimal.plain factor
  | secondsNotPositive seconds => "seconds must be positive, got: " ++ Decimal.plain seconds
  | referenceEmpty => "right_op_reference cannot be empty"
  | argumentMissing key => key ++ " argument is required"
  | argumentNotNumber key => key ++ " must be a number"
  | argumentNotNumeric key text => key ++ " must be a number, got: " ++ text
  | argumentNotString key => key ++ " must be a string"
  | argumentNotBoolean key => key ++ " must be a boolean"
  | limitNotInteger text =>
    "Invalid type for 'limit' argument. Expected integer, but got: " ++ text
  | limitOfKind kind =>
    "Invalid type for 'limit' argument. Expected Number or String, but got " ++ kind
  | operatorMissing => "op argument is required and must be a string"
  | referenceMissing => "right_op_reference argument is required and must be a non-empty string"
  | labelsNotStrings => "labels must be a list of strings"
  | intervalBelowStep interval step =>
    s!"Summarize interval ({interval}) must be >= series resolution ({step})"
  | bucketsOverflow first last interval =>
    s!"Summarize buckets for range [{first}, {last}] with interval {interval} " ++
      "overflow the timestamp range"
  | noPartials => "Aggregations list cannot be null or empty"
  | argumentsNotValues function => function ++ " arguments must be value nodes"
  | argumentNotValue function => "Argument to " ++ function ++ " function should be a value node"
  | argumentCountNotOne function => function ++ " function expects exactly one argument"
  | queryMissing => "fetch function requires a query"
  | headArgumentNotValue => "head limit argument must be a numeric value"
  | headLimitNotInteger text => "head limit must be a valid integer, got: " ++ text
  | headLimitNotPositive limit => s!"head limit must be positive, got: {limit}"
  | headArgumentCount => "head function accepts at most 1 argument: limit"
  | summarizeArgumentCount =>
    "summarize function expects between 1 and 3 arguments: interval, function, alignToFrom"
  | summarizeIntervalNotPositive interval =>
    s!"summarize interval must be positive, got: {interval}"
  | alignmentNotBoolean text => "alignToFrom must be true or false, got: " ++ text
  | valueNotNumber what text => what ++ " must be a number, got: " ++ text
  | operandMissing function => function ++ " function requires a right operand reference"
  | durationMalformed text => "Invalid duration: " ++ text
  | pipelineEmpty => "Pipeline must contain at least one function"
  | nameTaken name => "Duplicate aggregation name: " ++ name
  | binaryInUnfold name stage =>
    "Unfold aggregation '" ++ name ++ "' cannot contain binary stage '" ++ stage ++ "'"

end Invalid

/-- Something that a stage or a plan node does not do. -/
inductive Unsupported
  /-- A binary stage was given one list. -/
  | needsTwoInputs (stage : String)
  /-- A unary stage was given two lists. -/
  | notBinary (stage : String)
  /-- The stage has no way to combine shard results. -/
  | noReduction (stage : String)
  /-- A plan node has several inputs. -/
  | branching (node : String) (id : Nat) (inputs : Nat)
  deriving Repr, DecidableEq

def Unsupported.message : Unsupported → String
  | needsTwoInputs stage => "Binary pipeline stage '" ++ stage ++ "' requires two inputs"
  | notBinary stage => "Pipeline stage '" ++ stage ++ "' is not a binary stage"
  | noReduction stage => "Pipeline stage '" ++ stage ++ "' does not support reduce"
  | branching node id inputs =>
    node ++ s!" node #{id} has {inputs} inputs; only linear pipelines compile to stages"

/-- Why an operation fails. -/
inductive Error
  | invalid (cause : Invalid)
  | unsupported (cause : Unsupported)
  /-- Every coordinator aggregation is referenced by another one. -/
  | everyAggregationReferenced
  /-- The coordinator aggregations that wait for each other, or for one that does. -/
  | circular (names : List String)
  /-- The coordinator aggregations that no other one references, when there are several. -/
  | disconnected (names : List String)
  /-- The number of unfold aggregations, when it has to be one and is not. -/
  | aggregationCount (found : Nat)
  /-- An operand was absent, which is not the same as empty. -/
  | operandAbsent (stage : String) (side : Side)
  /-- A reference that no aggregation answers to. -/
  | unknownAggregation (name : String)
  /-- Bytes that encode no stage, or no room for those that do. -/
  | serialization
  | cancelled
  deriving Repr, DecidableEq

/-- The wording of an error. -/
def Error.message : Error → String
  | invalid cause => cause.message
  | unsupported cause => cause.message
  | everyAggregationReferenced => "There is a circular dependency in the pipeline aggregations"
  | circular names =>
    "There is a circular dependency in the pipeline aggregations: [" ++
      String.intercalate ", " names ++ "]"
  | disconnected names =>
    "Found multiple unreferenced pipeline aggregations: [" ++ String.intercalate ", " names ++
      "]. This indicates disconnected pipeline chains. " ++
      "There should be exactly one final aggregation."
  | aggregationCount found =>
    s!"Found {found} regular aggregations without pipeline aggregations. " ++
      "Expected exactly one unfold aggregation."
  | operandAbsent stage side => stage ++ " stage received null " ++ side.name ++ " input"
  | unknownAggregation name => "Unknown aggregation reference: " ++ name
  | serialization => "Serialization error"
  | cancelled => "Query cancelled"

end SeriesQuery
