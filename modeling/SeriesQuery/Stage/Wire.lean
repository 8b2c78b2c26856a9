/-
  The wire format of stages: how a list of stages travels to a shard.

  Integers are big-endian and of fixed width, a float is its sixty-four bits, a truth value is a
  byte 0 or 1, a string is its length in bytes and its UTF-8 bytes, and a list is its length and its
  items.  A stage starts with the number of its kind.

  Writing is a function to bytes.  Reading takes bytes off the front of its input and refuses
  input that is too short or that no value is written as; `Stage.read` then refuses parameters
  that are out of range, with the error that building the stage would give.
-/
import SeriesQuery.Stage.Basic

namespace SeriesQuery

/-- The bytes of a message. -/
abbrev Bytes := List UInt8

namespace Wire

/-! ## Writing -/

/-- The last `count` base 256 digits of a number, the first one first. -/
def bigEndian : (count : Nat) → Nat → Bytes
  | 0, _ => []
  | count + 1, n => bigEndian count (n / 256) ++ [UInt8.ofNat n]

/-- A number in four bytes. -/
def word (n : Nat) : Bytes := bigEndian 4 n

/-- A number in eight bytes. -/
def long (n : Nat) : Bytes := bigEndian 8 n

/-- The bits of a float. -/
def float (x : Float) : Bytes := long x.toBits.toNat

/-- A truth value in one byte. -/
def bool (b : Bool) : Bytes := [if b then 1 else 0]

/-- The length of the UTF-8 form, and its bytes. -/
def string (s : String) : Bytes :=
  let bytes := s.toByteArray.data.toList
  long bytes.length ++ bytes

/-- The number of items, and the bytes of each. -/
def list (write : α → Bytes) (items : List α) : Bytes :=
  long items.length ++ items.flatMap write

/-! ## Reading -/

/-- A value from the front of the input, and the input after it. -/
abbrev Reader := StateT Bytes (Except Error)

/-- Refuses the input. -/
def malformed : Reader α := throw .serialization

/-- The next `count` bytes. -/
def takeBytes (count : Nat) : Reader Bytes := fun input =>
  if input.length < count then .error .serialization
  else .ok (input.take count, input.drop count)

/-- The number that bytes write. -/
def ofBigEndian (bytes : Bytes) : Nat :=
  bytes.foldl (fun n b => 256 * n + b.toNat) 0

/-- A number from four bytes. -/
def readWord : Reader Nat := ofBigEndian <$> takeBytes 4

/-- A number from eight bytes. -/
def readLong : Reader Nat := ofBigEndian <$> takeBytes 8

/-- A signed number, from its two's complement. -/
def readInt64 : Reader Int64 := do return (UInt64.ofNat (← readLong)).toInt64

/-- A float from its bits. -/
def readFloat : Reader Float := do return Float.ofBits (UInt64.ofNat (← readLong))

/-- A truth value, of which there are no bytes but 0 and 1. -/
def readBool : Reader Bool := do
  match ← takeBytes 1 with
  | [0] => return false
  | [1] => return true
  | _ => malformed

/-- A string of the length that stands before it, if its bytes are UTF-8. -/
def readString : Reader String := do
  let bytes ← takeBytes (← readLong)
  match String.fromUTF8? ⟨bytes.toArray⟩ with
  | some s => return s
  | none => malformed

/-- `count` values, one after the other. -/
def readMany (read : Reader α) : (count : Nat) → Reader (List α)
  | 0 => return []
  | count + 1 => do
    let item ← read
    return item :: (← readMany read count)

/-- As many items as the length says. -/
def readList (read : Reader α) : Reader (List α) := do
  readMany read (← readLong)

/-! ## Parameters -/

/-- The number of a summary, and the rank of a percentile. -/
def summary : Summary → Bytes
  | .sum => word 0
  | .avg => word 1
  | .min => word 2
  | .max => word 3
  | .last => word 4
  | .stdDev => word 5
  | .percentile p => word 6 ++ float p

/-- A summary by its number. -/
def readSummary : Reader Summary := do
  match ← readWord with
  | 0 => return .sum
  | 1 => return .avg
  | 2 => return .min
  | 3 => return .max
  | 4 => return .last
  | 5 => return .stdDev
  | 6 => return .percentile (← readFloat)
  | _ => malformed

/-- The number of an operator. -/
def operator : Operator → Bytes
  | .add => word 0
  | .subtract => word 1
  | .multiply => word 2
  | .divide => word 3

/-- An operator by its number. -/
def readOperator : Reader Operator := do
  match ← readWord with
  | 0 => return .add
  | 1 => return .subtract
  | 2 => return .multiply
  | 3 => return .divide
  | _ => malformed

end Wire

namespace Stage

open Wire

/-! ## Stages -/

/-- The bytes of a stage. -/
def write : Stage → Bytes
  | head limit => word 0 ++ long limit.toNat
  | summarize d =>
    word 1 ++ long d.interval.toUInt64.toNat ++ Wire.summary d.summary ++ Wire.bool d.alignToStart
  | scale factor => word 2 ++ float factor
  | scaleToSeconds seconds => word 3 ++ float seconds
  | arithmetic a =>
    word 4 ++ Wire.operator a.operator ++ Wire.string a.right ++ Wire.list Wire.string a.labels ++
      Wire.bool a.keepUnmatched
  | union right => word 5 ++ Wire.string right

/-- A stage of the right form, its parameters unchecked. -/
def readForm : Reader Stage := do
  match ← readWord with
  | 0 => return head (UInt64.ofNat (← readLong))
  | 1 =>
    let interval ← readInt64
    let summary ← readSummary
    let alignToStart ← readBool
    return .summarize { interval, summary, alignToStart }
  | 2 => return scale (← readFloat)
  | 3 => return scaleToSeconds (← readFloat)
  | 4 =>
    let operator ← readOperator
    let right ← readString
    let labels ← readList readString
    let keepUnmatched ← readBool
    return .arithmetic { operator, right, labels, keepUnmatched }
  | 5 => return union (← readString)
  | _ => malformed

/-- A stage whose parameters are in range. -/
def read : Reader Stage := do
  let stage ← readForm
  stage.validate
  return stage

/-- The bytes of a list of stages. -/
def writeAll (stages : List Stage) : Bytes := Wire.list write stages

/-- A list of stages. -/
def readAll : Reader (List Stage) := readList read

/-- Bytes written to the front of a space of `room` bytes, the rest of which stays zero: the whole
    space, and how much of it is left. -/
def fill (room : Nat) (bytes : Bytes) : Except Error (Bytes × Nat) :=
  if room < bytes.length then .error .serialization
  else .ok (bytes ++ List.replicate (room - bytes.length) 0, room - bytes.length)

end Stage
end SeriesQuery
