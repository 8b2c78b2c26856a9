/-
  JSON documents: the values in which stage arguments, storage statistics and configuration come
  in, and in which series, stages and profiles are written.

  Two points matter to the programs above.  A number is an `integer` or a `real`, by how it was
  written and not by its value: `60` and `60.0` are different documents, and only the first is
  accepted where an integer is asked for.  An object keeps its members in the order in which they
  were first written.
-/
import SeriesQuery.Decimal.Binary64

namespace SeriesQuery

/-- A JSON document.  An `integer` is one that sixty-four bits hold, signed or unsigned. -/
inductive Json
  | null
  | bool (b : Bool)
  | integer (n : Int)
  | real (x : Float)
  | string (s : String)
  | array (items : List Json)
  | object (members : List (String × Json))
  deriving Repr, Inhabited

namespace Json

/-- The members of an object. -/
abbrev Members := List (String × Json)

/-- The member named `key`. -/
def Members.get? (members : Members) (key : String) : Option Json :=
  members.lookup key

/-- Gives `key` a value: in its old place if it has one, else at the end. -/
def Members.insert (members : Members) (key : String) (value : Json) : Members :=
  match members with
  | [] => [(key, value)]
  | (k, v) :: rest => if k = key then (k, value) :: rest else (k, v) :: insert rest key value

/-- After an insertion the key has the new value, and every other key what it had before. -/
theorem Members.get?_insert (members : Members) (key k : String) (value : Json) :
    (members.insert key value).get? k = if k = key then some value else members.get? k := by
  unfold Members.get?
  induction members with
  | nil => grind [Members.insert]
  | cons m rest ih => grind [Members.insert]

/-- The members of a list of pairs; of two with one key the later gives the value and the earlier
    the place. -/
def Members.ofList (pairs : List (String × Json)) : Members :=
  pairs.foldl (fun members (k, v) => Members.insert members k v) []

/-- The members in ascending order of keys. -/
def Members.sorted (members : Members) : Members :=
  members.mergeSort fun a b => !(b.1 < a.1 : Bool)

/-- The member named `key`, if the document is an object that has it. -/
def member? (j : Json) (key : String) : Option Json :=
  match j with
  | object members => Members.get? members key
  | _ => none

/-- An integer that sixty-four signed bits hold. -/
def int64? : Json → Option Int64
  | integer n => if n ≤ Int64.maxValue.toInt then some (Int64.ofInt n) else none
  | _ => none

/-- Any number as a float. -/
def float? : Json → Option Float
  | integer n => some (Float.ofInt n)
  | real x => some x
  | _ => none

def string? : Json → Option String
  | string s => some s
  | _ => none

def bool? : Json → Option Bool
  | bool b => some b
  | _ => none

def array? : Json → Option (List Json)
  | array items => some items
  | _ => none

/-- A list of strings. -/
def strings? (j : Json) : Option (List String) := do
  (← j.array?).mapM string?

/-- Any number brought into the signed sixty-four bit range, fractions cut off. -/
def truncated? : Json → Option Int64
  | integer n => some (saturate n)
  | real x => some (truncate x)
  | _ => none

/-- The name of a document's kind in messages. -/
def kindName : Json → String
  | null => "Null"
  | bool _ => "Boolean"
  | integer _ | real _ => "Number"
  | string _ => "String"
  | array _ => "Array"
  | object _ => "Object"

def ofInt64 (n : Int64) : Json := integer n.toInt

def ofStrings (ss : List String) : Json := array (ss.map string)

/-- A value that may be missing. -/
def ofOption (f : α → Json) : Option α → Json
  | none => null
  | some a => f a

end Json
end SeriesQuery
