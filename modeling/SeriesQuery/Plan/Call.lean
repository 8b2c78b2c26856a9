/-
  Function calls: the segments of a parsed query, and the spans of time written in them.
-/
import SeriesQuery.Decimal.Reader
import SeriesQuery.Error
import SeriesQuery.Text.Blank
import SeriesQuery.Timestamp

namespace SeriesQuery

/-- An argument of a function: a word as it was written, or another call. -/
inductive Argument
  | value (text : String)
  | call (function : String) (arguments : List Argument)
  deriving Repr, Inhabited

/-- A function applied to arguments. -/
structure Call where
  function : String
  arguments : List Argument
  deriving Repr, Inhabited

namespace Argument

/-- The text of an argument that is a word; for another one, the error given. -/
def text (ifNot : Invalid) : Argument → Except Error String
  | value s => .ok s
  | call _ _ => .error (.invalid ifNot)

end Argument

namespace Call

/-- The texts of all arguments. -/
def texts (c : Call) (ifNot : Invalid) : Except Error (List String) :=
  c.arguments.mapM (Argument.text ifNot)

/-- The text of the only argument. -/
def onlyText (c : Call) (name : String) : Except Error String :=
  match c.arguments with
  | [a] => a.text (.argumentNotValue name)
  | _ => .error (.invalid (.argumentCountNotOne name))

end Call

/-! ## Spans of time -/

/-- How many milliseconds a unit has; without a unit, one. -/
def unitMillis? : List Char → Option Int
  | [] | ['m', 's'] => some 1
  | ['s'] => some 1000
  | ['m'] => some 60000
  | ['h'] => some 3600000
  | ['d'] => some 86400000
  | _ => none

/-- Digits with a unit after them, in milliseconds.  Neither the number nor the product may be more
    than sixty-four signed bits hold. -/
def spanMillis? (cs : List Char) : Option Int64 := do
  let count ← Decimal.natural? (cs.takeWhile Char.isDigit)
  let unit ← unitMillis? (cs.dropWhile Char.isDigit)
  let _ ← timestamp? count
  timestamp? (count * unit)

/-- The milliseconds that a text writes; blanks around it do not matter. -/
def millis? (text : String) : Except Error Int64 :=
  match spanMillis? (Text.trim text.toList) with
  | some n => .ok n
  | none => .error (.invalid (.durationMalformed text))

end SeriesQuery
