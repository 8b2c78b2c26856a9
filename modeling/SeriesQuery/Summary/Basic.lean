/-
  Summary functions: the seven ways to make one value of many, and their names.
-/
import SeriesQuery.Decimal.Reader
import SeriesQuery.Error
import SeriesQuery.Text.Blank

namespace SeriesQuery

/-- What is made of the values of a bucket. -/
inductive Summary
  | sum
  | avg
  | min
  | max
  | last
  /-- The standard deviation of the values as a whole population. -/
  | stdDev
  /-- The `p`-th percentile, for `p` from 0 to 100. -/
  | percentile (p : Float)
  deriving Repr, DecidableEq

/-- Equality of parameters: as numbers, so that the two zeros are one, except that "not a number"
    equals itself. -/
def sameNumber (x y : Float) : Bool := x == y || (x.isNaN && y.isNaN)

instance : BEq Summary where
  beq
    | .percentile p, .percentile q => sameNumber p q
    | .percentile _, _ | _, .percentile _ => false
    | s, t => decide (s = t)

namespace Summary

/-- The `p`-th percentile, if there is one. -/
def percentile? (p : Float) : Except Error Summary :=
  if 0.0 ≤ p ∧ p ≤ 100.0 then .ok (.percentile p)
  else .error (.invalid (.percentileOutOfRange p))

/-- Refuses a percentile that does not exist. -/
def validate : Summary → Except Error Unit
  | percentile p => do discard (percentile? p)
  | _ => .ok ()

/-- The name that `parse?` reads. -/
def name : Summary → String
  | sum => "sum"
  | avg => "avg"
  | min => "min"
  | max => "max"
  | last => "last"
  | stdDev => "stddev"
  | percentile p => "p" ++ Decimal.plain p

/-- Whether the characters are digits, or digits on both sides of a point. -/
def isDecimal (cs : List Char) : Bool :=
  !(cs.takeWhile Char.isDigit).isEmpty &&
    match cs.dropWhile Char.isDigit with
    | [] => true
    | c :: rest => c == '.' && !rest.isEmpty && rest.all Char.isDigit

/-- The summary with a name.  Blanks around the name and the case of its letters do not matter; `p`
    with a decimal number names a percentile. -/
def parse? (name : String) : Except Error Summary :=
  let unknown : Except Error Summary := .error (.invalid (.unknownSummary name))
  match Text.keyword name with
  | ['s', 'u', 'm'] => .ok sum
  | ['a', 'v', 'g'] | ['m', 'e', 'a', 'n'] | ['a', 'v', 'e', 'r', 'a', 'g', 'e'] => .ok avg
  | ['m', 'i', 'n'] => .ok min
  | ['m', 'a', 'x'] => .ok max
  | ['l', 'a', 's', 't'] => .ok last
  | ['s', 't', 'd', 'd', 'e', 'v'] | ['s', 't', 'd', 'e', 'v'] => .ok stdDev
  | ['m', 'e', 'd', 'i', 'a', 'n'] => percentile? 50.0
  | 'p' :: cs => if isDecimal cs then (Decimal.float? cs).elim unknown percentile? else unknown
  | _ => unknown

end Summary
end SeriesQuery
