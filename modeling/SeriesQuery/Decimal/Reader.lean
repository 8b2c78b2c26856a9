/-
  Reading numbers from characters.

  `natural?` and `integer?` read whole numbers, `float?` reads a float correctly rounded.  All of
  them take the whole list or nothing: no blanks, no digit separators, ASCII digits only.
-/
import SeriesQuery.Decimal.Binary64

namespace SeriesQuery.Decimal

/-- The value of a digit character. -/
def digitValue (c : Char) : Nat := c.toNat - '0'.toNat

/-- The number that a list of digits writes. -/
def ofDigits (ds : List Char) : Nat :=
  ds.foldl (fun n c => 10 * n + digitValue c) 0

/-- One or more digits. -/
def natural? (cs : List Char) : Option Nat :=
  if cs ≠ [] ∧ cs.all Char.isDigit then some (ofDigits cs) else none

/-- One or more digits after at most one sign. -/
def integer? : List Char → Option Int
  | '-' :: cs => (natural? cs).map fun n => -(n : Int)
  | '+' :: cs => (natural? cs).map fun n => (n : Int)
  | cs => (natural? cs).map fun n => (n : Int)

/-- An integer that thirty-two signed bits hold. -/
def int32? (cs : List Char) : Option Int :=
  (integer? cs).filter fun n => Int32.minValue.toInt ≤ n && n ≤ Int32.maxValue.toInt

/-- The float nearest to `n · 10 ^ power`.  Far out of range the answer is known without the power,
    which keeps the numbers small. -/
def nearest (n : Nat) (power : Int) : Float :=
  let first := (Nat.toDigits 10 n).length + power
  if n = 0 ∨ first < -330 then 0.0
  else if first > 320 then Binary64.infinity
  else Float.ofScientific n (power < 0) power.natAbs

/-- The power of ten after an `e`; nothing at all stands for zero. -/
def exponent? : List Char → Option Int
  | [] => some 0
  | c :: cs => if c = 'e' ∨ c = 'E' then integer? cs else none

/-- Digits with at most one point among them and an optional exponent. -/
def unsigned? (cs : List Char) : Option Float :=
  let whole := cs.takeWhile Char.isDigit
  let afterWhole := cs.dropWhile Char.isDigit
  let (fraction, rest) := match afterWhole with
    | '.' :: r => (r.takeWhile Char.isDigit, r.dropWhile Char.isDigit)
    | r => ([], r)
  if whole = [] ∧ fraction = [] then none
  else
    (exponent? rest).map fun power =>
      nearest (ofDigits (whole ++ fraction)) (power - fraction.length)

/-- The words that name a float, in any case. -/
def word? (cs : List Char) : Option Float :=
  match String.ofList (cs.map Char.toLower) with
  | "inf" | "infinity" => some Binary64.infinity
  | "nan" => some Binary64.notANumber
  | _ => none

/-- A float: a number or a word, after at most one sign. -/
def float? : List Char → Option Float
  | '-' :: cs => ((word? cs).or (unsigned? cs)).map Float.neg
  | '+' :: cs => (word? cs).or (unsigned? cs)
  | cs => (word? cs).or (unsigned? cs)

/-- A digit on one side of the point is enough. -/
example : float? ['.', '5'] = some 0.5 ∧ float? ['5', '.'] = some 5.0 ∧ float? ['.'] = none := by
  decide +kernel

end SeriesQuery.Decimal
