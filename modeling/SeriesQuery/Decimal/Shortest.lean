/-
  The fewest decimal digits that tell a float apart from every other float.

  A positive float `m · 2 ^ e` is the nearest float to every real number of an interval around it,
  its ends half-way to the two neighbours; the ends belong to it when `m` is even.  The shortest
  digits are found on decimal grids: for one digit, two digits, … seventeen digits, the grid's two
  points around the value are tested against the interval, in exact arithmetic.  The first grid
  with a hit wins; of two hits the nearer one does, and a value half-way between them is settled by
  a `Tie` rule, the one thing in which the formats that print floats differ.
-/
import SeriesQuery.Decimal.Binary64

namespace SeriesQuery.Decimal

/-- Which of two equally near candidates is taken. -/
inductive Tie
  /-- The one with the even last digit. -/
  | toEven
  /-- The one that is larger in size. -/
  | away
  deriving Repr, DecidableEq

/-- The number `coefficient · 10 ^ power`. -/
structure Digits where
  coefficient : Nat
  power : Int
  deriving Repr, DecidableEq

/-- Drops up to `fuel` zeros from the end of the coefficient. -/
def Digits.trimZeros : Nat → Digits → Digits
  | 0, d => d
  | fuel + 1, d =>
    if d.coefficient ≠ 0 ∧ d.coefficient % 10 = 0 then
      trimZeros fuel ⟨d.coefficient / 10, d.power + 1⟩
    else d

/-- The quotient `a / b` rounded to an integer; an exact half goes as `tie` says. -/
def roundDiv (tie : Tie) (a b : Nat) : Nat :=
  let q := a / b
  let r := a % b
  if 2 * r < b then q
  else if b < 2 * r then q + 1
  else match tie with
    | .toEven => if q % 2 = 0 then q else q + 1
    | .away => q + 1

/-- A value with the interval of reals that round to it, all over one denominator `unit`. -/
structure Interval where
  low : Nat
  value : Nat
  high : Nat
  unit : Nat
  /-- Whether the two ends belong to the interval. -/
  closed : Bool

/-- The interval of the float `m · 2 ^ e`.  Below a power of two the neighbour is only half as far
    away, unless the float has the least exponent of all. -/
def Interval.ofFinite (m : Nat) (e : Int) : Interval :=
  let gapBelow := if m = Binary64.leadingBit ∧ e > -1074 then 1 else 2
  let shift := (e - 2).toNat
  { low := (4 * m - gapBelow) <<< shift
    value := (4 * m) <<< shift
    high := (4 * m + 2) <<< shift
    unit := 1 <<< (2 - e).toNat
    closed := m % 2 = 0 }

/-- A power of ten. -/
def tenTo (n : Nat) : Nat := Nat.pow 10 n

/-- The same interval counted in units of `10 ^ power`. -/
def Interval.rescale (i : Interval) (power : Int) : Interval :=
  let up := tenTo (-power).toNat
  { i with
    low := i.low * up, value := i.value * up, high := i.high * up
    unit := i.unit * tenTo power.toNat }

/-- Whether the integer `c` lies in the interval. -/
def Interval.contains (i : Interval) (c : Nat) : Bool :=
  if i.closed then i.low ≤ c * i.unit ∧ c * i.unit ≤ i.high
  else i.low < c * i.unit ∧ c * i.unit < i.high

/-- The integer of the interval next to its value, if one of the value's two neighbours is in it. -/
def Interval.integer? (i : Interval) (tie : Tie) : Option Nat :=
  let below := i.value / i.unit
  match i.contains below, i.contains (below + 1) with
  | true, true => some (roundDiv tie i.value i.unit)
  | true, false => some below
  | false, true => some (below + 1)
  | false, false => none

/-- How many decimal digits the whole part of the value has; not positive when the value is below
    one, and then counting the zeros after the point. -/
def Interval.magnitude (i : Interval) : Int :=
  ((Nat.toDigits 10 (i.value * tenTo 400 / i.unit)).length : Int) - 400

/-- The shortest digits of the positive float `m · 2 ^ e`. -/
def shortest (tie : Tie) (m : Nat) (e : Int) : Digits :=
  let i := Interval.ofFinite m e
  let magnitude := i.magnitude
  let onGrid (count : Nat) : Option Digits :=
    let power := magnitude - (count + 1)
    ((i.rescale power).integer? tie).map fun c => Digits.trimZeros (count + 1) ⟨c, power⟩
  ((List.range 17).findSome? onGrid).getD ⟨m, 0⟩

end SeriesQuery.Decimal
