/-
  What the sixty-four bits of a float stand for, in exact integers.

  A finite float is `± mantissa · 2 ^ exponent`.  Everything that writes a float as decimal digits
  or turns one into an integer starts from this reading, so it is decided by `Nat` and `Int`
  arithmetic and not by further float operations.
-/

namespace SeriesQuery

/-- The number that a float stands for. -/
inductive Binary64
  | nan
  | infinite (negative : Bool)
  /-- The number `mantissa · 2 ^ exponent`, with its sign apart so that there are two zeros. -/
  | finite (negative : Bool) (mantissa : Nat) (exponent : Int)
  deriving Repr, DecidableEq

namespace Binary64

/-- The bit in front of the fraction, which is not stored when the exponent is not zero. -/
def leadingBit : Nat := 0x10000000000000

/-- The three bit fields read: one sign bit, eleven exponent bits, fifty-two fraction bits. -/
def ofBits (bits : UInt64) : Binary64 :=
  let n := bits.toNat
  let negative := n >>> 63 == 1
  let exponent : Nat := (n >>> 52) % 2048
  let fraction := n % leadingBit
  if exponent == 2047 then
    if fraction == 0 then .infinite negative else .nan
  else if exponent == 0 then
    .finite negative fraction (-1074)
  else
    .finite negative (fraction + leadingBit) ((exponent : Int) - 1075)

/-- The number that a float stands for. -/
def ofFloat (x : Float) : Binary64 := ofBits x.toBits

/-- `mantissa · 2 ^ exponent` with the digits after the point cut off. -/
def wholePart (mantissa : Nat) (exponent : Int) : Nat :=
  if exponent ≥ 0 then mantissa <<< exponent.toNat else mantissa >>> (-exponent).toNat

/-- The positive infinity. -/
def infinity : Float := Float.ofBits 0x7ff0000000000000

/-- The value that stands for "not a number". -/
def notANumber : Float := Float.ofBits 0x7ff8000000000000

/-- The whole part of a float that is not negative; zero for all others. -/
def toNat (x : Float) : Nat :=
  match ofFloat x with
  | .finite false m e => wholePart m e
  | _ => 0

end Binary64

/-- An integer moved to the nearest one that sixty-four signed bits hold. -/
def saturate (n : Int) : Int64 :=
  if n < Int64.minValue.toInt then Int64.minValue
  else if Int64.maxValue.toInt < n then Int64.maxValue
  else Int64.ofInt n

/-- A float cut to an integer towards zero and then moved into the signed sixty-four bit range;
    "not a number" counts as zero. -/
def truncate (x : Float) : Int64 :=
  match Binary64.ofFloat x with
  | .nan => 0
  | .infinite true => Int64.minValue
  | .infinite false => Int64.maxValue
  | .finite true m e => saturate (-(Binary64.wholePart m e : Int))
  | .finite false m e => saturate (Binary64.wholePart m e)

end SeriesQuery
