/-
  Floats as text.

  Two formats write the shortest digits and differ in the record `Style` only: `Style.plain` for
  messages and names, which never uses an exponent, and `Style.json` for documents.  A third,
  `fixedSix`, writes the exact value rounded to six places.
-/
import SeriesQuery.Decimal.Shortest

namespace SeriesQuery.Decimal

/-- The decisions that a format takes about a float's shortest digits. -/
structure Style where
  /-- How a value half-way between two candidates is settled. -/
  tie : Tie
  /-- Whether a number whose first digit has this power of ten is written without an exponent. -/
  positional : Int → Bool
  /-- What follows a whole number. -/
  wholeSuffix : String
  /-- The text of "not a number". -/
  nan : String
  /-- The text of an infinity, from its sign. -/
  infinite : Bool → String

/-- Messages and names: no exponent, no point in a whole number. -/
def Style.plain : Style where
  tie := .away
  positional _ := true
  wholeSuffix := ""
  nan := "NaN"
  infinite negative := if negative then "-inf" else "inf"

/-- Documents: an exponent below `10 ^ -5` and from `10 ^ 16` on, always a point elsewhere, and
    `null` for what no document number can express. -/
def Style.json : Style where
  tie := .toEven
  positional first := -5 ≤ first && first < 16
  wholeSuffix := ".0"
  nan := "null"
  infinite _ := "null"

/-- `n` zeros. -/
def zeros (n : Nat) : List Char := List.replicate n '0'

/-- Digits `ds` that stand for `ds · 10 ^ power`, written with a point and no exponent. -/
def positionalText (style : Style) (ds : List Char) (power : Int) : List Char :=
  let point := ds.length + power
  if power ≥ 0 then ds ++ zeros power.toNat ++ style.wholeSuffix.toList
  else if point > 0 then ds.take point.toNat ++ '.' :: ds.drop point.toNat
  else '0' :: '.' :: zeros (-point).toNat ++ ds

/-- The same digits with one of them before the point and a signed exponent. -/
def exponentText (ds : List Char) (first : Int) : List Char :=
  let fraction := if ds.length > 1 then '.' :: ds.drop 1 else []
  let exponent := (if first < 0 then '-' else '+') :: Nat.toDigits 10 first.natAbs
  ds.take 1 ++ fraction ++ 'e' :: exponent

/-- A finite number without its sign. -/
def magnitudeText (style : Style) (m : Nat) (e : Int) : List Char :=
  if m = 0 then '0' :: style.wholeSuffix.toList
  else
    let d := shortest style.tie m e
    let ds := Nat.toDigits 10 d.coefficient
    let first := ds.length + d.power - 1
    if style.positional first then positionalText style ds d.power else exponentText ds first

/-- The text of a float in a style. -/
def Style.render (style : Style) (x : Float) : String :=
  match Binary64.ofFloat x with
  | .nan => style.nan
  | .infinite negative => style.infinite negative
  | .finite negative m e =>
    String.ofList ((if negative then ['-'] else []) ++ magnitudeText style m e)

/-- A float for messages and names. -/
def plain (x : Float) : String := Style.plain.render x

/-- The value of a float rounded to six places, a half to the even neighbour. -/
def fixedSix (x : Float) : String :=
  match Binary64.ofFloat x with
  | .nan => Style.plain.nan
  | .infinite negative => Style.plain.infinite negative
  | .finite negative m e =>
    let millionths := roundDiv .toEven ((m * 1000000) <<< e.toNat) (1 <<< (-e).toNat)
    let fraction := Nat.toDigits 10 (millionths % 1000000)
    String.ofList <|
      (if negative then ['-'] else []) ++ Nat.toDigits 10 (millionths / 1000000) ++
        '.' :: zeros (6 - fraction.length) ++ fraction

/-! ## The formats at their limits -/

example : plain 1e16 = "10000000000000000" ∧ plain 99.5 = "99.5" ∧ plain (-0.0) = "-0" := by
  decide +kernel

example : Style.json.render 1e15 = "1000000000000000.0" ∧ Style.json.render 1e16 = "1e+16" := by
  decide +kernel

example : Style.json.render 1e-5 = "0.00001" ∧ Style.json.render 1e-6 = "1e-6" := by
  decide +kernel

example : Style.json.render 5e-324 = "5e-324" ∧ Style.json.render (-0.0) = "-0.0" := by
  decide +kernel

example : fixedSix 2.5 = "2.500000" ∧ fixedSix 0.0000005 = "0.000000" := by decide +kernel

end SeriesQuery.Decimal
