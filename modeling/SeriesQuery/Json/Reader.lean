/-
  Reading JSON text.

  Reading goes in two steps.  The first settles the grammar: it turns text into a `Draft`, in
  which numbers and strings are still as written and an object may name a member twice.  The
  second gives the draft its value, and can fail where the grammar could not: a number may be too
  large, an escaped surrogate may lack its partner, and documents may be nested too deeply.  The
  steps are apart because a reader that skips a part of a document checks its grammar only.

  Every function is total: the grammar recurses on a counter that the length of the text bounds.
-/
import SeriesQuery.Decimal.Reader
import SeriesQuery.Json.Basic

namespace SeriesQuery.Json

/-- One element of a quoted string: a character, or the sixteen-bit unit of a `\u` escape. -/
inductive Piece
  | char (c : Char)
  | unit (code : Nat)
  deriving Repr, DecidableEq

/-- A number as written.  `exponent` is absent when there was none. -/
structure Numeral where
  negative : Bool
  whole : List Char
  fraction : Option (List Char)
  exponent : Option Int
  deriving Repr, DecidableEq

/-- A document as written. -/
inductive Draft
  | null
  | bool (b : Bool)
  | numeral (n : Numeral)
  | quoted (s : List Piece)
  | array (items : List Draft)
  | object (members : List (List Piece × Draft))
  deriving Repr, Inhabited

/-! ## Grammar -/

/-- The four characters that may stand between tokens. -/
def isSpace (c : Char) : Bool := c = ' ' || c = '\t' || c = '\n' || c = '\r'

/-- What is left after leading space. -/
def skipSpace (cs : List Char) : List Char := cs.dropWhile isSpace

/-- The value of a hexadecimal digit. -/
def hexDigit? (c : Char) : Option Nat :=
  if c.isDigit then some (c.toNat - '0'.toNat)
  else if 'a' ≤ c ∧ c ≤ 'f' then some (c.toNat - 'a'.toNat + 10)
  else if 'A' ≤ c ∧ c ≤ 'F' then some (c.toNat - 'A'.toNat + 10)
  else none

/-- The character that a one-letter escape stands for. -/
def escape? : Char → Option Char
  | '"' => some '"'
  | '\\' => some '\\'
  | '/' => some '/'
  | 'b' => some '\x08'
  | 'f' => some '\x0c'
  | 'n' => some '\n'
  | 'r' => some '\r'
  | 't' => some '\t'
  | _ => none

/-- The unit that four hexadecimal digits write. -/
def unit? (a b c d : Char) : Option Nat := do
  let high := 16 * (← hexDigit? a) + (← hexDigit? b)
  let low := 16 * (← hexDigit? c) + (← hexDigit? d)
  return 256 * high + low

/-- The pieces up to the closing quote, and what follows it. -/
def pieces? : List Char → Option (List Piece × List Char)
  | [] => none
  | '"' :: rest => some ([], rest)
  | '\\' :: 'u' :: a :: b :: c :: d :: rest => do
    let unit ← unit? a b c d
    let (ps, rest) ← pieces? rest
    return (.unit unit :: ps, rest)
  | '\\' :: c :: rest => do
    let c ← escape? c
    let (ps, rest) ← pieces? rest
    return (.char c :: ps, rest)
  | c :: rest =>
    if c.toNat < 0x20 then none
    else do
      let (ps, rest) ← pieces? rest
      return (.char c :: ps, rest)

/-- Digits, at least one. -/
def digits? (cs : List Char) : Option (List Char × List Char) :=
  match cs.takeWhile Char.isDigit with
  | [] => none
  | ds => some (ds, cs.dropWhile Char.isDigit)

/-- The whole digits of a number, which start with a zero only if that is all. -/
def whole? : List Char → Option (List Char × List Char)
  | '0' :: rest => if (rest.takeWhile Char.isDigit).isEmpty then some (['0'], rest) else none
  | cs => digits? cs

/-- The digits after a point, if there is a point. -/
def fraction? : List Char → Option (Option (List Char) × List Char)
  | '.' :: rest => do
    let (ds, rest) ← digits? rest
    return (some ds, rest)
  | cs => some (none, cs)

/-- The power of ten after an `e`, if there is one. -/
def exponent? : List Char → Option (Option Int × List Char)
  | c :: rest =>
    if c = 'e' ∨ c = 'E' then do
      let (negative, rest) := match rest with
        | '-' :: r => (true, r)
        | '+' :: r => (false, r)
        | r => (false, r)
      let (ds, rest) ← digits? rest
      let n : Int := Decimal.ofDigits ds
      return (some (if negative then -n else n), rest)
    else some (none, c :: rest)
  | [] => some (none, [])

/-- A number as written. -/
def numeral? (cs : List Char) : Option (Numeral × List Char) := do
  let (negative, cs) := match cs with
    | '-' :: r => (true, r)
    | r => (false, r)
  let (whole, cs) ← whole? cs
  let (fraction, cs) ← fraction? cs
  let (exponent, cs) ← exponent? cs
  return ({ negative, whole, fraction, exponent }, cs)

mutual

/-- One document, with space before it allowed, and what follows it. -/
def draft? : Nat → List Char → Option (Draft × List Char)
  | 0, _ => none
  | fuel + 1, cs =>
    match skipSpace cs with
    | 'n' :: 'u' :: 'l' :: 'l' :: rest => some (.null, rest)
    | 't' :: 'r' :: 'u' :: 'e' :: rest => some (.bool true, rest)
    | 'f' :: 'a' :: 'l' :: 's' :: 'e' :: rest => some (.bool false, rest)
    | '"' :: rest => do
      let (s, rest) ← pieces? rest
      return (.quoted s, rest)
    | '[' :: rest =>
      match skipSpace rest with
      | ']' :: rest => some (.array [], rest)
      | rest => do
        let (items, rest) ← items? fuel rest
        return (.array items, rest)
    | '\x7b' :: rest =>
      match skipSpace rest with
      | '\x7d' :: rest => some (.object [], rest)
      | rest => do
        let (members, rest) ← members? fuel rest
        return (.object members, rest)
    | rest => do
      let (n, rest) ← numeral? rest
      return (.numeral n, rest)

/-- Items with commas between them, up to the closing bracket. -/
def items? : Nat → List Char → Option (List Draft × List Char)
  | 0, _ => none
  | fuel + 1, cs => do
    let (item, rest) ← draft? fuel cs
    match skipSpace rest with
    | ']' :: rest => return ([item], rest)
    | ',' :: rest =>
      let (items, rest) ← items? fuel rest
      return (item :: items, rest)
    | _ => none

/-- Members with commas between them, up to the closing brace. -/
def members? : Nat → List Char → Option (List (List Piece × Draft) × List Char)
  | 0, _ => none
  | fuel + 1, cs =>
    match skipSpace cs with
    | '"' :: rest => do
      let (key, rest) ← pieces? rest
      match skipSpace rest with
      | ':' :: rest =>
        let (value, rest) ← draft? fuel rest
        match skipSpace rest with
        | '\x7d' :: rest => return ([(key, value)], rest)
        | ',' :: rest =>
          let (members, rest) ← members? fuel rest
          return ((key, value) :: members, rest)
        | _ => none
      | _ => none
    | _ => none

end

/-- The document that a whole text writes.  Each step of the grammar that reads nothing is followed
    by one that reads a character, so twice the length is counter enough. -/
def Draft.ofText? (text : String) : Option Draft := do
  let cs := text.toList
  let (draft, rest) ← draft? (2 * cs.length + 2) cs
  if (skipSpace rest).isEmpty then some draft else none

/-! ## Values -/

/-- The characters that pieces stand for: two surrogate units make one character, and one alone
    makes none. -/
def chars? : List Piece → Option (List Char)
  | [] => some []
  | .char c :: rest => (chars? rest).map (c :: ·)
  | .unit high :: .unit low :: rest =>
    if 0xd800 ≤ high ∧ high < 0xdc00 then
      if 0xdc00 ≤ low ∧ low < 0xe000 then
        (chars? rest).map (Char.ofNat (0x10000 + (high - 0xd800) * 0x400 + (low - 0xdc00)) :: ·)
      else none
    else if 0xdc00 ≤ high ∧ high < 0xe000 then none
    else (chars? (.unit low :: rest)).map (Char.ofNat high :: ·)
  | .unit code :: rest =>
    if 0xd800 ≤ code ∧ code < 0xe000 then none else (chars? rest).map (Char.ofNat code :: ·)

/-- The string that pieces stand for. -/
def text? (ps : List Piece) : Option String := (chars? ps).map String.ofList

/-- The value of a number.  Written without point and exponent it is an integer if sixty-four bits
    hold it, except for a negative zero; otherwise it is a float, which has to be finite. -/
def Numeral.value? (n : Numeral) : Option Json :=
  let size := Decimal.ofDigits n.whole
  if n.fraction.isNone ∧ n.exponent.isNone ∧ n.negative = false ∧ size < UInt64.size then
    some (.integer size)
  else if n.fraction.isNone ∧ n.exponent.isNone ∧ n.negative = true ∧ 0 < size ∧
      Int64.minValue.toInt ≤ -(size : Int) then
    some (.integer (-size))
  else
    let fraction := n.fraction.getD []
    let power := n.exponent.getD 0 - fraction.length
    let x := Decimal.nearest (Decimal.ofDigits (n.whole ++ fraction)) power
    if x.isFinite then some (.real (if n.negative then -x else x)) else none

mutual

/-- The value of a draft that may nest `depth` arrays and objects. -/
def Draft.value? (depth : Nat) : Draft → Option Json
  | .null => some .null
  | .bool b => some (.bool b)
  | .numeral n => n.value?
  | .quoted s => (text? s).map .string
  | .array items => if depth = 0 then none else (itemValues? (depth - 1) items).map .array
  | .object members =>
    if depth = 0 then none
    else (memberValues? (depth - 1) members).map fun pairs => .object (Members.ofList pairs)

/-- The values of an array's items. -/
def itemValues? (depth : Nat) : List Draft → Option (List Json)
  | [] => some []
  | item :: rest => do return (← item.value? depth) :: (← itemValues? depth rest)

/-- The values of an object's members. -/
def memberValues? (depth : Nat) : List (List Piece × Draft) → Option (List (String × Json))
  | [] => some []
  | (key, value) :: rest => do
    return (← text? key, ← value.value? depth) :: (← memberValues? depth rest)

end

/-- How many arrays and objects may enclose a value. -/
def maxDepth : Nat := 127

/-- The document that a text writes. -/
def ofText? (text : String) : Option Json := do
  (← Draft.ofText? text).value? maxDepth

end SeriesQuery.Json
