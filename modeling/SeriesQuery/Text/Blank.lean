/-
  Blank characters, and the two clean-ups that names and numbers get before they are read.

  A character is blank when it has the Unicode property White_Space: twenty-five code points, listed
  as ranges in `blankRanges`.  `Char.isWhitespace` knows four of them only (9, 10, 13 and 32), so it
  cannot stand in.  Case is folded on the ASCII letters alone; every other character is kept.

  `trim` works on `List Char`, from both ends, so that its laws are those of `dropWhile`.
-/

namespace SeriesQuery.Text

/-- The code points with the property White_Space, as closed ranges in ascending order. -/
def blankRanges : List (Nat × Nat) :=
  [(0x09, 0x0d), (0x20, 0x20), (0x85, 0x85), (0xa0, 0xa0), (0x1680, 0x1680), (0x2000, 0x200a),
   (0x2028, 0x2029), (0x202f, 0x202f), (0x205f, 0x205f), (0x3000, 0x3000)]

/-- Whether a character has the property White_Space. -/
def isBlank (c : Char) : Bool :=
  blankRanges.any fun (lo, hi) => lo ≤ c.toNat && c.toNat ≤ hi

/-- The ranges hold twenty-five code points. -/
example : (blankRanges.map fun (lo, hi) => hi + 1 - lo).sum = 25 := by decide

/-- The characters between the first and the last one that is not blank. -/
def trim (cs : List Char) : List Char :=
  ((cs.dropWhile isBlank).reverse.dropWhile isBlank).reverse

/-- ASCII capitals made small, all else kept. -/
def lowerAscii (cs : List Char) : List Char :=
  cs.map Char.toLower

/-- The form in which a name is looked up: blanks at the ends dropped, ASCII letters small. -/
def keyword (s : String) : List Char :=
  lowerAscii (trim s.toList)

end SeriesQuery.Text
