/-
  Projections: what all stages have in common that combine two lists of series sample by sample.

  Each series on the left is given one operand, made of the series on the right that carry the same
  labels; a lone series on the right is the operand of all, whatever its labels.  The samples of the
  two are then paired up by time (`pairUp`), and every pair is handed to the projection's `combine`.

  `pairUp` reads both lists from the front and counts a side that has run out as standing at the
  last instant there is.  A sample at exactly that instant therefore meets the end of the other list
  as an equal, and is handed on even where unmatched samples are not wanted.
-/
import SeriesQuery.Series.Basic

namespace SeriesQuery

/-- The samples of two lists paired up by time.  Unmatched ones are dropped unless they are kept. -/
def pairUp (keepUnmatched : Bool) :
    (left right : List Sample) → List (Option Sample × Option Sample)
  | [], [] => []
  | l :: ls, [] =>
    if l.time < Int64.maxValue ∧ keepUnmatched = false then pairUp keepUnmatched ls []
    else (some l, none) :: pairUp keepUnmatched ls []
  | [], r :: rs =>
    if r.time < Int64.maxValue ∧ keepUnmatched = false then pairUp keepUnmatched [] rs
    else (none, some r) :: pairUp keepUnmatched [] rs
  | l :: ls, r :: rs =>
    if l.time < r.time then
      if keepUnmatched then (some l, none) :: pairUp keepUnmatched ls (r :: rs)
      else pairUp keepUnmatched ls (r :: rs)
    else if r.time < l.time then
      if keepUnmatched then (none, some r) :: pairUp keepUnmatched (l :: ls) rs
      else pairUp keepUnmatched (l :: ls) rs
    else (some l, some r) :: pairUp keepUnmatched ls rs
termination_by left right => left.length + right.length

/-- The earlier of two times. -/
def earlier (a b : Timestamp) : Timestamp := if b < a then b else a

/-- The later of two times. -/
def later (a b : Timestamp) : Timestamp := if a < b then b else a

/-- A way to combine two lists of series. -/
structure Projection where
  /-- The name that errors show. -/
  name : String
  /-- The keys that series are matched on; with none, all labels have to agree. -/
  labelKeys : List String
  /-- Whether a time that only one side has reaches `combine`. -/
  keepUnmatched : Bool
  /-- The sample that is made of a pair, if one is.  At least one side is there. -/
  combine : Option Sample → Option Sample → Option Sample
  /-- The one operand that is made of all matching series, if one is. -/
  merge : List Series → Option Series
  /-- What becomes of the labels of the left series. -/
  relabel : Labels → Labels := id

namespace Projection

/-- The series that agree with `target`, in their order. -/
def matching (keys : List String) (target : Labels) (series : List Series) : List Series :=
  series.filter fun s => Labels.agreeOn keys target s.labels

/-- Two series combined; nothing if no sample comes out. -/
def align (p : Projection) (left right : Series) : Option Series :=
  let pairs := pairUp p.keepUnmatched left.samples right.samples
  match pairs.filterMap fun (l, r) => p.combine l r with
  | [] => none
  | samples => some
    { samples
      labels := p.relabel left.labels
      minTime := earlier left.minTime right.minTime
      maxTime := later left.maxTime right.maxTime
      step := left.step
      title := left.title }

/-- The operand of a left series. -/
def operand? (p : Projection) (left : Series) (right : List Series) : Option Series :=
  match right with
  | [only] => some only
  | _ => p.merge (matching p.labelKeys left.labels right)

/-- Two lists of series combined.  Left series without an operand or without a result drop out. -/
def combineAll (p : Projection) (left right : List Series) : List Series :=
  if right.isEmpty then []
  else left.filterMap fun l => (p.operand? l right).bind (p.align l)

/-- The same with operands that may be absent, which is an error. -/
def apply (p : Projection) (left right : Option (List Series)) : Except Error (List Series) :=
  match left, right with
  | none, _ => .error (.operandAbsent p.name .left)
  | some _, none => .error (.operandAbsent p.name .right)
  | some left, some right => .ok (p.combineAll left right)

end Projection
end SeriesQuery
