/-
  Pairing samples turn by turn.

  One turn of the walk (`turn`) looks where the two sides stand, a side that has run out standing at
  the last instant.  It moves past the earlier sample, or past both if neither is earlier, and may
  hand on a pair.  The walk takes turns until both sides have run out, and what it has handed on by
  then is `pairUp` (`walk_pairUp`, `Walk.eq_pairUp`).  It does come to an end, whatever the order of
  the samples: every turn moves past one of them at least.

  Nothing here asks for ascending samples.  What holds of each turn goes over to the walk by
  induction on its turns: a pair has a sample at least (`isMeeting_of_mem_pairUp`), swapped sides
  give swapped pairs (`pairUp_swap`), and other values at the same times give pairs of the same
  samples (`pairUp_map`).  So the times of the pairs depend on the times of the samples, and not on
  the side that these are on.
-/
import Mathlib.Data.List.Basic
import SeriesQuery.Proofs.Stage.Pairing

namespace SeriesQuery

variable {keep : Bool} {left right : List Sample} {pair : Option Sample × Option Sample}
  {pairs : List (Option Sample × Option Sample)} {n : Nat}

/-! ## One turn -/

/-- Where a side stands: at its first sample, and at the last instant if there is none. -/
def standing (samples : List Sample) : Timestamp :=
  (samples.head?.map Sample.time).getD Int64.maxValue

/-- What a turn hands on, if it does, and what it leaves on the two sides. -/
structure Turn where
  handedOn : Option (Option Sample × Option Sample)
  left : List Sample
  right : List Sample

/-- A turn of the walk: past the earlier sample, or past both. -/
def turn (keep : Bool) (left right : List Sample) : Turn :=
  if standing left < standing right then
    { handedOn := if keep then some (left.head?, none) else none, left := left.tail, right }
  else if standing right < standing left then
    { handedOn := if keep then some (none, right.head?) else none, left, right := right.tail }
  else
    { handedOn := some (left.head?, right.head?), left := left.tail, right := right.tail }

/-- No side stands after one that has run out. -/
theorem not_standing_nil_lt (samples : List Sample) : ¬ standing [] < standing samples :=
  Int64.not_lt.mpr (Int64.le_maxValue _)

/-- A side that stands before the other one has a sample. -/
theorem ne_nil_of_standing_lt (h : standing left < standing right) : left ≠ [] := by
  rintro rfl
  exact not_standing_nil_lt right h

/-- Without its first sample a list is shorter. -/
theorem length_tail_lt {samples : List Sample} (h : samples ≠ []) :
    samples.tail.length < samples.length := by
  have hpos := List.length_pos_of_ne_nil h
  rw [List.length_tail]
  omega

/-- A turn moves past one sample at least. -/
theorem length_turn_lt (keep : Bool) (h : left ≠ [] ∨ right ≠ []) :
    (turn keep left right).left.length + (turn keep left right).right.length <
      left.length + right.length := by
  unfold turn
  split
  case isTrue hlt =>
    have hleft := length_tail_lt (ne_nil_of_standing_lt hlt)
    dsimp only
    omega
  case isFalse =>
    split
    case isTrue hlt =>
      have hright := length_tail_lt (ne_nil_of_standing_lt hlt)
      dsimp only
      omega
    case isFalse =>
      -- one of the two may have run out, and then stays as it is
      have hleft := List.length_tail (l := left)
      have hright := List.length_tail (l := right)
      dsimp only
      rcases h with h | h
      · have hshorter := length_tail_lt h
        omega
      · have hshorter := length_tail_lt h
        omega

/-- The pairs are what the first turn hands on, and then those of what it leaves. -/
theorem pairUp_eq_turn (keep : Bool) (h : left ≠ [] ∨ right ≠ []) :
    pairUp keep left right = (turn keep left right).handedOn.toList ++
      pairUp keep (turn keep left right).left (turn keep left right).right := by
  have hlast : ∀ t : Timestamp, ¬ Int64.maxValue < t := by
    intro t
    exact Int64.not_lt.mpr (Int64.le_maxValue t)
  -- one case for each equation of `pairUp`, and in it one for each outcome of the comparisons
  cases left with
  | nil =>
    cases right with
    | nil => exact absurd rfl (h.elim id id)
    | cons r rs =>
      rw [pairUp, turn]
      by_cases hr : r.time < Int64.maxValue
      · cases keep <;> simp [standing, hr, hlast]
      · simp [standing, hr, hlast]
  | cons l ls =>
    cases right with
    | nil =>
      rw [pairUp, turn]
      by_cases hl : l.time < Int64.maxValue
      · cases keep <;> simp [standing, hl]
      · simp [standing, hl, hlast]
    | cons r rs =>
      rw [pairUp, turn]
      by_cases hlt : l.time < r.time
      · cases keep <;> simp [standing, hlt]
      · by_cases hgt : r.time < l.time
        · cases keep <;> simp [standing, hlt, hgt]
        · simp [standing, hlt, hgt]

/-! ## The walk -/

/-- The turns that are taken until both sides have run out, with what they hand on. -/
inductive Walk (keep : Bool) :
    List Sample → List Sample → Nat → List (Option Sample × Option Sample) → Prop
  | done : Walk keep [] [] 0 []
  | next {left right : List Sample} {t : Turn} {n : Nat}
      {pairs : List (Option Sample × Option Sample)} (h : left ≠ [] ∨ right ≠ [])
      (hturn : turn keep left right = t) (rest : Walk keep t.left t.right n pairs) :
      Walk keep left right (n + 1) (t.handedOn.toList ++ pairs)

/-- **The walk ends**, after as many turns as there are samples or before. -/
theorem walk_pairUp (keep : Bool) (left right : List Sample) :
    ∃ n ≤ left.length + right.length, Walk keep left right n (pairUp keep left right) := by
  by_cases hsome : left ≠ [] ∨ right ≠ []
  · have hlt := length_turn_lt keep hsome
    obtain ⟨n, hn, rest⟩ :=
      walk_pairUp keep (turn keep left right).left (turn keep left right).right
    -- a turn more, and a sample less at least
    refine ⟨n + 1, by omega, ?_⟩
    rw [pairUp_eq_turn keep hsome]
    exact .next hsome rfl rest
  · obtain ⟨hleft, hright⟩ := not_or.mp hsome
    obtain rfl := not_not.mp hleft
    obtain rfl := not_not.mp hright
    refine ⟨0, Nat.zero_le _, ?_⟩
    rw [pairUp]
    exact .done
termination_by left.length + right.length

/-- A walk ends in one way only, with the pairs that `pairUp` makes. -/
theorem Walk.eq_pairUp (h : Walk keep left right n pairs) : pairs = pairUp keep left right := by
  induction h with
  | done => rw [pairUp]
  | next hsome hturn rest ih => rw [ih, ← hturn, ← pairUp_eq_turn keep hsome]

/-! ## What is in a pair -/

/-- A pair that has a sample, and two samples only of one time. -/
def IsMeeting (pair : Option Sample × Option Sample) : Prop :=
  (pair.1.isSome ∨ pair.2.isSome) ∧ pairTime? pair.swap = pairTime? pair

/-- What a turn hands on has a sample, and two of them only if neither side was earlier. -/
theorem isMeeting_turn (h : left ≠ [] ∨ right ≠ [])
    (hpair : pair ∈ (turn keep left right).handedOn) : IsMeeting pair := by
  have hleft : ∀ x : Sample, IsMeeting (some x, none) := fun x => ⟨.inl rfl, rfl⟩
  have hright : ∀ x : Sample, IsMeeting (none, some x) := fun x => ⟨.inr rfl, rfl⟩
  by_cases hlt : standing left < standing right
  · obtain ⟨l, ls, rfl⟩ := List.exists_cons_of_ne_nil (ne_nil_of_standing_lt hlt)
    simp only [turn, if_pos hlt, List.head?_cons, Option.mem_ite_none_right] at hpair
    obtain ⟨-, hpair⟩ := hpair
    obtain rfl := Option.some.inj hpair
    exact hleft l
  · by_cases hgt : standing right < standing left
    · obtain ⟨r, rs, rfl⟩ := List.exists_cons_of_ne_nil (ne_nil_of_standing_lt hgt)
      simp only [turn, if_neg hlt, if_pos hgt, List.head?_cons, Option.mem_ite_none_right] at hpair
      obtain ⟨-, hpair⟩ := hpair
      obtain rfl := Option.some.inj hpair
      exact hright r
    · simp only [turn, if_neg hlt, if_neg hgt, Option.mem_some] at hpair
      obtain rfl := hpair
      match left, right with
      | [], [] => exact absurd rfl (h.elim id id)
      | l :: ls, [] => exact hleft l
      | [], r :: rs => exact hright r
      | l :: ls, r :: rs =>
        -- neither is earlier, so the two times are one
        have htime : r.time = l.time :=
          Int64.le_antisymm (Int64.not_lt.mp hlt) (Int64.not_lt.mp hgt)
        exact ⟨.inl rfl, congrArg some htime⟩

/-- What holds of every turn holds of everything that a walk hands on. -/
theorem Walk.isMeeting (h : Walk keep left right n pairs) : ∀ pair ∈ pairs, IsMeeting pair := by
  induction h with
  | done => exact fun pair hpair => absurd hpair List.not_mem_nil
  | next hsome hturn rest ih =>
    intro pair hpair
    rcases List.mem_append.mp hpair with hpair | hpair
    · rw [← hturn] at hpair
      exact isMeeting_turn hsome (Option.mem_toList.mp hpair)
    · exact ih pair hpair

/-- **Every pair has a sample**, and if it has two, they are at one time. -/
theorem isMeeting_of_mem_pairUp (h : pair ∈ pairUp keep left right) : IsMeeting pair := by
  obtain ⟨n, -, hwalk⟩ := walk_pairUp keep left right
  exact hwalk.isMeeting pair h

/-! ## Swapped sides -/

/-- A turn seen from the other side. -/
def Turn.swap (t : Turn) : Turn :=
  { handedOn := t.handedOn.map Prod.swap, left := t.right, right := t.left }

/-- Swapped sides make the same turn, seen from the other side. -/
theorem turn_swap (keep : Bool) (left right : List Sample) :
    turn keep right left = (turn keep left right).swap := by
  unfold turn
  -- Only where the sides stand decides about a turn, and swapping them swaps the outcomes.
  by_cases hlt : standing left < standing right
  · rw [if_neg (Int64.lt_asymm hlt), if_pos hlt, if_pos hlt]
    cases keep <;> rfl
  · by_cases hgt : standing right < standing left
    · rw [if_pos hgt, if_neg hlt, if_pos hgt]
      cases keep <;> rfl
    · rw [if_neg hgt, if_neg hlt, if_neg hlt, if_neg hgt]
      rfl

/-- The swapped turns make the same walk, seen from the other side. -/
theorem Walk.swap (h : Walk keep left right n pairs) :
    Walk keep right left n (pairs.map Prod.swap) := by
  induction h with
  | done => exact .done
  -- The turn is swapped, and by induction so are those after it.
  | @next left right t n pairs hsome hturn rest ih =>
    have hswap : turn keep right left = t.swap := by rw [turn_swap, hturn]
    rw [List.map_append, ← Option.toList_map]
    exact .next hsome.symm hswap ih

/-- **Swapped sides give swapped pairs.** -/
theorem pairUp_swap (keep : Bool) (left right : List Sample) :
    pairUp keep right left = (pairUp keep left right).map Prod.swap := by
  obtain ⟨n, -, hwalk⟩ := walk_pairUp keep left right
  exact hwalk.swap.eq_pairUp.symm

/-- The times of the pairs do not know left from right. -/
theorem pairTimes_swap (keep : Bool) (left right : List Sample) :
    pairTimes keep right left = pairTimes keep left right := by
  rw [pairTimes, pairUp_swap, List.filterMap_map, pairTimes]
  exact List.filterMap_congr fun pair hpair => (isMeeting_of_mem_pairUp hpair).2

/-! ## Other values -/

section Values

variable {f g : Sample → Sample} (hf : ∀ x, (f x).time = x.time) (hg : ∀ x, (g x).time = x.time)

/-- The turn with its samples changed. -/
def Turn.map (f g : Sample → Sample) (t : Turn) : Turn :=
  { handedOn := t.handedOn.map (Prod.map (Option.map f) (Option.map g))
    left := t.left.map f
    right := t.right.map g }

include hf in
/-- Other values do not move a side. -/
theorem standing_map (samples : List Sample) : standing (samples.map f) = standing samples := by
  cases samples with
  | nil => rfl
  | cons x rest => exact hf x

include hf hg

/-- Where the sides stand is all that a turn asks for. -/
theorem turn_map (keep : Bool) (left right : List Sample) :
    turn keep (left.map f) (right.map g) = (turn keep left right).map f g := by
  unfold turn
  rw [standing_map hf, standing_map hg]
  by_cases hlt : standing left < standing right
  · rw [if_pos hlt, if_pos hlt, List.head?_map, ← List.map_tail]
    cases keep <;> rfl
  · rw [if_neg hlt, if_neg hlt]
    by_cases hgt : standing right < standing left
    · rw [if_pos hgt, if_pos hgt, List.head?_map, ← List.map_tail]
      cases keep <;> rfl
    · rw [if_neg hgt, if_neg hgt, List.head?_map, List.head?_map, ← List.map_tail, ← List.map_tail]
      rfl

/-- Other values make the same walk. -/
theorem Walk.map (h : Walk keep left right n pairs) :
    Walk keep (left.map f) (right.map g) n
      (pairs.map (Prod.map (Option.map f) (Option.map g))) := by
  induction h with
  | done => exact .done
  | @next left right t n pairs hsome hturn rest ih =>
    have hmap : turn keep (left.map f) (right.map g) = t.map f g := by rw [turn_map hf hg, hturn]
    have hne : left.map f ≠ [] ∨ right.map g ≠ [] :=
      hsome.imp List.map_eq_nil_iff.not.mpr List.map_eq_nil_iff.not.mpr
    rw [List.map_append, ← Option.toList_map]
    exact .next hne hmap ih

/-- **Other values at the same times give pairs of the same samples.** -/
theorem pairUp_map (keep : Bool) (left right : List Sample) :
    pairUp keep (left.map f) (right.map g) =
      (pairUp keep left right).map (Prod.map (Option.map f) (Option.map g)) := by
  obtain ⟨n, -, hwalk⟩ := walk_pairUp keep left right
  exact (hwalk.map hf hg).eq_pairUp.symm

/-- The values have no part in the times of the pairs. -/
theorem pairTimes_map (keep : Bool) (left right : List Sample) :
    pairTimes keep (left.map f) (right.map g) = pairTimes keep left right := by
  rw [pairTimes, pairUp_map hf hg, List.filterMap_map, pairTimes]
  refine List.filterMap_congr fun pair _ => ?_
  rcases pair with ⟨_ | x, _ | y⟩
  · rfl
  · exact congrArg some (hg y)
  · exact congrArg some (hf x)
  · exact congrArg some (hf x)

end Values

/-- The times of the pairs depend on the times of the samples only. -/
theorem pairTimes_congr {left' right' : List Sample} (keep : Bool)
    (hleft : left.map Sample.time = left'.map Sample.time)
    (hright : right.map Sample.time = right'.map Sample.time) :
    pairTimes keep left right = pairTimes keep left' right' := by
  -- a list of samples with all values cleared is as good as the list of its times
  have hclear : ∀ samples : List Sample,
      samples.map (fun x => { x with value := 0.0 }) =
        (samples.map Sample.time).map fun t => ⟨t, 0.0⟩ := by
    intro samples
    rw [List.map_map]
    rfl
  have hmap := pairTimes_map (f := fun x => { x with value := 0.0 })
    (g := fun x => { x with value := 0.0 }) (fun _ => rfl) (fun _ => rfl) keep
  rw [← hmap left right, ← hmap left' right', hclear, hclear, hclear, hclear, hleft, hright]

end SeriesQuery
