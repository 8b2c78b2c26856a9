/-
  The least and the greatest value, and the order in which the values come.

  Both summaries keep a value until one comes that is before it in an order of the numbers
  (`OrdersBy`).  "Not a number" is before nothing and nothing is before it.  So it is passed over if
  it comes later (`extreme_foldl`); but the first value is kept without a comparison, and if this is
  "not a number", then no other value takes its place (`foldl_keep_of_isNaN`).  Among numbers there
  is no such case: what is kept in the end is one of them that no other is before, and any two such
  are the same number.  Hence an order of the values differs from another one in its result exactly
  if "not a number" comes first in one of them and not in the other (`extremes_perm`).
-/
import SeriesQuery.Proofs.Decimal.Neutral
import SeriesQuery.Proofs.Summary.Reusing
import SeriesQuery.Proofs.Summary.Selecting
import SeriesQuery.Proofs.Summary.Sorting

namespace SeriesQuery

/-! ## What is kept -/

section Keep

variable {before : Float → Float → Prop} {key : Float → ℤ} {values xs ys : List Float}
  {a r s : Float}

/-- An order of the numbers: by a key that tells them apart. -/
structure OrdersBy (before : Float → Float → Prop) (key : Float → ℤ) : Prop where
  before_iff : ∀ x y, before x y ↔ x.isNaN = false ∧ y.isNaN = false ∧ key x < key y
  same_of_key_eq : ∀ x y, key x = key y → sameNumber x y = true

/-- One of the numbers among the values that none of them is before. -/
structure Extreme (before : Float → Float → Prop) (values : List Float) (r : Float) : Prop where
  mem : r ∈ values
  number : r.isNaN = false
  unbeaten : ∀ x ∈ values, ¬ before x r

/-- Which values there are determines the extreme one. -/
theorem Extreme.same (h : OrdersBy before key) (hr : Extreme before xs r)
    (hs : Extreme before ys s) (hperm : xs.Perm ys) : sameNumber r s = true := by
  refine h.same_of_key_eq r s (le_antisymm ?_ ?_)
  · have hbeats := hr.unbeaten s (hperm.mem_iff.mpr hs.mem)
    exact not_lt.mp fun hlt => hbeats ((h.before_iff s r).mpr ⟨hs.number, hr.number, hlt⟩)
  · have hbeats := hs.unbeaten r (hperm.mem_iff.mp hr.mem)
    exact not_lt.mp fun hlt => hbeats ((h.before_iff r s).mpr ⟨hr.number, hs.number, hlt⟩)

variable [DecidableRel before]

/-- Nothing takes the place of "not a number". -/
theorem foldl_keep_of_isNaN (h : OrdersBy before key) (ha : a.isNaN = true) (xs : List Float) :
    xs.foldl (keep before) a = a := by
  have hkeep : ∀ x, keep before a x = a := by
    refine fun x => if_neg fun hbefore => ?_
    have hnumber := ((h.before_iff x a).mp hbefore).2.1
    rw [ha] at hnumber
    cases hnumber
  induction xs with
  | nil => rfl
  | cons x xs ih => rw [List.foldl_cons, hkeep, ih]

/-- **After a number, the extreme of all is kept.**  What is kept first is beaten by nothing but
    numbers, and these are kept instead.  The induction is on the values that follow, whatever is
    kept so far. -/
theorem extreme_foldl (h : OrdersBy before key) (ha : a.isNaN = false) (xs : List Float) :
    Extreme before (a :: xs) (xs.foldl (keep before) a) := by
  induction xs generalizing a with
  | nil =>
    refine ⟨List.mem_singleton_self a, ha, fun x hx => ?_⟩
    obtain rfl := List.mem_singleton.mp hx
    exact fun hself => lt_irrefl _ ((h.before_iff x x).mp hself).2.2
  | cons y xs ih =>
    rw [List.foldl_cons]
    by_cases hya : before y a
    · obtain ⟨hy, -, hlt⟩ := (h.before_iff y a).mp hya
      rw [show keep before a y = y from if_pos hya]
      obtain ⟨hmem, hnumber, hunbeaten⟩ := ih hy
      refine ⟨List.mem_cons_of_mem _ hmem, hnumber, List.forall_mem_cons.mpr ⟨?_, hunbeaten⟩⟩
      -- what is before the result is not after `y`, but `a` is
      intro har
      have hbeats := hunbeaten y List.mem_cons_self
      have hkey := ((h.before_iff a _).mp har).2.2
      exact hbeats ((h.before_iff y _).mpr ⟨hy, hnumber, hlt.trans hkey⟩)
    · rw [show keep before a y = a from if_neg hya]
      obtain ⟨hmem, hnumber, hunbeaten⟩ := ih ha
      obtain ⟨hfirst, hrest⟩ := List.forall_mem_cons.mp hunbeaten
      refine ⟨?_, hnumber, List.forall_mem_cons.mpr ⟨hfirst, List.forall_mem_cons.mpr ⟨?_, hrest⟩⟩⟩
      · rcases List.mem_cons.mp hmem with hkept | hlater
        · rw [hkept]
          exact List.mem_cons_self
        · exact List.mem_cons_of_mem _ (List.mem_cons_of_mem _ hlater)
      · -- what is before the result is before `a`, since the result is not after it
        intro hyr
        obtain ⟨hy, -, hkey⟩ := (h.before_iff y _).mp hyr
        have hle : key (xs.foldl (keep before) a) ≤ key a :=
          not_lt.mp fun hlt => hfirst ((h.before_iff a _).mpr ⟨ha, hnumber, hlt⟩)
        exact hya ((h.before_iff y a).mpr ⟨hy, ha, hkey.trans_le hle⟩)

/-! ## Summaries that keep an extreme value -/

/-- Whether "not a number" comes first. -/
def nanFirst (values : List Float) : Bool := values.head?.any Float.isNaN

/-- Of numbers none is "not a number", also the first. -/
theorem nanFirst_of_numbers (hnumber : ∀ x ∈ values, x.isNaN = false) :
    nanFirst values = false := by
  cases values with
  | nil => rfl
  | cons x xs => exact hnumber x List.mem_cons_self

namespace Summary

variable {summary : Summary}

/-- If "not a number" comes first, it is the result. -/
theorem Selects.of_nanFirst (hselects : summary.Selects before) (h : OrdersBy before key)
    (hfirst : nanFirst values = true) : (summary.of values).isNaN = true := by
  cases values with
  | nil => cases hfirst
  | cons x xs =>
    rw [hselects, foldl_keep_of_isNaN h hfirst]
    exact hfirst

/-- If a number comes first, the result is the extreme of all numbers. -/
theorem Selects.extreme (hselects : summary.Selects before) (h : OrdersBy before key)
    (hne : values ≠ []) (hfirst : nanFirst values = false) :
    Extreme before values (summary.of values) := by
  cases values with
  | nil => exact absurd rfl hne
  | cons x xs =>
    rw [hselects]
    exact extreme_foldl h hfirst xs

/-- Another order gives the same result exactly if it does not differ in whether "not a number"
    comes first. -/
theorem Selects.sameNumber_iff (hselects : summary.Selects before) (h : OrdersBy before key)
    (hperm : xs.Perm ys) :
    sameNumber (summary.of xs) (summary.of ys) = true ↔ nanFirst xs = nanFirst ys := by
  by_cases hxs : xs = []
  · obtain rfl : ys = [] := List.nil_perm.mp (hxs ▸ hperm)
    rw [hxs]
    exact iff_of_true (Binary64.sameNumber_self _) rfl
  have hys : ys ≠ [] := fun hys => hxs (List.perm_nil.mp (hys ▸ hperm))
  -- Of values that are there, the result shows whether "not a number" came first.
  have hisNaN : ∀ {values : List Float}, values ≠ [] →
      (summary.of values).isNaN = nanFirst values := by
    intro values hne
    cases hfirst : nanFirst values with
    | true => exact hselects.of_nanFirst h hfirst
    | false => exact (hselects.extreme h hne hfirst).number
  constructor
  · intro hsame
    rw [← hisNaN hxs, ← hisNaN hys]
    exact isNaN_eq_of_sameNumber hsame
  · intro hfirst
    cases hnan : nanFirst xs with
    | true =>
      exact sameNumber_of_isNaN (hselects.of_nanFirst h hnan)
        (hselects.of_nanFirst h (hfirst ▸ hnan))
    | false =>
      exact (hselects.extreme h hxs hnan).same h (hselects.extreme h hys (hfirst ▸ hnan)) hperm

end Summary

end Keep

/-! ## The least and the greatest value -/

/-- For the least value, numbers are ordered as they are. -/
theorem ordersBy_lt : OrdersBy (fun x least => x < least) orderKey :=
  ⟨fun _ _ => lt_iff_orderKey_lt, fun _ _ => orderKey_eq_iff.mp⟩

/-- For the greatest value, numbers are ordered the other way. -/
theorem ordersBy_gt : OrdersBy (fun x greatest => greatest < x) fun x => -orderKey x := by
  refine ⟨fun x greatest => ?_, fun _ _ h => orderKey_eq_iff.mp (neg_inj.mp h)⟩
  rw [neg_lt_neg_iff]
  exact lt_iff_orderKey_lt.trans and_left_comm

namespace Summary

/-- **When the order of the values matters.**  If "not a number" comes first, both summaries are
    "not a number".  Otherwise they are the least and the greatest of the numbers among the values.
    So another order of the same values gives the same result exactly if "not a number" comes first
    in both or in neither; and of numbers, every order does. -/
theorem extremes_perm {xs ys : List Float} (hperm : xs.Perm ys) :
    (sameNumber (Summary.min.of xs) (Summary.min.of ys) = true ↔ nanFirst xs = nanFirst ys) ∧
      (sameNumber (Summary.max.of xs) (Summary.max.of ys) = true ↔ nanFirst xs = nanFirst ys) ∧
      (nanFirst xs = true →
        (Summary.min.of xs).isNaN = true ∧ (Summary.max.of xs).isNaN = true) ∧
      (xs ≠ [] → nanFirst xs = false →
        Extreme (fun x least => x < least) xs (Summary.min.of xs) ∧
          Extreme (fun x greatest => greatest < x) xs (Summary.max.of xs)) ∧
      ((∀ x ∈ xs, x.isNaN = false) →
        sameNumber (Summary.min.of xs) (Summary.min.of ys) = true ∧
          sameNumber (Summary.max.of xs) (Summary.max.of ys) = true) := by
  have hmin := selects_min.sameNumber_iff ordersBy_lt hperm
  have hmax := selects_max.sameNumber_iff ordersBy_gt hperm
  refine ⟨hmin, hmax, fun hfirst => ?_, fun hne hfirst => ?_, fun hnumber => ?_⟩
  · exact ⟨selects_min.of_nanFirst ordersBy_lt hfirst, selects_max.of_nanFirst ordersBy_gt hfirst⟩
  · exact ⟨selects_min.extreme ordersBy_lt hne hfirst, selects_max.extreme ordersBy_gt hne hfirst⟩
  · -- Among numbers only, it comes first in no order.
    have hsame : nanFirst xs = nanFirst ys := by
      rw [nanFirst_of_numbers hnumber,
        nanFirst_of_numbers fun y hy => hnumber y (hperm.mem_iff.mpr hy)]
    exact ⟨hmin.mpr hsame, hmax.mpr hsame⟩

/-- A negative zero and "not a number" among the values, in three orders. -/
theorem extremes_perm_usage :
    sameNumber (Summary.min.of [0.0, Binary64.notANumber, -0.0, 1.0])
        (Summary.min.of [1.0, -0.0, Binary64.notANumber, 0.0]) = true ∧
      sameNumber (Summary.max.of [0.0, Binary64.notANumber, -0.0, 1.0])
        (Summary.max.of [1.0, -0.0, Binary64.notANumber, 0.0]) = true ∧
      Extreme (fun x least => x < least) [0.0, Binary64.notANumber, -0.0, 1.0]
        (Summary.min.of [0.0, Binary64.notANumber, -0.0, 1.0]) ∧
      (Summary.min.of [Binary64.notANumber, 0.0, -0.0, 1.0]).isNaN = true ∧
      sameNumber (Summary.max.of [1.0, 2.0]) (Summary.max.of [2.0, 1.0]) = true := by
  obtain ⟨hmin, hmax, -, hextreme, -⟩ :=
    extremes_perm (List.reverse_perm [1.0, -0.0, Binary64.notANumber, 0.0])
  obtain ⟨-, -, hfirst, -, -⟩ :=
    extremes_perm (List.Perm.refl [Binary64.notANumber, 0.0, -0.0, 1.0])
  obtain ⟨-, -, -, -, hnumbers⟩ := extremes_perm (List.Perm.swap (2.0 : Float) 1.0 [])
  exact ⟨hmin.mpr (by decide +kernel), hmax.mpr (by decide +kernel),
    (hextreme (List.cons_ne_nil _ _) (by decide +kernel)).1, (hfirst (by decide +kernel)).1,
    (hnumbers (by decide +kernel)).2⟩

/-- **The order of the values matters** if one of them is "not a number". -/
theorem extremes_depend_on_order :
    ¬ ∀ xs ys : List Float, xs.Perm ys →
      sameNumber (Summary.min.of xs) (Summary.min.of ys) = true ∧
        sameNumber (Summary.max.of xs) (Summary.max.of ys) = true := by
  intro hall
  obtain ⟨-, hmax⟩ := hall [Binary64.notANumber, 1.0] [1.0, Binary64.notANumber]
    (List.Perm.swap _ _ _)
  have hdiffer : sameNumber (Summary.max.of [Binary64.notANumber, 1.0])
      (Summary.max.of [1.0, Binary64.notANumber]) = false := by decide +kernel
  rw [hdiffer] at hmax
  cases hmax

end Summary
end SeriesQuery
