/-
  Names in ascending order.

  Two lists of a registry are sorted by name: the names that messages list (`ascendingNames`) and
  the aggregations that wait for their turn (`Registry.byName`).  Sorting forgets where an item
  stood before.  So both lists depend on what is in them only, and where no name comes twice they
  ascend strictly.
-/
import Mathlib.Data.String.Basic
import SeriesQuery.Proofs.Query.Ordering

namespace SeriesQuery

/-! ## Sorting by a text -/

section SortBy

variable {α : Type} (name : α → String)

/-- What `mergeSort` gives for the order of some text of the items ascends in this text. -/
theorem mergeSort_by_pairwise (items : List α) :
    (items.mergeSort fun a b => !(name b < name a : Bool)).Pairwise fun a b => name a ≤ name b := by
  have hle : ∀ a b : α, (!(name b < name a : Bool)) = true ↔ name a ≤ name b := by
    simp only [Bool.not_eq_true', decide_eq_false_iff_not, not_lt, implies_true]
  refine (List.pairwise_mergeSort (fun a b c hab hbc => ?_) (fun a b => ?_) items).imp (hle _ _).mp
  · exact (hle a c).mpr (le_trans ((hle a b).mp hab) ((hle b c).mp hbc))
  · rw [Bool.or_eq_true, hle, hle]
    exact le_total (name a) (name b)

/-- An ascending list without repetitions ascends strictly. -/
theorem pairwise_lt_of_nodup {names : List String} (h : names.Pairwise (· ≤ ·))
    (hnodup : names.Nodup) : names.Pairwise (· < ·) :=
  (h.and hnodup).imp fun hle => lt_of_le_of_ne hle.1 hle.2

end SortBy

/-! ## Lists of names -/

theorem ascendingNames_pairwise (names : List String) : (ascendingNames names).Pairwise (· ≤ ·) :=
  mergeSort_by_pairwise id names

theorem ascendingNames_perm (names : List String) : (ascendingNames names).Perm names :=
  List.mergeSort_perm names _

/-- Names in another order give the same ascending list. -/
theorem ascendingNames_congr {names names' : List String} (h : names'.Perm names) :
    ascendingNames names' = ascendingNames names :=
  List.Perm.eq_of_pairwise (fun _ _ _ _ => le_antisymm) (ascendingNames_pairwise names')
    (ascendingNames_pairwise names)
    ((ascendingNames_perm names').trans (h.trans (ascendingNames_perm names).symm))

/-- The first of the ascending names with a property is the least. -/
theorem le_of_find?_ascendingNames {names : List String} {p : String → Bool} {name : String}
    (h : (ascendingNames names).find? p = some name) :
    ∀ other ∈ names, p other = true → name ≤ other := by
  intro other hother hp
  obtain ⟨-, before, after, hsplit, hbefore⟩ := List.find?_eq_some_iff_append.mp h
  have hmem := Registry.mem_ascendingNames.mpr hother
  have hsorted := ascendingNames_pairwise names
  rw [hsplit] at hmem hsorted
  rcases List.mem_append.mp hmem with hearlier | hlater
  · -- before the first one, nothing has the property
    have hnot := hbefore other hearlier
    rw [hp] at hnot
    cases hnot
  · rcases List.mem_cons.mp hlater with rfl | hrest
    · exact le_rfl
    · exact (List.pairwise_cons.mp (List.pairwise_append.mp hsorted).2.1).1 other hrest

namespace Registry

/-! ## The aggregations by name -/

/-- No two coordinator aggregations share a name, so their names ascend strictly. -/
theorem byName_ascending {r : Registry} (hr : r.Consistent) :
    (r.byName.map Aggregation.name).Pairwise (· < ·) := by
  have hle : (r.byName.map Aggregation.name).Pairwise (· ≤ ·) :=
    List.pairwise_map.mpr (mergeSort_by_pairwise Aggregation.name r.coordinators)
  exact pairwise_lt_of_nodup hle (byName_nodup hr)

/-- Coordinator aggregations in another order give the same list by name. -/
theorem byName_congr {r r' : Registry} (hr : r.Consistent)
    (h : r'.coordinators.Perm r.coordinators) : r'.byName = r.byName := by
  have hperm : r'.byName.Perm r.byName := r'.byName_perm.trans (h.trans r.byName_perm.symm)
  refine List.Perm.eq_of_pairwise (fun a b ha hb hab hba => ?_)
    (mergeSort_by_pairwise Aggregation.name r'.coordinators)
    (mergeSort_by_pairwise Aggregation.name r.coordinators) hperm
  exact List.inj_on_of_nodup_map (byName_nodup hr) (hperm.mem_iff.mp ha) hb (le_antisymm hab hba)

end Registry
end SeriesQuery
