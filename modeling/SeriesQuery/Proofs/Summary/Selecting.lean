/-
  Summaries that select one of the values.

  The least, the greatest and the last value are found in one way: a value is kept until another one
  takes its place (`keep`).  They differ in nothing but when this is so (`Selects`).  If taking the
  place of another is transitive, and not taking it is too (`Regular`), then `keep` is associative.
  It makes no difference then whether the values are gone through at once or in groups, and the
  results of the groups after that (`of_flatten`).  For the last value this holds always, for the
  least and the greatest one where `<` is a strict weak order on the values.
-/
import SeriesQuery.Proofs.Decimal.Comparing
import SeriesQuery.Summary.Accumulator

namespace SeriesQuery

/-! ## Keeping a value -/

section Keep

variable (replaces : Float → Float → Prop) [DecidableRel replaces]

/-- The value that is kept after `x`. -/
def keep (kept x : Float) : Float := if replaces x kept then x else kept

/-- A relation that goes on from one pair of values to the next, and so does its negation. -/
structure Regular (values : List Float) : Prop where
  trans : ∀ a ∈ values, ∀ b ∈ values, ∀ c ∈ values, replaces b a → replaces c b → replaces c a
  not_trans : ∀ a ∈ values, ∀ b ∈ values, ∀ c ∈ values,
    ¬ replaces b a → ¬ replaces c b → ¬ replaces c a

variable {replaces} {values xs : List Float} {a b c x : Float}

/-- No value is made up: what is kept is one of the two. -/
theorem keep_mem (ha : a ∈ values) (hx : x ∈ values) : keep replaces a x ∈ values := by
  unfold keep
  split
  · exact hx
  · exact ha

/-- **Keeping is associative** on values on which the relation is regular. -/
theorem keep_assoc (h : Regular replaces values) (ha : a ∈ values) (hb : b ∈ values)
    (hc : c ∈ values) :
    keep replaces (keep replaces a b) c = keep replaces a (keep replaces b c) := by
  unfold keep
  -- Only where both replace, or neither does, does it matter how `c` and `a` compare.
  by_cases hba : replaces b a <;> by_cases hcb : replaces c b
  · have hca := h.trans a ha b hb c hc hba hcb
    simp only [hba, hcb, hca, if_true]
  · simp only [hba, hcb, if_true, if_false]
  · simp only [hba, hcb, if_true, if_false]
  · have hca := h.not_trans a ha b hb c hc hba hcb
    simp only [hba, hcb, hca, if_false]

/-- What is kept in the end is one of the values. -/
theorem foldl_keep_mem (ha : a ∈ values) (hxs : ∀ x ∈ xs, x ∈ values) :
    xs.foldl (keep replaces) a ∈ values := by
  induction xs generalizing a with
  | nil => exact ha
  | cons x xs ih =>
    obtain ⟨hx, hxs⟩ := List.forall_mem_cons.mp hxs
    exact ih (keep_mem ha hx) hxs

/-- A value in front can be dealt with afterwards. -/
theorem foldl_keep (h : Regular replaces values) (ha : a ∈ values) (hx : x ∈ values)
    (hxs : ∀ x ∈ xs, x ∈ values) :
    xs.foldl (keep replaces) (keep replaces a x) =
      keep replaces a (xs.foldl (keep replaces) x) := by
  induction xs generalizing x with
  | nil => rfl
  | cons y xs ih =>
    obtain ⟨hy, hxs⟩ := List.forall_mem_cons.mp hxs
    rw [List.foldl_cons, List.foldl_cons, keep_assoc h ha hx hy]
    exact ih (keep_mem hx hy) hxs

end Keep

/-! ## Selecting -/

namespace Summary

variable {summary : Summary} {replaces : Float → Float → Prop} [DecidableRel replaces]
  {values : List Float} {groups : List (List Float)}

/-- The summary of values is the one that is kept of them. -/
def Selects (summary : Summary) (replaces : Float → Float → Prop) [DecidableRel replaces] : Prop :=
  ∀ x xs, summary.of (x :: xs) = xs.foldl (keep replaces) x

/-- After a first value, groups can be replaced by their summaries. -/
theorem Selects.foldl_flatten (hselects : summary.Selects replaces) (h : Regular replaces values)
    (hne : ∀ group ∈ groups, group ≠ []) (hmem : ∀ group ∈ groups, ∀ x ∈ group, x ∈ values)
    {a : Float} (ha : a ∈ values) :
    (groups.map summary.of).foldl (keep replaces) a = groups.flatten.foldl (keep replaces) a := by
  induction groups generalizing a with
  | nil => rfl
  -- The first value of the group is kept against the value so far; by associativity that may wait
  -- until the rest of the group has been gone through.
  | cons group groups ih =>
    obtain ⟨hgroup, hrest⟩ := List.forall_mem_cons.mp hne
    obtain ⟨hvalues, hothers⟩ := List.forall_mem_cons.mp hmem
    cases group with
    | nil => exact absurd rfl hgroup
    | cons x xs =>
      obtain ⟨hx, hxs⟩ := List.forall_mem_cons.mp hvalues
      rw [List.map_cons, List.foldl_cons, List.flatten_cons, List.foldl_append, List.foldl_cons,
        hselects, foldl_keep h ha hx hxs]
      exact ih hrest hothers (keep_mem ha (foldl_keep_mem hx hxs))

/-- **Values can be gone through in groups.** -/
theorem Selects.of_flatten (hselects : summary.Selects replaces) (h : Regular replaces values)
    (hne : ∀ group ∈ groups, group ≠ []) (hmem : ∀ group ∈ groups, ∀ x ∈ group, x ∈ values) :
    summary.of (groups.map summary.of) = summary.of groups.flatten := by
  cases groups with
  | nil => rfl
  | cons group groups =>
    obtain ⟨hgroup, hrest⟩ := List.forall_mem_cons.mp hne
    obtain ⟨hvalues, hothers⟩ := List.forall_mem_cons.mp hmem
    cases group with
    | nil => exact absurd rfl hgroup
    | cons x xs =>
      obtain ⟨hx, hxs⟩ := List.forall_mem_cons.mp hvalues
      rw [List.map_cons, List.flatten_cons, List.cons_append, hselects, hselects, hselects,
        List.foldl_append]
      exact hselects.foldl_flatten h hrest hothers (foldl_keep_mem hx hxs)

/-! ## The summaries that select -/

/-- A summary selects if its state is the value that is kept. -/
theorem selects_of_add (state : Float → Accumulator)
    (hfirst : ∀ x, summary.accumulator.add x = state x)
    (hnext : ∀ kept x, (state kept).add x = state (keep replaces kept x))
    (hresult : ∀ kept, (state kept).result = kept) : summary.Selects replaces := by
  intro x xs
  -- By induction on the values: the state is always that of the value kept so far.
  have hrun : ∀ kept, (state kept).addAll xs = state (xs.foldl (keep replaces) kept) := by
    induction xs with
    | nil => exact fun kept => rfl
    | cons y xs ih =>
      intro kept
      show ((state kept).add y).addAll xs = _
      rw [hnext]
      exact ih _
  show ((summary.accumulator.add x).addAll xs).result = _
  rw [hfirst, hrun, hresult]

/-- The last value takes the place of every other. -/
theorem selects_last : Summary.last.Selects fun _ _ => True :=
  selects_of_add (fun kept => .last (some kept)) (fun _ => rfl) (fun _ _ => rfl) fun _ => rfl

/-- The least value gives way to a lesser one only. -/
theorem selects_min : Summary.min.Selects fun x least => x < least :=
  selects_of_add (fun kept => .min (some kept)) (fun _ => rfl) (fun _ _ => rfl) fun _ => rfl

/-- The greatest value gives way to a greater one only. -/
theorem selects_max : Summary.max.Selects fun x greatest => greatest < x :=
  selects_of_add (fun kept => .max (some kept)) (fun _ => rfl) (fun _ _ => rfl) fun _ => rfl

/-! ## When groups make no difference -/

/-- What holds always is regular. -/
theorem regular_last : Regular (fun _ _ => True) values :=
  ⟨fun _ _ _ _ _ _ _ _ => trivial, fun _ _ _ _ _ _ h _ => absurd trivial h⟩

/-- A strict weak order is regular: values that are not told apart are in the same class. -/
theorem regular_of_isStrictWeakOrder {before : Float → Float → Prop}
    (h : IsStrictWeakOrder {x // x ∈ values} (Subrel before (· ∈ values))) :
    Regular before values := by
  refine ⟨fun a ha b hb c hc hba hcb => ?_, fun a ha b hb c hc hba hcb hca => ?_⟩
  · exact h.trans ⟨c, hc⟩ ⟨b, hb⟩ ⟨a, ha⟩ hcb hba
  · -- neither of `a` and `c` is apart from `b`, so they are not apart from each other
    have hab : ¬ before a b := fun hab => hcb (h.trans ⟨c, hc⟩ ⟨a, ha⟩ ⟨b, hb⟩ hca hab)
    have hbc : ¬ before b c := fun hbc => hba (h.trans ⟨b, hb⟩ ⟨c, hc⟩ ⟨a, ha⟩ hbc hca)
    exact (h.incomp_trans ⟨c, hc⟩ ⟨b, hb⟩ ⟨a, ha⟩ ⟨hcb, hbc⟩ ⟨hba, hab⟩).1 hca

/-- Summaries of groups have the same summary as all values, for some of the values given. -/
def Regroups (summary : Summary) (values : List Float) : Prop :=
  ∀ groups : List (List Float), (∀ group ∈ groups, group ≠ []) →
    (∀ group ∈ groups, ∀ x ∈ group, x ∈ values) →
    summary.of (groups.map summary.of) = summary.of groups.flatten

/-- The last of the last values is the last value, whatever the values are. -/
theorem regroups_last (values : List Float) : Summary.last.Regroups values :=
  fun _ hne hmem => selects_last.of_flatten regular_last hne hmem

/-- The least of the least values is the least value where `<` is a strict weak order. -/
theorem regroups_min
    (h : IsStrictWeakOrder {x // x ∈ values} (Subrel (· < ·) (· ∈ values))) :
    Summary.min.Regroups values :=
  fun _ hne hmem => selects_min.of_flatten (regular_of_isStrictWeakOrder h) hne hmem

/-- The greatest of the greatest values is the greatest value where `<` is a strict weak order. -/
theorem regroups_max
    (h : IsStrictWeakOrder {x // x ∈ values} (Subrel (· < ·) (· ∈ values))) :
    Summary.max.Regroups values := by
  -- The relation of the greatest value is the converse of `<`, which is a strict weak order too.
  have hswap : IsStrictWeakOrder {x // x ∈ values}
      (Subrel (fun x greatest => greatest < x) (· ∈ values)) :=
    inferInstanceAs (IsStrictWeakOrder _ (Function.swap (Subrel (· < ·) (· ∈ values))))
  exact fun _ hne hmem => selects_max.of_flatten (regular_of_isStrictWeakOrder hswap) hne hmem

end Summary
end SeriesQuery
