/-
  Which series on the right a series on the left is combined with.

  The operand is merged from all series that match, except that a lone series on the right is the
  operand of every series, matching or not.  The exception makes no difference where the lone series
  does match (`operand?_eq_merge`), because one series is merged into itself.  So series that match
  nothing may be left out (`apply_leavesOut`), down to a lone one that matches everything, and down
  to none.

  In another order the same series match, and their sum has the same times and the same range.  What
  comes out then has the same times as well, and so changes in its values at most (`apply_perm`).
-/
import Mathlib.Data.List.Forall2
import SeriesQuery.Proofs.Stage.Summing
import SeriesQuery.Proofs.Stage.Swapping

namespace SeriesQuery

/-! ## Operands

The special case of a lone series on the right is taken out of the way first.  After that an operand
is what is merged from the matching series. -/

namespace Projection

variable {p : Projection} {right : List Series} {l : Series}

/-- If one series is merged into itself, then the operand is merged from the matching series, as
    long as a lone one is among these. -/
theorem operand?_eq_merge (hone : ∀ only, p.merge [only] = some only)
    (hlone : ∀ only, right = [only] → Labels.agreeOn p.labelKeys l.labels only.labels = true) :
    p.operand? l right = p.merge (matching p.labelKeys l.labels right) := by
  unfold operand?
  split
  case h_1 only =>
    have hmatch : matching p.labelKeys l.labels [only] = [only] :=
      List.filter_cons_of_pos (hlone only rfl)
    rw [hmatch, hone]
  case h_2 => rfl

/-- If nothing is merged from no series, then no series on the right is no special case. -/
theorem combineAll_eq_filterMap (hnone : p.merge [] = none) (left right : List Series) :
    p.combineAll left right = left.filterMap fun l => (p.operand? l right).bind (p.align l) := by
  unfold combineAll
  split
  case isTrue hempty =>
    obtain rfl := List.isEmpty_iff.mp hempty
    -- With nothing on the right there is no operand for any series.
    have hoperand : ∀ l, p.operand? l [] = none := fun _ => hnone
    simp only [hoperand, Option.bind_none]
    exact (List.filterMap_eq_nil_iff.mpr fun _ _ => rfl).symm
  case isFalse => rfl

end Projection

/-! ## Series that match nothing -/

/-- A list of which series with a property are left out: all of them, or some, or none. -/
inductive LeavesOut (p : Series → Prop) : List Series → List Series → Prop
  | nil : LeavesOut p [] []
  | keep {all kept : List Series} (s : Series) (h : LeavesOut p all kept) :
      LeavesOut p (s :: all) (s :: kept)
  | leaveOut {all kept : List Series} (s : Series) (hs : p s) (h : LeavesOut p all kept) :
      LeavesOut p (s :: all) kept

/-- Who looks for other series does not miss them. -/
theorem LeavesOut.filter {p : Series → Prop} {q : Series → Bool} {all kept : List Series}
    (h : LeavesOut p all kept) (hp : ∀ s, p s → q s = false) : kept.filter q = all.filter q := by
  induction h with
  | nil => rfl
  | keep s h ih => rw [List.filter_cons, List.filter_cons, ih]
  | leaveOut s hs h ih =>
    have hother : ¬ q s = true := by
      rw [hp s hs]
      exact Bool.false_ne_true
    rw [List.filter_cons_of_neg hother, ih]

/-- A series on the right that no series on the left matches. -/
def Unmatched (keys : List String) (left : List Series) (s : Series) : Prop :=
  ∀ l ∈ left, Labels.agreeOn keys l.labels s.labels = false

/-- **Series that match nothing may be left out**, as long as a lone one that is left matches
    everything. -/
theorem apply_leavesOut (a : Arithmetic) (left : List Series) {right kept : List Series}
    (hmany : 2 ≤ right.length) (hrest : LeavesOut (Unmatched a.labels left) right kept)
    (hlone : ∀ only, kept = [only] → ∀ l ∈ left,
      Labels.agreeOn a.labels l.labels only.labels = true) :
    ∃ out, a.projection.apply (some left) (some kept) = .ok out ∧
      a.projection.apply (some left) (some right) = .ok out := by
  refine ⟨a.projection.combineAll left kept, rfl, congrArg Except.ok ?_⟩
  rw [Projection.combineAll_eq_filterMap rfl, Projection.combineAll_eq_filterMap rfl]
  refine List.filterMap_congr fun l hl => ?_
  -- On the right there are two series or more, so none of them is alone.
  have hnotLone : ∀ only, right = [only] →
      Labels.agreeOn a.projection.labelKeys l.labels only.labels = true := by
    rintro only rfl
    exact absurd hmany (Nat.not_succ_le_self 1)
  have hmatching : Projection.matching a.projection.labelKeys l.labels kept =
      Projection.matching a.projection.labelKeys l.labels right :=
    hrest.filter fun s hs => hs l hl
  rw [Projection.operand?_eq_merge (fun _ => rfl) hnotLone,
    Projection.operand?_eq_merge (fun _ => rfl) fun only honly => hlone only honly l hl, hmatching]

/-- Two series of one host on the left, and on the right a series of another host, which is left
    out. -/
theorem apply_leavesOut_usage :
    let series (host : String) (value : Float) : Series :=
      { samples := [⟨0, value⟩, ⟨10, value⟩], labels := .ofList [("host", host)], minTime := 0,
        maxTime := 10, step := 10, title := none }
    let left := [series "a" 1.0, series "a" 2.0]
    let right := [series "b" 3.0, series "a" 4.0]
    let kept := [series "a" 4.0]
    let a : Arithmetic := ⟨.add, "right", ["host"], false⟩
    2 ≤ right.length ∧ LeavesOut (Unmatched a.labels left) right kept ∧
    (∀ l ∈ left, Labels.agreeOn a.labels l.labels (series "a" 4.0).labels = true) ∧
    (∃ out, a.projection.apply (some left) (some kept) = .ok out ∧
      a.projection.apply (some left) (some right) = .ok out) ∧
    (a.projection.combineAll left kept).map Series.samples =
      [[⟨0, 5.0⟩, ⟨10, 5.0⟩], [⟨0, 6.0⟩, ⟨10, 6.0⟩]] := by
  intro series left right kept a
  have hmany : 2 ≤ right.length := Nat.le_refl 2
  have hother : Unmatched a.labels left (series "b" 3.0) := by unfold Unmatched; decide +kernel
  have hrest : LeavesOut (Unmatched a.labels left) right kept :=
    .leaveOut _ hother (.keep _ .nil)
  have hmatch : ∀ l ∈ left, Labels.agreeOn a.labels l.labels (series "a" 4.0).labels = true := by
    decide +kernel
  have hlone : ∀ only, kept = [only] → ∀ l ∈ left,
      Labels.agreeOn a.labels l.labels only.labels = true := by
    intro only honly
    obtain rfl := List.singleton_inj.mp honly
    exact hmatch
  exact ⟨hmany, hrest, hmatch, apply_leavesOut a left hmany hrest hlone, by decide +kernel⟩

/-! ## Another order of the series on the right

A permutation changes an operand in its values at most, and the values of an operand change the
values of a result at most.  Which series on the left have a result is then the same as well. -/

/-- Two functions that are defined at the same items, with related values: which items these are,
    and what comes out of either function in their order.  The sources are collected by induction on
    the items. -/
theorem exists_sources {α β γ : Type} {f : α → Option β} {g : α → Option γ} {R : β → γ → Prop}
    {items : List α} (h : ∀ x ∈ items, Option.Rel R (f x) (g x)) :
    ∃ sources, sources.Sublist items ∧
      List.Forall₂ (fun x y => f x = some y) sources (items.filterMap f) ∧
      List.Forall₂ (fun x z => g x = some z) sources (items.filterMap g) ∧
      List.Forall₂ R (items.filterMap f) (items.filterMap g) := by
  induction items with
  | nil => exact ⟨[], List.Sublist.slnil, .nil, .nil, .nil⟩
  | cons x rest ih =>
    obtain ⟨sources, hsub, hf, hg, hR⟩ := ih fun x hx => h x (List.mem_cons_of_mem _ hx)
    have hx := h x List.mem_cons_self
    -- Related options are both there or both missing, so an item is a source of both or of neither.
    generalize hfx : f x = y, hgx : g x = z at hx
    cases hx with
    | none =>
      rw [List.filterMap_cons_none hfx, List.filterMap_cons_none hgx]
      exact ⟨sources, hsub.cons x, hf, hg, hR⟩
    | some hyz =>
      rw [List.filterMap_cons_some hfx, List.filterMap_cons_some hgx]
      exact ⟨x :: sources, hsub.cons_cons x, .cons hfx hf, .cons hgx hg, .cons hyz hR⟩

variable {right right' : List Series} {l : Series}

/-- In another order, series have a sum with the same times and the same range. -/
theorem rel_sumSeries (h : right.Perm right') :
    Option.Rel Series.SameExtent (sumSeries right) (sumSeries right') := by
  have hlength := h.length_eq
  match right, right' with
  | [], [] => exact .none
  | [only], [only'] =>
    obtain rfl := List.singleton_perm_singleton.mp h
    exact .some (Series.SameExtent.refl only)
  | first :: second :: rest, first' :: second' :: rest' =>
    obtain ⟨sum, hsum⟩ : ∃ sum, sumSeries (first :: second :: rest) = some sum := ⟨_, rfl⟩
    obtain ⟨sum', hsum'⟩ : ∃ sum', sumSeries (first' :: second' :: rest') = some sum' := ⟨_, rfl⟩
    rw [hsum, hsum']
    exact .some ((isSum_sumSeries hsum).sameExtent (isSum_sumSeries hsum') fun _ => h.mem_iff)

namespace Arithmetic

variable {a : Arithmetic}

/-- In another order of the series on the right, the operand has the same times and the same
    range. -/
theorem rel_operand? (h : right.Perm right') (l : Series) :
    Option.Rel Series.SameExtent (a.projection.operand? l right)
      (a.projection.operand? l right') := by
  -- A lone series is the operand in every order. Of several, those that match are merged.
  by_cases hone : ∃ only, right = [only]
  · obtain ⟨only, rfl⟩ := hone
    obtain rfl := List.singleton_perm.mp h
    exact .some (Series.SameExtent.refl only)
  · have hone' : ∀ only, right' ≠ [only] := by
      rintro only rfl
      exact hone ⟨only, List.perm_singleton.mp h⟩
    rw [Projection.operand?_eq_merge (fun _ => rfl) fun only honly => absurd ⟨only, honly⟩ hone,
      Projection.operand?_eq_merge (fun _ => rfl) fun only honly => absurd honly (hone' only)]
    exact rel_sumSeries (h.filter _)

/-- Only the times and the range of the operand show, but for the values. -/
theorem rel_align_of_sameExtent {r r' : Series} (h : r.SameExtent r') (l : Series) :
    Option.Rel Series.SameButValues (a.projection.align l r) (a.projection.align l r') := by
  have htimes : pairTimes a.keepUnmatched l.samples r.samples =
      pairTimes a.keepUnmatched l.samples r'.samples := pairTimes_congr _ rfl h.times
  refine rel_align htimes fun out out' hout hout' => ⟨?_, ?_, ?_, ?_, ?_, ?_⟩
  · rw [hout.times, hout'.times, htimes]
  · rw [hout.labels, hout'.labels]
  · rw [hout.title, hout'.title]
  · rw [hout.minTime, hout'.minTime, h.minTime]
  · rw [hout.maxTime, hout'.maxTime, h.maxTime]
  · rw [hout.step, hout'.step]

/-- In another order of the series on the right, a series on the left has the same result up to
    values. -/
theorem rel_combine (h : right.Perm right') (l : Series) :
    Option.Rel Series.SameButValues
      ((a.projection.operand? l right).bind (a.projection.align l))
      ((a.projection.operand? l right').bind (a.projection.align l)) := by
  have hoperand := rel_operand? (a := a) h l
  generalize a.projection.operand? l right = r, a.projection.operand? l right' = r' at hoperand ⊢
  cases hoperand with
  | none => exact .none
  | some hextent => exact rel_align_of_sameExtent hextent l

/-- A result and the series on the left that it stems from. -/
structure StemsFrom (a : Arithmetic) (right : List Series) (l out : Series) : Prop where
  combined : ∃ r, a.projection.operand? l right = some r ∧ a.projection.align l r = some out
  labels : out.labels = l.labels
  title : out.title = l.title
  step : out.step = l.step

/-- What a series on the left is combined to stems from it. -/
theorem stemsFrom_of_combine {out : Series}
    (h : (a.projection.operand? l right).bind (a.projection.align l) = some out) :
    a.StemsFrom right l out := by
  obtain ⟨r, hr, halign⟩ := Option.bind_eq_some_iff.mp h
  have hframes := frames_of_align halign
  exact ⟨⟨r, hr, halign⟩, hframes.labels, hframes.title, hframes.step⟩

end Arithmetic

/-- **The order of the series on the right shows in values only.**  Each result stems from a series
    on the left, in their order. -/
theorem apply_perm (a : Arithmetic) (left : List Series) (h : right.Perm right') :
    ∃ out out' sources,
      a.projection.apply (some left) (some right) = .ok out ∧
      a.projection.apply (some left) (some right') = .ok out' ∧
      List.Forall₂ Series.SameButValues out out' ∧
      sources.Sublist left ∧
      List.Forall₂ (a.StemsFrom right) sources out ∧
      List.Forall₂ (a.StemsFrom right') sources out' := by
  have hcombine : ∀ l ∈ left, Option.Rel Series.SameButValues
      ((a.projection.operand? l right).bind (a.projection.align l))
      ((a.projection.operand? l right').bind (a.projection.align l)) :=
    fun l _ => Arithmetic.rel_combine h l
  obtain ⟨sources, hsub, hout, hout', hsame⟩ := exists_sources hcombine
  have hall := Projection.combineAll_eq_filterMap (p := a.projection) rfl left
  rw [← hall right] at hout hsame
  rw [← hall right'] at hout' hsame
  exact ⟨_, _, sources, rfl, rfl, hsame, hsub, hout.imp fun _ _ => Arithmetic.stemsFrom_of_combine,
    hout'.imp fun _ _ => Arithmetic.stemsFrom_of_combine⟩

/-- Three series that match, in two orders.  Where the small value is added to the large one, it is
    lost. -/
theorem apply_perm_usage :
    let series (host : String) (value : Float) : Series :=
      { samples := [⟨0, value⟩], labels := .ofList [("host", host)], minTime := 0, maxTime := 0,
        step := 10, title := none }
    let left := [series "a" 0.0, series "b" 0.0]
    let right := [series "a" 1e16, series "a" 1.0, series "a" (-1e16)]
    let right' := [series "a" 1e16, series "a" (-1e16), series "a" 1.0]
    let a : Arithmetic := ⟨.add, "right", ["host"], false⟩
    right.Perm right' ∧
    (∃ out out' sources,
      a.projection.apply (some left) (some right) = .ok out ∧
      a.projection.apply (some left) (some right') = .ok out' ∧
      List.Forall₂ Series.SameButValues out out' ∧
      sources.Sublist left ∧
      List.Forall₂ (a.StemsFrom right) sources out ∧
      List.Forall₂ (a.StemsFrom right') sources out') ∧
    (a.projection.combineAll left right).map Series.samples = [[⟨0, 0.0⟩]] ∧
    (a.projection.combineAll left right').map Series.samples = [[⟨0, 1.0⟩]] := by
  intro series left right right' a
  have hperm : right.Perm right' := (List.Perm.swap _ _ []).cons _
  exact ⟨hperm, apply_perm a left hperm, by decide +kernel, by decide +kernel⟩

end SeriesQuery
