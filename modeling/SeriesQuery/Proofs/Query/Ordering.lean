/-
  The order of evaluation, and what it promises to the one who follows it.

  `Registry.schedule` takes, again and again, the first aggregation that reads no pending one.
  Since the one that is taken is itself pending at that time, the list that comes out is in reading
  order: no aggregation reads itself or one that comes later (`ReadsBefore`).  Together with the
  check for unknown names this leaves only one place for everything that an aggregation reads: on
  the shards, or earlier in the list (`reads_available`).
-/
import SeriesQuery.Proofs.Query.Registration
import SeriesQuery.Proofs.Sequencing

namespace SeriesQuery

/-- No aggregation of the list reads itself or one that follows. -/
def ReadsBefore : List Aggregation → Prop
  | [] => True
  | a :: rest => (∀ b ∈ a :: rest, b.name ∉ a.reads) ∧ ReadsBefore rest

/-- At every place of such a list, what is read is not yet to come. -/
theorem ReadsBefore.not_mem_reads {order done rest : List Aggregation} {a : Aggregation}
    (h : ReadsBefore order) (hsplit : order = done ++ a :: rest) :
    ∀ b ∈ a :: rest, b.name ∉ a.reads := by
  subst hsplit
  induction done with
  | nil => exact h.1
  | cons d done ih => exact ih h.2

namespace Registry

/-! ## One turn of the schedule

A turn takes the first pending aggregation that reads no pending one.  As names are not repeated, it
takes this one only. -/

/-- Taking the aggregation with a name out of a list without repeated names leaves the others. -/
theorem perm_cons_filter_name {pending : List Aggregation} {a : Aggregation} (ha : a ∈ pending)
    (hnodup : (pending.map Aggregation.name).Nodup) :
    (a :: pending.filter fun b => b.name ≠ a.name).Perm pending := by
  -- As no name is repeated, `a` alone is taken out.
  have hfilter : (pending.filter fun b => b.name = a.name) = [a] := by
    have hsub : ∀ b ∈ pending.filter (fun b => b.name = a.name), b = a := by
      intro b hb
      obtain ⟨hb, hname⟩ := List.mem_filter.mp hb
      exact List.inj_on_of_nodup_map hnodup hb ha (of_decide_eq_true hname)
    have hmem : a ∈ pending.filter fun b => b.name = a.name :=
      List.mem_filter.mpr ⟨ha, decide_eq_true rfl⟩
    have hcount := (List.Nodup.of_map Aggregation.name hnodup).filter fun b => b.name = a.name
    exact List.perm_singleton.mp
      ((List.perm_ext_iff_of_nodup hcount (List.nodup_singleton a)).mpr fun b =>
        ⟨fun hb => List.mem_singleton.mpr (hsub b hb), fun hb => List.mem_singleton.mp hb ▸ hmem⟩)
  have hperm := List.filter_append_perm (fun b => decide (b.name = a.name)) pending
  rw [hfilter] at hperm
  simpa using hperm

/-- The aggregation of a turn is pending and reads none that is. -/
theorem of_find?_isReady {pending : List Aggregation} {a : Aggregation}
    (h : pending.find? (isReady pending) = some a) :
    a ∈ pending ∧ ∀ b ∈ pending, b.name ∉ a.reads := by
  refine ⟨List.mem_of_find?_eq_some h, fun b hb hread => ?_⟩
  have hready : isReady pending a = true := List.find?_some h
  have hname := List.all_eq_true.mp hready b.name hread
  have hpending : b.name ∈ pending.map Aggregation.name := List.mem_map_of_mem hb
  simp [hpending] at hname

/-! ## All turns -/

/-- **The schedule is sound.**  It lists all pending aggregations, each after what it reads.  The
    induction is on the turns, and what is pending after a turn has one aggregation less. -/
theorem schedule_sound {fuel : Nat} {pending order : List Aggregation}
    (hfuel : pending.length ≤ fuel) (hnodup : (pending.map Aggregation.name).Nodup)
    (h : schedule fuel pending = .ok order) : order.Perm pending ∧ ReadsBefore order := by
  -- The fuel counts the turns that are left, and each turn takes one aggregation.
  induction fuel generalizing pending order with
  | zero =>
    obtain rfl : pending = [] := List.length_eq_zero_iff.mp (Nat.le_zero.mp hfuel)
    obtain rfl : [] = order := Except.ok.inj h
    exact ⟨List.Perm.refl [], trivial⟩
  | succ fuel ih =>
    rw [schedule] at h
    split at h
    case h_1 a hfind =>
      obtain ⟨ha, hreads⟩ := of_find?_isReady hfind
      obtain ⟨rest, hrest, horder⟩ := bind_eq_ok.mp h
      obtain rfl : a :: rest = order := pure_eq_ok.mp horder
      have hperm := perm_cons_filter_name ha hnodup
      have hlength := hperm.length_eq
      rw [List.length_cons] at hlength
      have hnodup' := hnodup.sublist
        ((List.filter_sublist (p := fun b => decide (b.name ≠ a.name)) (l := pending)).map
          Aggregation.name)
      obtain ⟨hrestPerm, hrestReads⟩ := ih (by omega) hnodup' hrest
      have hall : (a :: rest).Perm pending := (hrestPerm.cons a).trans hperm
      exact ⟨hall, fun b hb => hreads b (hall.mem_iff.mp hb), hrestReads⟩
    case h_2 =>
      split at h
      case isTrue hempty =>
        obtain rfl : pending = [] := List.isEmpty_iff.mp hempty
        obtain rfl : [] = order := Except.ok.inj h
        exact ⟨List.Perm.refl [], trivial⟩
      case isFalse => cases h

/-! ## The order of a registry

The schedule starts with all coordinator aggregations, sorted by name, after the check that every
name that is read is known. -/

/-- Sorting names keeps all of them. -/
theorem mem_ascendingNames {names : List String} {name : String} :
    name ∈ ascendingNames names ↔ name ∈ names := by
  unfold ascendingNames
  exact List.mem_mergeSort

/-- By name, the coordinator aggregations are the same ones in another order. -/
theorem byName_perm (r : Registry) : r.byName.Perm r.coordinators :=
  List.mergeSort_perm r.coordinators _

/-- No two of them share a name. -/
theorem byName_nodup {r : Registry} (hr : r.Consistent) :
    (r.byName.map Aggregation.name).Nodup :=
  (r.byName_perm.map Aggregation.name).nodup_iff.mpr hr.coordinators_nodup

/-- An aggregation has no unknown name exactly if it reads registered ones only. -/
theorem unknownRead?_eq_none_iff {r : Registry} {a : Aggregation} :
    r.unknownRead? a = none ↔ ∀ name ∈ a.reads, name ∈ r.aggregations.map Aggregation.name := by
  unfold unknownRead?
  rw [List.find?_eq_none]
  constructor
  · intro h name hname
    have hfound := h name (mem_ascendingNames.mpr hname)
    by_contra hmissing
    rw [find?_eq_none_iff.mpr hmissing] at hfound
    exact hfound rfl
  · intro h name hname hfound
    rw [Option.isNone_iff_eq_none, find?_eq_none_iff] at hfound
    exact hfound (h name (mem_ascendingNames.mp hname))

/-- Coordinator aggregations that read registered names only, and are registered in ascending order
    of their own names, are scheduled as they stand. -/
theorem order_eq_schedule {r : Registry}
    (hknown : ∀ a ∈ r.coordinators, ∀ name ∈ a.reads, name ∈ r.aggregations.map Aggregation.name)
    (hsorted : r.coordinators.Pairwise fun a b => !(b.name < a.name : Bool)) :
    r.order = schedule r.coordinators.length r.coordinators := by
  have hread : r.coordinators.findSome? r.unknownRead? = none :=
    List.findSome?_eq_none_iff.mpr fun a ha => unknownRead?_eq_none_iff.mpr (hknown a ha)
  have hname : r.byName = r.coordinators := List.mergeSort_of_pairwise hsorted
  rw [order, hread, hname]

/-- **What an order of evaluation is.**  It lists the coordinator aggregations, each after the
    coordinator aggregations that it reads, and all names that they read are registered. -/
theorem order_sound {r : Registry} (hr : r.Consistent) {order : List Aggregation}
    (h : r.order = .ok order) :
    order.Perm r.coordinators ∧ ReadsBefore order ∧
      ∀ a ∈ r.coordinators, ∀ name ∈ a.reads, name ∈ r.aggregations.map Aggregation.name := by
  unfold Registry.order at h
  split at h
  case h_1 => cases h
  case h_2 hknown =>
    have hperm := r.byName_perm
    obtain ⟨horder, hreads⟩ := schedule_sound (Nat.le_of_eq hperm.length_eq) (byName_nodup hr) h
    exact ⟨horder.trans hperm, hreads,
      fun a ha => unknownRead?_eq_none_iff.mp (List.findSome?_eq_none_iff.mp hknown a ha)⟩

/-- An order has coordinator aggregations only. -/
theorem isCoordinator_of_order {r : Registry} (hr : r.Consistent) {order : List Aggregation}
    (h : r.order = .ok order) : ∀ a ∈ order, a.isCoordinator = true := fun _ ha =>
  (mem_coordinators.mp ((order_sound hr h).1.mem_iff.mp ha)).2

/-- What an aggregation reads is on the shards or comes before it in the order. -/
theorem reads_available {r : Registry} (hr : r.Consistent) {order done rest : List Aggregation}
    {a : Aggregation} (h : r.order = .ok order) (hsplit : order = done ++ a :: rest) :
    ∀ name ∈ a.reads,
      name ∈ r.unfolds.map Aggregation.name ++ done.map Aggregation.name := by
  intro name hname
  obtain ⟨hperm, hreads, hknown⟩ := order_sound hr h
  have ha : a ∈ r.coordinators := hperm.mem_iff.mp (by rw [hsplit]; simp)
  have hregistered := hknown a ha name hname
  have hall := ((r.unfolds_append_coordinators.map Aggregation.name).mem_iff).mpr hregistered
  rw [List.map_append] at hall
  -- What is registered is on the shards or in the order, and there it does not come later.
  rcases List.mem_append.mp hall with hshards | hcoord
  · exact List.mem_append_left _ hshards
  · have horder : name ∈ order.map Aggregation.name :=
      ((hperm.map Aggregation.name).mem_iff).mpr hcoord
    rw [hsplit, List.map_append] at horder
    rcases List.mem_append.mp horder with hdone | hrest
    · exact List.mem_append_right _ hdone
    · obtain ⟨b, hb, rfl⟩ := List.mem_map.mp hrest
      exact absurd hname (hreads.not_mem_reads hsplit b hb)

/-! ## The final aggregation

Whatever graph it is found in, the final aggregation is one that was registered. -/

/-- The final aggregation is registered. -/
theorem final_registered {r : Registry} {name : String} (h : r.final = .ok name) :
    name ∈ r.aggregations.map Aggregation.name := by
  unfold Registry.final at h
  split at h
  · -- without coordinator aggregations it is the only one on shards
    split at h
    case h_1 only honly =>
      have hmem : only ∈ r.unfolds := by simp [honly]
      exact Except.ok.inj h ▸ List.mem_map_of_mem (mem_unfolds.mp hmem).1
    case h_2 => cases h
  · split at h
    case h_1 => cases h
    case h_2 only honly =>
      have hmem : only ∈ ascendingNames r.unreferenced := by simp [honly]
      obtain ⟨hcoord, -⟩ := List.mem_filter.mp (mem_ascendingNames.mp hmem)
      obtain ⟨a, ha, hname⟩ := List.mem_map.mp hcoord
      exact Except.ok.inj h ▸ hname ▸ List.mem_map_of_mem (mem_coordinators.mp ha).1
    case h_3 => cases h

end Registry
end SeriesQuery
