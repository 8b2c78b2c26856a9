/-
  A circular dependency that is reported is there.

  `Registry.final` never looks for a cycle.  It collects the coordinator aggregations that stand
  behind no role, and where it finds none it speaks of a circular dependency.

  * It is right to.  Each coordinator aggregation is named by one, and so, going from an aggregation
    to one that names it, there is always a way on.  Among finitely many the walk comes back, and
    what it comes back along is a ring, each naming the next (`exists_ring_of_forall_referenced`).
  * `Registry.order`, which goes by all that is read, fails as well.  What is named is read, so the
    ring is a cycle of reading; either an unknown name is reported, or a circular dependency that
    lists the whole ring (`order_fails_on_ring`).
-/
import Mathlib.Data.List.Cycle
import SeriesQuery.Proofs.Query.FinalAggregation

namespace SeriesQuery

/-! ## Rings -/

/-- Read backwards, a ring has its steps turned round. -/
theorem chain_reverse {α : Type} {R : α → α → Prop} {ring : Cycle α} :
    ring.reverse.Chain R ↔ ring.Chain fun a b => R b a := by
  induction ring using Cycle.induction_on with
  | nil => simp
  | cons a l _ =>
    rw [Cycle.reverse_coe, List.reverse_cons, ← Cycle.coe_cons_eq_coe_append,
      Cycle.chain_coe_cons, Cycle.chain_coe_cons, ← List.isChain_reverse]
    simp

/-- Where everything has something before it, there is a ring.  The walk is backwards, from each to
    the one before it. -/
theorem exists_ring {α : Type} [DecidableEq α] {R : α → α → Prop} {places : List α}
    (hne : places ≠ []) (hback : ∀ b ∈ places, ∃ a ∈ places, R a b) :
    ∃ ring : Cycle α, ring ≠ .nil ∧ ring.Nodup ∧ ring.Chain R := by
  choose! before hmem hR using hback
  obtain ⟨start, hstart⟩ := List.exists_mem_of_ne_nil places hne
  obtain ⟨n, hplace, hperiodic⟩ := exists_mem_periodicPts hmem hstart
  refine ⟨(Function.periodicOrbit before (before^[n] start)).reverse, ?_, ?_, ?_⟩
  · intro hnil
    have hself := Function.self_mem_periodicOrbit hperiodic
    rw [← Cycle.mem_reverse_iff, hnil] at hself
    exact Cycle.notMem_nil _ hself
  · exact Cycle.nodup_reverse_iff.mpr Function.nodup_periodicOrbit
  · rw [chain_reverse, Function.periodicOrbit_chain' _ hperiodic]
    intro k
    rw [Function.iterate_succ_apply']
    exact hR _ (iterate_mem hmem hplace k)

/-! ## What is reported -/

/-- That an error speaks of a circular dependency, whichever of the two questions it answers. -/
def Error.IsCircularDependency : Error → Prop
  | .everyAggregationReferenced | .circular _ => True
  | _ => False

/-- Of some aggregations, `a` names `b` behind one of its roles. -/
def NamesWithin (aggregations : List Aggregation) (a b : Aggregation) : Prop :=
  a ∈ aggregations ∧ b ∈ aggregations ∧ b.name ∈ a.referenced

namespace Registry

variable {r : Registry}

/-- Some coordinator aggregations in a ring, no two of them the same: each names the next, and the
    last names the first. -/
structure ReferenceRing (r : Registry) (ring : Cycle Aggregation) : Prop where
  ne_nil : ring ≠ .nil
  nodup : ring.Nodup
  names_next : ring.Chain (NamesWithin r.coordinators)

/-- The final aggregation is missed exactly where there are coordinator aggregations and each stands
    behind a role of one. -/
theorem final_eq_everyAggregationReferenced_iff :
    r.final = .error .everyAggregationReferenced ↔
      r.coordinators ≠ [] ∧ ∀ a ∈ r.coordinators, r.Referenced a.name := by
  by_cases hnone : r.coordinators = []
  · refine ⟨fun h => ?_, fun h => absurd hnone h.1⟩
    unfold final at h
    simp only [hnone] at h
    split at h
    · cases h
    · cases h
  · have hfree : (∀ a ∈ r.coordinators, r.Referenced a.name) ↔ r.unreferenced = [] := by
      rw [List.eq_nil_iff_forall_not_mem]
      constructor
      · intro hall name hname
        obtain ⟨⟨a, ha, rfl⟩, hnot⟩ := mem_unreferenced.mp hname
        exact hnot (hall a ha)
      · intro hempty a ha
        by_contra hnot
        exact hempty a.name (mem_unreferenced.mpr ⟨⟨a, ha, rfl⟩, hnot⟩)
    rw [final_of_coordinators hnone, hfree]
    have hperm := ascendingNames_perm r.unreferenced
    constructor
    · intro h
      split at h
      case h_1 hnames =>
        rw [hnames] at hperm
        exact ⟨hnone, List.nil_perm.mp hperm⟩
      case h_2 => cases h
      case h_3 => cases h
    · rintro ⟨-, hempty⟩
      rw [hempty] at hperm ⊢
      rw [List.perm_nil.mp hperm]

/-- No other report of `final` speaks of a circular dependency. -/
theorem final_of_isCircularDependency {e : Error} (h : r.final = .error e)
    (hcircular : e.IsCircularDependency) : e = .everyAggregationReferenced := by
  unfold final at h
  split at h
  · split at h
    · cases h
    · obtain rfl := Except.error.inj h
      exact hcircular.elim
  · split at h
    · exact (Except.error.inj h).symm
    · cases h
    · obtain rfl := Except.error.inj h
      exact hcircular.elim

/-- **Where everything stands behind a role, there is a ring of references.** -/
theorem exists_ring_of_forall_referenced (hne : r.coordinators ≠ [])
    (hall : ∀ a ∈ r.coordinators, r.Referenced a.name) : ∃ ring, r.ReferenceRing ring := by
  have hback : ∀ b ∈ r.coordinators, ∃ a ∈ r.coordinators, NamesWithin r.coordinators a b := by
    intro b hb
    obtain ⟨a, ha, hname⟩ := hall b hb
    exact ⟨a, ha, ha, hb, hname⟩
  obtain ⟨ring, hring, hnodup, hchain⟩ := exists_ring hne hback
  exact ⟨ring, hring, hnodup, hchain⟩

/-! ## What follows for the order -/

theorem ReferenceRing.exists_mem {ring : Cycle Aggregation} (h : r.ReferenceRing ring) :
    ∃ a, a ∈ ring := by
  cases ring using Cycle.induction_on with
  | nil => exact absurd rfl h.ne_nil
  | cons a rest _ => exact ⟨a, Cycle.mem_coe_iff.mpr List.mem_cons_self⟩

/-- An aggregation in a ring of references reads its way back to itself.  To be reached by reading
    is transitive, so along the ring it holds of any two. -/
theorem ReferenceRing.onCycle {ring : Cycle Aggregation} (h : r.ReferenceRing ring)
    {a : Aggregation} (ha : a ∈ ring) : OnCycle r.coordinators a := by
  have hreach : ring.Chain (Relation.TransGen (ReadsWithin r.coordinators)) := by
    refine h.names_next.imp fun a b hnames => .single ?_
    obtain ⟨ha, hb, hname⟩ := hnames
    exact ⟨ha, hb, Aggregation.reads_of_mem_referenced hname⟩
  exact Cycle.chain_iff_pairwise.mp hreach a ha a ha

/-- **There is no order for a ring.**  If no unknown name is in the way, the whole ring is
    listed. -/
theorem order_fails_on_ring (hr : r.Consistent) {ring : Cycle Aggregation}
    (h : r.ReferenceRing ring) :
    (∃ name, r.order = .error (.unknownAggregation name)) ∨
      ∃ names, r.order = .error (.circular names) ∧ ∀ a ∈ ring, a.name ∈ names := by
  by_cases hknown : r.ReadsKnown
  · right
    obtain ⟨a, ha⟩ := h.exists_mem
    rcases order_ok_or_circular hr hknown with ⟨order, horder⟩ | ⟨names, hnames, -⟩
    · exact absurd (h.onCycle ha) (not_onCycle_of_order hr horder a)
    · refine ⟨names, hnames, fun b hb => ?_⟩
      have hcycle := h.onCycle hb
      exact ((names_of_order_circular hr hnames).2.2 b.name).mpr
        ⟨b, hcycle.mem, rfl, hcycle.leadsToCycle⟩
  · exact Or.inl ((order_unknown_iff hr).mpr hknown)

/-- **A circular dependency that is reported is there.**  The search for the final aggregation ends
    with one exactly if there are coordinator aggregations and each stands behind a role of one.
    Some of them then name each other in a ring.  There is no order of evaluation either: an unknown
    name is reported, or a circular dependency that lists the ring. -/
theorem ring_of_final_circular (hr : r.Reachable) :
    ((∃ e, r.final = .error e ∧ e.IsCircularDependency) ↔
      r.coordinators ≠ [] ∧ ∀ a ∈ r.coordinators, r.Referenced a.name) ∧
    ∀ e, r.final = .error e → e.IsCircularDependency →
      ∃ ring, r.ReferenceRing ring ∧
        ((∃ name, r.order = .error (.unknownAggregation name)) ∨
          ∃ names, r.order = .error (.circular names) ∧ ∀ a ∈ ring, a.name ∈ names) := by
  have hreported : (∃ e, r.final = .error e ∧ e.IsCircularDependency) ↔
      r.coordinators ≠ [] ∧ ∀ a ∈ r.coordinators, r.Referenced a.name := by
    rw [← final_eq_everyAggregationReferenced_iff]
    constructor
    · rintro ⟨e, h, hcircular⟩
      rw [← final_of_isCircularDependency h hcircular]
      exact h
    · intro h
      exact ⟨_, h, trivial⟩
  refine ⟨hreported, fun e h hcircular => ?_⟩
  obtain ⟨hne, hall⟩ := hreported.mp ⟨e, h, hcircular⟩
  obtain ⟨ring, hring⟩ := exists_ring_of_forall_referenced hne hall
  exact ⟨ring, hring, order_fails_on_ring hr.consistent hring⟩

end Registry

namespace Usage

/-- Names `tock`. -/
def tick : Aggregation where
  name := "tick"
  stages := []
  source := .aggregation [("next", "tock")] "next"

/-- Names `tick`, and starts from something that is not there. -/
def tock : Aggregation where
  name := "tock"
  stages := []
  source := .aggregation [("next", "tick"), ("first", "hour")] "first"

/-- Two aggregations that name each other. -/
def clock : Registry := .ofAttempts [tick, tock]

end Usage

/-- The clock is reported as circular, and has a ring. -/
theorem Registry.ring_of_final_circular_usage :
    Usage.clock.final = .error .everyAggregationReferenced ∧
      ∃ ring, Usage.clock.ReferenceRing ring := by
  have hfinal : Usage.clock.final = .error .everyAggregationReferenced :=
    Registry.final_eq_everyAggregationReferenced_iff.mpr ⟨by decide, by decide⟩
  obtain ⟨-, hring⟩ := Registry.ring_of_final_circular (r := Usage.clock) ⟨_, rfl⟩
  obtain ⟨ring, hring, -⟩ := hring _ hfinal trivial
  exact ⟨hfinal, ring, hring⟩

end SeriesQuery
