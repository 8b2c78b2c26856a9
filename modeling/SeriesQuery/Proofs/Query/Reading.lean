/-
  What aggregations read, and cycles of reading.

  `Aggregation.Reads` says which names an aggregation reads; `Aggregation.reads` lists them.  Among
  some aggregations, reading is a graph (`ReadsWithin`).  An aggregation that is on a cycle of this
  graph, or reads its way to one, waits for itself (`LeadsToCycle`), and no order of evaluation has
  a place for it.

  Two facts carry all that is said about cycles later.

  * If each of some aggregations reads one of them, every one leads to a cycle: a walk along what is
    read goes on forever among finitely many, so it comes back to where it was
    (`leadsToCycle_of_forall_reads`).
  * An aggregation that reads none of the others can be left out: no way to a cycle goes through it
    (`LeadsToCycle.leave_out`).
-/
import Mathlib.Data.Fintype.Pigeonhole
import Mathlib.Dynamics.PeriodicPts.Defs
import Mathlib.Logic.Relation
import SeriesQuery.Proofs.Query.Dependencies

namespace SeriesQuery

/-! ## Reading a name -/

/-- That an aggregation reads what has a name.  Only coordinator aggregations read. -/
inductive Aggregation.Reads (a : Aggregation) : String → Prop
  /-- Behind one of its roles. -/
  | role {role name : String} (h : (role, name) ∈ a.references) : a.Reads name
  /-- As its input. -/
  | input {references : List (String × String)} {input : String}
      (h : a.source = .aggregation references input) : a.Reads (a.resolve input)
  /-- As the right operand of a stage. -/
  | operand {s : Stage} {reference : String} (ha : a.isCoordinator = true) (hs : s ∈ a.stages)
      (h : s.right? = some reference) : a.Reads (a.resolve reference)

/-- What stands behind a role is read. -/
theorem Aggregation.reads_of_mem_referenced {a : Aggregation} {name : String}
    (h : name ∈ a.referenced) : a.Reads name := by
  obtain ⟨⟨role, other⟩, hmem, rfl⟩ := List.mem_map.mp h
  exact .role hmem

/-- The list of what is read is complete, and has nothing else in it. -/
theorem Aggregation.mem_reads_iff {a : Aggregation} {name : String} :
    name ∈ a.reads ↔ a.Reads name := by
  constructor
  · intro h
    unfold reads at h
    split at h
    case h_1 => cases h
    case h_2 references input hsource =>
      have hcoord : a.isCoordinator = true := by simp [isCoordinator, hsource]
      rcases List.mem_append.mp h with hrole | hrest
      · exact reads_of_mem_referenced hrole
      · rcases List.mem_cons.mp hrest with rfl | hoperand
        · exact .input hsource
        · obtain ⟨reference, href, rfl⟩ := List.mem_map.mp hoperand
          obtain ⟨s, hs, hright⟩ := List.mem_filterMap.mp href
          exact .operand hcoord hs hright
  · intro h
    cases h with
    | @role r name hmem =>
      have hreferenced : name ∈ a.referenced := List.mem_map_of_mem hmem
      unfold reads
      split
      case h_1 hsource => simp [references, hsource] at hmem
      case h_2 => exact List.mem_append_left _ hreferenced
    | input hsource => exact resolve_input_mem_reads hsource
    | operand hcoord hs hright => exact resolve_right_mem_reads hcoord hs hright

instance (a : Aggregation) (name : String) : Decidable (a.Reads name) :=
  decidable_of_iff _ Aggregation.mem_reads_iff

/-! ## The graph of reading -/

/-- Of some aggregations, `a` reads `b`. -/
def ReadsWithin (aggregations : List Aggregation) (a b : Aggregation) : Prop :=
  a ∈ aggregations ∧ b ∈ aggregations ∧ a.Reads b.name

/-- Of some aggregations, `a` reads itself, directly or through others. -/
def OnCycle (aggregations : List Aggregation) (a : Aggregation) : Prop :=
  Relation.TransGen (ReadsWithin aggregations) a a

/-- Of some aggregations, `a` is on a cycle or reads, directly or through others, one that is. -/
def LeadsToCycle (aggregations : List Aggregation) (a : Aggregation) : Prop :=
  ∃ b, Relation.ReflTransGen (ReadsWithin aggregations) a b ∧ OnCycle aggregations b

variable {aggregations rest : List Aggregation} {a b : Aggregation}

/-- Among more aggregations there is more reading. -/
theorem readsWithin_mono (h : ∀ a ∈ rest, a ∈ aggregations) :
    ReadsWithin rest ≤ ReadsWithin aggregations := fun a b hread =>
  ⟨h a hread.1, h b hread.2.1, hread.2.2⟩

/-- A cycle is made of the aggregations themselves. -/
theorem OnCycle.mem (h : OnCycle aggregations a) : a ∈ aggregations := by
  obtain ⟨b, hread, -⟩ := Relation.TransGen.head'_iff.mp h
  exact hread.1

/-- What is on a cycle leads to one. -/
theorem OnCycle.leadsToCycle (h : OnCycle aggregations a) : LeadsToCycle aggregations a :=
  ⟨a, .refl, h⟩

/-- What leads to a cycle is one of the aggregations. -/
theorem LeadsToCycle.mem (h : LeadsToCycle aggregations a) : a ∈ aggregations := by
  obtain ⟨b, hpath, hcycle⟩ := h
  rcases Relation.ReflTransGen.cases_head_iff.mp hpath with rfl | ⟨c, hread, -⟩
  · exact hcycle.mem
  · exact hread.1

/-- Among more aggregations there are more ways to cycles. -/
theorem LeadsToCycle.mono (hsub : ∀ a ∈ rest, a ∈ aggregations) (h : LeadsToCycle rest a) :
    LeadsToCycle aggregations a := by
  obtain ⟨b, hpath, hcycle⟩ := h
  exact ⟨b, Relation.ReflTransGen.mono (readsWithin_mono hsub) _ _ hpath,
    Relation.TransGen.mono (readsWithin_mono hsub) _ _ hcycle⟩

/-- Something on a cycle is there exactly if something leads to it. -/
theorem exists_onCycle_iff :
    (∃ a, OnCycle aggregations a) ↔ ∃ a, LeadsToCycle aggregations a := by
  constructor
  · rintro ⟨a, h⟩
    exact ⟨a, h.leadsToCycle⟩
  · rintro ⟨a, b, -, h⟩
    exact ⟨b, h⟩

/-- A walk stays among the places that its steps stay among. -/
theorem iterate_mem {α : Type} {places : List α} {next : α → α}
    (hnext : ∀ a ∈ places, next a ∈ places) {a : α} (ha : a ∈ places) (n : Nat) :
    next^[n] a ∈ places := by
  induction n with
  | zero => exact ha
  | succ n ih =>
    rw [Function.iterate_succ_apply']
    exact hnext _ ih

/-- **A walk among finitely many places comes back.**  It has more steps than there are places, so
    two of its stations are the same. -/
theorem exists_mem_periodicPts {α : Type} [DecidableEq α] {places : List α} {next : α → α}
    (hnext : ∀ a ∈ places, next a ∈ places) {a : α} (ha : a ∈ places) :
    ∃ n, next^[n] a ∈ places ∧ next^[n] a ∈ Function.periodicPts next := by
  have hwalk := iterate_mem hnext ha
  -- There are infinitely many stations and finitely many places for them.
  obtain ⟨i, j, hij, hsame⟩ := Finite.exists_ne_map_eq_of_infinite
    fun n : Nat => (⟨next^[n] a, hwalk n⟩ : { b // b ∈ places })
  have hback : ∀ i j, i < j → next^[i] a = next^[j] a →
      next^[i] a ∈ Function.periodicPts next := by
    intro i j hlt heq
    refine Function.mk_mem_periodicPts (n := j - i) (by omega) ?_
    show next^[j - i] (next^[i] a) = next^[i] a
    rw [← Function.iterate_add_apply, Nat.sub_add_cancel (Nat.le_of_lt hlt), heq]
  have heq : next^[i] a = next^[j] a := congrArg Subtype.val hsame
  rcases Nat.lt_or_gt_of_ne hij with hlt | hgt
  · exact ⟨i, hwalk i, hback i j hlt heq⟩
  · exact ⟨j, hwalk j, hback j i hgt heq.symm⟩

/-- **Where everything reads on, everything leads to a cycle.**  Going on and on from one
    aggregation to one that it reads, one comes back, since there are finitely many. -/
theorem leadsToCycle_of_forall_reads
    (h : ∀ a ∈ aggregations, ∃ b ∈ aggregations, a.Reads b.name) (ha : a ∈ aggregations) :
    LeadsToCycle aggregations a := by
  -- Each aggregation goes on to one that it reads, which makes a walk of it.
  choose! next hmem hreads using h
  have hstep : ∀ b ∈ aggregations, ReadsWithin aggregations b (next b) := by
    intro b hb
    exact ⟨hb, hmem b hb, hreads b hb⟩
  have hpath : ∀ n, ∀ b ∈ aggregations,
      Relation.ReflTransGen (ReadsWithin aggregations) b (next^[n] b) := by
    intro n
    induction n with
    | zero => exact fun b _ => .refl
    | succ n ih => exact fun b hb => .head (hstep b hb) (ih (next b) (hmem b hb))
  obtain ⟨n, hplace, period, hpos, hback⟩ := exists_mem_periodicPts hmem ha
  refine ⟨next^[n] a, hpath n a ha, Relation.TransGen.head'_iff.mpr ⟨_, hstep _ hplace, ?_⟩⟩
  -- one step is taken, and the others of the period lead back
  have hround := hpath (period - 1) _ (hmem _ hplace)
  rwa [← Function.iterate_succ_apply, Nat.succ_eq_add_one, Nat.sub_add_cancel hpos,
    hback] at hround

/-- **What reads none of the others can be left out.**  Whatever is on the way to a cycle reads
    something, so this aggregation is not. -/
theorem LeadsToCycle.leave_out (hcover : ∀ c ∈ aggregations, c = b ∨ c ∈ rest)
    (hb : ∀ c ∈ aggregations, ¬ b.Reads c.name) (h : LeadsToCycle aggregations a) :
    LeadsToCycle rest a := by
  -- `b` reads nothing, so no step starts from it, and only a last step can end there.
  have hne : ∀ {x y}, ReadsWithin aggregations x y → x ≠ b := by
    rintro x y ⟨-, hy, hread⟩ rfl
    exact hb y hy hread
  have hstep : ∀ {x y}, ReadsWithin aggregations x y → y ≠ b → ReadsWithin rest x y := by
    intro x y hread hy
    exact ⟨(hcover x hread.1).resolve_left (hne hread), (hcover y hread.2.1).resolve_left hy,
      hread.2.2⟩
  have hpath : ∀ {x y}, Relation.ReflTransGen (ReadsWithin aggregations) x y → y ≠ b →
      Relation.ReflTransGen (ReadsWithin rest) x y := by
    intro x y hxy
    induction hxy with
    | refl => exact fun _ => .refl
    | tail _ hlast ih => exact fun hy => (ih (hne hlast)).tail (hstep hlast hy)
  obtain ⟨c, hac, hcycle⟩ := h
  obtain ⟨d, hcd, hdc⟩ := Relation.TransGen.head'_iff.mp hcycle
  obtain ⟨e, hce, hec⟩ := Relation.TransGen.tail'_iff.mp hcycle
  have hc : c ≠ b := hne hcd
  exact ⟨c, hpath hac hc, Relation.TransGen.tail'_iff.mpr ⟨e, hpath hce (hne hec), hstep hec hc⟩⟩

/-- In reading order nothing leads to a cycle: the first aggregation reads none of the list, and so
    it can be left out, and then the second. -/
theorem not_leadsToCycle_of_readsBefore {order : List Aggregation} (h : ReadsBefore order) :
    ¬ LeadsToCycle order a := by
  induction order with
  | nil => exact fun hcycle => absurd hcycle.mem List.not_mem_nil
  | cons first order ih =>
    intro hcycle
    refine ih h.2 (hcycle.leave_out (b := first) (fun c hc => List.mem_cons.mp hc) ?_)
    exact fun c hc hread => h.1 c hc (Aggregation.mem_reads_iff.mpr hread)

end SeriesQuery
