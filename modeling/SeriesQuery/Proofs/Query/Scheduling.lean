/-
  The schedule is the canonical order of evaluation.

  `Registry.order` looks for unknown names first, and then takes, turn by turn, the pending
  aggregation with the least name among those that read no pending one.  Three things are shown
  about it beside its soundness.

  * It is complete: it fails only for an unknown name or for a cycle of reading.  When it is stuck,
    each pending aggregation reads a pending one, and what was taken before leads to no cycle; so
    those that are left over are exactly those that lead to one (`Turns.exists_stuck`).
  * It is canonical: of all orders of evaluation its names come first in the dictionary.  At the
    first place where another order differs, the schedule had the choice, and took the lesser name
    (`Turns.le`).
  * The unknown name that it reports is the least of the first aggregation that reads one
    (`Registry.FirstUnknown`).

  The recursion with its fuel is looked at once, in `turns_schedule`; all else is by induction on
  the turns (`Turns`).
-/
import SeriesQuery.Proofs.Query.Naming
import SeriesQuery.Proofs.Query.Reading
import SeriesQuery.Proofs.Text.Bytes

namespace SeriesQuery

/-! ## Turns -/

/-- The turns of the schedule on pending aggregations, and what they end in. -/
inductive Turns : List Aggregation → Except Error (List Aggregation) → Prop
  /-- Nothing is pending. -/
  | done : Turns [] (.ok [])
  /-- Each pending aggregation reads a pending one. -/
  | stuck {pending : List Aggregation} (hne : pending ≠ [])
      (h : ∀ a ∈ pending, ∃ b ∈ pending, a.Reads b.name) :
      Turns pending (.error (.circular (pending.map Aggregation.name)))
  /-- `a` is the first that reads no pending one, and is taken. -/
  | take {before after : List Aggregation} {a : Aggregation}
      {result : Except Error (List Aggregation)}
      (hbefore : ∀ b ∈ before, ∃ c ∈ before ++ a :: after, b.Reads c.name)
      (ha : ∀ c ∈ before ++ a :: after, ¬ a.Reads c.name) (hrest : Turns (before ++ after) result) :
      Turns (before ++ a :: after) ((a :: ·) <$> result)

namespace Registry

/-- Ready is what reads no pending aggregation. -/
theorem isReady_eq_true_iff {pending : List Aggregation} {a : Aggregation} :
    isReady pending a = true ↔ ∀ b ∈ pending, ¬ a.Reads b.name := by
  unfold isReady
  rw [List.all_eq_true]
  constructor
  · intro h b hb hread
    have hname := h b.name (Aggregation.mem_reads_iff.mpr hread)
    have hmem : b.name ∈ pending.map Aggregation.name := List.mem_map_of_mem hb
    simp [hmem] at hname
  · intro h name hname
    rw [Bool.not_eq_true', ← Bool.not_eq_true, List.contains_iff_mem]
    intro hmem
    obtain ⟨b, hb, rfl⟩ := List.mem_map.mp hmem
    exact h b hb (Aggregation.mem_reads_iff.mp hname)

/-- Not ready is what reads one. -/
theorem isReady_eq_false_iff {pending : List Aggregation} {a : Aggregation} :
    isReady pending a = false ↔ ∃ b ∈ pending, a.Reads b.name := by
  rw [← Bool.not_eq_true, isReady_eq_true_iff]
  push Not
  exact Iff.rfl

/-- Taking an aggregation by its name leaves those before and after it. -/
theorem filter_name_ne {before after : List Aggregation} {a : Aggregation}
    (hnodup : ((before ++ a :: after).map Aggregation.name).Nodup) :
    (before ++ a :: after).filter (fun b => b.name ≠ a.name) = before ++ after := by
  rw [List.map_append, List.map_cons, List.nodup_middle, List.nodup_cons, ← List.map_append]
    at hnodup
  have hothers : ∀ b ∈ before ++ after, decide (b.name ≠ a.name) = true := fun b hb =>
    decide_eq_true fun heq => hnodup.1 (heq ▸ List.mem_map_of_mem hb)
  rw [List.filter_append, List.filter_cons_of_neg (by simp), ← List.filter_append]
  exact List.filter_eq_self.mpr hothers

/-- **The schedule goes turn by turn**, with fuel for all of them.  The induction is on the fuel,
    which is not less than the number of pending aggregations. -/
theorem turns_schedule {fuel : Nat} {pending : List Aggregation} (hfuel : pending.length ≤ fuel)
    (hnodup : (pending.map Aggregation.name).Nodup) : Turns pending (schedule fuel pending) := by
  induction fuel generalizing pending with
  | zero =>
    obtain rfl : pending = [] := List.length_eq_zero_iff.mp (Nat.le_zero.mp hfuel)
    exact .done
  | succ fuel ih =>
    rw [schedule]
    split
    case h_1 a hfind =>
      obtain ⟨hready, before, after, rfl, hbefore⟩ := List.find?_eq_some_iff_append.mp hfind
      have hnodup' : ((before ++ after).map Aggregation.name).Nodup :=
        hnodup.sublist (((List.sublist_cons_self a after).append_left before).map _)
      rw [filter_name_ne hnodup]
      rw [List.length_append, List.length_cons] at hfuel
      -- One aggregation less is pending, and there is fuel for as many turns as that.
      have hrest := ih (by rw [List.length_append]; omega) hnodup'
      have htake := Turns.take
        (fun b hb => isReady_eq_false_iff.mp (by simpa using hbefore b hb))
        (isReady_eq_true_iff.mp hready) hrest
      cases hresult : schedule fuel (before ++ after) with
      | error e =>
        rw [hresult] at htake
        exact htake
      | ok rest =>
        rw [hresult] at htake
        exact htake
    case h_2 hfind =>
      split
      case isTrue hempty =>
        obtain rfl := List.isEmpty_iff.mp hempty
        exact .done
      case isFalse hempty =>
        -- none is ready, so each of them reads one
        refine .stuck (fun h => hempty (List.isEmpty_iff.mpr h)) fun a ha => ?_
        exact isReady_eq_false_iff.mp (by simpa using List.find?_eq_none.mp hfind a ha)

end Registry

namespace Turns

variable {pending : List Aggregation} {result : Except Error (List Aggregation)}

/-- **The schedule is least.**  What it takes first is the least that can come first, and if another
    order starts with the same aggregation, the schedule is least from there on. -/
theorem le (h : Turns pending result) (hsorted : (pending.map Aggregation.name).Pairwise (· < ·))
    {order other : List Aggregation} (hresult : result = .ok order) (hperm : other.Perm pending)
    (hreads : ReadsBefore other) :
    order.map Aggregation.name ≤ other.map Aggregation.name := by
  -- By induction on the turns, against any other order of what is pending.
  induction h generalizing order other with
  | done =>
    obtain rfl := Except.ok.inj hresult
    exact not_lt.mp (List.not_lt_nil _)
  | stuck => cases hresult
  | @take before after a result hbefore ha hrest ih =>
    obtain ⟨rest, hrestResult, rfl⟩ := map_eq_ok.mp hresult
    have hmiddle : (before ++ a :: after).Perm (a :: (before ++ after)) := List.perm_middle
    cases other with
    | nil => exact absurd (hperm.symm.mem_iff.mp (by simp : a ∈ before ++ a :: after)) (by simp)
    | cons b other =>
      have hb : b ∈ before ++ a :: after := hperm.mem_iff.mp List.mem_cons_self
      -- `b` comes first in an order, so it reads nothing pending, and is not before `a`
      have hfree : ∀ c ∈ before ++ a :: after, ¬ b.Reads c.name := fun c hc hread =>
        hreads.1 c (hperm.mem_iff.mpr hc) (Aggregation.mem_reads_iff.mpr hread)
      have hnot : b ∉ before := by
        intro hmem
        obtain ⟨c, hc, hread⟩ := hbefore b hmem
        exact hfree c hc hread
      rw [List.map_cons, List.map_cons, ← not_lt, List.cons_lt_cons_iff, not_or]
      rw [List.map_append, List.map_cons, List.pairwise_append, List.pairwise_cons] at hsorted
      rcases List.mem_cons.mp ((List.mem_append.mp hb).resolve_left hnot) with rfl | hafter
      · have hle := ih ?_ hrestResult (hperm.trans hmiddle).cons_inv hreads.2
        · exact ⟨lt_irrefl _, fun h => absurd h.2 (not_lt.mpr hle)⟩
        · rw [List.map_append, List.pairwise_append]
          exact ⟨hsorted.1, hsorted.2.1.2,
            fun x hx y hy => hsorted.2.2 x hx y (List.mem_cons_of_mem _ hy)⟩
      · have hlt := hsorted.2.1.1 b.name (List.mem_map_of_mem hafter)
        exact ⟨lt_asymm hlt, fun h => absurd h.1 hlt.ne'⟩

/-- **The schedule is complete.**  It fails only when it is stuck, and then with the names of all
    that lead to a cycle, in the order in which they were pending. -/
theorem exists_stuck (h : Turns pending result) {e : Error} (hresult : result = .error e) :
    ∃ left, e = .circular (left.map Aggregation.name) ∧ left.Sublist pending ∧ left ≠ [] ∧
      ∀ a, a ∈ left ↔ LeadsToCycle pending a := by
  induction h with
  | done => cases hresult
  | @stuck pending hne h =>
    refine ⟨pending, (Except.error.inj hresult).symm, List.Sublist.refl pending, hne, fun a => ?_⟩
    exact ⟨leadsToCycle_of_forall_reads h, LeadsToCycle.mem⟩
  | @take before after a result hbefore ha hrest ih =>
    obtain ⟨left, he, hsub, hne, hleft⟩ := ih (map_eq_error.mp hresult)
    have hfewer : (before ++ after).Sublist (before ++ a :: after) :=
      (List.sublist_cons_self a after).append_left before
    refine ⟨left, he, hsub.trans hfewer, hne, fun c => (hleft c).trans ⟨?_, ?_⟩⟩
    · exact LeadsToCycle.mono hfewer.subset
    · -- `a` was taken because it reads nothing pending, so no way to a cycle goes through it
      refine LeadsToCycle.leave_out (b := a) (fun c hc => ?_) ha
      simpa [or_left_comm] using hc

end Turns

/-! ## Orders of evaluation -/

namespace Registry

variable {r : Registry}

/-- What an order of evaluation has to be: all coordinator aggregations, each once, and each after
    all coordinator aggregations that it reads. -/
structure IsOrder (r : Registry) (order : List Aggregation) : Prop where
  perm : order.Perm r.coordinators
  after : ∀ done a rest, order = done ++ a :: rest →
    ∀ b ∈ r.coordinators, a.Reads b.name → b ∈ done

/-- To read only what comes before is to read nothing from there on. -/
theorem readsBefore_of_after {order : List Aggregation} (hnodup : order.Nodup)
    (h : ∀ done a rest, order = done ++ a :: rest → ∀ b ∈ order, a.Reads b.name → b ∈ done) :
    ReadsBefore order := by
  -- the induction is on a tail of the order; what stands before it is carried along
  suffices hall : ∀ done rest, order = done ++ rest → ReadsBefore rest from hall [] order rfl
  intro done rest
  induction rest generalizing done with
  | nil => exact fun _ => trivial
  | cons a rest ih =>
    intro hsplit
    refine ⟨fun b hb hread => ?_, ih (done ++ [a]) (by simpa using hsplit)⟩
    have hmem : b ∈ order := by
      rw [hsplit]
      exact List.mem_append_right done hb
    have hdone := h done a rest hsplit b hmem (Aggregation.mem_reads_iff.mp hread)
    rw [hsplit] at hnodup
    exact (List.nodup_append.mp hnodup).2.2 b hdone b hb rfl

/-- An order of evaluation has every aggregation once. -/
theorem IsOrder.nodup (hr : r.Consistent) {order : List Aggregation} (h : r.IsOrder order) :
    order.Nodup :=
  h.perm.nodup_iff.mpr (List.Nodup.of_map Aggregation.name hr.coordinators_nodup)

/-- An order of evaluation is in reading order. -/
theorem IsOrder.readsBefore (hr : r.Consistent) {order : List Aggregation} (h : r.IsOrder order) :
    ReadsBefore order := by
  refine readsBefore_of_after (h.nodup hr) fun done a rest hsplit b hb hread => ?_
  exact h.after done a rest hsplit b (h.perm.mem_iff.mp hb) hread

/-- **The order that is found is an order of evaluation.** -/
theorem isOrder_of_order (hr : r.Consistent) {order : List Aggregation} (h : r.order = .ok order) :
    r.IsOrder order := by
  obtain ⟨hperm, hreads, -⟩ := order_sound hr h
  refine ⟨hperm, fun done a rest hsplit b hb hread => ?_⟩
  have hmem := hperm.mem_iff.mpr hb
  rw [hsplit] at hmem
  refine (List.mem_append.mp hmem).resolve_right fun hlater => ?_
  exact hreads.not_mem_reads hsplit b hlater (Aggregation.mem_reads_iff.mpr hread)

/-! ## Unknown names -/

/-- Whether something is registered under a name. -/
def Knows (r : Registry) (name : String) : Prop :=
  name ∈ r.aggregations.map Aggregation.name

/-- All that coordinator aggregations read is registered. -/
def ReadsKnown (r : Registry) : Prop :=
  ∀ a ∈ r.coordinators, ∀ name, a.Reads name → r.Knows name

/-- Of the first coordinator aggregation that reads an unknown name, the unknown name whose bytes
    come first. -/
def FirstUnknown (r : Registry) (name : String) : Prop :=
  ∃ before a after, r.coordinators = before ++ a :: after ∧
    (∀ b ∈ before, ∀ other, b.Reads other → r.Knows other) ∧
    a.Reads name ∧ ¬ r.Knows name ∧
    ∀ other, a.Reads other → ¬ r.Knows other → utf8 name ≤ utf8 other

/-- No unknown name is found exactly where none is read. -/
theorem forall_reads_iff_unknownRead? {a : Aggregation} :
    (∀ name, a.Reads name → r.Knows name) ↔ r.unknownRead? a = none := by
  simp only [unknownRead?_eq_none_iff, Aggregation.mem_reads_iff, Knows]

/-- Every coordinator aggregation reads known names exactly if the search for an unknown one finds
    nothing. -/
theorem readsKnown_iff : r.ReadsKnown ↔ r.coordinators.findSome? r.unknownRead? = none := by
  rw [List.findSome?_eq_none_iff]
  exact forall₂_congr fun a _ => forall_reads_iff_unknownRead?

/-- What is found is read and unknown, and nothing that is both comes before it. -/
theorem unknownRead?_eq_some {a : Aggregation} {name : String}
    (h : r.unknownRead? a = some name) :
    a.Reads name ∧ ¬ r.Knows name ∧
      ∀ other, a.Reads other → ¬ r.Knows other → utf8 name ≤ utf8 other := by
  have hunknown : ∀ other, (r.find? other).isNone = true ↔ ¬ r.Knows other := by
    intro other
    rw [Option.isNone_iff_eq_none, find?_eq_none_iff]
    exact Iff.rfl
  unfold unknownRead? at h
  have hmem := mem_ascendingNames.mp (List.mem_of_find?_eq_some h)
  have hnone : (r.find? name).isNone = true :=
    List.find?_some (p := fun name => (r.find? name).isNone) h
  refine ⟨Aggregation.mem_reads_iff.mp hmem, (hunknown name).mp hnone, fun other hread hother => ?_⟩
  exact utf8_le_iff.mpr (le_of_find?_ascendingNames h other
    (Aggregation.mem_reads_iff.mpr hread) ((hunknown other).mpr hother))

/-- The name that is found is the least of the first aggregation that reads an unknown one. -/
theorem firstUnknown_of_findSome? {name : String}
    (h : r.coordinators.findSome? r.unknownRead? = some name) : r.FirstUnknown name := by
  obtain ⟨before, a, after, hsplit, ha, hbefore⟩ := List.findSome?_eq_some_iff.mp h
  obtain ⟨hreads, hunknown, hleast⟩ := unknownRead?_eq_some ha
  exact ⟨before, a, after, hsplit, fun b hb => forall_reads_iff_unknownRead?.mpr (hbefore b hb),
    hreads, hunknown, hleast⟩

/-! ## The order of a registry -/

/-- The turns behind the order, for a registry without unknown names. -/
theorem turns_order (hr : r.Consistent) (hknown : r.ReadsKnown) : Turns r.byName r.order := by
  rw [order, readsKnown_iff.mp hknown]
  exact turns_schedule (Nat.le_of_eq r.byName_perm.length_eq) (byName_nodup hr)

/-- The order fails over unknown names exactly if there are some. -/
theorem order_eq_unknown_iff (hr : r.Consistent) {name : String} :
    r.order = .error (.unknownAggregation name) ↔
      r.coordinators.findSome? r.unknownRead? = some name := by
  cases hfind : r.coordinators.findSome? r.unknownRead? with
  | some first =>
    rw [order, hfind]
    simp only [Except.error.injEq, Error.unknownAggregation.injEq, Option.some.injEq]
  | none =>
    refine ⟨fun h => ?_, (fun h => by cases h)⟩
    -- without unknown names the schedule decides, and that fails over cycles only
    obtain ⟨left, he, -⟩ := (turns_order hr (readsKnown_iff.mpr hfind)).exists_stuck h
    cases he

/-- An unknown name is reported exactly if one is read. -/
theorem order_unknown_iff (hr : r.Consistent) :
    (∃ name, r.order = .error (.unknownAggregation name)) ↔ ¬ r.ReadsKnown := by
  rw [readsKnown_iff, ← ne_eq, Option.ne_none_iff_exists']
  exact exists_congr fun name => order_eq_unknown_iff hr

/-- Where none is reported, all names that are read are known. -/
theorem readsKnown_of_not_unknown (hr : r.Consistent)
    (h : ∀ name, r.order ≠ .error (.unknownAggregation name)) : r.ReadsKnown := by
  by_contra hunknown
  obtain ⟨name, hname⟩ := (order_unknown_iff hr).mpr hunknown
  exact h name hname

/-- Coordinator aggregations lead to a cycle among themselves in whatever order they are listed. -/
theorem leadsToCycle_byName_iff {a : Aggregation} :
    LeadsToCycle r.byName a ↔ LeadsToCycle r.coordinators a :=
  ⟨.mono fun _ => r.byName_perm.mem_iff.mp, .mono fun _ => r.byName_perm.mem_iff.mpr⟩

/-- The names of a circular dependency ascend, and are those of all that lead to a cycle. -/
theorem names_of_order_circular (hr : r.Consistent) {names : List String}
    (h : r.order = .error (.circular names)) :
    names ≠ [] ∧ names.Pairwise (· < ·) ∧
      ∀ name, name ∈ names ↔
        ∃ a ∈ r.coordinators, a.name = name ∧ LeadsToCycle r.coordinators a := by
  -- An answer of the schedule means that the search for unknown names found none.
  have hknown : r.ReadsKnown := by
    refine readsKnown_of_not_unknown hr fun name hname => ?_
    rw [h] at hname
    cases hname
  obtain ⟨left, he, hsub, hne, hleft⟩ := (turns_order hr hknown).exists_stuck h
  obtain rfl := Error.circular.inj he
  refine ⟨by simpa using hne, (byName_ascending hr).sublist (hsub.map _), fun name => ?_⟩
  rw [List.mem_map]
  constructor
  · rintro ⟨a, ha, rfl⟩
    exact ⟨a, r.byName_perm.mem_iff.mp (hsub.subset ha), rfl,
      leadsToCycle_byName_iff.mp ((hleft a).mp ha)⟩
  · rintro ⟨a, -, rfl, hcycle⟩
    exact ⟨a, (hleft a).mpr (leadsToCycle_byName_iff.mpr hcycle), rfl⟩

/-- An order of evaluation leaves no room for a cycle. -/
theorem not_onCycle_of_order (hr : r.Consistent) {order : List Aggregation}
    (h : r.order = .ok order) (a : Aggregation) : ¬ OnCycle r.coordinators a := by
  intro hcycle
  obtain ⟨hperm, hreads, -⟩ := order_sound hr h
  exact not_leadsToCycle_of_readsBefore hreads
    (hcycle.leadsToCycle.mono fun _ => hperm.mem_iff.mpr)

/-- Without unknown names, the order fails over a cycle or not at all. -/
theorem order_ok_or_circular (hr : r.Consistent) (hknown : r.ReadsKnown) :
    (∃ order, r.order = .ok order) ∨
      ∃ names, r.order = .error (.circular names) ∧ ∃ a, OnCycle r.coordinators a := by
  cases horder : r.order with
  | ok order => exact Or.inl ⟨order, rfl⟩
  | error e =>
    obtain ⟨left, rfl, -, hne, hleft⟩ := (turns_order hr hknown).exists_stuck horder
    obtain ⟨a, ha⟩ := List.exists_mem_of_ne_nil left hne
    have hcycle := leadsToCycle_byName_iff.mp ((hleft a).mp ha)
    exact Or.inr ⟨_, rfl, exists_onCycle_iff.mpr ⟨a, hcycle⟩⟩

/-- The order comes first in the dictionary. -/
theorem order_le (hr : r.Consistent) {order other : List Aggregation} (h : r.order = .ok order)
    (hother : r.IsOrder other) :
    order.map Aggregation.name ≤ other.map Aggregation.name := by
  have hknown : r.ReadsKnown := by
    refine readsKnown_of_not_unknown hr fun name hname => ?_
    rw [h] at hname
    cases hname
  exact (turns_order hr hknown).le (byName_ascending hr) h
    (hother.perm.trans r.byName_perm.symm) (hother.readsBefore hr)

/-- **What `order` answers.**  It fails over an unknown name exactly if some coordinator aggregation
    reads one, and then names the first.  Otherwise it succeeds exactly if reading has no cycle.  A
    success is an order of evaluation, and of all these the first in the dictionary.  A circular
    dependency lists, in ascending order, exactly those that are on a cycle or lead to one. -/
theorem order_canonical (hr : r.Reachable) :
    ((∃ name, r.order = .error (.unknownAggregation name)) ↔
      ∃ a ∈ r.coordinators, ∃ name, a.Reads name ∧ ¬ r.Knows name) ∧
    (∀ name, r.order = .error (.unknownAggregation name) → r.FirstUnknown name) ∧
    (r.ReadsKnown →
      ((∃ order, r.order = .ok order) ↔ ∀ a, ¬ OnCycle r.coordinators a) ∧
      ((∃ names, r.order = .error (.circular names)) ↔ ∃ a, OnCycle r.coordinators a)) ∧
    (∀ order, r.order = .ok order → r.IsOrder order ∧ order.Nodup ∧
      ∀ other, r.IsOrder other → order.map Aggregation.name ≤ other.map Aggregation.name) ∧
    ∀ names, r.order = .error (.circular names) → names.Pairwise (· < ·) ∧
      ∀ name, name ∈ names ↔
        ∃ a ∈ r.coordinators, a.name = name ∧ LeadsToCycle r.coordinators a := by
  have hc := hr.consistent
  refine ⟨?_, ?_, ?_, ?_, ?_⟩
  · rw [order_unknown_iff hc, ReadsKnown]
    push Not
    exact Iff.rfl
  · exact fun name h => firstUnknown_of_findSome? ((order_eq_unknown_iff hc).mp h)
  · intro hknown
    -- One of the two answers is given, and each rules out the other.
    rcases order_ok_or_circular hc hknown with ⟨order, horder⟩ | ⟨names, hnames, a, ha⟩
    · have hnone := not_onCycle_of_order hc horder
      simp [horder, hnone]
    · have hsome : ∃ a, OnCycle r.coordinators a := ⟨a, ha⟩
      simp only [hnames, reduceCtorEq, exists_false, false_iff, Except.error.injEq,
        Error.circular.injEq, exists_eq', hsome, and_true]
      exact fun hnone => hnone a ha
  · intro order horder
    have hvalid := isOrder_of_order hc horder
    exact ⟨hvalid, hvalid.nodup hc, fun other hother => order_le hc horder hother⟩
  · exact fun names h => (names_of_order_circular hc h).2

end Registry

namespace Usage

/-- Reads its own result. -/
def loop : Aggregation where
  name := "loop"
  stages := [.union "loop"]
  source := .aggregation [] "cpu"

/-- Is on no cycle, but reads one that is. -/
def echo : Aggregation where
  name := "echo"
  stages := []
  source := .aggregation [("said", "loop")] "said"

/-- The two readings and their union, beside aggregations that cannot be evaluated. -/
def knot : Registry := .ofAttempts [cpu, echo, loop, memory, total]

theorem order_knot : knot.order = .error (.circular ["echo", "loop"]) := by
  rw [Registry.order_eq_schedule (by decide) (by decide)]
  rfl

end Usage

/-- In the small query `total` and `top` are the first order in the dictionary.  In the knot `echo`
    is held up by a cycle, and `total` is not. -/
theorem Registry.order_canonical_usage :
    (Usage.registry.IsOrder [Usage.total, Usage.top] ∧
      ∀ other, Usage.registry.IsOrder other →
        ["total", "top"] ≤ other.map Aggregation.name) ∧
    LeadsToCycle Usage.knot.coordinators Usage.echo ∧
      ¬ LeadsToCycle Usage.knot.coordinators Usage.total := by
  obtain ⟨-, -, -, hfirst, -⟩ := Registry.order_canonical Usage.reachable
  obtain ⟨horder, -, hleast⟩ := hfirst _ Usage.order_eq
  obtain ⟨-, -, -, -, hheld⟩ := Registry.order_canonical (r := Usage.knot) ⟨_, rfl⟩
  obtain ⟨-, hnames⟩ := hheld _ Usage.order_knot
  refine ⟨⟨horder, hleast⟩, ?_, fun htotal => ?_⟩
  · obtain ⟨a, ha, hname, hcycle⟩ := (hnames "echo").mp (by simp)
    have hecho : ∀ b ∈ Usage.knot.coordinators, b.name = "echo" → b = Usage.echo := by decide
    exact hecho a ha hname ▸ hcycle
  · have hmem := (hnames "total").mpr ⟨Usage.total, htotal.mem, rfl, htotal⟩
    exact absurd hmem (by decide)

end SeriesQuery
