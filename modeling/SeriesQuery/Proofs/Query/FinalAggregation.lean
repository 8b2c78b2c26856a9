/-
  The final aggregation and the order of evaluation.

  Two questions are asked of a registry, and they look at different graphs.  `Registry.order` goes
  by everything that aggregations read.  `Registry.final` goes by what stands behind their roles
  (`Registry.Referenced`), and overlooks an input or an operand that is named directly.

  * Where both succeed they agree.  All but the final aggregation are referenced, so they are read,
    and in the order each is read by a later one.  Seen from the end, the last one is the final one,
    and each of the others has a reader that the final one reads its way to
    (`readsBefore_exists_last`).
  * They may disagree where reading has a single end.  If some aggregation on the way to it is read
    by its name only, this one counts as an end of its own, and the query as disconnected
    (`disconnected_of_not_referenced`).
-/
import SeriesQuery.Proofs.Query.Scheduling

namespace SeriesQuery
namespace Registry

variable {r : Registry}

/-! ## What `final` looks at -/

/-- That a name stands behind a role of some coordinator aggregation. -/
def Referenced (r : Registry) (name : String) : Prop :=
  ∃ a ∈ r.coordinators, name ∈ a.referenced

instance (r : Registry) (name : String) : Decidable (r.Referenced name) :=
  inferInstanceAs (Decidable (∃ a ∈ r.coordinators, name ∈ a.referenced))

/-- The names of coordinator aggregations that stand behind no role. -/
theorem mem_unreferenced {name : String} :
    name ∈ r.unreferenced ↔ (∃ a ∈ r.coordinators, a.name = name) ∧ ¬ r.Referenced name := by
  unfold unreferenced Referenced
  simp only [List.mem_filter, List.mem_map, Bool.not_eq_true', ← Bool.not_eq_true,
    List.contains_iff_mem, List.mem_flatMap]

/-- No name is listed twice, since no two coordinator aggregations share one. -/
theorem unreferenced_nodup (hr : r.Consistent) : r.unreferenced.Nodup :=
  hr.coordinators_nodup.filter _

/-- With coordinator aggregations, what counts is which of them are not referenced. -/
theorem final_of_coordinators (hsome : r.coordinators ≠ []) :
    r.final = match ascendingNames r.unreferenced with
      | [] => .error .everyAggregationReferenced
      | [name] => .ok name
      | names => .error (.disconnected names) := by
  unfold final
  split
  case h_1 hnone => exact absurd hnone hsome
  case h_2 => rfl

/-- The final aggregation is the only one that is not referenced. -/
theorem final_eq_ok_iff (hsome : r.coordinators ≠ []) {name : String} :
    r.final = .ok name ↔ r.unreferenced = [name] := by
  have hperm := ascendingNames_perm r.unreferenced
  rw [final_of_coordinators hsome]
  split
  case h_1 hnames =>
    rw [hnames] at hperm
    simp [List.nil_perm.mp hperm]
  case h_2 only hnames =>
    rw [hnames] at hperm
    rw [List.perm_singleton.mp hperm.symm]
    simp
  case h_3 names _ hmany =>
    refine ⟨(fun h => by cases h), fun hone => ?_⟩
    rw [hone, List.perm_singleton] at hperm
    rw [hone] at hmany
    exact absurd hperm (hmany name)

/-- Two names that are not referenced make the query disconnected. -/
theorem final_eq_disconnected {first second : String} (hne : first ≠ second)
    (hfirst : first ∈ r.unreferenced) (hsecond : second ∈ r.unreferenced) :
    r.final = .error (.disconnected (ascendingNames r.unreferenced)) := by
  obtain ⟨⟨a, ha, -⟩, -⟩ := mem_unreferenced.mp hfirst
  have hfirst' := mem_ascendingNames.mpr hfirst
  have hsecond' := mem_ascendingNames.mpr hsecond
  rw [final_of_coordinators (List.ne_nil_of_mem ha)]
  split
  case h_1 hnames => simp [hnames] at hfirst'
  case h_2 only hnames =>
    rw [hnames, List.mem_singleton] at hfirst' hsecond'
    exact absurd (hfirst'.trans hsecond'.symm) hne
  case h_3 => rfl

/-! ## The end of the order -/

/-- **One end for everything.**  If all but one aggregation of a list in reading order are read
    there, then the list ends with this one, and it reads all others, directly or through others.
    By induction on the list: what its first aggregation reads is not in it, so that all readers are
    in the rest. -/
theorem readsBefore_exists_last {order : List Aggregation} (h : ReadsBefore order)
    (hne : order ≠ []) {last : Aggregation}
    (hread : ∀ a ∈ order, a ≠ last → ∃ b ∈ order, b.Reads a.name) :
    (∃ done, order = done ++ [last]) ∧
      ∀ a ∈ order, a ≠ last → Relation.TransGen (ReadsWithin order) last a := by
  induction order with
  | nil => exact absurd rfl hne
  | cons a rest ih =>
    obtain ⟨hfirst, hrest⟩ := h
    -- The first one reads nothing here, so all readers are in the rest.
    have hlater : ∀ c ∈ a :: rest, c ≠ last → ∃ b ∈ rest, b.Reads c.name := by
      intro c hc hother
      obtain ⟨b, hb, hreads⟩ := hread c hc hother
      rcases List.mem_cons.mp hb with rfl | hb
      · exact absurd (Aggregation.mem_reads_iff.mpr hreads) (hfirst c hc)
      · exact ⟨b, hb, hreads⟩
    by_cases hnil : rest = []
    · subst hnil
      have hlast : a = last := by
        by_contra hother
        obtain ⟨b, hb, -⟩ := hlater a List.mem_cons_self hother
        exact absurd hb List.not_mem_nil
      subst hlast
      exact ⟨⟨[], rfl⟩, fun c hc hother => absurd (List.mem_singleton.mp hc) hother⟩
    · obtain ⟨⟨done, hdone⟩, hreach⟩ :=
        ih hrest hnil fun c hc => hlater c (List.mem_cons_of_mem a hc)
      have hmono := readsWithin_mono fun c => List.mem_cons_of_mem a (a := c) (l := rest)
      have hreach' : ∀ c ∈ rest, c ≠ last →
          Relation.TransGen (ReadsWithin (a :: rest)) last c := fun c hc hother =>
        Relation.TransGen.mono hmono _ _ (hreach c hc hother)
      refine ⟨⟨a :: done, by rw [hdone]; rfl⟩, fun c hc hother => ?_⟩
      rcases List.mem_cons.mp hc with rfl | hc
      · -- it is read by a later one, which is the last or is reached from there
        obtain ⟨b, hb, hreads⟩ := hlater c List.mem_cons_self hother
        have hstep : ReadsWithin (c :: rest) b c :=
          ⟨List.mem_cons_of_mem c hb, List.mem_cons_self, hreads⟩
        by_cases hlast : b = last
        · exact hlast ▸ Relation.TransGen.single hstep
        · exact (hreach' b hb hlast).tail hstep
      · exact hreach' c hc hother

/-- Whatever is a coordinator aggregation and not the final one is read by one. -/
theorem exists_reader_of_final (hne : r.coordinators ≠ []) {name : String}
    (hfinal : r.final = .ok name) {a : Aggregation} (ha : a ∈ r.coordinators)
    (hother : a.name ≠ name) : ∃ b ∈ r.coordinators, b.Reads a.name := by
  have hone := (final_eq_ok_iff hne).mp hfinal
  have hnot : a.name ∉ r.unreferenced := by
    rw [hone, List.mem_singleton]
    exact hother
  rw [mem_unreferenced, not_and, not_not] at hnot
  obtain ⟨b, hb, hname⟩ := hnot ⟨a, ha, rfl⟩
  exact ⟨b, hb, Aggregation.reads_of_mem_referenced hname⟩

/-- **The final aggregation comes last, and reads everything.**  If a registry with coordinator
    aggregations has a final aggregation and an order of evaluation, then the order ends with the
    final aggregation, and this one reads all other coordinator aggregations, directly or through
    others. -/
theorem final_last_of_order (hr : r.Reachable) (hne : r.coordinators ≠ []) {name : String}
    (hfinal : r.final = .ok name) {order : List Aggregation} (horder : r.order = .ok order) :
    ∃ done last, order = done ++ [last] ∧ last.name = name ∧
      ∀ a ∈ r.coordinators, a ≠ last →
        Relation.TransGen (ReadsWithin r.coordinators) last a := by
  have hc := hr.consistent
  obtain ⟨hperm, hreads, -⟩ := order_sound hc horder
  -- The final aggregation is not referenced, and all others are read.
  have hmem : name ∈ r.unreferenced := by simp [(final_eq_ok_iff hne).mp hfinal]
  obtain ⟨⟨last, hlast, rfl⟩, -⟩ := mem_unreferenced.mp hmem
  have hread : ∀ a ∈ order, a ≠ last → ∃ b ∈ order, b.Reads a.name := by
    intro a ha hother
    have ha' := hperm.mem_iff.mp ha
    have hname : a.name ≠ last.name := fun heq =>
      hother (hc.eq_of_name_eq ha' hlast heq)
    obtain ⟨b, hb, hreadsName⟩ := exists_reader_of_final hne hfinal ha' hname
    exact ⟨b, hperm.mem_iff.mpr hb, hreadsName⟩
  have hnonempty : order ≠ [] := List.ne_nil_of_mem (hperm.mem_iff.mpr hlast)
  obtain ⟨⟨done, hdone⟩, hreach⟩ := readsBefore_exists_last hreads hnonempty hread
  refine ⟨done, last, hdone, rfl, fun a ha hother => ?_⟩
  exact Relation.TransGen.mono (readsWithin_mono fun _ => hperm.mem_iff.mp) _ _
    (hreach a (hperm.mem_iff.mpr ha) hother)

/-- In the small query, `top` is final and last, and reads `total`. -/
theorem final_last_of_order_usage :
    Usage.registry.final = .ok "top" ∧ Usage.registry.order = .ok [Usage.total, Usage.top] ∧
      Relation.TransGen (ReadsWithin Usage.registry.coordinators) Usage.top Usage.total := by
  have hne : Usage.registry.coordinators ≠ [] := by rw [Usage.coordinators_eq]; simp
  obtain ⟨done, last, hsplit, hname, hreach⟩ :=
    final_last_of_order Usage.reachable hne Usage.final_eq Usage.order_eq
  have hlast : Usage.top = last := by
    have hend := congrArg List.getLast? hsplit
    rw [List.getLast?_concat] at hend
    exact Option.some.inj hend
  subst hlast
  refine ⟨Usage.final_eq, Usage.order_eq, hreach Usage.total ?_ (by decide)⟩
  rw [Usage.coordinators_eq]
  simp

/-! ## Reading with a single end -/

/-- That no other coordinator aggregation reads this one. -/
def Unread (r : Registry) (a : Aggregation) : Prop :=
  a ∈ r.coordinators ∧ ∀ b ∈ r.coordinators, b ≠ a → ¬ b.Reads a.name

instance (r : Registry) (a : Aggregation) : Decidable (r.Unread a) :=
  inferInstanceAs (Decidable (_ ∧ _))

/-- Where there is an order, an aggregation that no other one reads is not referenced either, not
    even by itself. -/
theorem Unread.not_referenced (hr : r.Consistent) {order : List Aggregation}
    (horder : r.order = .ok order) {a : Aggregation} (h : r.Unread a) : ¬ r.Referenced a.name := by
  rintro ⟨b, hb, hname⟩
  have hread := Aggregation.reads_of_mem_referenced hname
  by_cases hself : b = a
  · subst hself
    exact not_onCycle_of_order hr horder b (Relation.TransGen.single ⟨hb, hb, hread⟩)
  · exact h.2 b hb hself hread

/-- An aggregation that is not referenced is the final one exactly if all others are referenced. -/
theorem final_eq_ok_iff_referenced (hr : r.Consistent) {n : Aggregation} (hn : n ∈ r.coordinators)
    (hfree : ¬ r.Referenced n.name) :
    r.final = .ok n.name ↔ ∀ a ∈ r.coordinators, a ≠ n → r.Referenced a.name := by
  have hmem : n.name ∈ r.unreferenced := mem_unreferenced.mpr ⟨⟨n, hn, rfl⟩, hfree⟩
  rw [final_eq_ok_iff (List.ne_nil_of_mem hn)]
  constructor
  · intro hone a ha hother
    by_contra hnot
    have hname : a.name ∈ r.unreferenced := mem_unreferenced.mpr ⟨⟨a, ha, rfl⟩, hnot⟩
    rw [hone, List.mem_singleton] at hname
    exact hother (hr.eq_of_name_eq ha hn hname)
  · intro hall
    -- Both lists are without repetitions, so it is enough that they have the same names.
    have hname : ∀ name, name ∈ r.unreferenced ↔ name ∈ [n.name] := by
      intro name
      rw [List.mem_singleton]
      refine ⟨fun h => ?_, fun h => h ▸ hmem⟩
      obtain ⟨⟨a, ha, rfl⟩, hnot⟩ := mem_unreferenced.mp h
      by_contra hother
      exact hnot (hall a ha fun heq => hother (congrArg Aggregation.name heq))
    have hperm : r.unreferenced.Perm [n.name] :=
      (List.perm_ext_iff_of_nodup (unreferenced_nodup hr) (List.nodup_singleton _)).mpr hname
    exact List.perm_singleton.mp hperm

/-- Names of a disconnected query ascend, and are those that are not referenced. -/
theorem disconnected_of_not_referenced (hr : r.Consistent) {a b : Aggregation} (hne : a ≠ b)
    (ha : a ∈ r.coordinators) (hb : b ∈ r.coordinators) (hafree : ¬ r.Referenced a.name)
    (hbfree : ¬ r.Referenced b.name) :
    ∃ names, r.final = .error (.disconnected names) ∧ names.Pairwise (· < ·) ∧
      ∀ name, name ∈ names ↔ (∃ c ∈ r.coordinators, c.name = name) ∧ ¬ r.Referenced name := by
  have hname : a.name ≠ b.name := fun heq =>
    hne (hr.eq_of_name_eq ha hb heq)
  refine ⟨_, final_eq_disconnected hname (mem_unreferenced.mpr ⟨⟨a, ha, rfl⟩, hafree⟩)
    (mem_unreferenced.mpr ⟨⟨b, hb, rfl⟩, hbfree⟩), ?_, ?_⟩
  · -- sorted and without repetitions, the names ascend strictly
    have hnodup := (ascendingNames_perm r.unreferenced).nodup_iff.mpr (unreferenced_nodup hr)
    exact pairwise_lt_of_nodup (ascendingNames_pairwise _) hnodup
  · intro name
    rw [mem_ascendingNames, mem_unreferenced]

/-- **Where reading has a single end.**  Let there be an order of evaluation, and let `n` be the
    only coordinator aggregation that no other one reads.  It is the final one exactly if all others
    are behind roles, and so in particular if what is read is read by roles.  Otherwise the query is
    refused as disconnected, with the names of all that are behind no role. -/
theorem final_of_unread (hr : r.Reachable) {order : List Aggregation} (horder : r.order = .ok order)
    {n : Aggregation} (hn : r.Unread n) (honly : ∀ m, r.Unread m → m = n) :
    (r.final = .ok n.name ↔ ∀ a ∈ r.coordinators, a ≠ n → r.Referenced a.name) ∧
    ((∀ a ∈ r.coordinators, ∀ b ∈ r.coordinators, a.Reads b.name → b.name ∈ a.referenced) →
      r.final = .ok n.name) ∧
    ((∃ a ∈ r.coordinators, a ≠ n ∧ ¬ r.Referenced a.name) →
      ∃ names, r.final = .error (.disconnected names) ∧ names.Pairwise (· < ·) ∧
        ∀ name, name ∈ names ↔ (∃ a ∈ r.coordinators, a.name = name) ∧ ¬ r.Referenced name) := by
  have hc := hr.consistent
  have hfree := hn.not_referenced hc horder
  have hiff := final_eq_ok_iff_referenced hc hn.1 hfree
  refine ⟨hiff, fun hroles => hiff.mpr fun a ha hother => ?_, ?_⟩
  · -- Every other one has a reader besides itself, and this one names it in a role.
    have hread : ¬ r.Unread a := fun h => hother (honly a h)
    rw [Unread, not_and] at hread
    push Not at hread
    obtain ⟨b, hb, -, hreads⟩ := hread ha
    exact ⟨b, hb, hroles b hb a ha hreads⟩
  · rintro ⟨a, ha, hother, hafree⟩
    exact disconnected_of_not_referenced hc hother ha hn.1 hafree hfree

end Registry

namespace Usage

/-- Reads `memory` by its name. -/
def copy : Aggregation where
  name := "copy"
  stages := []
  source := .aggregation [] "memory"

/-- Reads `copy` by its name. -/
def shown : Aggregation where
  name := "shown"
  stages := []
  source := .aggregation [] "copy"

/-- A chain of aggregations that declare no roles. -/
def byNames : Registry := .ofAttempts [memory, copy, shown]

/-- The chain without roles has an order of evaluation. -/
theorem order_byNames : byNames.order = .ok [copy, shown] := by
  rw [Registry.order_eq_schedule (by decide) (by decide)]
  rfl

/-- In the chain without roles, only `shown` is read by no other one. -/
theorem unread_byNames : byNames.Unread shown ∧ ∀ m, byNames.Unread m → m = shown := by
  have honly : ∀ m ∈ byNames.coordinators, byNames.Unread m → m = shown := by decide
  exact ⟨by decide, fun m hm => honly m hm.1 hm⟩

end Usage

/-- In the small query all roles are declared, and `top` is final.  The chain without roles is
    disconnected, and lists both of its aggregations. -/
theorem Registry.final_of_unread_usage :
    Usage.registry.final = .ok "top" ∧
    ∃ names, Usage.byNames.final = .error (.disconnected names) ∧
      "copy" ∈ names ∧ "shown" ∈ names := by
  constructor
  · have honly : ∀ m ∈ Usage.registry.coordinators, Usage.registry.Unread m → m = Usage.top := by
      decide
    exact (Registry.final_of_unread Usage.reachable Usage.order_eq (n := Usage.top) (by decide)
      fun m hm => honly m hm.1 hm).2.1 (by decide)
  · obtain ⟨hshown, honly⟩ := Usage.unread_byNames
    obtain ⟨-, -, hrefused⟩ :=
      Registry.final_of_unread (r := Usage.byNames) ⟨_, rfl⟩ Usage.order_byNames hshown honly
    obtain ⟨names, hfinal, -, hnames⟩ := hrefused (by decide)
    exact ⟨names, hfinal, (hnames "copy").mpr (by decide), (hnames "shown").mpr (by decide)⟩

/-- A single end of reading is not enough: in the chain without roles only `shown` is read by no
    other one, and yet it is not found. -/
theorem Registry.final_of_unread_by_name :
    ¬ ∀ r : Registry, r.Reachable → ∀ order, r.order = .ok order → ∀ n, r.Unread n →
      (∀ m, r.Unread m → m = n) → r.final = .ok n.name := by
  intro hclaim
  obtain ⟨hshown, honly⟩ := Usage.unread_byNames
  have hfinal := hclaim Usage.byNames ⟨_, rfl⟩ _ Usage.order_byNames _ hshown honly
  have hne : "copy" ≠ "shown" := by decide
  have hrefused := Registry.final_eq_disconnected (r := Usage.byNames) hne (by decide) (by decide)
  rw [hrefused] at hfinal
  cases hfinal

end SeriesQuery
