/-
  Registries that registration can reach.

  A registry starts empty and grows by `register`, which refuses a name that is taken and a binary
  stage on shards; what is refused leaves no trace.  `Registry.ofAttempts` is the registry after any
  sequence of such attempts, and `Registry.Consistent` what all of these registries share: every
  name stands for one aggregation, and the stages on shards take one list each.

  Consistency is also all that registration asks for: a list of aggregations registers as a whole
  exactly if the registry of all of them is consistent (`Registry.registerAll_eq_ok_iff`).
-/
import Mathlib.Data.List.Nodup
import Mathlib.Data.List.Perm.Basic
import SeriesQuery.Proofs.Sequencing
import SeriesQuery.Query.Registry

namespace SeriesQuery.Registry

/-! ## The aggregations of a registry -/

/-- The aggregations on shards are those that read no other. -/
theorem mem_unfolds {r : Registry} {a : Aggregation} :
    a ∈ r.unfolds ↔ a ∈ r.aggregations ∧ a.isCoordinator = false := by
  simp [unfolds]

/-- The coordinator aggregations are those that do. -/
theorem mem_coordinators {r : Registry} {a : Aggregation} :
    a ∈ r.coordinators ↔ a ∈ r.aggregations ∧ a.isCoordinator = true := by
  simp [coordinators]

/-- Every aggregation is of one of the two kinds. -/
theorem unfolds_append_coordinators (r : Registry) :
    (r.unfolds ++ r.coordinators).Perm r.aggregations :=
  List.perm_append_comm.trans (List.filter_append_perm Aggregation.isCoordinator r.aggregations)

/-- A name is free if no aggregation has it. -/
theorem find?_eq_none_iff {r : Registry} {name : String} :
    r.find? name = none ↔ name ∉ r.aggregations.map Aggregation.name := by
  simp [find?]

/-! ## Registration -/

/-- The registry after one attempt to register: what is refused changes nothing. -/
def attempt (r : Registry) (a : Aggregation) : Registry :=
  (r.register a).toOption.getD r

/-- The registry after a sequence of attempts, in their order. -/
def ofAttempts (attempts : List Aggregation) : Registry :=
  attempts.foldl attempt {}

/-- No name stands for two aggregations, and no stage on shards takes two lists. -/
structure Consistent (r : Registry) : Prop where
  names_nodup : (r.aggregations.map Aggregation.name).Nodup
  unary : ∀ a ∈ r.unfolds, ∀ s ∈ a.stages, s.isBinary = false

/-- Registration succeeds for a new name, unless a stage on shards is binary, and appends. -/
theorem register_eq_ok {r r' : Registry} {a : Aggregation} (h : r.register a = .ok r') :
    a.name ∉ r.aggregations.map Aggregation.name ∧
      (a.isCoordinator = false → ∀ s ∈ a.stages, s.isBinary = false) ∧
      r' = ⟨r.aggregations ++ [a]⟩ := by
  unfold register at h
  split at h
  case isTrue => cases h
  case isFalse hnew =>
    have hname : r.find? a.name = none := by simpa using hnew
    refine ⟨find?_eq_none_iff.mp hname, ?_⟩
    split at h
    case h_1 => cases h
    case h_2 hunary =>
      refine ⟨fun hshards s hs => ?_, (Except.ok.inj h).symm⟩
      -- No stage is the first binary one, so none is binary.
      have hnone : a.binaryStage? = none :=
        Option.eq_none_iff_forall_ne_some.mpr fun stage hstage => hunary stage hshards hstage
      simpa using List.find?_eq_none.mp hnone s hs

/-- Nothing more is needed for success. -/
theorem register_of_new {r : Registry} {a : Aggregation}
    (hname : a.name ∉ r.aggregations.map Aggregation.name)
    (hunary : a.isCoordinator = false → ∀ s ∈ a.stages, s.isBinary = false) :
    r.register a = .ok ⟨r.aggregations ++ [a]⟩ := by
  have hnew : ¬ (r.find? a.name).isSome = true := by
    rw [find?_eq_none_iff.mpr hname]
    exact Bool.false_ne_true
  unfold register
  rw [if_neg hnew]
  split
  case h_1 stage hshards hfirst =>
    have hbinary : stage.isBinary = true := List.find?_some hfirst
    rw [hunary hshards stage (List.mem_of_find?_eq_some hfirst)] at hbinary
    cases hbinary
  case h_2 => rfl

/-- Registration starts from a consistent registry. -/
theorem Consistent.empty : Consistent {} where
  names_nodup := List.nodup_nil
  unary := fun a ha => by simp [unfolds] at ha

/-- An aggregation that is accepted keeps a registry consistent. -/
theorem Consistent.register {r r' : Registry} {a : Aggregation} (hr : r.Consistent)
    (h : r.register a = .ok r') : r'.Consistent := by
  obtain ⟨hname, hunary, rfl⟩ := register_eq_ok h
  refine ⟨?_, fun b hb => ?_⟩
  · rw [List.map_append, List.nodup_append]
    refine ⟨hr.names_nodup, List.nodup_singleton a.name, fun x hx y hy hxy => ?_⟩
    have hy' : y = a.name := by simpa using hy
    exact hname (hy' ▸ hxy ▸ hx)
  · obtain ⟨hmem, hshards⟩ := mem_unfolds.mp hb
    -- an old aggregation was fine before, and the new one has just been looked at
    rcases List.mem_append.mp hmem with hold | hnew
    · exact hr.unary b (mem_unfolds.mpr ⟨hold, hshards⟩)
    · obtain rfl := List.mem_singleton.mp hnew
      exact hunary hshards

/-- An attempt keeps a registry consistent, whether it is accepted or not. -/
theorem Consistent.attempt {r : Registry} (hr : r.Consistent) (a : Aggregation) :
    (r.attempt a).Consistent := by
  unfold Registry.attempt
  cases h : r.register a with
  | ok r' => exact hr.register h
  | error e => exact hr

/-- The order of registration is no part of consistency. -/
theorem Consistent.perm {r r' : Registry} (hr : r.Consistent)
    (h : r'.aggregations.Perm r.aggregations) : r'.Consistent where
  names_nodup := (h.map Aggregation.name).nodup_iff.mpr hr.names_nodup
  unary := fun a ha =>
    have hmem := mem_unfolds.mp ha
    hr.unary a (mem_unfolds.mpr ⟨h.mem_iff.mp hmem.1, hmem.2⟩)

/-- **What a list of aggregations that registers leads to.**  All of them are in the registry, in
    their order after those before; and any list with which the registry stays consistent does
    register.  By induction on the list, for any registry that is consistent; one registration keeps
    that. -/
theorem registerAll_eq_ok_iff {r r' : Registry} (hr : r.Consistent) {added : List Aggregation} :
    r.registerAll added = .ok r' ↔
      r'.aggregations = r.aggregations ++ added ∧ r'.Consistent := by
  unfold registerAll
  -- The registry that the rest is added to is the one after the first aggregation.
  induction added generalizing r with
  | nil =>
    rw [List.foldlM_nil, pure_eq_ok, List.append_nil]
    constructor
    · rintro rfl
      exact ⟨rfl, hr⟩
    · rintro ⟨hsame, -⟩
      cases r
      cases r'
      exact congrArg Registry.mk hsame.symm
  | cons a added ih =>
    rw [List.foldlM_cons, bind_eq_ok]
    constructor
    · rintro ⟨next, hnext, hrest⟩
      obtain ⟨hall, hr'⟩ := (ih (hr.register hnext)).mp hrest
      obtain ⟨-, -, rfl⟩ := register_eq_ok hnext
      exact ⟨by simpa using hall, hr'⟩
    · rintro ⟨hall, hr'⟩
      have ha : a ∈ r'.aggregations := by simp [hall]
      have hname : a.name ∉ r.aggregations.map Aggregation.name := by
        -- all names of the final registry differ, so this one is not among those before it
        have hnodup := hr'.names_nodup
        rw [hall, List.map_append] at hnodup
        intro hmem
        exact (List.nodup_append.mp hnodup).2.2 a.name hmem a.name List.mem_cons_self rfl
      have hnext := register_of_new hname fun hshards => hr'.unary a (mem_unfolds.mpr ⟨ha, hshards⟩)
      exact ⟨_, hnext, (ih (hr.register hnext)).mpr ⟨by simpa using hall, hr'⟩⟩

/-- The registries that sequences of attempts lead to. -/
def Reachable (r : Registry) : Prop :=
  ∃ attempts, r = ofAttempts attempts

/-- **Every registry that registration reaches is consistent.** -/
theorem Reachable.consistent {r : Registry} (h : r.Reachable) : r.Consistent := by
  obtain ⟨attempts, rfl⟩ := h
  -- By induction on the attempts; the registry is any consistent one, as it grows with each of
  -- them.
  have hall : ∀ (attempts : List Aggregation) (r : Registry), r.Consistent →
      (attempts.foldl Registry.attempt r).Consistent := by
    intro attempts
    induction attempts with
    | nil => intro r hr; exact hr
    | cons a rest ih => intro r hr; exact ih (r.attempt a) (hr.attempt a)
  exact hall attempts {} Consistent.empty

/-! ## What consistency gives -/

namespace Consistent

variable {r : Registry}

/-- No two aggregations on shards share a name. -/
theorem unfolds_nodup (hr : r.Consistent) : (r.unfolds.map Aggregation.name).Nodup :=
  hr.names_nodup.sublist (List.filter_sublist.map Aggregation.name)

/-- No two coordinator aggregations have the same name. -/
theorem coordinators_nodup (hr : r.Consistent) : (r.coordinators.map Aggregation.name).Nodup :=
  hr.names_nodup.sublist (List.filter_sublist.map Aggregation.name)

/-- A coordinator aggregation is known by its name. -/
theorem eq_of_name_eq (hr : r.Consistent) {a b : Aggregation} (ha : a ∈ r.coordinators)
    (hb : b ∈ r.coordinators) (h : a.name = b.name) : a = b :=
  List.inj_on_of_nodup_map hr.coordinators_nodup ha hb h

end Consistent
end SeriesQuery.Registry
