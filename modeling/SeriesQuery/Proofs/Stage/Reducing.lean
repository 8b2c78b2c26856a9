/-
  Reducing what shards hand in, all at once or group by group.

  `head` takes series from the results in turn and stops when it has enough.  The invariant of this
  loop is that no more than `limit` series are taken: then the room that is left is the number still
  wanted, and what the loop ends with is the first `limit` of all series in a row
  (`takeInTurn_eq`).  After that the loop is not opened again; `reduce_head_eq_ok` says all that a
  reduction gives.

  Results may be reduced in groups, and what comes of that once more.  No series is lost by it: one
  of the first `limit` of all is one of the first `limit` of its group (`take_flatten_map_take`).
  Nor are the name and the metadata, which come from the first result of the first group.
-/
import SeriesQuery.Proofs.Sequencing
import SeriesQuery.Stage.Basic

namespace SeriesQuery

/-- What a result carries beside its series: its name and its metadata. -/
def PartialResult.origin (p : PartialResult) : String × Json.Members := (p.name, p.metadata)

namespace Stage

/-! ## Taking series in turn -/

/-- What is in turn up to a limit comes after what was taken before, as long as that does not exceed
    the limit. -/
theorem takeInTurn_eq {limit : Nat} {taken : List Series} (h : taken.length ≤ limit)
    (partials : List PartialResult) :
    takeInTurn limit taken partials =
      taken ++ (partials.flatMap PartialResult.series).take (limit - taken.length) := by
  induction partials generalizing taken with
  | nil => rw [takeInTurn, List.flatMap_nil, List.take_nil, List.append_nil]
  | cons p rest ih =>
    rw [takeInTurn]
    split
    case isTrue hfull =>
      have hnone : limit - taken.length = 0 := Nat.sub_eq_zero_of_le hfull
      rw [hnone, List.take_zero, List.append_nil]
    case isFalse hroom =>
      have hlength : (taken ++ p.series.take (limit - taken.length)).length =
          taken.length + min (limit - taken.length) p.series.length := by
        rw [List.length_append, List.length_take]
      have hleft : limit - (taken ++ p.series.take (limit - taken.length)).length =
          limit - taken.length - p.series.length := by omega
      rw [ih (by omega), hleft, List.flatMap_cons, List.take_append, List.append_assoc]

/-- The first `m` of all items are among the first `n` of each part, if `m` is no more than `n`. -/
theorem take_flatten_map_take {α : Type} (parts : List (List α)) {m n : Nat} (h : m ≤ n) :
    ((parts.map (List.take n)).flatten).take m = parts.flatten.take m := by
  induction parts generalizing m with
  | nil => rfl
  | cons part parts ih =>
    rw [List.map_cons, List.flatten_cons, List.flatten_cons, List.take_append, List.take_append,
      List.take_take, Nat.min_eq_left h, List.length_take]
    congr 1
    -- What is still wanted after the first part is the same on both sides.
    have hleft : m - min n part.length = m - part.length := by omega
    rw [hleft]
    exact ih (by omega)

/-! ## One reduction -/

variable {limit : UInt64}

/-- A reduction by `head` succeeds if there is something to reduce, and gives the first series of
    all results under the name and with the metadata of the first one. -/
theorem reduce_head_eq_ok {partials : List PartialResult} {reduced : PartialResult} :
    (head limit).reduce partials = .ok reduced ↔
      reduced.series = (partials.flatMap PartialResult.series).take limit.toNat ∧
        partials.head?.map PartialResult.origin = some reduced.origin := by
  obtain ⟨name, series, metadata⟩ := reduced
  cases partials with
  | nil =>
    constructor
    · intro h
      cases h
    · rintro ⟨-, h⟩
      cases h
  | cons first rest =>
    have hnone : ([] : List Series).length ≤ limit.toNat := Nat.zero_le _
    have htaken : takeInTurn limit.toNat [] (first :: rest) =
        ((first :: rest).flatMap PartialResult.series).take limit.toNat :=
      takeInTurn_eq hnone (first :: rest)
    show Except.ok { first with series := takeInTurn limit.toNat [] (first :: rest) } = _ ↔
      series = _ ∧ some (first.name, first.metadata) = some (name, metadata)
    rw [htaken, Except.ok.injEq, PartialResult.mk.injEq, Option.some.injEq, Prod.mk.injEq]
    constructor
    · rintro ⟨hname, hseries, hmetadata⟩
      exact ⟨hseries.symm, hname, hmetadata⟩
    · rintro ⟨hseries, hname, hmetadata⟩
      exact ⟨hname, hseries.symm, hmetadata⟩

theorem exists_reduce_head (limit : UInt64) {partials : List PartialResult} (h : partials ≠ []) :
    ∃ reduced, (head limit).reduce partials = .ok reduced := by
  obtain ⟨first, rest, rfl⟩ := List.exists_cons_of_ne_nil h
  exact ⟨_, rfl⟩

/-! ## Reductions of groups -/

/-- The series of the reduced groups are the first ones of each group. -/
theorem flatMap_series_of_reduced {groups : List (List PartialResult)}
    {reduced : List PartialResult}
    (h : List.Forall₂ (fun g r => (head limit).reduce g = .ok r) groups reduced) :
    reduced.flatMap PartialResult.series =
      ((groups.map (List.flatMap PartialResult.series)).map (List.take limit.toNat)).flatten := by
  induction h with
  | nil => rfl
  | cons hfirst hrest ih =>
    rw [List.flatMap_cons, ih, (reduce_head_eq_ok.mp hfirst).1, List.map_cons, List.map_cons,
      List.flatten_cons]

/-- **Reducing in groups is reducing at once.**  However the results are cut into groups, the
    reduced groups are reduced to what all of them are reduced to in one go: the first series of
    all, under the name and with the metadata of the first result. -/
theorem reduce_inGroups (limit : UInt64) {partials : List PartialResult} (hsome : partials ≠ [])
    {groups : List (List PartialResult)} (hcut : groups.flatten = partials)
    (hgroups : ∀ g ∈ groups, g ≠ []) :
    ∃ reduced, (head limit).reduce partials = .ok reduced ∧
      (groups.mapM (head limit).reduce >>= (head limit).reduce) = .ok reduced ∧
      reduced.series = (partials.flatMap PartialResult.series).take limit.toNat ∧
      partials.head?.map PartialResult.origin = some reduced.origin := by
  obtain ⟨reduced, hreduced⟩ := exists_reduce_head limit hsome
  obtain ⟨hseries, horigin⟩ := reduce_head_eq_ok.mp hreduced
  refine ⟨reduced, hreduced, ?_, hseries, horigin⟩
  obtain ⟨inGroups, hinGroups⟩ :=
    exists_mapM_eq_ok fun g hg => exists_reduce_head limit (hgroups g hg)
  have hall := mapM_eq_ok.mp hinGroups
  rw [hinGroups, ok_bind, reduce_head_eq_ok]
  constructor
  · have hflat : (groups.map (List.flatMap PartialResult.series)).flatten =
        partials.flatMap PartialResult.series := by
      rw [← hcut, ← List.flatMap_def, ← List.flatMap_id, List.flatMap_assoc]
      rfl
    rw [hseries, flatMap_series_of_reduced hall, take_flatten_map_take _ (Nat.le_refl _), hflat]
  · cases hall with
    | nil => exact absurd hcut.symm hsome
    | @cons g r groups inGroups hfirst hrest =>
      -- The first of all results is the first one of the first group.
      have hhead : partials.head? = g.head? := by
        obtain ⟨first, rest, rfl⟩ := List.exists_cons_of_ne_nil (hgroups g List.mem_cons_self)
        rw [← hcut]
        rfl
      rw [← horigin, hhead, (reduce_head_eq_ok.mp hfirst).2]
      rfl

/-- Three shards, one of them without series, in two groups.  The limit is met in the second one. -/
theorem reduce_inGroups_usage :
    let named (title : String) : Series :=
      { samples := [], labels := .empty, minTime := 0, maxTime := 0, step := 1,
        title := some title }
    let a : PartialResult := ⟨"cpu", [named "x", named "y"], [("shard_id", .string "a")]⟩
    let b : PartialResult := ⟨"cpu", [], [("shard_id", .string "b")]⟩
    let c : PartialResult := ⟨"cpu", [named "z", named "x"], [("shard_id", .string "c")]⟩
    ∃ reduced, (head 3).reduce [a, b, c] = .ok reduced ∧
      ([[a, b], [c]].mapM (head 3).reduce >>= (head 3).reduce) = .ok reduced ∧
      reduced.series = [named "x", named "y", named "z"] ∧ reduced.origin = a.origin := by
  intro named a b c
  have hcut : [[a, b], [c]].flatten = [a, b, c] := rfl
  have hgroups : ∀ g ∈ [[a, b], [c]], g ≠ [] := by simp
  obtain ⟨reduced, hreduced, hinGroups, hseries, horigin⟩ :=
    reduce_inGroups 3 (List.cons_ne_nil a [b, c]) hcut hgroups
  exact ⟨reduced, hreduced, hinGroups, hseries, (Option.some.inj horigin).symm⟩

end Stage
end SeriesQuery
