/-
  Computations in a row that may fail: `>>=`, `mapM` and `foldlM` for `Except`.

  Stages, shards and aggregations are all run by these three.  The lemmas here take a run apart at
  its outcome: a row that succeeds has succeeded at every place, and a row that fails has one place
  where it failed, with everything before it done.  No later proof opens the monad itself.
-/
import Mathlib.Data.List.Forall2

namespace SeriesQuery

variable {ε α β γ : Type}

/-! ## One computation after another

A computation in two parts succeeds through both and fails in one of them.  These equivalences are
the way in: proofs about functions in `do` notation take them apart by `obtain` and `rcases`. -/

/-- A result is handed on. -/
@[simp] theorem ok_bind (a : α) (f : α → Except ε β) : (Except.ok a >>= f) = f a := rfl

/-- After an error nothing runs. -/
@[simp] theorem error_bind (e : ε) (f : α → Except ε β) : (Except.error e >>= f) = .error e := rfl

/-- Two computations in a row succeed exactly if the first does, and the second with its result. -/
theorem bind_eq_ok {x : Except ε α} {f : α → Except ε β} {b : β} :
    x >>= f = .ok b ↔ ∃ a, x = .ok a ∧ f a = .ok b := by
  cases x with
  | ok a => simp
  | error e => simp

/-- Two computations in a row fail exactly if the first does, or the second with its result. -/
theorem bind_eq_error {x : Except ε α} {f : α → Except ε β} {e : ε} :
    x >>= f = .error e ↔ x = .error e ∨ ∃ a, x = .ok a ∧ f a = .error e := by
  cases x with
  | ok a => simp
  | error e' => simp

/-- A changed result is a result that was there, changed. -/
theorem map_eq_ok {x : Except ε α} {f : α → β} {b : β} :
    f <$> x = .ok b ↔ ∃ a, x = .ok a ∧ f a = b := by
  cases x with
  | ok a => simp [Functor.map, Except.map]
  | error e => simp [Functor.map, Except.map]

/-- A change to the result leaves every error as it is. -/
theorem map_eq_error {x : Except ε α} {f : α → β} {e : ε} :
    f <$> x = .error e ↔ x = .error e := by
  cases x with
  | ok a => simp [Functor.map, Except.map]
  | error e' => simp [Functor.map, Except.map]

theorem pure_eq_ok {a b : α} : (pure a : Except ε α) = .ok b ↔ a = b := by
  simp [pure, Except.pure]

/-- What passes a check has the property that is checked. -/
theorem of_check_eq_ok {p : Prop} [Decidable p] {a b : α} {e : ε}
    (h : (if p then .ok a else .error e : Except ε α) = .ok b) : p := by
  by_contra hp
  rw [if_neg hp] at h
  cases h

/-- What is not an error is a result. -/
theorem exists_ok_of_ne_error {x : Except ε α} (h : ∀ e, x ≠ .error e) : ∃ a, x = .ok a := by
  cases x with
  | ok a => exact ⟨a, rfl⟩
  | error e => exact absurd rfl (h e)

/-- What fails alike succeeds alike. -/
theorem exists_ok_congr {x : Except ε α} {y : Except ε β}
    (h : ∀ e, x = .error e ↔ y = .error e) : (∃ a, x = .ok a) ↔ ∃ b, y = .ok b := by
  constructor
  · rintro ⟨a, rfl⟩
    refine exists_ok_of_ne_error fun e he => ?_
    cases (h e).mpr he
  · rintro ⟨b, rfl⟩
    refine exists_ok_of_ne_error fun e he => ?_
    cases (h e).mp he

/-- A result that is there is the outcome. -/
theorem eq_ok_of_toOption {x : Except ε α} {a : α} (h : x.toOption = some a) : x = .ok a := by
  cases x with
  | ok b => exact congrArg Except.ok (Option.some.inj h)
  | error e => cases h

/-! ## The same computation for every item

A row of computations is compared with its items.  Success is a relation between the two lists
(`mapM_eq_ok`), and failure is a place in the first one (`FirstFailure`). -/

/-- A row of computations succeeds exactly if each of them does, with the results in its order. -/
theorem mapM_eq_ok {f : α → Except ε β} : ∀ {xs : List α} {ys : List β},
    xs.mapM f = .ok ys ↔ List.Forall₂ (fun x y => f x = .ok y) xs ys
  | [], ys => by
    rw [List.mapM_nil, pure_eq_ok, List.forall₂_nil_left_iff]
    exact eq_comm
  | x :: xs, ys => by
    rw [List.mapM_cons, bind_eq_ok, List.forall₂_cons_left_iff]
    constructor
    · rintro ⟨y, hy, hrest⟩
      obtain ⟨ys', hys, hpure⟩ := bind_eq_ok.mp hrest
      exact ⟨y, ys', hy, mapM_eq_ok.mp hys, (pure_eq_ok.mp hpure).symm⟩
    · rintro ⟨y, ys', hy, hys, rfl⟩
      exact ⟨y, hy, bind_eq_ok.mpr ⟨ys', mapM_eq_ok.mpr hys, rfl⟩⟩

/-- To change every result is to change the list of results. -/
theorem mapM_map_result {f : α → Except ε β} (g : β → γ) (xs : List α) :
    (xs.mapM fun x => g <$> f x) = List.map g <$> xs.mapM f := by
  induction xs with
  | nil => rfl
  | cons x xs ih =>
    rw [List.mapM_cons, List.mapM_cons, ih]
    cases f x with
    | error e => rfl
    | ok y =>
      cases xs.mapM f with
      | error e => rfl
      | ok ys => rfl

/-- A row whose items all succeed does so as a whole. -/
theorem exists_mapM_eq_ok {f : α → Except ε β} {xs : List α} (h : ∀ x ∈ xs, ∃ y, f x = .ok y) :
    ∃ ys, xs.mapM f = .ok ys := by
  induction xs with
  | nil => exact ⟨[], rfl⟩
  | cons x xs ih =>
    obtain ⟨y, hy⟩ := h x List.mem_cons_self
    obtain ⟨ys, hys⟩ := ih fun z hz => h z (List.mem_cons_of_mem x hz)
    refine ⟨y :: ys, ?_⟩
    rw [List.mapM_cons, hy, hys]
    rfl

/-- In a row that succeeds, every item does. -/
theorem exists_ok_of_mapM {f : α → Except ε β} {xs : List α} {ys : List β}
    (h : xs.mapM f = .ok ys) {x : α} (hx : x ∈ xs) : ∃ y, f x = .ok y := by
  have hall := mapM_eq_ok.mp h
  clear h
  induction hall with
  | nil => exact absurd hx List.not_mem_nil
  | cons hfirst hrest ih =>
    rcases List.mem_cons.mp hx with rfl | hx
    · exact ⟨_, hfirst⟩
    · exact ih hx

/-- What is read off the results is known if it is known for every item. -/
theorem map_of_mapM {f : α → Except ε β} {read : β → γ} {known : α → γ} {xs : List α} {ys : List β}
    (h : xs.mapM f = .ok ys) (hread : ∀ x ∈ xs, ∀ y, f x = .ok y → read y = known x) :
    ys.map read = xs.map known := by
  have hall := mapM_eq_ok.mp h
  clear h
  induction hall with
  | nil => rfl
  | cons hfirst hrest ih =>
    rw [List.map_cons, List.map_cons, hread _ List.mem_cons_self _ hfirst,
      ih fun x hx => hread x (List.mem_cons_of_mem _ hx)]

/-- In a row that succeeds, every result is that of some item. -/
theorem exists_mem_of_mapM {f : α → Except ε β} {xs : List α} {ys : List β}
    (h : xs.mapM f = .ok ys) {y : β} (hy : y ∈ ys) : ∃ x ∈ xs, f x = .ok y := by
  have hall := mapM_eq_ok.mp h
  clear h
  induction hall with
  | nil => exact absurd hy List.not_mem_nil
  | cons hfirst hrest ih =>
    rcases List.mem_cons.mp hy with rfl | hy
    · exact ⟨_, List.mem_cons_self, hfirst⟩
    · obtain ⟨x, hx, hfx⟩ := ih hy
      exact ⟨x, List.mem_cons_of_mem _ hx, hfx⟩

/-- How a row fails: the first item that does, all before it having succeeded. -/
def FirstFailure (f : α → Except ε β) (xs : List α) (e : ε) : Prop :=
  ∃ done x rest, xs = done ++ x :: rest ∧ (∀ y ∈ done, ∃ b, f y = .ok b) ∧ f x = .error e

/-- A row fails exactly as its first item that fails. -/
theorem mapM_eq_error {f : α → Except ε β} {xs : List α} {e : ε} :
    xs.mapM f = .error e ↔ FirstFailure f xs e := by
  constructor
  · intro h
    induction xs with
    | nil => simp [pure, Except.pure] at h
    | cons x xs ih =>
      rw [List.mapM_cons, bind_eq_error] at h
      rcases h with hx | ⟨y, hy, hrest⟩
      · exact ⟨[], x, xs, rfl, fun y hy => absurd hy List.not_mem_nil, hx⟩
      · obtain ⟨done, z, rest, rfl, hdone, hz⟩ := ih (map_eq_error.mp hrest)
        exact ⟨x :: done, z, rest, rfl, List.forall_mem_cons.mpr ⟨⟨y, hy⟩, hdone⟩, hz⟩
  · rintro ⟨done, x, rest, rfl, hdone, hx⟩
    -- everything before runs through, and then the row stops at `x`
    obtain ⟨ys, hys⟩ := exists_mapM_eq_ok hdone
    rw [List.mapM_append, hys, ok_bind, List.mapM_cons, hx]
    rfl

/-- A row that fails has an item that fails in this way. -/
theorem exists_error_of_mapM {f : α → Except ε β} {xs : List α} {e : ε}
    (h : xs.mapM f = .error e) : ∃ x ∈ xs, f x = .error e := by
  obtain ⟨done, x, rest, rfl, -, hx⟩ := mapM_eq_error.mp h
  exact ⟨x, List.mem_append_right done List.mem_cons_self, hx⟩

/-- Rows whose items agree one by one have the same outcome. -/
theorem mapM_congr_forall₂ {f : α → Except ε β} {g : γ → Except ε β} {xs : List α}
    {ys : List γ} (h : List.Forall₂ (fun x y => f x = g y) xs ys) : xs.mapM f = ys.mapM g := by
  induction h with
  | nil => rfl
  | cons hfirst hrest ih => rw [List.mapM_cons, List.mapM_cons, hfirst, ih]

/-- The lists of a row, joined: one more item adds its list at the end. -/
theorem flatten_mapM_concat (f : α → Except ε (List β)) (xs : List α) (x : α) :
    List.flatten <$> (xs ++ [x]).mapM f = (do
      let before ← List.flatten <$> xs.mapM f
      let last ← f x
      return before ++ last) := by
  rw [List.mapM_append, List.mapM_cons]
  cases xs.mapM f with
  | error e => rfl
  | ok lists =>
    cases f x with
    | error e => rfl
    | ok last =>
      show Except.ok (lists ++ [last]).flatten = Except.ok (lists.flatten ++ last)
      rw [List.flatten_append, List.flatten_singleton]

/-- If the results carry the names of their items, and no two items share a name, then the result of
    every item is found under its name. -/
theorem find?_of_forall₂ {name : α → String} {key : β → String} {r : α → β → Prop} {xs : List α}
    {ys : List β} (h : List.Forall₂ (fun x y => key y = name x ∧ r x y) xs ys)
    (hnodup : (xs.map name).Nodup) :
    ∀ x ∈ xs, ∃ y, ys.find? (fun y => key y == name x) = some y ∧ r x y := by
  induction h with
  | nil => exact fun x hx => absurd hx List.not_mem_nil
  | @cons z y xs ys hfirst hrest ih =>
    obtain ⟨hkey, hr⟩ := hfirst
    obtain ⟨hz, hnodup⟩ := List.nodup_cons.mp hnodup
    intro x hx
    rw [List.find?_cons, hkey]
    rcases List.mem_cons.mp hx with rfl | hx
    · rw [beq_self_eq_true]
      exact ⟨y, rfl, hr⟩
    · have hne : (name z == name x) = false := by
        rw [beq_eq_false_iff_ne]
        exact fun heq => hz (heq ▸ List.mem_map_of_mem hx)
      rw [hne]
      exact ih hnodup x hx

/-! ## A state that is carried along

A fold adds a state to the row.  It is cut at any place (`foldlM_split`), has an invariant
(`foldlM_invariant`), and is a row again where the steps do not look at the state. -/

/-- A fold that succeeds went through every item: there is a state before it and one after it. -/
theorem foldlM_split {f : β → α → Except ε β} {init out : β} {done rest : List α} {x : α}
    (h : (done ++ x :: rest).foldlM f init = .ok out) :
    ∃ before after, done.foldlM f init = .ok before ∧ f before x = .ok after ∧
      rest.foldlM f after = .ok out := by
  rw [List.foldlM_append, bind_eq_ok] at h
  obtain ⟨before, hdone, h⟩ := h
  rw [List.foldlM_cons, bind_eq_ok] at h
  obtain ⟨after, hx, hrest⟩ := h
  exact ⟨before, after, hdone, hx, hrest⟩

/-- A fold that fails has a first item that does, and a state that it got to before. -/
theorem foldlM_eq_error {f : β → α → Except ε β} {init : β} {xs : List α} {e : ε}
    (h : xs.foldlM f init = .error e) :
    ∃ done x rest before, xs = done ++ x :: rest ∧ done.foldlM f init = .ok before ∧
      f before x = .error e := by
  induction xs generalizing init with
  | nil => simp [pure, Except.pure] at h
  | cons x xs ih =>
    rw [List.foldlM_cons, bind_eq_error] at h
    rcases h with hx | ⟨next, hx, hrest⟩
    · exact ⟨[], x, xs, init, rfl, rfl, hx⟩
    · obtain ⟨done, y, rest, before, rfl, hdone, hy⟩ := ih hrest
      refine ⟨x :: done, y, rest, before, rfl, ?_, hy⟩
      rw [List.foldlM_cons, hx]
      exact hdone

/-- What every step keeps, a fold keeps. -/
theorem foldlM_invariant {f : β → α → Except ε β} {xs : List α} (P : β → Prop)
    (hstep : ∀ b x c, x ∈ xs → P b → f b x = .ok c → P c) {init out : β} (hinit : P init)
    (h : xs.foldlM f init = .ok out) : P out := by
  induction xs generalizing init with
  | nil =>
    have hout : init = out := pure_eq_ok.mp h
    exact hout ▸ hinit
  | cons x xs ih =>
    rw [List.foldlM_cons, bind_eq_ok] at h
    obtain ⟨next, hx, hrest⟩ := h
    have hnext : P next := hstep init x next List.mem_cons_self hinit hx
    exact ih (fun b y c hy => hstep b y c (List.mem_cons_of_mem x hy)) hnext hrest

/-- A fold whose steps each append one result, and do not look at the results before, computes the
    results item by item. -/
theorem foldlM_append_eq_mapM {f : List β → α → Except ε (List β)} {g : α → Except ε β}
    {xs : List α} (hf : ∀ ys, ∀ x ∈ xs, f ys x = (fun y => ys ++ [y]) <$> g x) (init : List β) :
    xs.foldlM f init = (fun ys => init ++ ys) <$> xs.mapM g := by
  induction xs generalizing init with
  | nil => simp [pure, Except.pure, Functor.map, Except.map]
  | cons x xs ih =>
    -- the hypothesis for every list so far, since the first item makes it longer
    have htail := fun init => ih (fun ys y hy => hf ys y (List.mem_cons_of_mem x hy)) init
    rw [List.foldlM_cons, List.mapM_cons, hf init x List.mem_cons_self]
    cases g x with
    | error e => rfl
    | ok y =>
      show xs.foldlM f (init ++ [y]) = _
      rw [htail]
      cases xs.mapM g with
      | error e => rfl
      | ok ys => simp [Functor.map, Except.map, pure, Except.pure]

end SeriesQuery
