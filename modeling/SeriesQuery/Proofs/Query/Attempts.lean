/-
  Sequences of calls to register.

  A registry is the memory of all calls so far, and only of those that were accepted.  A call looks
  at the registry and not at the calls before, so what was refused might as well not have been
  asked.

  * A step appends its definition or leaves everything as it was, and which of the two is settled by
    the name and the stages of the definition (`register_eq_error_iff`).
  * A run therefore ends with the accepted definitions, in the order of the calls
    (`foldl_attempt_aggregations`), and a refused call can be taken out of any run
    (`ofAttempts_without_refused`).
-/
import SeriesQuery.Proofs.Query.Course

namespace SeriesQuery
namespace Registry

variable {r next : Registry} {a : Aggregation} {e : Error}

/-! ## One call -/

/-- Why a call is refused. -/
inductive Refusal (r : Registry) (a : Aggregation) : Error → Prop
  /-- The name is taken. -/
  | taken (hname : a.name ∈ r.aggregations.map Aggregation.name) :
      Refusal r a (.invalid (.nameTaken a.name))
  /-- A stage on shards takes two lists.  The first that does is reported. -/
  | binary {before after : List Stage} {s : Stage}
      (hname : a.name ∉ r.aggregations.map Aggregation.name) (hshards : a.isCoordinator = false)
      (hstages : a.stages = before ++ s :: after) (hbefore : ∀ t ∈ before, t.isBinary = false)
      (hs : s.isBinary = true) : Refusal r a (.invalid (.binaryInUnfold a.name s.name))

theorem find?_isSome_iff {name : String} :
    (r.find? name).isSome = true ↔ name ∈ r.aggregations.map Aggregation.name := by
  rw [← not_iff_not, ← find?_eq_none_iff]
  simp

/-- **Which calls are refused, and how.** -/
theorem register_eq_error_iff : r.register a = .error e ↔ r.Refusal a e := by
  constructor
  · intro h
    unfold register at h
    split at h
    case isTrue htaken =>
      obtain rfl := Except.error.inj h
      exact .taken (find?_isSome_iff.mp htaken)
    case isFalse hnew =>
      split at h
      case h_1 s hshards hfirst =>
        obtain rfl := Except.error.inj h
        obtain ⟨hs, before, after, hstages, hbefore⟩ := List.find?_eq_some_iff_append.mp hfirst
        exact .binary (mt find?_isSome_iff.mpr hnew) hshards hstages
          (by simpa using hbefore) hs
      case h_2 => cases h
  · intro h
    unfold register
    cases h with
    | taken hname => rw [if_pos (find?_isSome_iff.mpr hname)]
    | @binary before after s hname hshards hstages hbefore hs =>
      have hfirst : a.binaryStage? = some s :=
        List.find?_eq_some_iff_append.mpr ⟨hs, before, after, hstages, by simpa using hbefore⟩
      rw [if_neg (mt find?_isSome_iff.mp hname), hshards, hfirst]

/-- A call is refused exactly for a name that is taken, or for a stage on shards that takes two
    lists. -/
theorem exists_register_error_iff :
    (∃ e, r.register a = .error e) ↔
      a.name ∈ r.aggregations.map Aggregation.name ∨
        a.isCoordinator = false ∧ ∃ s ∈ a.stages, s.isBinary = true := by
  constructor
  · rintro ⟨e, he⟩
    cases register_eq_error_iff.mp he with
    | taken hname => exact Or.inl hname
    | @binary before after s _ hshards hstages _ hs =>
      exact Or.inr ⟨hshards, s, by rw [hstages]; simp, hs⟩
  · intro h
    cases hregister : r.register a with
    | error e => exact ⟨e, rfl⟩
    | ok next =>
      -- what is accepted has a new name, and no such stage
      obtain ⟨hname, hunary, -⟩ := register_eq_ok hregister
      rcases h with htaken | ⟨hshards, s, hs, hbinary⟩
      · exact absurd htaken hname
      · rw [hunary hshards s hs] at hbinary
        cases hbinary

theorem attempt_of_ok (h : r.register a = .ok next) : r.attempt a = next := by
  rw [attempt, h]
  rfl

theorem attempt_of_error (h : r.register a = .error e) : r.attempt a = r := by
  rw [attempt, h]
  rfl

/-! ## A run of calls -/

/-- Of some definitions that are registered in turn, those that are accepted. -/
def accepted (r : Registry) : List Aggregation → List Aggregation
  | [] => []
  | a :: rest =>
    match r.register a with
    | .ok next => a :: accepted next rest
    | .error _ => accepted r rest

/-- **A run ends with what is accepted, after what was there.** -/
theorem foldl_attempt_aggregations (calls : List Aggregation) :
    ∀ r : Registry,
      (calls.foldl attempt r).aggregations = r.aggregations ++ accepted r calls := by
  induction calls with
  | nil => intro r; simp [accepted]
  | cons a rest ih =>
    intro r
    rw [List.foldl_cons, ih, accepted]
    cases h : r.register a with
    | error e => rw [attempt_of_error h]
    | ok next =>
      obtain ⟨-, -, rfl⟩ := register_eq_ok h
      rw [attempt_of_ok h]
      simp

/-- **A refused call leaves no trace**, neither in the registry nor in what the later calls lead
    to. -/
theorem ofAttempts_without_refused {calls : List Aggregation}
    (h : (ofAttempts calls).register a = .error e) (later : List Aggregation) :
    ofAttempts (calls ++ a :: later) = ofAttempts (calls ++ later) := by
  have hstep : calls.foldl attempt {} = ofAttempts calls := rfl
  unfold ofAttempts
  rw [List.foldl_append, List.foldl_cons, List.foldl_append, hstep, attempt_of_error h]

/-- **What holds after every run of calls.**  Names are distinct, and no stage on shards takes two
    lists.  The registry holds the accepted definitions, in the order of the calls.  The next call
    is refused exactly for a name that is there, or for a stage on shards that takes two lists.  If
    it is, then whatever is called later, all is as if it had not been made. -/
theorem ofAttempts_invariant (calls : List Aggregation) :
    (ofAttempts calls).Consistent ∧
    (ofAttempts calls).aggregations = accepted {} calls ∧
    ∀ a, ((∃ e, (ofAttempts calls).register a = .error e) ↔
        a.name ∈ (ofAttempts calls).aggregations.map Aggregation.name ∨
          a.isCoordinator = false ∧ ∃ s ∈ a.stages, s.isBinary = true) ∧
      ∀ e, (ofAttempts calls).register a = .error e →
        ∀ later, ofAttempts (calls ++ a :: later) = ofAttempts (calls ++ later) := by
  have hreachable : (ofAttempts calls).Reachable := ⟨calls, rfl⟩
  refine ⟨hreachable.consistent, ?_, fun a => ⟨exists_register_error_iff, ?_⟩⟩
  · have hall := foldl_attempt_aggregations calls {}
    rwa [List.nil_append] at hall
  · exact fun e he later => ofAttempts_without_refused he later

end Registry

/-- Of the calls that lead to the small query, the second for `cpu` is refused, and can be left
    out. -/
theorem Registry.ofAttempts_invariant_usage :
    Usage.registry.aggregations = [Usage.cpu, Usage.top, Usage.memory, Usage.total] ∧
      Usage.registry = .ofAttempts [Usage.cpu, Usage.top, Usage.memory, Usage.total] := by
  obtain ⟨-, hall, -⟩ :=
    ofAttempts_invariant [Usage.cpu, Usage.top, Usage.cpu, Usage.memory, Usage.total]
  obtain ⟨-, -, hcalls⟩ := ofAttempts_invariant [Usage.cpu, Usage.top]
  obtain ⟨-, hrefused⟩ := hcalls Usage.cpu
  exact ⟨hall.trans rfl, hrefused (.invalid (.nameTaken "cpu")) rfl [Usage.memory, Usage.total]⟩

end SeriesQuery
