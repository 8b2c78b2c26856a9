/-
  Where stages come from.

  A stage is built from named arguments, from a plan, or by the constructor of its kind, which
  checks the parameters that it is given.  The first two end in the third: whatever they build, a
  constructor has let through (`Built.constructed`).

  What the constructors let through are the stages that `validate` accepts, with one exception.  The
  limit of `head` is kept unsigned, but is given to the constructor as a signed number, and so is at
  most the greatest of those (`constructed_iff`).  `validate` knows nothing of this.
-/
import SeriesQuery.Plan.Node
import SeriesQuery.Proofs.Sequencing
import SeriesQuery.Stage.Arguments

namespace SeriesQuery.Stage

variable {s t : Stage}

/-- What the constructor of a kind lets through. -/
inductive Constructed : Stage → Prop
  | head {limit : Int64} {s : Stage} (h : head? limit = .ok s) : Constructed s
  | summarize {d : Downsampling} {s : Stage} (h : checked (.summarize d) = .ok s) : Constructed s
  | scale {factor : Float} {s : Stage} (h : checked (.scale factor) = .ok s) : Constructed s
  | scaleToSeconds {seconds : Float} {s : Stage} (h : checked (.scaleToSeconds seconds) = .ok s) :
    Constructed s
  | arithmetic {a : Arithmetic} {s : Stage} (h : checked (.arithmetic a) = .ok s) : Constructed s
  | union {right : String} {s : Stage} (h : checked (.union right) = .ok s) : Constructed s

/-- What can be built at all. -/
inductive Built : Stage → Prop
  | byConstructor {s : Stage} (h : s.Constructed) : Built s
  | ofArguments {name : String} {args : Json.Members} {s : Stage}
    (h : ofArguments? name args = .ok s) : Built s
  | ofPlan {plan : PlanNode} {stages : List Stage} {s : Stage} (h : plan.stages? = .ok stages)
    (hs : s ∈ stages) : Built s

/-! ## Constructors -/

/-- A constructor returns the stage it was asked for, if that is valid. -/
theorem checked_eq_ok : t.checked = .ok s ↔ t.validate = .ok () ∧ t = s := by
  unfold checked
  rw [bind_eq_ok]
  constructor
  · rintro ⟨⟨⟩, hvalid, h⟩
    exact ⟨hvalid, pure_eq_ok.mp h⟩
  · rintro ⟨hvalid, rfl⟩
    exact ⟨(), hvalid, rfl⟩

/-- The constructor of `head` asks for a positive limit, while that is still signed. -/
theorem head?_eq_ok {limit : Int64} :
    head? limit = .ok s ↔ 0 < limit ∧ head limit.toUInt64 = s := by
  unfold head?
  split
  case isTrue hle =>
    constructor
    · intro h
      cases h
    · rintro ⟨hpos, -⟩
      exact absurd hpos (Int64.not_lt.mpr hle)
  case isFalse hpos =>
    rw [Except.ok.injEq]
    exact (and_iff_right (Int64.not_le.mp hpos)).symm

/-- `validate` sees the limit without a sign, and refuses zero only. -/
theorem validate_head_eq_ok {limit : UInt64} :
    (head limit).validate = .ok () ↔ limit ≠ 0 := by
  show (if limit = 0 then _ else _) = _ ↔ _
  split
  case isTrue hzero => simp [hzero]
  case isFalse hne => simp [hne]

/-- The greatest signed number. -/
def greatestLimit : UInt64 := Int64.maxValue.toUInt64

/-- **What the signed test lets through**, of unsigned numbers: those above the greatest signed
    number would be negative, and zero is not positive. -/
theorem pos_toInt64_iff (n : UInt64) : 0 < n.toInt64 ↔ n ≠ 0 ∧ n ≤ greatestLimit := by
  have hlt := n.toNat_lt
  have hle : n ≤ greatestLimit ↔ n.toNat < 2 ^ 63 := by
    rw [UInt64.le_iff_toNat_le]
    exact Nat.lt_succ_iff.symm
  have hint : n.toInt64.toInt =
      if 2 * n.toNat < 2 ^ 64 then (n.toNat : Int) else n.toNat - 2 ^ 64 :=
    BitVec.toInt_eq_toNat_cond n.toBitVec
  -- a number is negative when it is read as a signed one exactly if its highest bit is set
  rw [Int64.lt_iff_toInt_lt, Int64.toInt_zero, hint, hle, Ne, ← UInt64.toNat_inj,
    UInt64.toNat_zero]
  split <;> omega

/-- The constructors let through what is valid, and no limit of `head` beyond the signed numbers. -/
theorem constructed_iff :
    s.Constructed ↔ s.validate = .ok () ∧ ∀ limit, s = head limit → limit ≤ greatestLimit := by
  constructor
  · rintro (h | h | h | h | h | h)
    -- the limit comes back from the signed number that has been tested
    case head limit =>
      obtain ⟨hpos, rfl⟩ := head?_eq_ok.mp h
      have hlimit := (pos_toInt64_iff limit.toUInt64).mp (by rwa [Int64.toInt64_toUInt64])
      refine ⟨validate_head_eq_ok.mpr hlimit.1, ?_⟩
      rintro _ ⟨rfl⟩
      exact hlimit.2
    all_goals
      obtain ⟨hvalid, rfl⟩ := checked_eq_ok.mp h
      exact ⟨hvalid, fun limit hkind => by cases hkind⟩
  · rintro ⟨hvalid, hlimit⟩
    cases s with
    | head limit =>
      have hpos : 0 < limit.toInt64 :=
        (pos_toInt64_iff limit).mpr ⟨validate_head_eq_ok.mp hvalid, hlimit limit rfl⟩
      exact .head (head?_eq_ok.mpr ⟨hpos, by rw [UInt64.toUInt64_toInt64]⟩)
    | summarize d => exact .summarize (checked_eq_ok.mpr ⟨hvalid, rfl⟩)
    | scale factor => exact .scale (checked_eq_ok.mpr ⟨hvalid, rfl⟩)
    | scaleToSeconds seconds => exact .scaleToSeconds (checked_eq_ok.mpr ⟨hvalid, rfl⟩)
    | arithmetic a => exact .arithmetic (checked_eq_ok.mpr ⟨hvalid, rfl⟩)
    | union right => exact .union (checked_eq_ok.mpr ⟨hvalid, rfl⟩)

/-! ## Arguments -/

/-- A limit that is missing, a number or a text: each ends in the constructor, or is the standard
    limit, which the constructor would let through. -/
theorem headOfArguments?_constructed {args : Json.Members} (h : headOfArguments? args = .ok s) :
    s.Constructed := by
  unfold headOfArguments? at h
  split at h
  case h_1 =>
    -- no limit is given
    have hstandard : head? 10 = .ok (head defaultLimit) := rfl
    cases h
    exact .head hstandard
  case h_2 =>
    split at h
    case h_1 => exact .head h
    case h_2 => cases h
  case h_3 =>
    split at h
    case h_1 => exact .head h
    case h_2 => cases h

/-- However the interval and the summary are read, the constructor comes last. -/
theorem summarizeOfArguments?_constructed {args : Json.Members}
    (h : summarizeOfArguments? args = .ok s) : s.Constructed := by
  unfold summarizeOfArguments? at h
  dsimp only at h
  split at h
  all_goals
    obtain ⟨interval, -, h⟩ := bind_eq_ok.mp h
    split at h
  all_goals
    obtain ⟨summary, -, h⟩ := bind_eq_ok.mp h
    obtain ⟨alignToStart, -, h⟩ := bind_eq_ok.mp h
    exact .summarize h

/-- The reader of arithmetic, which takes its parameters one after the other, builds what a
    constructor lets through. -/
theorem arithmeticOfArguments?_constructed {args : Json.Members}
    (h : arithmeticOfArguments? args = .ok s) : s.Constructed := by
  unfold arithmeticOfArguments? at h
  dsimp only at h
  split at h
  all_goals
    obtain ⟨operator, -, h⟩ := bind_eq_ok.mp h
    obtain ⟨right, -, h⟩ := bind_eq_ok.mp h
    obtain ⟨labels, -, h⟩ := bind_eq_ok.mp h
    obtain ⟨keepUnmatched, -, h⟩ := bind_eq_ok.mp h
    exact .arithmetic h

/-- **A stage that is built from arguments has been let through**, by the constructor of the kind
    that is named. -/
theorem ofArguments?_constructed {name : String} {args : Json.Members}
    (h : ofArguments? name args = .ok s) : s.Constructed := by
  unfold ofArguments? at h
  split at h
  case h_1 => exact headOfArguments?_constructed h
  case h_2 => exact summarizeOfArguments?_constructed h
  case h_3 =>
    obtain ⟨factor, -, h⟩ := bind_eq_ok.mp h
    exact .scale h
  case h_4 =>
    obtain ⟨seconds, -, h⟩ := bind_eq_ok.mp h
    exact .scaleToSeconds h
  case h_5 => exact arithmeticOfArguments?_constructed h
  case h_6 =>
    obtain ⟨right, -, h⟩ := bind_eq_ok.mp h
    exact .union h
  case h_7 => cases h

/-! ## Plans -/

/-- A step of a plan builds what a constructor lets through, and a fetch builds no stage. -/
theorem stage?_constructed {step : PlanStep} (h : step.stage? = .ok (some s)) :
    s.Constructed := by
  cases step with
  | fetch query => cases h
  | apply t =>
    -- what a step that is no fetch gives, a constructor has given before
    have hsome : ∀ {x : Except Error Stage}, some <$> x = .ok (some s) → x = .ok s := by
      intro x hx
      obtain ⟨u, hu, hus⟩ := map_eq_ok.mp hx
      rw [hu, Option.some.inj hus]
    cases t with
    | head limit =>
      by_cases hlimit : limit ≤ Int64.maxValue.toUInt64
      · rw [PlanStep.stage?, if_pos hlimit] at h
        exact .head (hsome h)
      · rw [PlanStep.stage?, if_neg hlimit] at h
        cases h
    | summarize d => exact .summarize (hsome h)
    | scale factor => exact .scale (hsome h)
    | scaleToSeconds seconds => exact .scaleToSeconds (hsome h)
    | arithmetic a => exact .arithmetic (hsome h)
    | union right => exact .union (hsome h)

/-- The stages of a plan are those of its steps, and so what constructors let through. -/
theorem stages?_constructed {plan : PlanNode} {stages : List Stage}
    (h : plan.stages? = .ok stages) : ∀ s ∈ stages, s.Constructed := by
  have hstep : ∀ {step : PlanStep} {o : Option Stage}, step.stage? = .ok o →
      ∀ s ∈ o.toList, s.Constructed := by
    intro step o ho s hs
    rw [Option.mem_toList.mp hs] at ho
    exact stage?_constructed ho
  -- along the reading of the plan: a node alone, a node with one input, and a node with several,
  -- which is refused
  induction plan using PlanNode.stages?.induct generalizing stages with
  | case1 id step =>
    obtain ⟨o, ho, hpure⟩ := bind_eq_ok.mp h
    exact pure_eq_ok.mp hpure ▸ hstep ho
  | case2 id step input ih =>
    obtain ⟨before, hbefore, h⟩ := bind_eq_ok.mp h
    obtain ⟨o, ho, hpure⟩ := bind_eq_ok.mp h
    rw [← pure_eq_ok.mp hpure, List.forall_mem_append]
    exact ⟨ih hbefore, hstep ho⟩
  | case3 id step inputs hnil hsingle =>
    rw [PlanNode.stages?.eq_3 id step inputs hnil hsingle] at h
    cases h

/-- **Whatever is built, a constructor has let through.** -/
theorem Built.constructed (h : s.Built) : s.Constructed := by
  cases h with
  | byConstructor h => exact h
  | ofArguments h => exact ofArguments?_constructed h
  | ofPlan h hs => exact stages?_constructed h s hs

/-- Whatever way a stage has been built, it is valid. -/
theorem Built.valid (h : s.Built) : s.validate = .ok () := (constructed_iff.mp h.constructed).1

end SeriesQuery.Stage
