/-
  Two ways to one stage: a call in a query, and an object of arguments.

  A call is read by the planner, becomes a node of a plan, and is checked when the plan is compiled.
  An object of arguments is read and checked at once.  Parameters are therefore checked in different
  places: the planner looks at limits and intervals, the constructors at factors, seconds and
  references.  A `Request` is written in both forms, and what comes out is `Alike`: the same stage,
  or a refusal on both sides, though not always for the same cause.

  One point needs an argument.  A planner reads an interval as a span of time, an object holds it as
  an integer.  The decimal text of an integer that is not negative is a span without a unit, so it
  is read as that integer; the text of a negative one is no span, and such an interval is refused on
  the other side for being negative.
-/
import SeriesQuery.Plan.Planner
import SeriesQuery.Proofs.Decimal.Digits
import SeriesQuery.Proofs.Stage.Parameters
import SeriesQuery.Proofs.Text.Keywords
import SeriesQuery.Stage.Arguments

namespace SeriesQuery

/-! ## Outcomes -/

/-- The same result, or invalid arguments on both sides. -/
inductive Alike {α : Type} : Except Error α → Except Error α → Prop
  | same (a : α) : Alike (.ok a) (.ok a)
  | refused (c d : Invalid) : Alike (.error (.invalid c)) (.error (.invalid d))

namespace Alike

variable {α β : Type} {x y : Except Error α}

/-- What is alike stays alike, whatever is done with the results on both sides. -/
theorem bind {f g : α → Except Error β} (h : Alike x y) (hfg : ∀ a, Alike (f a) (g a)) :
    Alike (x >>= f) (y >>= g) := by
  cases h with
  | same a => exact hfg a
  | refused c d => exact .refused c d

/-- What is alike stays alike if the results on both sides are changed in the same way. -/
theorem map (f : α → β) (h : Alike x y) : Alike (f <$> x) (f <$> y) := by
  cases h with
  | same a => exact .same (f a)
  | refused c d => exact .refused c d

/-- A test that both sides make. -/
theorem ite {p : Prop} [Decidable p] {x' y' : Except Error α} (h : Alike x y)
    (h' : Alike x' y') : Alike (if p then x else x') (if p then y else y') := by
  split
  case isTrue => exact h
  case isFalse => exact h'

/-- What is refused in every case is like what is refused at once. -/
theorem refused_bind (c : Invalid) {f : α → Except Error β} (h : Alike x x)
    (hf : ∀ a, ∃ d, f a = .error (.invalid d)) : Alike (.error (.invalid c)) (x >>= f) := by
  cases h with
  | same a =>
    obtain ⟨d, hd⟩ := hf a
    -- whatever comes out of `x`, what follows refuses it
    rw [ok_bind, hd]
    exact .refused c d
  | refused d _ => exact .refused c d

end Alike

/-! ## What both sides share

Readers and constructors that fail for invalid arguments only are like themselves. -/

/-- A percentile is refused for its range only. -/
theorem Summary.alike_percentile? (p : Float) :
    Alike (Summary.percentile? p) (Summary.percentile? p) :=
  .ite (.same _) (.refused _ _)

/-- A name is refused as an argument, whatever is wrong with it. -/
theorem Summary.alike_parse? (name : String) :
    Alike (Summary.parse? name) (Summary.parse? name) := by
  have hnamed := Summary.named_parse? name
  -- only the outcome matters from here on, and there are three kinds of it
  generalize Summary.parse? name = result at hnamed ⊢
  cases hnamed with
  | plain s => exact .same s
  | percentile p => exact Summary.alike_percentile? p
  | unknown c => exact .refused c c

/-- Whatever is wrong with a stage is an invalid argument. -/
theorem Stage.alike_validate (s : Stage) : Alike s.validate s.validate := by
  cases s with
  | head limit => exact .ite (.refused _ _) (.same _)
  | summarize d =>
    refine .ite (.refused _ _) ?_
    cases d.summary with
    | percentile p => exact (Summary.alike_percentile? p).map _
    | _ => exact .same _
  | scale factor => exact .ite (.same _) (.refused _ _)
  | scaleToSeconds seconds => exact .ite (.same _) (.refused _ _)
  | arithmetic a => exact .ite (.refused _ _) (.same _)
  | union right => exact .ite (.refused _ _) (.same _)

/-- A constructor is like itself, since it refuses for invalid arguments only. -/
theorem Stage.alike_checked (s : Stage) : Alike s.checked s.checked :=
  s.alike_validate.bind fun _ => .same _

/-- A text is read as a number in one way. -/
theorem alike_number {args : Json.Members} {key text : String} (what : String)
    (h : args.argument? key = some (.string text)) :
    Alike (PlanStep.numberOf what text) (args.number key) := by
  unfold PlanStep.numberOf Json.Members.number
  rw [h]
  dsimp only
  -- both sides have trimmed and read the same text
  cases Decimal.float? (Text.trim text.toList) with
  | none => exact .refused _ _
  | some x => exact .same x

/-! ## Intervals as spans -/

/-- Digits without a unit are milliseconds. -/
theorem spanMillis?_toDigits (k : Nat) : spanMillis? (Nat.toDigits 10 k) = timestamp? k := by
  obtain ⟨hdigits, hunit⟩ := @Decimal.span_isDigit (Nat.toDigits 10 k) []
    (fun c => Decimal.isDigit_of_mem_toDigits) (fun c hc => by cases hc)
  rw [List.append_nil] at hdigits hunit
  rw [spanMillis?, hdigits, hunit, Decimal.natural?_toDigits]
  show (timestamp? (k : Int) >>= fun _ => timestamp? (k * 1)) = _
  rw [Int.mul_one]
  cases timestamp? (k : Int) with
  | none => rfl
  | some t => rfl

/-- The text of a count that is not negative is read as that count.  All others are not spans. -/
theorem millis?_toString (n : Int64) :
    millis? (toString n) =
      if 0 ≤ n then .ok n else .error (.invalid (.durationMalformed (toString n))) := by
  have hspan : spanMillis? (Text.trim (toString n).toList) = if 0 ≤ n then some n else none := by
    have hsign : 0 ≤ n ↔ 0 ≤ n.toInt := Int64.le_iff_toInt_le
    have hfound := timestamp?_toInt n
    show spanMillis? (Text.trim n.toInt.repr.toList) = _
    cases hn : n.toInt with
    -- not negative: the text is digits alone
    | ofNat k =>
      rw [hn] at hsign hfound
      rw [if_pos (hsign.mpr (Int.natCast_nonneg k)), ← hfound]
      show spanMillis? (Text.trim k.repr.toList) = _
      rw [Nat.toList_repr, Text.trim_eq_self fun c hc =>
        Decimal.isBlank_of_isDigit (Decimal.isDigit_of_mem_toDigits hc), spanMillis?_toDigits]
      rfl
    | negSucc k =>
      rw [hn] at hsign
      rw [if_neg fun h => Int.not_le.mpr (Int.negSucc_lt_zero k) (hsign.mp h)]
      show spanMillis? (Text.trim ("-" ++ (k + 1).repr).toList) = _
      rw [String.toList_append, Nat.toList_repr]
      -- no digit comes before the sign
      have hminus : ∀ c ∈ '-' :: Nat.toDigits 10 (k + 1), Text.isBlank c = false :=
        List.forall_mem_cons.mpr ⟨by decide, fun c hc =>
          Decimal.isBlank_of_isDigit (Decimal.isDigit_of_mem_toDigits hc)⟩
      show spanMillis? (Text.trim ('-' :: Nat.toDigits 10 (k + 1))) = _
      rw [Text.trim_eq_self hminus]
      rfl
  rw [millis?, hspan]
  by_cases hn : 0 ≤ n
  · rw [if_pos hn, if_pos hn]
  · rw [if_neg hn, if_neg hn]

/-! ## Requests -/

/-- What a stage is asked for with.  Numbers are texts, as both forms may hold them. -/
inductive Request
  | head
  | headOf (limit : String)
  | scale (factor : String)
  | scaleToSeconds (seconds : String)
  | union (right : String)
  | arithmetic (operator : Operator) (right : String) (labels : List String)
  | summarize (interval : Int64) (summary : String) (alignToStart : Bool)

namespace Request

/-- The request as a call in a query. -/
def call : Request → Call
  | head => ⟨"head", []⟩
  | headOf limit => ⟨"head", [.value limit]⟩
  | scale factor => ⟨"scale", [.value factor]⟩
  | scaleToSeconds seconds => ⟨"scaleToSeconds", [.value seconds]⟩
  | union right => ⟨"union", [.value right]⟩
  | arithmetic operator right labels => ⟨operator.name, (right :: labels).map .value⟩
  | summarize interval summary alignToStart =>
    ⟨"summarize", [toString interval, summary, toString alignToStart].map .value⟩

/-- The name of the stage that is asked for. -/
def stageName : Request → String
  | head | headOf _ => "head"
  | scale _ => "scale"
  | scaleToSeconds _ => "scaleToSeconds"
  | union _ => "union"
  | arithmetic _ _ _ => "arithmetic"
  | summarize _ _ _ => "summarize"

/-- The request as an object of arguments. -/
def arguments : Request → Json.Members
  | head => []
  | headOf limit => [("limit", .string limit)]
  | scale factor => [("factor", .string factor)]
  | scaleToSeconds seconds => [("seconds", .string seconds)]
  | union right => [("right_op_reference", .string right)]
  | arithmetic operator right labels =>
    [ ("op", .string operator.name),
      ("right_op_reference", .string right),
      ("labels", .ofStrings labels) ]
  | summarize interval summary alignToStart =>
    [ ("interval", .ofInt64 interval),
      ("function", .string summary),
      ("alignToFrom", .bool alignToStart) ]

end Request

/-- The stages of a plan of one node, whose numbering starts at `count`. -/
def planned (count : Nat) (c : Call) : Except Error (List Stage) := do
  let node ← ((Planner.nodeOf (PlanStep.ofCall c)).run count).1
  node.stages?

/-- The stage of a call, if it is not a fetch. -/
def plannedStage (c : Call) : Except Error (Option Stage) :=
  PlanStep.ofCall c >>= PlanStep.stage?

/-- The number of the node does not matter. -/
theorem planned_eq (count : Nat) (c : Call) :
    planned count c = Option.toList <$> plannedStage c := by
  unfold planned plannedStage Planner.nodeOf
  cases PlanStep.ofCall c with
  | error e => rfl
  | ok step => rfl

/-! ## Request by request -/

/-- Values are texts. -/
theorem texts_values (function : String) (texts : List String) (cause : Invalid) :
    (Call.mk function (texts.map .value)).texts cause = .ok texts := by
  show (texts.map .value).mapM (Argument.text cause) = _
  induction texts with
  | nil => rfl
  | cons text rest ih =>
    rw [List.map_cons, List.mapM_cons, ih]
    rfl

/-- An empty reference is refused by the constructor on one side and by the reader on the other. -/
theorem alike_reference (f : String → Stage)
    (hempty : ∃ c, (f "").checked = .error (.invalid c)) (right : String) :
    Alike (f right).checked
      ((if right = "" then .error (.invalid .referenceMissing) else .ok right) >>=
        fun right => (f right).checked) := by
  split
  case isTrue hright =>
    obtain ⟨c, hc⟩ := hempty
    rw [hright, hc]
    exact .refused _ _
  case isFalse => exact Stage.alike_checked _

/-- The planner finds the reader of each function by its name. -/
theorem ofCall_head (arguments : List Argument) :
    PlanStep.ofCall ⟨"head", arguments⟩ = PlanStep.headOf ⟨"head", arguments⟩ := by
  unfold PlanStep.ofCall
  rfl

theorem ofCall_scale (arguments : List Argument) :
    PlanStep.ofCall ⟨"scale", arguments⟩ = PlanStep.scaleOf ⟨"scale", arguments⟩ := by
  unfold PlanStep.ofCall
  rfl

theorem ofCall_scaleToSeconds (arguments : List Argument) :
    PlanStep.ofCall ⟨"scaleToSeconds", arguments⟩ =
      PlanStep.scaleToSecondsOf ⟨"scaleToSeconds", arguments⟩ := by
  unfold PlanStep.ofCall
  rfl

theorem ofCall_summarize (arguments : List Argument) :
    PlanStep.ofCall ⟨"summarize", arguments⟩ = PlanStep.summarizeOf ⟨"summarize", arguments⟩ := by
  unfold PlanStep.ofCall
  rfl

theorem ofCall_union (arguments : List Argument) :
    PlanStep.ofCall ⟨"union", arguments⟩ = PlanStep.unionOf ⟨"union", arguments⟩ := by
  unfold PlanStep.ofCall
  rfl

/-- What the planner makes of a limit.  The text has to be an integer of thirty-two bits, and is
    refused here unless it is positive. -/
theorem headOf_value (text : String) :
    PlanStep.headOf ⟨"head", [.value text]⟩ =
      (Decimal.int32? text.toList).elim (.error (.invalid (.headLimitNotInteger text))) fun n =>
        if n ≤ 0 then .error (.invalid (.headLimitNotPositive n))
        else .ok (.apply (.head (UInt64.ofNat n.toNat))) := by
  unfold PlanStep.headOf
  dsimp only [Argument.text, ok_bind]
  cases Decimal.int32? text.toList with
  | none => rfl
  | some n => rfl

/-- What is made of the text of a limit among arguments.  The constructor looks at the sign. -/
theorem headOfArguments?_string {args : Json.Members} {text : String}
    (h : args.argument? "limit" = some (.string text)) :
    Stage.headOfArguments? args =
      (Decimal.int32? text.toList).elim (.error (.invalid (.limitNotInteger text))) fun n =>
        Stage.head? (Int64.ofInt n) := by
  unfold Stage.headOfArguments?
  rw [h]
  dsimp only
  cases Decimal.int32? text.toList with
  | none => rfl
  | some n => rfl

/-- Both sides read thirty-two bits, so that the signs they see are the same. -/
theorem alike_headOf (limit : String) :
    Alike (plannedStage (Request.headOf limit).call)
      (some <$> Stage.ofArguments? "head" (Request.headOf limit).arguments) := by
  have harguments : Stage.ofArguments? "head" (Request.headOf limit).arguments =
      Stage.headOfArguments? [("limit", .string limit)] := rfl
  rw [plannedStage, Request.call, ofCall_head, headOf_value, harguments,
    @headOfArguments?_string [("limit", .string limit)] limit rfl]
  cases hread : Decimal.int32? limit.toList with
  | none => exact .refused _ _
  | some n =>
    dsimp only [Option.elim]
    have hrange := (Option.filter_eq_some_iff.mp hread).2
    simp only [Bool.and_eq_true, decide_eq_true_eq] at hrange
    have hlow : -(2 : Int) ^ 31 ≤ n := hrange.1
    have hhigh : n < (2 : Int) ^ 31 := Int.lt_add_one_of_le hrange.2
    have hint : (Int64.ofInt n).toInt = n := Int64.toInt_ofInt_of_le (by omega) (by omega)
    split
    case isTrue hn =>
      have hle : Int64.ofInt n ≤ 0 := by
        rw [Int64.le_iff_toInt_le, hint]
        exact hn
      rw [Stage.head?, if_pos hle]
      exact .refused _ _
    case isFalse hn =>
      obtain ⟨k, rfl⟩ := Int.eq_ofNat_of_zero_le (Int.le_of_lt (Int.not_le.mp hn))
      have hlimit : (UInt64.ofNat (k : Int).toNat).toInt64 = Int64.ofInt k :=
        Int64.ofInt_eq_ofNat.symm
      have hmax : UInt64.ofNat (k : Int).toNat ≤ Int64.maxValue.toUInt64 := by
        rw [UInt64.le_iff_toNat_le, Int.toNat_natCast,
          UInt64.toNat_ofNat_of_lt' (show k < 2 ^ 64 by omega)]
        show k ≤ 2 ^ 63 - 1
        omega
      show Alike (if UInt64.ofNat (k : Int).toNat ≤ Int64.maxValue.toUInt64 then _ else _) _
      -- the planner hands the limit on without a sign; made signed again it is the number that was
      -- read, so that the constructor makes the same test
      rw [if_pos hmax, hlimit]
      exact .map some (.ite (.refused _ _) (.same _))

/-- A factor is read the same way on both sides, and checked by the same constructor. -/
theorem alike_scale (factor : String) :
    Alike (plannedStage (Request.scale factor).call)
      (some <$> Stage.ofArguments? "scale" (Request.scale factor).arguments) := by
  rw [plannedStage, Request.call, ofCall_scale]
  show Alike ((PlanStep.numberOf "scale factor" factor >>= fun x => pure (.apply (.scale x))) >>=
      PlanStep.stage?)
    (some <$> (Json.Members.number _ "factor" >>= fun x => (Stage.scale x).checked))
  rw [bind_assoc, map_bind]
  exact (alike_number _ rfl).bind fun x => (Stage.alike_checked _).map some

/-- A length of time is read the same way on both sides, and checked by the same constructor. -/
theorem alike_scaleToSeconds (seconds : String) :
    Alike (plannedStage (Request.scaleToSeconds seconds).call)
      (some <$> Stage.ofArguments? "scaleToSeconds"
        (Request.scaleToSeconds seconds).arguments) := by
  rw [plannedStage, Request.call, ofCall_scaleToSeconds]
  show Alike ((PlanStep.numberOf "scaleToSeconds argument" seconds >>=
      fun x => pure (.apply (.scaleToSeconds x))) >>= PlanStep.stage?)
    (some <$> (Json.Members.number _ "seconds" >>= fun x => (Stage.scaleToSeconds x).checked))
  rw [bind_assoc, map_bind]
  exact (alike_number _ rfl).bind fun x => (Stage.alike_checked _).map some

/-- The planner does not look at the reference, and the constructor does. -/
theorem alike_union (right : String) :
    Alike (plannedStage (Request.union right).call)
      (some <$> Stage.ofArguments? "union" (Request.union right).arguments) := by
  rw [plannedStage, Request.call, ofCall_union]
  show Alike (some <$> (Stage.union right).checked)
    (some <$> ((if right = "" then .error (.invalid .referenceMissing) else .ok right) >>=
      fun right => (Stage.union right).checked))
  exact (alike_reference Stage.union ⟨_, rfl⟩ right).map some

/-- The signs of the interval part here: an interval below zero is no span, and zero is refused by
    the planner and by the constructor. -/
theorem alike_summarize (n : Int64) (summary : String) (alignToStart : Bool) :
    Alike (plannedStage (Request.summarize n summary alignToStart).call)
      (some <$> Stage.ofArguments? "summarize"
        (Request.summarize n summary alignToStart).arguments) := by
  -- On the side of the planner: the span first, the sign of the interval next, the name of the
  -- summary last.
  have hplanner : PlanStep.ofCall (Request.summarize n summary alignToStart).call =
      millis? (toString n) >>= fun interval =>
        if interval ≤ 0 then .error (.invalid (.summarizeIntervalNotPositive interval))
        else Summary.parse? summary >>= fun summary =>
          return .apply (.summarize { interval, summary, alignToStart }) := by
    rw [Request.call, ofCall_summarize, PlanStep.summarizeOf, texts_values]
    cases alignToStart
    all_goals rfl
  -- Among arguments: the name of the summary first, and the sign of the interval in the
  -- constructor.
  have harguments : Stage.ofArguments? "summarize"
      (Request.summarize n summary alignToStart).arguments =
        Summary.parse? summary >>= fun summary =>
          (Stage.summarize { interval := n, summary, alignToStart }).checked := by
    show ((Json.ofInt64 n).int64?.elim (.error (.invalid (.argumentNotNumber "interval"))) .ok >>=
      fun interval => Summary.parse? summary >>= fun summary =>
        (Stage.summarize { interval, summary, alignToStart }).checked) = _
    rw [Json.int64?_ofInt64]
    rfl
  rw [plannedStage, hplanner, harguments, millis?_toString]
  by_cases hpos : 0 < n
  · rw [if_pos (Int64.le_of_lt hpos), ok_bind, if_neg (Int64.not_le.mpr hpos), bind_assoc,
      map_bind]
    exact (Summary.alike_parse? summary).bind fun _ => (Stage.alike_checked _).map some
  · have hle : n ≤ 0 := Int64.not_lt.mp hpos
    have hrefused : ∀ c, Alike (.error (.invalid c))
        (some <$> (Summary.parse? summary >>= fun summary =>
          (Stage.summarize { interval := n, summary, alignToStart }).checked)) := by
      intro c
      refine .map some (.refused_bind c (Summary.alike_parse? summary) fun summary => ?_)
      refine ⟨.intervalNotPositive n, ?_⟩
      show (if n ≤ 0 then Except.error _ else _) >>= _ = _
      rw [if_pos hle]
      rfl
    -- zero is a span, and refused by the planner; below zero the text is no span
    by_cases hsign : 0 ≤ n
    · rw [if_pos hsign, ok_bind, if_pos hle]
      exact hrefused _
    · rw [if_neg hsign]
      exact hrefused _

/-- Operator and labels are read back as they were written.  An empty reference is refused on both
    sides, by the reader or by the constructor. -/
theorem alike_arithmetic (operator : Operator) (right : String) (labels : List String) :
    Alike (plannedStage (Request.arithmetic operator right labels).call)
      (some <$> Stage.ofArguments? "arithmetic"
        (Request.arithmetic operator right labels).arguments) := by
  have hplanner : PlanStep.ofCall (Request.arithmetic operator right labels).call =
      .ok (.apply (.arithmetic { operator, right, labels, keepUnmatched := false })) := by
    have hof : PlanStep.ofCall (Request.arithmetic operator right labels).call =
        PlanStep.arithmeticOf (Request.arithmetic operator right labels).call := by
      unfold PlanStep.ofCall
      cases operator
      all_goals rfl
    rw [hof, PlanStep.arithmeticOf, Request.call, texts_values]
    show Operator.parse? operator.name >>= _ = _
    rw [Operator.parse?_name]
    rfl
  have harguments : Stage.ofArguments? "arithmetic"
      (Request.arithmetic operator right labels).arguments =
        (if right = "" then .error (.invalid .referenceMissing) else .ok right) >>= fun right =>
          (Stage.arithmetic { operator, right, labels, keepUnmatched := false }).checked := by
    show (Operator.parse? operator.name >>= fun operator =>
      (if right = "" then .error (.invalid .referenceMissing) else .ok right) >>= fun right =>
        (Json.ofStrings labels).strings?.elim (.error (.invalid .labelsNotStrings)) .ok >>=
          fun labels =>
            (Stage.arithmetic { operator, right, labels, keepUnmatched := false }).checked) = _
    rw [Operator.parse?_name, Json.strings?_ofStrings]
    rfl
  rw [plannedStage, hplanner, harguments]
  exact (alike_reference
    (fun right => .arithmetic { operator, right, labels, keepUnmatched := false })
    ⟨_, rfl⟩ right).map some

/-- **A call and an object of arguments that ask for the same thing give the same stage**, or are
    both refused. -/
theorem alike_planned_ofArguments (r : Request) (count : Nat) :
    Alike (planned count r.call)
      (List.singleton <$> Stage.ofArguments? r.stageName r.arguments) := by
  have hstage : Alike (plannedStage r.call)
      (some <$> Stage.ofArguments? r.stageName r.arguments) := by
    cases r with
    | head => exact .same _
    | headOf limit => exact alike_headOf limit
    | scale factor => exact alike_scale factor
    | scaleToSeconds seconds => exact alike_scaleToSeconds seconds
    | union right => exact alike_union right
    | arithmetic operator right labels => exact alike_arithmetic operator right labels
    | summarize n summary alignToStart => exact alike_summarize n summary alignToStart
  rw [planned_eq]
  -- a call that is no fetch gives one stage, and a plan of one node a list of one
  have hlist := hstage.map Option.toList
  rw [Functor.map_map] at hlist
  exact hlist

end SeriesQuery
