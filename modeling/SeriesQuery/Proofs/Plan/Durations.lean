/-
  Which texts write a span of time, and which span.

  The grammar is `blanks digits unit blanks`, where the unit may be missing.  Digits end at the
  first character that is none, and no unit starts with a digit, so a text has one reading at most:
  that `m` is a unit and the start of another one does not matter, since what comes after the digits
  has to be a unit as a whole.

  A span of this form is refused only for its size: the number and the product each have to fit
  into sixty-four bits.
-/
import SeriesQuery.Plan.Call
import SeriesQuery.Proofs.Decimal.Digits
import SeriesQuery.Proofs.Text.Keywords
import SeriesQuery.Proofs.Timestamps

namespace SeriesQuery

variable {text name : String} {cs digits : List Char} {count unit : Nat} {n : Int64}

/-! ## The grammar -/

/-- The units with their milliseconds.  No unit counts as one. -/
def spanUnits : List (String × Nat) :=
  [("", 1), ("ms", 1), ("s", 1000), ("m", 60000), ("h", 3600000), ("d", 86400000)]

/-- Digits that write `count`, with a unit of `unit` milliseconds after them. -/
inductive SpanChars : List Char → Nat → Nat → Prop
  | intro {digits : List Char} {name : String} {unit : Nat} (hne : digits ≠ [])
    (hdigits : ∀ c ∈ digits, c.isDigit = true) (hunit : (name, unit) ∈ spanUnits) :
    SpanChars (digits ++ name.toList) (Decimal.ofDigits digits) unit

/-- A text that is a span but for the blanks around it. -/
def WritesSpan (text : String) (count unit : Nat) : Prop :=
  ∃ front core back, text.toList = front ++ core ++ back ∧
    (∀ c ∈ front, Text.isBlank c = true) ∧ (∀ c ∈ back, Text.isBlank c = true) ∧
    SpanChars core count unit

/-! ## Units -/

/-- No character of a unit is a digit or a blank. -/
theorem spanUnits_chars (h : (name, unit) ∈ spanUnits) :
    ∀ c ∈ name.toList, c.isDigit = false ∧ Text.isBlank c = false := by
  have hall : ∀ u ∈ spanUnits,
      u.1.toList.all (fun c => decide (c.isDigit = false ∧ Text.isBlank c = false)) = true := by
    decide
  exact fun c hc => of_decide_eq_true (List.all_eq_true.mp (hall _ h) c hc)

theorem unitMillis?_eq_some_iff {millis : Int} :
    unitMillis? cs = some millis ↔
      ∃ name unit, (name, unit) ∈ spanUnits ∧ cs = name.toList ∧ millis = (unit : Nat) := by
  constructor
  · intro h
    unfold unitMillis? at h
    split at h
    case h_1 => exact ⟨"", 1, by decide, rfl, (Option.some.inj h).symm⟩
    case h_2 => exact ⟨"ms", 1, by decide, rfl, (Option.some.inj h).symm⟩
    case h_3 => exact ⟨"s", 1000, by decide, rfl, (Option.some.inj h).symm⟩
    case h_4 => exact ⟨"m", 60000, by decide, rfl, (Option.some.inj h).symm⟩
    case h_5 => exact ⟨"h", 3600000, by decide, rfl, (Option.some.inj h).symm⟩
    case h_6 => exact ⟨"d", 86400000, by decide, rfl, (Option.some.inj h).symm⟩
    case h_7 => cases h
  · rintro ⟨name, unit, hunit, rfl, rfl⟩
    have hall : ∀ u ∈ spanUnits, unitMillis? u.1.toList = some (u.2 : Int) := by decide
    exact hall _ hunit

/-! ## Spans -/

/-- **Spans are read by their grammar**, as long as they fit. -/
theorem spanMillis?_eq_some_iff : spanMillis? cs = some n ↔
    ∃ count unit, SpanChars cs count unit ∧ Fits count ∧ n.toInt = count * unit := by
  constructor
  · intro h
    obtain ⟨count, hcount, h⟩ := Option.bind_eq_some_iff.mp h
    obtain ⟨millis, hmillis, h⟩ := Option.bind_eq_some_iff.mp h
    obtain ⟨number, hnumber, h⟩ := Option.bind_eq_some_iff.mp h
    obtain ⟨⟨hne, hdigits⟩, hcount⟩ := Option.ite_none_right_eq_some.mp hcount
    obtain rfl := Option.some.inj hcount
    obtain ⟨name, unit, hunit, hname, rfl⟩ := unitMillis?_eq_some_iff.mp hmillis
    have hsplit := List.takeWhile_append_dropWhile (p := Char.isDigit) (l := cs)
    rw [hname] at hsplit
    have hspan := SpanChars.intro hne (List.all_eq_true.mp hdigits) hunit
    rw [hsplit] at hspan
    exact ⟨_, unit, hspan, fits_of_timestamp? hnumber, toInt_of_timestamp? h⟩
  · rintro ⟨_, unit, ⟨hne, hdigits, hunit⟩, hfits, hvalue⟩
    obtain ⟨htake, hdrop⟩ := Decimal.span_isDigit hdigits fun c hc =>
      (spanUnits_chars hunit c (List.mem_of_mem_head? hc)).1
    unfold spanMillis?
    rw [htake, hdrop, Decimal.natural?_eq_some hne hdigits,
      unitMillis?_eq_some_iff.mpr ⟨_, unit, hunit, rfl, rfl⟩]
    show (timestamp? _ >>= fun _ => timestamp? _) = some n
    rw [timestamp?_of_fits hfits]
    exact timestamp?_eq_some_iff.mpr hvalue

/-- There are no blanks in a span. -/
theorem SpanChars.not_blank (h : SpanChars cs count unit) :
    cs ≠ [] ∧ ∀ c ∈ cs, Text.isBlank c = false := by
  obtain ⟨hne, hdigits, hunit⟩ := h
  refine ⟨List.append_ne_nil_of_left_ne_nil hne _, List.forall_mem_append.mpr ⟨?_, ?_⟩⟩
  · exact fun c hc => Decimal.isBlank_of_isDigit (hdigits c hc)
  · exact fun c hc => (spanUnits_chars hunit c hc).2

/-- Trimming takes away just the blanks of the grammar. -/
theorem writesSpan_iff_trim :
    WritesSpan text count unit ↔ SpanChars (Text.trim text.toList) count unit := by
  constructor
  · rintro ⟨front, core, back, htext, hfront, hback, hcore⟩
    obtain ⟨hne, hblank⟩ := hcore.not_blank
    rw [htext, Text.trim_surrounded hne hblank hfront hback]
    exact hcore
  · intro h
    obtain ⟨front, back, htext, hfront, hback⟩ := Text.exists_surroundings text.toList
    exact ⟨front, _, back, htext, hfront, hback, h⟩

/-! ## Texts -/

theorem millis?_eq_ok_iff : millis? text = .ok n ↔
    ∃ count unit, WritesSpan text count unit ∧ Fits count ∧ n.toInt = count * unit := by
  have hspan : millis? text = .ok n ↔ spanMillis? (Text.trim text.toList) = some n := by
    unfold millis?
    cases spanMillis? (Text.trim text.toList) with
    | none => exact iff_of_false nofun nofun
    | some m => rw [Except.ok.injEq, Option.some.injEq]
  rw [hspan, spanMillis?_eq_some_iff]
  simp only [writesSpan_iff_trim]

/-- There is one way to refuse a text. -/
theorem millis?_eq_ok_or (text : String) :
    (∃ n, millis? text = .ok n) ∨ millis? text = .error (.invalid (.durationMalformed text)) := by
  unfold millis?
  split
  · exact .inl ⟨_, rfl⟩
  · exact .inr rfl

/-- **Spans of time are read by exactly their grammar, and none overflows.**  A text is read as `n`
    milliseconds if it writes a span whose number and whose milliseconds fit and the latter are `n`,
    which is never negative.  All other texts are refused. -/
theorem millis?_verdict (text : String) :
    (∀ n, millis? text = .ok n ↔ ∃ count unit, WritesSpan text count unit ∧
        Fits count ∧ Fits (count * unit) ∧ n.toInt = count * unit) ∧
      (millis? text = .error (.invalid (.durationMalformed text)) ↔
        ¬ ∃ count unit, WritesSpan text count unit ∧ Fits count ∧ Fits (count * unit)) ∧
      ∀ n, millis? text = .ok n → 0 ≤ n := by
  refine ⟨fun n => ?_, ⟨fun herror => ?_, fun hnone => ?_⟩, fun n hn => ?_⟩
  · rw [millis?_eq_ok_iff]
    refine exists_congr fun count => exists_congr fun unit => and_congr_right fun _ =>
      and_congr_right fun _ => ⟨fun hn => ⟨hn ▸ fits_toInt n, hn⟩, fun hn => hn.2⟩
  · rintro ⟨count, unit, hwrites, hcount, hproduct⟩
    have hn := millis?_eq_ok_iff.mpr ⟨count, unit, hwrites, hcount, toInt_ofInt_of_fits hproduct⟩
    rw [herror] at hn
    cases hn
  · refine (millis?_eq_ok_or text).resolve_left ?_
    rintro ⟨n, hn⟩
    obtain ⟨count, unit, hwrites, hcount, hvalue⟩ := millis?_eq_ok_iff.mp hn
    exact hnone ⟨count, unit, hwrites, hcount, hvalue ▸ fits_toInt n⟩
  · obtain ⟨count, unit, -, -, hvalue⟩ := millis?_eq_ok_iff.mp hn
    rw [Int64.le_iff_toInt_le, hvalue]
    exact Int.natCast_nonneg (count * unit)

/-- The most minutes that fit, with zeros in front and blanks around, and one minute more. -/
theorem millis?_verdict_usage :
    (∃ n, millis? "\u00a000153722867280912m\n" = .ok n ∧ 0 ≤ n) ∧
      ¬ ∃ count unit, WritesSpan "153722867280913m" count unit ∧ Fits count ∧
        Fits (count * unit) := by
  obtain ⟨-, -, hpositive⟩ := millis?_verdict "\u00a000153722867280912m\n"
  obtain ⟨-, hrefused, -⟩ := millis?_verdict "153722867280913m"
  refine ⟨⟨9223372036854720000, ?_, ?_⟩, hrefused.mp (by decide +kernel)⟩
  · decide +kernel
  · exact hpositive _ (by decide +kernel)

end SeriesQuery
