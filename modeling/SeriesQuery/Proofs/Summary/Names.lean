/-
  The name of a summary is read as that summary, with one exception.

  Only a percentile makes this a question.  Its name is the letter `p` with the text of a float
  behind it, and what may stand behind a `p` are digits with at most one point among them, without
  a sign.  A float without a sign is written in just such digits and read back bit for bit.  So all
  hangs on the sign.

  A percentile that comes from a name has none.  One that comes from a number is let through by
  comparisons, and these let one float with a sign pass: negative zero, which is equal to zero.  Its
  name is refused.
-/
import SeriesQuery.Proofs.Decimal.PlainText
import SeriesQuery.Proofs.Stage.Parameters
import SeriesQuery.Proofs.Text.Keywords

namespace SeriesQuery.Summary

variable {s : Summary} {p : Float} {m : Nat} {e : Int}

/-! ## Percentiles without a sign -/

theorem isDecimal_chars {cs : List Char} (h : isDecimal cs = true) :
    ∀ c ∈ cs, c.isDigit = true ∨ c = '.' := by
  rw [isDecimal, Bool.and_eq_true] at h
  obtain ⟨-, h⟩ := h
  have hwhole : ∀ c ∈ cs.takeWhile Char.isDigit, c.isDigit = true := fun c hc =>
    List.all_eq_true.mp List.all_takeWhile c hc
  rw [← List.takeWhile_append_dropWhile (p := Char.isDigit) (l := cs)]
  intro c hc
  rcases List.mem_append.mp hc with hc | hc
  · exact .inl (hwhole c hc)
  · split at h
    case h_1 hnil =>
      rw [hnil] at hc
      exact absurd hc List.not_mem_nil
    case h_2 point rest hrest =>
      simp only [Bool.and_eq_true, beq_iff_eq, List.all_eq_true] at h
      rw [hrest] at hc
      rcases List.mem_cons.mp hc with rfl | hc
      · exact .inr h.1.1
      · exact .inl (h.2 c hc)

/-- The letter `p` with a decimal number names a percentile. -/
theorem parse?_decimal {cs : List Char} (hdecimal : isDecimal cs = true)
    (hread : Decimal.float? cs = some p) : parse? (String.ofList ('p' :: cs)) = percentile? p := by
  have hkeyword : Text.keyword (String.ofList ('p' :: cs)) = 'p' :: cs := by
    refine Text.keyword_eq_self (List.forall_mem_cons.mpr ⟨by decide, fun c hc => ?_⟩)
    rcases isDecimal_chars hdecimal c hc with hdigit | rfl
    · exact ⟨Decimal.isBlank_of_isDigit hdigit, Decimal.toLower_of_isDigit hdigit⟩
    · decide
  unfold parse?
  rw [hkeyword]
  show (if isDecimal cs = true then (Decimal.float? cs).elim _ percentile? else _) = _
  rw [if_pos hdecimal, hread]
  rfl

/-- The name of a percentile without a sign is read as the constructor reads the number. -/
theorem parse?_name_percentile (h : Binary64.ofFloat p = .finite false m e) :
    parse? (percentile p).name = percentile? p := by
  obtain ⟨hdecimal, hread⟩ := Decimal.plain_read h
  have hname : (percentile p).name = String.ofList ('p' :: (Decimal.plain p).toList) := by
    show "p" ++ Decimal.plain p = _
    rw [← String.toList_inj, String.toList_append]
    exact String.toList_ofList.symm
  rw [hname, parse?_decimal hdecimal hread]

/-- A percentile that exists is a number. -/
theorem ofFloat_of_range (h : 0.0 ≤ p ∧ p ≤ 100.0) :
    ∃ sign m e, Binary64.ofFloat p = .finite sign m e :=
  Binary64.ofFloat_of_isFinite
    (Binary64.isFinite_of_between h.1 h.2 (by decide +kernel) (by decide +kernel))

/-! ## Summaries that come from a name -/

/-- A percentile that a name gives is in range, and is the median or written in digits. -/
theorem parse?_eq_percentile {name : String} (h : parse? name = .ok (percentile p)) :
    (0.0 ≤ p ∧ p ≤ 100.0) ∧
      (p = 50.0 ∨ ∃ cs, isDecimal cs = true ∧ Decimal.float? cs = some p) := by
  have hnamed := named_parse? name
  generalize parse? name = result at h hnamed
  cases hnamed with
  | plain s hplain => exact absurd (Except.ok.inj h) (hplain p)
  | percentile q hsource =>
    obtain ⟨hrange, hq⟩ := percentile?_eq_ok.mp h
    obtain rfl := percentile.inj hq
    exact ⟨hrange, hsource⟩
  | unknown c => cases h

/-- A percentile that comes from a name has no sign. -/
theorem ofFloat_of_parse? {name : String} (h : parse? name = .ok (percentile p)) :
    ∃ m e, Binary64.ofFloat p = .finite false m e := by
  obtain ⟨hrange, hsource⟩ := parse?_eq_percentile h
  obtain ⟨sign, m, e, hnumber⟩ := ofFloat_of_range hrange
  have hsign : sign = false := by
    rcases hsource with rfl | ⟨cs, hdecimal, hread⟩
    · have hmedian : Binary64.ofFloat 50.0 = .finite false 0x19000000000000 (-47) := by
        decide +kernel
      exact (Binary64.finite.inj (hnumber.symm.trans hmedian)).1
    · exact Decimal.sign_of_isDecimal hdecimal hread hnumber
  exact ⟨m, e, hsign ▸ hnumber⟩

/-- What comes from a name has a name that is read as it. -/
theorem parse?_name {name : String} (h : parse? name = .ok s) : parse? s.name = .ok s := by
  cases s with
  | percentile p =>
    obtain ⟨m, e, hnumber⟩ := ofFloat_of_parse? h
    rw [parse?_name_percentile hnumber, percentile?_eq_ok]
    exact ⟨(parse?_eq_percentile h).1, rfl⟩
  | _ => rfl

/-! ## Summaries that come from a constructor -/

/-- The summaries that can be had: those without a parameter, and the percentiles that exist. -/
inductive Constructed : Summary → Prop
  | plain (s : Summary) (h : ∀ p, s ≠ percentile p) : Constructed s
  | percentile (p : Float) (s : Summary) (h : percentile? p = .ok s) : Constructed s

/-- **The name of a summary is read as that summary**, and only the name of the percentile of
    negative zero is refused. -/
theorem parse?_name_of_constructed (h : Constructed s) :
    parse? s.name =
      if s = percentile (-0.0) then .error (.invalid (.unknownSummary "p-0")) else .ok s := by
  cases h with
  | plain s hplain =>
    rw [if_neg (hplain _)]
    cases s with
    | percentile p => exact absurd rfl (hplain p)
    | _ => rfl
  | percentile p s hs =>
    obtain ⟨hrange, rfl⟩ := percentile?_eq_ok.mp hs
    obtain ⟨sign, m, e, hnumber⟩ := ofFloat_of_range hrange
    have hnegative : Binary64.ofFloat (-0.0) = .finite true 0 (-1074) := by decide +kernel
    cases sign with
    | true =>
      obtain rfl : p = -0.0 := Binary64.eq_negative_zero hrange.1 hnumber
      rw [if_pos rfl]
      decide +kernel
    | false =>
      have hne : percentile p ≠ percentile (-0.0) := by
        intro heq
        rw [percentile.inj heq, hnegative] at hnumber
        cases hnumber
      rw [if_neg hne, parse?_name_percentile hnumber, hs]

/-- The least percentile above zero, whose name has more than three hundred zeros. -/
theorem parse?_name_of_constructed_usage :
    Constructed (percentile 5e-324) ∧
      parse? (percentile 5e-324).name = .ok (percentile 5e-324) := by
  have hconstructed : Constructed (percentile 5e-324) := .percentile 5e-324 _ (by decide +kernel)
  have hne : percentile 5e-324 ≠ percentile (-0.0) := by decide +kernel
  refine ⟨hconstructed, ?_⟩
  rw [parse?_name_of_constructed hconstructed, if_neg hne]

/-- Negative zero is accepted as a percentile and equal to zero, whose name is read.  Its own name
    is not. -/
theorem negative_zero_unread :
    Constructed (percentile (-0.0)) ∧ (percentile (-0.0) == percentile 0.0) = true ∧
      parse? (percentile 0.0).name = .ok (percentile 0.0) ∧
      ¬ ∃ s, parse? (percentile (-0.0)).name = .ok s := by
  have hrefused : parse? (percentile (-0.0)).name = .error (.invalid (.unknownSummary "p-0")) := by
    decide +kernel
  refine ⟨.percentile (-0.0) _ (by decide +kernel), by decide +kernel, by decide +kernel, ?_⟩
  rintro ⟨s, hs⟩
  rw [hrefused] at hs
  cases hs

end SeriesQuery.Summary
