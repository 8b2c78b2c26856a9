/-
  The arguments of a stage build it again.

  `Stage.arguments` writes every parameter in its plain form: aliases, texts of numbers, `null` and
  what was left out are gone.  So it is enough to look at the stage and not at what it was built
  from.  All that the way back asks of a stage is that a constructor has let it through, and that
  the name of its summary is read as that summary (`ofArguments?_arguments_of_constructed`).

  The second holds of every summary that was read from a name itself, and the reader of `summarize`
  takes no other.
-/
import SeriesQuery.Proofs.Stage.Building
import SeriesQuery.Proofs.Stage.Parameters
import SeriesQuery.Proofs.Summary.Names

namespace SeriesQuery.Stage

variable {s : Stage}

/-- A stage that its arguments are read as, parameter by parameter. -/
theorem ofArguments?_arguments_of_constructed (h : s.Constructed)
    (hsummary : ∀ d, s = summarize d → Summary.parse? d.summary.name = .ok d.summary) :
    ofArguments? s.name s.arguments = .ok s := by
  obtain ⟨hvalid, hlimit⟩ := constructed_iff.mp h
  have hchecked : s.checked = .ok s := checked_eq_ok.mpr ⟨hvalid, rfl⟩
  cases s with
  | head limit =>
    have hmax : limit.toNat < 2 ^ 63 :=
      Nat.lt_succ_of_le (UInt64.le_iff_toNat_le.mp (hlimit limit rfl))
    -- The limit is written as a whole number and read with saturation, which does nothing in range.
    have hcount : saturate limit.toNat = limit.toInt64 := by
      have hmin : Int64.minValue.toInt = -2 ^ 63 := rfl
      have hgreatest : Int64.maxValue.toInt = 2 ^ 63 - 1 := rfl
      have hsame : (UInt64.ofNat limit.toNat).toInt64 = Int64.ofInt limit.toNat :=
        Int64.ofInt_eq_ofNat.symm
      rw [saturate, if_neg (by omega), if_neg (by omega), ← hsame, UInt64.ofNat_toNat]
    show head? (saturate limit.toNat) = _
    rw [hcount, head?_eq_ok]
    exact ⟨(pos_toInt64_iff limit).mpr ⟨validate_head_eq_ok.mp hvalid, hlimit limit rfl⟩,
      by rw [UInt64.toUInt64_toInt64]⟩
  | summarize d =>
    show ((Json.ofInt64 d.interval).int64?.elim (.error (.invalid (.argumentNotNumber "interval")))
        .ok >>= fun interval => Summary.parse? d.summary.name >>= fun summary =>
          checked (.summarize { interval, summary, alignToStart := d.alignToStart })) = _
    rw [Json.int64?_ofInt64, hsummary d rfl]
    exact hchecked
  | scale factor => exact hchecked
  | scaleToSeconds seconds => exact hchecked
  | arithmetic a =>
    have hright : ¬ a.right = "" := by
      intro hempty
      have hvalid : (if a.right = "" then _ else _) = _ := hvalid
      rw [if_pos hempty] at hvalid
      cases hvalid
    show (Operator.parse? a.operator.name >>= fun operator =>
      (if a.right = "" then .error (.invalid .referenceMissing) else .ok a.right) >>= fun right =>
        (Json.ofStrings a.labels).strings?.elim (.error (.invalid .labelsNotStrings)) .ok >>=
          fun labels => checked
            (.arithmetic { operator, right, labels, keepUnmatched := a.keepUnmatched })) = _
    rw [Operator.parse?_name, Json.strings?_ofStrings, if_neg hright]
    exact hchecked
  | union right =>
    have hright : ¬ right = "" := by
      rintro rfl
      cases hvalid
    show ((if right = "" then .error (.invalid .referenceMissing) else .ok right) >>= fun right =>
      checked (.union right)) = _
    rw [if_neg hright]
    exact hchecked

/-- What the reader of `summarize` builds has a summary that it has read from a name. -/
theorem summarizeOfArguments?_summary {args : Json.Members}
    (h : summarizeOfArguments? args = .ok s) :
    ∃ d text, s = summarize d ∧ Summary.parse? text = .ok d.summary := by
  unfold summarizeOfArguments? at h
  dsimp only at h
  split at h
  all_goals
    obtain ⟨interval, -, h⟩ := bind_eq_ok.mp h
    split at h
    case h_2 text _ =>
      obtain ⟨summary, hsummary, h⟩ := bind_eq_ok.mp h
      obtain ⟨alignToStart, -, h⟩ := bind_eq_ok.mp h
      exact ⟨_, text, (checked_eq_ok.mp h).2.symm, hsummary⟩
    all_goals
      -- without a text for the summary, nothing is built
      obtain ⟨_, hsummary, -⟩ := bind_eq_ok.mp h
      cases hsummary

/-- The summary of a downsampling has been read from a name. -/
theorem parse?_of_ofArguments? {name : String} {args : Json.Members} {d : Downsampling}
    (h : ofArguments? name args = .ok (summarize d)) :
    ∃ text, Summary.parse? text = .ok d.summary := by
  unfold ofArguments? at h
  split at h
  case h_2 =>
    obtain ⟨_, text, ⟨rfl⟩, htext⟩ := summarizeOfArguments?_summary h
    exact ⟨text, htext⟩
  -- the other readers build stages of another kind
  case h_1 =>
    have hhead : ∀ {limit : Int64}, head? limit ≠ .ok (summarize d) := fun hlimit => by
      cases (head?_eq_ok.mp hlimit).2
    unfold headOfArguments? at h
    split at h
    case h_1 => cases h
    all_goals
      split at h
      case h_1 => exact absurd h hhead
      case h_2 => cases h
  case h_5 =>
    unfold arithmeticOfArguments? at h
    dsimp only at h
    split at h
    all_goals
      obtain ⟨operator, -, h⟩ := bind_eq_ok.mp h
      obtain ⟨right, -, h⟩ := bind_eq_ok.mp h
      obtain ⟨labels, -, h⟩ := bind_eq_ok.mp h
      obtain ⟨keepUnmatched, -, h⟩ := bind_eq_ok.mp h
      cases (checked_eq_ok.mp h).2
  case h_7 => cases h
  case h_3 | h_4 | h_6 =>
    obtain ⟨_, -, h⟩ := bind_eq_ok.mp h
    cases (checked_eq_ok.mp h).2

/-- **A stage is built again of its own arguments.** -/
theorem ofArguments?_arguments {name : String} {args : Json.Members}
    (h : ofArguments? name args = .ok s) : ofArguments? s.name s.arguments = .ok s := by
  refine ofArguments?_arguments_of_constructed (ofArguments?_constructed h) ?_
  rintro d rfl
  obtain ⟨text, htext⟩ := parse?_of_ofArguments? h
  exact Summary.parse?_name htext

/-- A percentile given with blanks, a capital and zeros. -/
theorem ofArguments?_arguments_usage :
    let args := [("interval", .integer 60), ("function", .string " P099.50 ")]
    ∃ s, ofArguments? "summarize" args = .ok s ∧ ofArguments? s.name s.arguments = .ok s := by
  intro args
  have h : ofArguments? "summarize" args = .ok (.summarize ⟨60, .percentile 99.5, false⟩) := by
    decide +kernel
  exact ⟨_, h, ofArguments?_arguments h⟩

end SeriesQuery.Stage
