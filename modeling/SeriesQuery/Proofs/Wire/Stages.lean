/-
  Stages on the wire.

  Reading gives a stage and a rest exactly if the stage is valid and the input is what is written
  for it, with the rest behind it (`read_eq_ok`); for a list of stages it is the same
  (`readAll_eq_ok`).  From right to left nothing is lost on the way; from left to right no two
  inputs are read as the same stages.

  The kinds differ in their fields only, so there is one equivalence for each kind of tag (summary,
  operator, stage), put together from those of the fields.  That a valid stage holds no "not a
  number" is what carries the floats across.
-/
import SeriesQuery.Proofs.Stage.Building
import SeriesQuery.Proofs.Wire.Fields

namespace SeriesQuery

/-- The lengths in the stage are such that eight bytes can write them.  An address has no more than
    eight bytes, so that this is true of every text and every list that a memory can hold. -/
def Stage.Countable : Stage → Prop
  | .arithmetic a =>
    a.right.utf8ByteSize < 2 ^ 64 ∧ a.labels.length < 2 ^ 64 ∧
      ∀ key ∈ a.labels, key.utf8ByteSize < 2 ^ 64
  | .union right => right.utf8ByteSize < 2 ^ 64
  | _ => True

instance : DecidablePred Stage.Countable
  | .arithmetic a => inferInstanceAs (Decidable (a.right.utf8ByteSize < 2 ^ 64 ∧
      a.labels.length < 2 ^ 64 ∧ ∀ key ∈ a.labels, key.utf8ByteSize < 2 ^ 64))
  | .union right => inferInstanceAs (Decidable (right.utf8ByteSize < 2 ^ 64))
  | .head _ | .summarize _ | .scale _ | .scaleToSeconds _ => .isTrue trivial

namespace Wire

variable {input rest : Bytes}

/-! ## Parameters -/

/-- What starts with a tag. -/
theorem tagged_eq_ok {α : Type} {f : Nat → Reader α} {a : α} :
    (readWord >>= f) input = .ok (a, rest) ↔
      ∃ tag left, tag < 2 ^ 32 ∧ input = word tag ++ left ∧ f tag left = .ok (a, rest) := by
  rw [Reader.bind_eq_ok]
  simp only [readWord_eq_ok, and_assoc]

/-- A percentile in the valid range is a number: it has been compared with the ends of the range. -/
theorem percentile_isNaN_eq_false {p : Float} (h : (Summary.percentile p).validate = .ok ()) :
    p.isNaN = false := by
  obtain ⟨_, hpercentile, -⟩ := map_eq_ok.mp h
  exact isNaN_eq_false_of_le (of_check_eq_ok hpercentile).2

/-- A summary is a tag, with the percentile behind the last one.  It has to be valid for the sake of
    this percentile: "not a number" would be read back, but it may have been written with any of its
    bit patterns. -/
theorem readSummary_eq_ok {s : Summary} (hs : s.validate = .ok ()) :
    readSummary input = .ok (s, rest) ↔ input = summary s ++ rest := by
  rw [readSummary, tagged_eq_ok]
  constructor
  · rintro ⟨tag, left, -, rfl, h⟩
    split at h
    case h_7 =>
      obtain ⟨p, left, hp, h⟩ := Reader.bind_eq_ok.mp h
      obtain ⟨rfl, rfl⟩ := Reader.pure_eq_ok.mp h
      obtain rfl := (readFloat_eq_ok (percentile_isNaN_eq_false hs)).mp hp
      exact (List.append_assoc _ _ _).symm
    -- no summary has this tag
    case h_8 => cases h
    all_goals
      obtain ⟨rfl, rfl⟩ := Reader.pure_eq_ok.mp h
      rfl
  · rintro rfl
    cases s with
    -- the one summary with something behind its tag
    | percentile p =>
      have hp := (readFloat_eq_ok (percentile_isNaN_eq_false hs)).mpr (rfl : float p ++ rest = _)
      rw [summary, List.append_assoc]
      exact ⟨6, _, by decide, rfl, Reader.bind_eq_ok.mpr ⟨p, rest, hp, rfl⟩⟩
    | sum => exact ⟨0, rest, by decide, rfl, rfl⟩
    | avg => exact ⟨1, rest, by decide, rfl, rfl⟩
    | min => exact ⟨2, rest, by decide, rfl, rfl⟩
    | max => exact ⟨3, rest, by decide, rfl, rfl⟩
    | last => exact ⟨4, rest, by decide, rfl, rfl⟩
    | stdDev => exact ⟨5, rest, by decide, rfl, rfl⟩

/-- An operator is a tag and nothing else. -/
theorem readOperator_eq_ok {o : Operator} :
    readOperator input = .ok (o, rest) ↔ input = operator o ++ rest := by
  rw [readOperator, tagged_eq_ok]
  constructor
  · rintro ⟨tag, left, -, rfl, h⟩
    split at h
    -- no operator has this tag
    case h_5 => cases h
    all_goals
      obtain ⟨rfl, rfl⟩ := Reader.pure_eq_ok.mp h
      rfl
  · rintro rfl
    cases o with
    -- each operator has the tag of its place
    | add => exact ⟨0, rest, by decide, rfl, rfl⟩
    | subtract => exact ⟨1, rest, by decide, rfl, rfl⟩
    | multiply => exact ⟨2, rest, by decide, rfl, rfl⟩
    | divide => exact ⟨3, rest, by decide, rfl, rfl⟩

/-! ## More input

What is read after a tag depends on the tag only.  So the readers of parameters are steady, being
rows of readers that are. -/

/-- What comes after a tag is found by the tag alone. -/
theorem steady_readSummary : Steady readSummary := by
  refine steady_readWord.bind fun tag => ?_
  split
  case h_7 => exact steady_readFloat.bind fun _ => .pure _
  case h_8 => exact .malformed
  all_goals exact .pure _

theorem steady_readOperator : Steady readOperator := by
  refine steady_readWord.bind fun tag => ?_
  split
  case h_5 => exact .malformed
  all_goals exact .pure _

end Wire

namespace Stage

open Wire

variable {input rest : Bytes} {s : Stage} {stages : List Stage}

/-! ## Stages

One equivalence for every kind of stage, put together from those of the fields in the order in which
they are written. -/

/-- A valid factor is a number. -/
theorem factor_isNaN_eq_false {factor : Float} (h : (scale factor).validate = .ok ()) :
    factor.isNaN = false :=
  isNaN_eq_false_of_isFinite (of_check_eq_ok h)

/-- A valid length of time is a number. -/
theorem seconds_isNaN_eq_false {seconds : Float}
    (h : (scaleToSeconds seconds).validate = .ok ()) : seconds.isNaN = false :=
  isNaN_eq_false_of_isFinite (of_check_eq_ok h).1

/-- A valid downsampling has a valid summary. -/
theorem summary_valid {d : Downsampling} (h : (summarize d).validate = .ok ()) :
    d.summary.validate = .ok () := by
  -- the summary is checked after the interval
  by_cases hinterval : d.interval ≤ 0
  · rw [validate, Downsampling.validate, if_pos hinterval] at h
    cases h
  · rwa [validate, Downsampling.validate, if_neg hinterval] at h

/-- Whatever the tag, the fields that come after it are those of the stage. -/
theorem eq_write_of_readForm (hs : s.validate = .ok ()) (h : readForm input = .ok (s, rest)) :
    s.Countable ∧ input = s.write ++ rest := by
  rw [readForm, tagged_eq_ok] at h
  obtain ⟨tag, left, -, rfl, h⟩ := h
  -- one case for each tag; `hs` is there for the floats, which are none of the "not a number"s
  split at h
  case h_1 =>
    obtain ⟨limit, left, hlimit, h⟩ := Reader.bind_eq_ok.mp h
    obtain ⟨rfl, rfl⟩ := Reader.pure_eq_ok.mp h
    obtain rfl := readBits_eq_ok.mp ⟨limit, hlimit, rfl⟩
    exact ⟨trivial, (List.append_assoc _ _ _).symm⟩
  case h_2 =>
    obtain ⟨interval, left, hinterval, h⟩ := Reader.bind_eq_ok.mp h
    obtain ⟨summary, left, hsummary, h⟩ := Reader.bind_eq_ok.mp h
    obtain ⟨alignToStart, left, halign, h⟩ := Reader.bind_eq_ok.mp h
    obtain ⟨rfl, rfl⟩ := Reader.pure_eq_ok.mp h
    obtain rfl := readInt64_eq_ok.mp hinterval
    obtain rfl := (readSummary_eq_ok (summary_valid hs)).mp hsummary
    obtain rfl := readBool_eq_ok.mp halign
    exact ⟨trivial, by simp only [write, List.append_assoc]⟩
  case h_3 =>
    obtain ⟨factor, left, hfactor, h⟩ := Reader.bind_eq_ok.mp h
    obtain ⟨rfl, rfl⟩ := Reader.pure_eq_ok.mp h
    obtain rfl := (readFloat_eq_ok (factor_isNaN_eq_false hs)).mp hfactor
    exact ⟨trivial, (List.append_assoc _ _ _).symm⟩
  case h_4 =>
    obtain ⟨seconds, left, hseconds, h⟩ := Reader.bind_eq_ok.mp h
    obtain ⟨rfl, rfl⟩ := Reader.pure_eq_ok.mp h
    obtain rfl := (readFloat_eq_ok (seconds_isNaN_eq_false hs)).mp hseconds
    exact ⟨trivial, (List.append_assoc _ _ _).symm⟩
  case h_5 =>
    obtain ⟨operator, left, hoperator, h⟩ := Reader.bind_eq_ok.mp h
    obtain ⟨right, left, hright, h⟩ := Reader.bind_eq_ok.mp h
    obtain ⟨labels, left, hlabels, h⟩ := Reader.bind_eq_ok.mp h
    obtain ⟨keepUnmatched, left, hkeep, h⟩ := Reader.bind_eq_ok.mp h
    obtain ⟨rfl, rfl⟩ := Reader.pure_eq_ok.mp h
    obtain rfl := readOperator_eq_ok.mp hoperator
    obtain ⟨hsize, rfl⟩ := readString_eq_ok.mp hright
    obtain ⟨hcount, hsizes, rfl⟩ := readStrings_eq_ok.mp hlabels
    obtain rfl := readBool_eq_ok.mp hkeep
    exact ⟨⟨hsize, hcount, hsizes⟩, by simp only [write, List.append_assoc]⟩
  case h_6 =>
    obtain ⟨right, left, hright, h⟩ := Reader.bind_eq_ok.mp h
    obtain ⟨rfl, rfl⟩ := Reader.pure_eq_ok.mp h
    obtain ⟨hsize, rfl⟩ := readString_eq_ok.mp hright
    exact ⟨hsize, (List.append_assoc _ _ _).symm⟩
  -- no stage has this tag
  case h_7 => cases h

/-- What is written for a stage is read as its fields, kind by kind, whatever is behind it. -/
theorem readForm_write (hs : s.validate = .ok ()) (hcount : s.Countable) :
    readForm (s.write ++ rest) = .ok (s, rest) := by
  rw [readForm, tagged_eq_ok]
  -- each kind has its tag, and then its fields in the order in which they are read
  cases s with
  | head limit =>
    obtain ⟨n, hn, rfl⟩ := readBits_eq_ok.mpr (rfl : long limit.toNat ++ rest = _)
    rw [write, List.append_assoc]
    refine ⟨0, _, by decide, rfl, ?_⟩
    exact Reader.bind_eq_ok.mpr ⟨n, rest, hn, rfl⟩
  | summarize d =>
    have hsummary := summary_valid hs
    simp only [write, List.append_assoc]
    refine ⟨1, _, by decide, rfl, ?_⟩
    refine Reader.bind_eq_ok.mpr ⟨d.interval, _, readInt64_eq_ok.mpr rfl, ?_⟩
    refine Reader.bind_eq_ok.mpr ⟨d.summary, _, (readSummary_eq_ok hsummary).mpr rfl, ?_⟩
    exact Reader.bind_eq_ok.mpr ⟨d.alignToStart, rest, readBool_eq_ok.mpr rfl, rfl⟩
  | scale factor =>
    have hfactor := factor_isNaN_eq_false hs
    rw [write, List.append_assoc]
    refine ⟨2, _, by decide, rfl, ?_⟩
    exact Reader.bind_eq_ok.mpr ⟨factor, rest, (readFloat_eq_ok hfactor).mpr rfl, rfl⟩
  | scaleToSeconds seconds =>
    have hseconds := seconds_isNaN_eq_false hs
    rw [write, List.append_assoc]
    refine ⟨3, _, by decide, rfl, ?_⟩
    exact Reader.bind_eq_ok.mpr ⟨seconds, rest, (readFloat_eq_ok hseconds).mpr rfl, rfl⟩
  | arithmetic a =>
    obtain ⟨hsize, hcount, hsizes⟩ := hcount
    simp only [write, List.append_assoc]
    refine ⟨4, _, by decide, rfl, ?_⟩
    refine Reader.bind_eq_ok.mpr ⟨a.operator, _, readOperator_eq_ok.mpr rfl, ?_⟩
    refine Reader.bind_eq_ok.mpr ⟨a.right, _, readString_eq_ok.mpr ⟨hsize, rfl⟩, ?_⟩
    refine Reader.bind_eq_ok.mpr ⟨a.labels, _, readStrings_eq_ok.mpr ⟨hcount, hsizes, rfl⟩, ?_⟩
    exact Reader.bind_eq_ok.mpr ⟨a.keepUnmatched, rest, readBool_eq_ok.mpr rfl, rfl⟩
  | union right =>
    rw [write, List.append_assoc]
    refine ⟨5, _, by decide, rfl, ?_⟩
    exact Reader.bind_eq_ok.mpr ⟨right, rest, readString_eq_ok.mpr ⟨hcount, rfl⟩, rfl⟩

/-- **A stage is read where it was written, and nowhere else.** -/
theorem read_eq_ok :
    read input = .ok (s, rest) ↔
      (s.validate = .ok () ∧ s.Countable) ∧ input = s.write ++ rest := by
  rw [read, Reader.bind_eq_ok]
  simp only [Reader.bind_eq_ok, Reader.lift_eq_ok, Reader.pure_eq_ok]
  constructor
  · -- the check is made on the stage that was read, which is why it is valid when it is returned
    rintro ⟨t, left, hform, ⟨⟩, _, ⟨hvalid, rfl⟩, rfl, rfl⟩
    obtain ⟨hcount, hinput⟩ := eq_write_of_readForm hvalid hform
    exact ⟨⟨hvalid, hcount⟩, hinput⟩
  · rintro ⟨⟨hvalid, hcount⟩, rfl⟩
    exact ⟨s, rest, readForm_write hvalid hcount, (), rest, ⟨hvalid, rfl⟩, rfl, rfl⟩

/-- A list of stages is read as it was written, and only if all of them are valid. -/
theorem readAll_eq_ok :
    readAll input = .ok (stages, rest) ↔
      stages.length < 2 ^ 64 ∧ (∀ s ∈ stages, s.validate = .ok () ∧ s.Countable) ∧
        input = writeAll stages ++ rest :=
  readList_eq_ok read_eq_ok

/-! ## More input behind a stage -/

/-- The fields of every kind are steady, and the tag says which kind it is. -/
theorem steady_readForm : Steady readForm := by
  refine steady_readWord.bind fun tag => ?_
  split
  case h_1 => exact steady_readLong.bind fun _ => .pure _
  case h_2 =>
    exact steady_readInt64.bind fun _ => steady_readSummary.bind fun _ =>
      steady_readBool.bind fun _ => .pure _
  case h_3 => exact steady_readFloat.bind fun _ => .pure _
  case h_4 => exact steady_readFloat.bind fun _ => .pure _
  case h_5 =>
    exact steady_readOperator.bind fun _ => steady_readString.bind fun _ =>
      (steady_readList steady_readString).bind fun _ => steady_readBool.bind fun _ => .pure _
  case h_6 => exact steady_readString.bind fun _ => .pure _
  case h_7 => exact .malformed

/-- The check of the parameters sees the stage only, not what stands behind it. -/
theorem steady_read : Steady read :=
  steady_readForm.bind fun s => (Steady.lift s.validate).bind fun _ => .pure s

/-- A list of stages is steady since each of them is. -/
theorem steady_readAll : Steady readAll := steady_readList steady_read

end Stage
end SeriesQuery
