/-
  What can be relied on when stages are sent over the wire.

  * What is built arrives: whoever built the stages, the receiver has the same ones, and what stands
    behind them in the input is left alone.
  * What is accepted has been written: there is one message for each list of stages, and no other
    input is read as that list.
  * A message that breaks off is refused as one, and never taken for a shorter list or blamed on a
    parameter.
  * The receiver is as strict as the constructors but in one point.  The limit of `head` takes all
    of its eight bytes, so that a limit beyond the signed numbers is read, though no constructor and
    no plan lets one through.

  The first two are the two directions of one equivalence (`readAll_eq_ok`).  The third one needs
  the steadiness of the readers besides, and the last one what the constructors let through
  (`constructed_iff`).
-/
import SeriesQuery.Proofs.Wire.Stages

namespace SeriesQuery.Stage

open Wire

variable {input rest : Bytes} {s : Stage} {stages : List Stage}

/-! ## Nothing is lost -/

/-- **What is built arrives.**  Stages from constructors, from named arguments and from plans are
    read as they were written, in their order, and the input behind them is left over.  The floats
    among their parameters are equal as floats are in this library, bit by bit, so that `-0.0` stays
    what it is.  None of these stages fails the check that the reader makes. -/
theorem readAll_writeAll (hbuilt : ∀ s ∈ stages, s.Built) (hlength : stages.length < 2 ^ 64)
    (hcountable : ∀ s ∈ stages, s.Countable) (rest : Bytes) :
    readAll (writeAll stages ++ rest) = .ok (stages, rest) ∧
      ∀ s ∈ stages, s.validate = .ok () ∧ read (s.write ++ rest) = .ok (s, rest) := by
  have hfits : ∀ s ∈ stages, s.validate = .ok () ∧ s.Countable :=
    fun s hs => ⟨(hbuilt s hs).valid, hcountable s hs⟩
  constructor
  · exact readAll_eq_ok.mpr ⟨hlength, hfits, rfl⟩
  · intro s hs
    exact ⟨(hfits s hs).1, read_eq_ok.mpr ⟨hfits s hs, rfl⟩⟩

/-- The two zeros are different floats here. -/
example : scale (-0.0) ≠ scale 0.0 := by decide +kernel

namespace Usage

/-- The division of a stage with a text that is not plain, and two labels. -/
def share : Arithmetic where
  operator := .divide
  right := "dénominateur"
  labels := ["host", "dc"]
  keepUnmatched := true

/-- Stages of every kind of parameter. -/
def sent : List Stage :=
  [.head 25, .summarize ⟨60000, .percentile 99.5, true⟩, .scale (-0.0), .arithmetic share,
    .union "other"]

theorem sent_length : sent.length < 2 ^ 64 := by decide

theorem sent_countable : ∀ s ∈ sent, s.Countable := by decide +kernel

/-- Each of the stages is built in one of the three ways. -/
theorem sent_built : ∀ s ∈ sent, s.Built := by
  have hplan : (PlanNode.mk 0 (.apply (.head 25)) []).stages? = .ok [.head 25] := rfl
  have hunion : ofArguments? "union" [("right_op_reference", .string "other")] =
      .ok (.union "other") := rfl
  have hsummarize : checked (.summarize ⟨60000, .percentile 99.5, true⟩) =
      .ok (.summarize ⟨60000, .percentile 99.5, true⟩) := by decide +kernel
  have hscale : checked (.scale (-0.0)) = .ok (.scale (-0.0)) := by decide +kernel
  have hshare : checked (.arithmetic share) = .ok (.arithmetic share) := by decide +kernel
  simp only [sent, List.forall_mem_cons]
  exact ⟨.ofPlan hplan (List.mem_singleton.mpr rfl), .byConstructor (.summarize hsummarize),
    .byConstructor (.scale hscale), .byConstructor (.arithmetic hshare), .ofArguments hunion,
    fun _ h => by cases h⟩

theorem sent_fits : ∀ s ∈ sent, s.validate = .ok () ∧ s.Countable :=
  fun s hs => ⟨(sent_built s hs).valid, sent_countable s hs⟩

end Usage

/-- The five stages arrive with one byte behind them left over, and so does each one alone. -/
theorem readAll_writeAll_usage :
    readAll (writeAll Usage.sent ++ [7]) = .ok (Usage.sent, [7]) ∧
      ∀ s ∈ Usage.sent, s.validate = .ok () ∧ read (s.write ++ [7]) = .ok (s, [7]) :=
  readAll_writeAll Usage.sent_built Usage.sent_length Usage.sent_countable [7]

/-! ## One message for each list -/

/-- **What is accepted has been written.**  The part of the input that is read is the message of
    what it is read as.  So two inputs that are read as the same stages, the floats bit by bit, and
    leave the same over are one. -/
theorem read_canonical :
    (∀ {input rest s}, read input = .ok (s, rest) → input = s.write ++ rest) ∧
      (∀ {input rest stages}, readAll input = .ok (stages, rest) →
        input = writeAll stages ++ rest) ∧
      ∀ {input other rest stages}, readAll input = .ok (stages, rest) →
        readAll other = .ok (stages, rest) → input = other := by
  have hwritten : ∀ {input rest stages}, readAll input = .ok (stages, rest) →
      input = writeAll stages ++ rest := fun h => (readAll_eq_ok.mp h).2.2
  refine ⟨fun h => (read_eq_ok.mp h).2, hwritten, fun hinput hother => ?_⟩
  rw [hwritten hinput, hwritten hother]

/-- The bytes of one stage of kind five and two more, one way to read them and none other. -/
theorem read_canonical_usage :
    read [0, 0, 0, 5, 0, 0, 0, 0, 0, 0, 0, 1, 97, 1, 2] = .ok (.union "a", [1, 2]) ∧
      [0, 0, 0, 5, 0, 0, 0, 0, 0, 0, 0, 1, 97, 1, 2] = (union "a").write ++ [1, 2] ∧
      ∀ other, readAll other = .ok (Usage.sent, []) → other = writeAll Usage.sent := by
  have hread : read [0, 0, 0, 5, 0, 0, 0, 0, 0, 0, 0, 1, 97, 1, 2] = .ok (.union "a", [1, 2]) :=
    read_eq_ok.mpr ⟨by decide, by decide⟩
  have hsent : readAll (writeAll Usage.sent) = .ok (Usage.sent, []) :=
    readAll_eq_ok.mpr ⟨Usage.sent_length, Usage.sent_fits, (List.append_nil _).symm⟩
  exact ⟨hread, read_canonical.1 hread, fun other h => read_canonical.2.2 h hsent⟩

/-! ## Messages that break off -/

/-- **A message that breaks off is refused as one**, wherever it does. -/
theorem readAll_cut_short (hlength : stages.length < 2 ^ 64)
    (hfits : ∀ s ∈ stages, s.validate = .ok () ∧ s.Countable) :
    (∀ part, part <+: writeAll stages → part ≠ writeAll stages →
        readAll part = .error .serialization) ∧
      ∀ s ∈ stages, ∀ part, part <+: s.write → part ≠ s.write →
        read part = .error .serialization := by
  have hall : readAll (writeAll stages) = .ok (stages, []) :=
    readAll_eq_ok.mpr ⟨hlength, hfits, (List.append_nil _).symm⟩
  have hone : ∀ s ∈ stages, read s.write = .ok (s, []) :=
    fun s hs => read_eq_ok.mpr ⟨hfits s hs, (List.append_nil _).symm⟩
  exact ⟨fun part => steady_readAll.cut_short hall,
    fun s hs part => steady_read.cut_short (hone s hs)⟩

/-- Cut in the middle of the text, the message of the five stages is refused, and so is that of the
    stage that the text belongs to. -/
theorem readAll_cut_short_usage :
    readAll ((writeAll Usage.sent).take 80) = .error .serialization ∧
      read ((arithmetic Usage.share).write.take 20) = .error .serialization := by
  have hcut := readAll_cut_short Usage.sent_length Usage.sent_fits
  constructor
  · exact hcut.1 _ (List.take_prefix _ _) (by decide +kernel)
  · exact hcut.2 (arithmetic Usage.share) (by simp [Usage.sent]) _ (List.take_prefix _ _)
      (by decide +kernel)

/-! ## As strict as the constructors, but for one limit -/

/-- **What is read could have been built**, unless it is a `head` with a limit beyond the signed
    numbers. -/
theorem constructed_of_read (h : read input = .ok (s, rest)) :
    s.Constructed ↔ ∀ limit, s = head limit → limit ≤ greatestLimit := by
  rw [constructed_iff]
  exact and_iff_right (read_eq_ok.mp h).1.1

/-- A `scale` that is read, and that its constructor lets through. -/
theorem constructed_of_read_usage :
    read ((scale (-0.0)).write ++ [7]) = .ok (scale (-0.0), [7]) ∧
      (scale (-0.0)).Constructed := by
  have hread : read ((scale (-0.0)).write ++ [7]) = .ok (scale (-0.0), [7]) :=
    read_eq_ok.mpr ⟨by decide +kernel, rfl⟩
  exact ⟨hread, (constructed_of_read hread).mpr fun limit hkind => by cases hkind⟩

/-- The limit after the greatest signed number is read, and no constructor lets it through. -/
theorem read_beyond_constructors :
    ∃ s rest, read [0, 0, 0, 0, 0x80, 0, 0, 0, 0, 0, 0, 0] = .ok (s, rest) ∧
      ¬ s.Constructed := by
  refine ⟨head 0x8000000000000000, [], read_eq_ok.mpr ⟨⟨rfl, trivial⟩, by decide⟩, ?_⟩
  rw [constructed_iff]
  rintro ⟨-, hlimit⟩
  exact absurd (hlimit _ rfl) (by decide)

end SeriesQuery.Stage
