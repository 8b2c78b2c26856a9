/-
  Starts of buckets, step by step.

  The checked start looks at three results on the way and takes the quotient for granted, and the
  plain one looks at nothing.  Here a start is made with every single operation checked
  (`Buckets.stepwise?`).  It is found exactly where the checked one is, and is then what the plain
  operations give as well: wherever `start?` has an answer, nothing has wrapped around, and the
  three ways to it are one.
-/
import SeriesQuery.Proofs.Buckets

namespace SeriesQuery
namespace Buckets

variable {b : Buckets} {t u start : Timestamp}

/-! ## Every step checked -/

/-- Where the bucket of an instant starts, if every step on the way can be expressed. -/
def stepwise? (b : Buckets) (t : Timestamp) : Option Timestamp := do
  let offset ← timestamp? (t.toInt - b.origin.toInt)
  let index ← floorQuotient? offset b.width
  let whole ← timestamp? (index.toInt * b.width.toInt)
  timestamp? (whole.toInt + b.origin.toInt)

/-- The division is not what fails. -/
theorem stepwise?_eq_start? (hwidth : 0 < b.width.toInt) (t : Timestamp) :
    b.stepwise? t = b.start? t := by
  unfold stepwise? start? index
  simp only [floorQuotient?_eq_some hwidth]
  rfl

/-- Where no step leaves the range, the plain start is the checked one. -/
theorem start_eq_of_stepwise? (h : b.stepwise? t = some start) : b.start t = start := by
  unfold stepwise? at h
  obtain ⟨offset, hoffset, h⟩ := Option.bind_eq_some_iff.mp h
  obtain ⟨quotient, hquotient, h⟩ := Option.bind_eq_some_iff.mp h
  obtain ⟨whole, hwhole, hstart⟩ := Option.bind_eq_some_iff.mp h
  rw [Buckets.start, sub_eq_of_timestamp? hoffset, index, floorQuotient_of_eq_some hquotient,
    mul_eq_of_timestamp? hwhole, add_eq_of_timestamp? hstart]

/-- A start is found exactly if the distance from the origin fits, for the instant and for the
    start, and the start itself. -/
theorem exists_start?_iff (hwidth : 0 < b.width.toInt) :
    (∃ start, b.start? t = some start) ↔
      Fits (t.toInt - b.origin.toInt) ∧
      Fits (gridStart b.width.toInt b.origin.toInt t.toInt - b.origin.toInt) ∧
      Fits (gridStart b.width.toInt b.origin.toInt t.toInt) := by
  have hwhole : gridStart b.width.toInt b.origin.toInt t.toInt - b.origin.toInt =
      (t.toInt - b.origin.toInt) / b.width.toInt * b.width.toInt := by
    unfold gridStart
    omega
  constructor
  · rintro ⟨start, hstart⟩
    have hvalue := start?_eq_some hwidth hstart
    obtain ⟨offset, whole, hoffset, hmultiple, -⟩ := start?_steps hstart
    rw [index, toInt_floorQuotient hwidth, toInt_of_timestamp? hoffset, ← hwhole] at hmultiple
    exact ⟨fits_of_timestamp? hoffset, fits_of_timestamp? hmultiple, hvalue ▸ fits_toInt start⟩
  · rintro ⟨hoffset, hmultiple, hstart⟩
    refine ⟨Int64.ofInt (gridStart b.width.toInt b.origin.toInt t.toInt), ?_⟩
    unfold start? index
    rw [timestamp?_of_fits hoffset]
    show (timestamp? ((floorQuotient (Int64.ofInt _) _).toInt * _) >>= _) = _
    rw [toInt_floorQuotient hwidth, toInt_ofInt_of_fits hoffset, ← hwhole,
      timestamp?_of_fits hmultiple]
    show timestamp? ((Int64.ofInt _).toInt + _) = _
    rw [toInt_ofInt_of_fits hmultiple, Int.sub_add_cancel, timestamp?_of_fits hstart]

/-! ## What the checked bounds are -/

/-- A bucket of the grid starts at the one instant, and holds the other. -/
structure IsStartOf (b : Buckets) (start t : Timestamp) : Prop where
  on_grid : ∃ k : Int, start.toInt = b.origin.toInt + k * b.width.toInt
  start_le : start.toInt ≤ t.toInt
  lt_stop : t.toInt < start.toInt + b.width.toInt

theorem isStartOf_of_start? (hwidth : 0 < b.width.toInt) (h : b.start? t = some start) :
    b.IsStartOf start t := by
  have hvalue := start?_eq_some hwidth h
  refine ⟨⟨(t.toInt - b.origin.toInt) / b.width.toInt, ?_⟩, ?_, ?_⟩
  · rw [hvalue, gridStart, Int.add_comm]
  · rw [hvalue]
    exact gridStart_le hwidth
  · rw [hvalue]
    exact lt_gridStart_add hwidth

/-- The start of a bucket is in it, and is found as its own start. -/
theorem start?_start (hwidth : 0 < b.width.toInt) (h : b.start? t = some start) :
    b.start? start = some start := by
  have hvalue := start?_eq_some hwidth h
  have hself : gridStart b.width.toInt b.origin.toInt start.toInt = start.toInt := by
    have hgrid : b.width.toInt ∣ start.toInt - b.origin.toInt := hvalue ▸ dvd_gridStart_sub_origin
    exact gridStart_eq hwidth hgrid (Int.le_refl _) (by omega)
  obtain ⟨-, hmultiple, hfits⟩ := (exists_start?_iff hwidth).mp ⟨start, h⟩
  rw [← hvalue] at hmultiple hfits
  obtain ⟨again, hagain⟩ : ∃ again, b.start? start = some again := by
    rw [exists_start?_iff hwidth, hself]
    exact ⟨hmultiple, hmultiple, hfits⟩
  have hsame : again.toInt = start.toInt := (start?_eq_some hwidth hagain).trans hself
  rw [hagain, Int64.toInt_inj.mp hsame]

/-- The checked end is a width after the checked start, and so is the plain one. -/
theorem stop?_eq_some {stop : Timestamp} (h : b.start? t = some start)
    (hstop : b.stop? t = some stop) :
    stop.toInt = start.toInt + b.width.toInt ∧ start + b.width = stop := by
  unfold stop? at hstop
  rw [h] at hstop
  have hsum : timestamp? (start.toInt + b.width.toInt) = some stop := hstop
  exact ⟨toInt_of_timestamp? hsum, add_eq_of_timestamp? hsum⟩

/-- **The checked bounds are right, and the plain ones agree with them.**  Let the width be
    positive.  A start that is found is that of the bucket of its instant, and is found as its own
    start; every step to it can be expressed, and the plain operations give it too.  If the end is
    found as well, then it is a width later, and the window is made of the two and holds its
    instant.  Starts are in the order of their instants.  A start is found exactly if the exact one
    fits, and if its distance from the origin and that of the instant do. -/
theorem start?_sound (hwidth : 0 < b.width) :
    (∀ t start, b.start? t = some start →
      b.IsStartOf start t ∧ b.stepwise? t = some start ∧ b.start t = start ∧
        b.reportedAt t = start ∧ b.start? start = some start) ∧
    (∀ t start stop, b.start? t = some start → b.stop? t = some stop →
      stop.toInt = start.toInt + b.width.toInt ∧ b.stop t = stop ∧ b.window t = ⟨start, stop⟩ ∧
        (b.window t).contains t = true) ∧
    (∀ t u first second, t ≤ u → b.start? t = some first → b.start? u = some second →
      first ≤ second) ∧
    ∀ t, (∃ start, b.start? t = some start) ↔
      Fits (t.toInt - b.origin.toInt) ∧
      Fits (gridStart b.width.toInt b.origin.toInt t.toInt - b.origin.toInt) ∧
      Fits (gridStart b.width.toInt b.origin.toInt t.toInt) := by
  have hpos : 0 < b.width.toInt := Int64.lt_iff_toInt_lt.mp hwidth
  have hplain : ∀ {t start}, b.start? t = some start →
      b.stepwise? t = some start ∧ b.start t = start := by
    intro t start h
    have hsteps : b.stepwise? t = some start := (stepwise?_eq_start? hpos t).trans h
    exact ⟨hsteps, start_eq_of_stepwise? hsteps⟩
  refine ⟨fun t start h => ?_, fun t start stop h hstop => ?_,
    fun t u first second hle ht hu => ?_, fun t => exists_start?_iff hpos⟩
  · obtain ⟨hsteps, hstart⟩ := hplain h
    exact ⟨isStartOf_of_start? hpos h, hsteps, hstart, hstart, start?_start hpos h⟩
  · obtain ⟨-, hstart⟩ := hplain h
    obtain ⟨hvalue, hsum⟩ := stop?_eq_some h hstop
    have hwindow : b.window t = ⟨start, stop⟩ := by
      unfold window
      simp only [hstart, hsum]
    have hin := isStartOf_of_start? hpos h
    refine ⟨hvalue, ?_, hwindow, ?_⟩
    · rw [Buckets.stop, hstart, hsum]
    · rw [hwindow, Window.contains, Bool.and_eq_true, decide_eq_true_eq, decide_eq_true_eq,
        Int64.le_iff_toInt_le, Int64.lt_iff_toInt_lt, hvalue]
      exact ⟨hin.start_le, hin.lt_stop⟩
  · rw [Int64.le_iff_toInt_le, start?_eq_some hpos ht, start?_eq_some hpos hu]
    exact gridStart_mono hpos (Int64.le_iff_toInt_le.mp hle)

/-- A bucket before the origin, and one at the lower limit. -/
theorem start?_sound_usage :
    (⟨10, 15⟩ : Buckets).IsStartOf (-15) (-7) ∧ (⟨10, 15⟩ : Buckets).start (-7) = -15 ∧
      (⟨10, 15⟩ : Buckets).window (-7) = ⟨-15, -5⟩ ∧
      (fixed 8).start (Int64.minValue + 3) = Int64.minValue ∧
      ((fixed 8).window (Int64.minValue + 3)).contains (Int64.minValue + 3) = true := by
  obtain ⟨hstart, hstop, -⟩ := start?_sound (b := ⟨10, 15⟩) (by decide)
  obtain ⟨hlimit, hlimitStop, -⟩ := start?_sound (b := fixed 8) (by decide)
  obtain ⟨hin, -, hplain, -, -⟩ := hstart (-7) (-15) (by decide)
  obtain ⟨-, -, hwindow, -⟩ := hstop (-7) (-15) (-5) (by decide) (by decide)
  obtain ⟨-, -, hleast, -, -⟩ := hlimit (Int64.minValue + 3) Int64.minValue (by decide)
  obtain ⟨-, -, -, hholds⟩ :=
    hlimitStop (Int64.minValue + 3) Int64.minValue (Int64.minValue + 8) (by decide) (by decide)
  exact ⟨hin, hplain, hwindow, hleast, hholds⟩

end Buckets
end SeriesQuery
