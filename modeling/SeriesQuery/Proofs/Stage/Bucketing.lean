/-
  Downsampling is bucketing: the samples of one bucket, and no others, make the sample of it.

  `inBucket` picks the samples of a bucket out of a list, in their order; it knows nothing of the
  running of `collect`.  What `collect` gives is compared with it.  The accumulator stands for the
  samples that are held in the open bucket, so the invariant speaks of the held samples and the rest
  as one list (`mem_collect`): the output has a sample for each bucket of the grid that holds any of
  them.  When a sample beyond the open bucket comes, the list falls apart: the held samples are all
  of the open bucket, the rest has none of it (`inBucket_append`).
-/
import Mathlib.Logic.ExistsUnique
import SeriesQuery.Proofs.Series.Sameness
import SeriesQuery.Proofs.Stage.Downsampling
import SeriesQuery.Proofs.Summary.Reusing

namespace SeriesQuery

namespace Downsampling

variable {width start stop b : Int} {held rest samples : List Sample}

/-! ## The samples of a bucket

The specification of a bucket: a part of the list, in its order, chosen by time alone. -/

/-- Whether a sample is in the bucket that starts at `b`. -/
def Within (width b : Int) (x : Sample) : Prop := b ≤ x.time.toInt ∧ x.time.toInt < b + width

instance (width b : Int) (x : Sample) : Decidable (Within width b x) :=
  inferInstanceAs (Decidable (_ ∧ _))

/-- The samples of the bucket that starts at `b`, in their order. -/
def inBucket (width b : Int) (samples : List Sample) : List Sample :=
  samples.filter fun x => Within width b x

/-- The sample of a bucket with the given samples. -/
def summarized (summary : Summary) (b : Int) (samples : List Sample) : Sample :=
  ⟨Int64.ofInt b, summary.of (samples.map Sample.value)⟩

/-- A bucket has samples exactly if one of the samples is in it. -/
theorem inBucket_ne_nil : inBucket width b samples ≠ [] ↔ ∃ x ∈ samples, Within width b x := by
  constructor
  · intro h
    obtain ⟨x, hx⟩ := List.exists_mem_of_ne_nil _ h
    obtain ⟨hx, hwithin⟩ := List.mem_filter.mp hx
    exact ⟨x, hx, of_decide_eq_true hwithin⟩
  · rintro ⟨x, hx, hwithin⟩
    exact List.ne_nil_of_mem (List.mem_filter.mpr ⟨hx, decide_eq_true hwithin⟩)

/-- A bucket that none of the samples is in is empty. -/
theorem inBucket_eq_nil (h : ∀ x ∈ samples, ¬ Within width b x) : inBucket width b samples = [] :=
  List.filter_eq_nil_iff.mpr fun x hx => by simpa using h x hx

/-- A bucket that all of the samples are in has all of them. -/
theorem inBucket_eq_self (h : ∀ x ∈ samples, Within width b x) :
    inBucket width b samples = samples :=
  List.filter_eq_self.mpr fun x hx => by simpa using h x hx

/-- Two buckets of one grid have no sample in common. -/
theorem Within.unique {c : Int} {x : Sample} (hb : Within width b x) (hc : Within width c x)
    (hgrid : width ∣ b - c) : b = c := by
  obtain ⟨hbx, hxb⟩ := hb
  obtain ⟨hcx, hxc⟩ := hc
  have hwidth : 0 < width := by omega
  have hcb : width ∣ c - b := by
    rw [← Int.neg_sub]
    exact Int.dvd_neg.mpr hgrid
  have hbc := Buckets.le_of_dvd_of_lt_add hwidth hcb (by omega)
  have hcb := Buckets.le_of_dvd_of_lt_add hwidth hgrid (by omega)
  omega

/-- Two starts that are counted from one origin are a number of widths apart. -/
theorem dvd_sub_of_origin {b c origin : Int} (hb : width ∣ b - origin) (hc : width ∣ c - origin) :
    width ∣ b - c := by
  have hdiff : b - c = (b - origin) - (c - origin) := by omega
  exact hdiff ▸ Int.dvd_sub hb hc

/-- A bucket with a sample starts at a time, as it is not before the first bucket. -/
theorem toInt_ofInt_start {first : Timestamp} (hwidth : 0 < width)
    (hfirst : ∀ x ∈ samples, first.toInt ≤ x.time.toInt) (hgrid : width ∣ b - first.toInt)
    (hne : inBucket width b samples ≠ []) : (Int64.ofInt b).toInt = b := by
  obtain ⟨x, hx, hbx, hxb⟩ := inBucket_ne_nil.mp hne
  have hb : first.toInt ≤ b :=
    Buckets.le_of_dvd_of_lt_add hwidth hgrid (Int.lt_of_le_of_lt (hfirst x hx) hxb)
  exact Int64.toInt_ofInt_of_le (Int.le_trans first.le_toInt hb)
    (Int.lt_of_le_of_lt hbx x.time.toInt_lt)

/-! ## What bucketing gives

`Gives` says which samples come out, without saying in what order they are made.  It may be counted
from any start of the grid, and it falls apart where samples of one bucket are followed by later
ones.  These are the two facts that the run needs. -/

/-- The sample `y` is that of a bucket which holds some of the samples.  Its start is a number of
    widths from `start`. -/
def Gives (summary : Summary) (width start : Int) (samples : List Sample) (y : Sample) : Prop :=
  ∃ b, width ∣ b - start ∧ inBucket width b samples ≠ [] ∧
    y = summarized summary b (inBucket width b samples)

variable {summary : Summary} {y : Sample}

/-- From which of its starts a grid is counted does not matter to what its buckets give. -/
theorem gives_congr {next : Int} (hgrid : width ∣ next - start) :
    Gives summary width next samples y ↔ Gives summary width start samples y := by
  -- The two starts are a number of widths apart.
  have hiff : ∀ b, width ∣ b - next ↔ width ∣ b - start := by
    intro b
    have hsum : b - start = (b - next) + (next - start) := by omega
    rw [hsum]
    exact (Int.dvd_add_left hgrid).symm
  exact exists_congr fun b => and_congr_left' (hiff b)

/-- Samples that are all in one bucket give its sample. -/
theorem gives_of_within (hheld : ∀ x ∈ held, Within width start x) :
    Gives summary width start held y ↔ held ≠ [] ∧ y = summarized summary start held := by
  constructor
  · rintro ⟨b, hgrid, hne, rfl⟩
    obtain ⟨x, hx, hxb⟩ := inBucket_ne_nil.mp hne
    obtain rfl := hxb.unique (hheld x hx) hgrid
    rw [inBucket_eq_self hheld] at hne ⊢
    exact ⟨hne, rfl⟩
  · rintro ⟨hne, rfl⟩
    refine ⟨start, by simp, ?_⟩
    rw [inBucket_eq_self hheld]
    exact ⟨hne, rfl⟩

/-- Samples of one bucket and samples beyond it give what they give apart. -/
theorem gives_append (hheld : ∀ x ∈ held, Within width start x)
    (hrest : ∀ x ∈ rest, start + width ≤ x.time.toInt) :
    Gives summary width start (held ++ rest) y ↔
      Gives summary width start held y ∨ Gives summary width start rest y := by
  have happend : ∀ b, inBucket width b (held ++ rest) =
      inBucket width b held ++ inBucket width b rest := fun b => List.filter_append ..
  -- a bucket has samples on one side only
  have hsplit : ∀ b, width ∣ b - start →
      inBucket width b held = [] ∨ inBucket width b rest = [] := by
    intro b hgrid
    by_cases hb : b = start
    · right
      refine inBucket_eq_nil fun x hx hwithin => ?_
      have hbeyond := hrest x hx
      have hbefore := hwithin.2
      omega
    · left
      exact inBucket_eq_nil fun x hx hwithin => hb (hwithin.unique (hheld x hx) hgrid)
  constructor
  · rintro ⟨b, hgrid, hne, hy⟩
    rw [happend] at hne hy
    rcases hsplit b hgrid with hnil | hnil
    · rw [hnil, List.nil_append] at hne hy
      exact .inr ⟨b, hgrid, hne, hy⟩
    · rw [hnil, List.append_nil] at hne hy
      exact .inl ⟨b, hgrid, hne, hy⟩
  · rintro (⟨b, hgrid, hne, hy⟩ | ⟨b, hgrid, hne, hy⟩)
    all_goals
      refine ⟨b, hgrid, ?_⟩
      rw [happend]
    · rw [(hsplit b hgrid).resolve_left hne, List.append_nil]
      exact ⟨hne, hy⟩
    · rw [(hsplit b hgrid).resolve_right hne, List.nil_append]
      exact ⟨hne, hy⟩

/-! ## What the run gives

By induction on the samples that are still to come.  The accumulator is given by the samples that it
holds, so the induction hypothesis speaks of a list, and `Gives` is applied to all of it. -/

/-- Closing a bucket gives its sample, if any samples are held. -/
theorem mem_close_iff :
    y ∈ close start (summary.accumulator.addAll (held.map Sample.value)) ↔
      held ≠ [] ∧ y = summarized summary start held := by
  have hdata := summary.hasData_addAll (held.map Sample.value)
  rw [ne_eq, List.map_eq_nil_iff] at hdata
  unfold close
  split
  case isTrue h =>
    rw [List.mem_singleton]
    exact (and_iff_right (hdata.mp h)).symm
  case isFalse h =>
    exact ⟨fun hy => absurd hy List.not_mem_nil, fun hy => absurd (hdata.mpr hy.1) h⟩

/-- **The run is bucketing.**  With the samples `held` in the accumulator of the open bucket and
    `rest` before it, it gives what the buckets of both together give. -/
theorem mem_collect (hwidth : 0 < width) (hascending : Series.Ascending rest)
    (hheld : ∀ x ∈ held, Within width start x)
    (hrest : ∀ x ∈ rest, start ≤ x.time.toInt ∧ x.time.toInt < stop) :
    y ∈ collect width stop summary.accumulator start
        (summary.accumulator.addAll (held.map Sample.value)) rest ↔
      Gives summary width start (held ++ rest) y := by
  -- Both the open bucket and the samples held for it change, so the induction is for any of them.
  induction rest generalizing start held with
  | nil =>
    rw [List.append_nil, gives_of_within hheld]
    exact mem_close_iff
  | cons x rest ih =>
    obtain ⟨hlater, hascending⟩ := List.pairwise_cons.mp hascending
    obtain ⟨⟨hlow, hhigh⟩, hrest⟩ := List.forall_mem_cons.mp hrest
    unfold collect
    dsimp only
    rw [if_neg (Int.not_lt.mpr hlow), if_neg (Int.not_le.mpr hhigh)]
    split
    -- In the open bucket: one more sample is held, and the list as a whole stays.
    case isTrue hopen =>
      have hheld : ∀ z ∈ held ++ [x], Within width start z := by
        rw [List.forall_mem_append, List.forall_mem_singleton]
        exact ⟨hheld, hlow, hopen⟩
      have h := ih hascending hheld hrest
      rw [List.map_append, List.map_singleton, Accumulator.addAll_append, List.append_assoc,
        List.singleton_append] at h
      exact h
    -- Beyond it: the bucket is closed, and the next one is opened with this sample held.
    case isFalse hbeyond =>
      have hbeyond := Int.not_lt.mp hbeyond
      obtain ⟨hnext, hle, hgrid⟩ := next_start hwidth hbeyond
      have hlt : x.time.toInt < start + (x.time.toInt - start) / width * width + width := by
        have h : x.time.toInt < Buckets.gridStart width start x.time.toInt + width :=
          Buckets.lt_gridStart_add hwidth
        unfold Buckets.gridStart at h
        omega
      generalize start + (x.time.toInt - start) / width * width = next at hnext hle hgrid hlt ⊢
      have hopened := @ih next [x] hascending
        (List.forall_mem_singleton.mpr ⟨hle, hlt⟩) (fun z hz => by
          have hxz := Int64.lt_iff_toInt_lt.mp (hlater z hz)
          exact ⟨by omega, (hrest z hz).2⟩)
      rw [List.singleton_append, gives_congr hgrid] at hopened
      have hapart : ∀ z ∈ x :: rest, start + width ≤ z.time.toInt := by
        refine List.forall_mem_cons.mpr ⟨hbeyond, fun z hz => ?_⟩
        have hxz := Int64.lt_iff_toInt_lt.mp (hlater z hz)
        omega
      rw [List.mem_append, mem_close_iff, gives_append hheld hapart, gives_of_within hheld]
      exact or_congr_right hopened

/-- Before the first sample nothing is held. -/
theorem mem_collect_fresh (hwidth : 0 < width) (hascending : Series.Ascending samples)
    (hinside : ∀ x ∈ samples, start ≤ x.time.toInt ∧ x.time.toInt < stop) :
    y ∈ collect width stop summary.accumulator start summary.accumulator samples ↔
      Gives summary width start samples y :=
  @mem_collect width start stop [] samples summary y hwidth hascending
    (fun _ hx => absurd hx List.not_mem_nil) hinside

/-! ## The series

Back to whole series: the run starts at the first bucket of the range with nothing held, and all
samples are inside.  What a downsampling makes is then known sample by sample (`mem_samples_iff`),
and the other statements are read off this one. -/

/-- Where the grid of a series starts to be counted: at zero, or where the series begins. -/
def origin (d : Downsampling) (s : Series) : Int :=
  if d.alignToStart then s.minTime.toInt else 0

/-- The grid is counted from there. -/
theorem grid_origin (d : Downsampling) (s : Series) :
    (d.grid s).origin.toInt = d.origin s := by
  unfold grid origin Buckets.fixed
  split
  · rfl
  · rfl

/-- What it means that `out` is `s` in buckets. -/
structure Bucketed (d : Downsampling) (s out : Series) : Prop where
  /-- The samples stand in strictly ascending order. -/
  ascending : Series.Ascending out.samples
  /-- There is one for each bucket `[b, b + interval)` with a sample of `s`, its value the summary
      of the values of just these samples, and no other one. -/
  samples : ∀ y : Sample, y ∈ out.samples ↔
    ∃ k b : Int, b = d.origin s + k * d.interval.toInt ∧
      inBucket d.interval.toInt b s.samples ≠ [] ∧ y.time.toInt = b ∧
      y.value = d.summary.of ((inBucket d.interval.toInt b s.samples).map Sample.value)
  /-- Every sample of `s` is in exactly one of these buckets. -/
  once : ∀ x ∈ s.samples, ∃! y, y ∈ out.samples ∧ Within d.interval.toInt y.time.toInt x
  labels : out.labels = s.labels
  title : out.title = s.title
  step : out.step = d.interval
  minTime : out.minTime.toInt = Buckets.gridStart d.interval.toInt (d.origin s) s.minTime.toInt
  maxTime : out.maxTime.toInt = Buckets.gridStart d.interval.toInt (d.origin s) s.maxTime.toInt

/-- An interval that is not below the step of a proper series is positive. -/
theorem interval_pos {d : Downsampling} {s : Series} (hs : s.WellFormed)
    (hstep : s.step ≤ d.interval) : 0 < d.interval.toInt :=
  Int.lt_of_lt_of_le (Int64.lt_iff_toInt_lt.mp hs.step_pos) (Int64.le_iff_toInt_le.mp hstep)

/-- A downsampling that succeeds has an interval that is not below the step, and has found the
    outermost buckets. -/
theorem apply_eq_ok {d : Downsampling} {s out : Series} (hdata : s.samples ≠ [])
    (h : d.apply s = .ok out) :
    s.step ≤ d.interval ∧ ∃ first last, d.outermost? s = some (first, last) ∧
      out = { s with
        samples := collect d.interval.toInt (last.toInt + d.interval.toInt) d.summary.accumulator
          first.toInt d.summary.accumulator s.samples
        minTime := first
        maxTime := last
        step := d.interval } := by
  have hempty : ¬ s.isEmpty = true := fun hempty => hdata (List.isEmpty_iff.mp hempty)
  unfold apply at h
  rw [if_neg hempty] at h
  split at h
  case isTrue => cases h
  case isFalse hstep =>
    split at h
    case h_1 => cases h
    case h_2 first last houter =>
      exact ⟨Int64.not_lt.mp hstep, first, last, houter, (Except.ok.inj h).symm⟩

/-- All samples of a proper series stand in the buckets from the first to the last one. -/
theorem inside_outermost {d : Downsampling} {s : Series} {first last : Timestamp}
    (hs : s.WellFormed) (hwidth : 0 < d.interval.toInt)
    (houter : d.outermost? s = some (first, last)) :
    ∀ x ∈ s.samples, first.toInt ≤ x.time.toInt ∧ x.time.toInt < last.toInt + d.interval.toInt := by
  obtain ⟨hfirst, hlast, -⟩ := outermost?_eq_some hwidth houter
  rw [grid_origin] at hfirst hlast
  have hlow : first.toInt ≤ s.minTime.toInt := hfirst ▸ Buckets.gridStart_le hwidth
  have hhigh : s.maxTime.toInt < last.toInt + d.interval.toInt :=
    hlast ▸ Buckets.lt_gridStart_add hwidth
  intro x hx
  obtain ⟨hmin, hmax⟩ := hs.inside x hx
  rw [Int64.le_iff_toInt_le] at hmin hmax
  omega

variable {d : Downsampling} {s out : Series}

/-- The samples are what the buckets of the grid give, and these start at times. -/
theorem mem_samples_iff_gives (hs : s.WellFormed) (hdata : s.samples ≠ [])
    (h : d.apply s = .ok out) :
    (∀ y, y ∈ out.samples ↔ Gives d.summary d.interval.toInt (d.origin s) s.samples y) ∧
      ∀ b, d.interval.toInt ∣ b - d.origin s → inBucket d.interval.toInt b s.samples ≠ [] →
        (Int64.ofInt b).toInt = b := by
  obtain ⟨hstep, first, last, houter, rfl⟩ := apply_eq_ok hdata h
  have hwidth := interval_pos hs hstep
  have hinside := inside_outermost hs hwidth houter
  have hfirst := (outermost?_eq_some hwidth houter).1
  rw [grid_origin] at hfirst
  have hgrid : d.interval.toInt ∣ first.toInt - d.origin s :=
    hfirst ▸ Buckets.dvd_gridStart_sub_origin
  refine ⟨fun y => ?_, fun b hb hne => ?_⟩
  · exact (mem_collect_fresh hwidth hs.ascending hinside).trans (gives_congr hgrid)
  · exact toInt_ofInt_start hwidth (fun x hx => (hinside x hx).1) (dvd_sub_of_origin hb hgrid) hne

/-- A sample of the result stands where a bucket with samples starts, and has the summary of these
    as its value. -/
theorem mem_samples_iff (hs : s.WellFormed) (hdata : s.samples ≠ []) (h : d.apply s = .ok out)
    {y : Sample} :
    y ∈ out.samples ↔ d.interval.toInt ∣ y.time.toInt - d.origin s ∧
      inBucket d.interval.toInt y.time.toInt s.samples ≠ [] ∧
      y.value =
        d.summary.of ((inBucket d.interval.toInt y.time.toInt s.samples).map Sample.value) := by
  obtain ⟨hgives, hstart⟩ := mem_samples_iff_gives hs hdata h
  rw [hgives]
  constructor
  · rintro ⟨b, hb, hne, rfl⟩
    have htime : (summarized d.summary b (inBucket d.interval.toInt b s.samples)).time.toInt = b :=
      hstart b hb hne
    rw [htime]
    exact ⟨hb, hne, rfl⟩
  · rintro ⟨hb, hne, hvalue⟩
    refine ⟨y.time.toInt, hb, hne, ?_⟩
    rw [summarized, ← hvalue, Int64.ofInt_toInt]

/-- The result has a sample at the start of each bucket with samples, and nowhere else. -/
theorem mem_times_iff (hs : s.WellFormed) (hdata : s.samples ≠ []) (h : d.apply s = .ok out)
    {t : Timestamp} :
    t ∈ out.samples.map Sample.time ↔ d.interval.toInt ∣ t.toInt - d.origin s ∧
      inBucket d.interval.toInt t.toInt s.samples ≠ [] := by
  rw [List.mem_map]
  constructor
  · rintro ⟨y, hy, rfl⟩
    obtain ⟨hgrid, hne, -⟩ := (mem_samples_iff hs hdata h).mp hy
    exact ⟨hgrid, hne⟩
  · rintro ⟨hgrid, hne⟩
    let values := (inBucket d.interval.toInt t.toInt s.samples).map Sample.value
    exact ⟨⟨t, d.summary.of values⟩, (mem_samples_iff hs hdata h).mpr ⟨hgrid, hne, rfl⟩, rfl⟩

/-- Every sample of the series is in the bucket of one of the result. -/
theorem exists_bucket (hs : s.WellFormed) (h : d.apply s = .ok out) {x : Sample}
    (hx : x ∈ s.samples) : ∃ y ∈ out.samples, Within d.interval.toInt y.time.toInt x := by
  have hdata := List.ne_nil_of_mem hx
  obtain ⟨hstep, -⟩ := apply_eq_ok hdata h
  have hwidth := interval_pos hs hstep
  obtain ⟨b, hb⟩ : ∃ b, Buckets.gridStart d.interval.toInt (d.origin s) x.time.toInt = b := ⟨_, rfl⟩
  have hgrid : d.interval.toInt ∣ b - d.origin s := hb ▸ Buckets.dvd_gridStart_sub_origin
  -- The bucket of the sample is that of the start of the grid at or before it.
  have hwithin : Within d.interval.toInt b x :=
    hb ▸ ⟨Buckets.gridStart_le hwidth, Buckets.lt_gridStart_add hwidth⟩
  have hne := inBucket_ne_nil.mpr ⟨x, hx, hwithin⟩
  have htime := (mem_samples_iff_gives hs hdata h).2 b hgrid hne
  rw [← htime] at hgrid hwithin hne
  obtain ⟨y, hy, hyb⟩ := List.mem_map.mp ((mem_times_iff hs hdata h).mpr ⟨hgrid, hne⟩)
  exact ⟨y, hy, hyb ▸ hwithin⟩

/-- **What comes out is what the buckets give**, one sample for each that has samples in it. -/
theorem bucketed_of_apply (hs : s.WellFormed) (hdata : s.samples ≠ []) (h : d.apply s = .ok out) :
    d.Bucketed s out := by
  have hascending : Series.Ascending out.samples := (apply_wellFormed h hs).ascending
  have hmem := fun y : Sample => @mem_samples_iff d s out hs hdata h y
  obtain ⟨hstep, first, last, houter, hout⟩ := apply_eq_ok hdata h
  obtain ⟨hfirst, hlast, -⟩ := outermost?_eq_some (interval_pos hs hstep) houter
  rw [grid_origin] at hfirst hlast
  refine ⟨hascending, fun y => (hmem y).trans ⟨?_, ?_⟩, fun x hx => ?_, hout ▸ rfl, hout ▸ rfl,
    hout ▸ rfl, hout ▸ hfirst, hout ▸ hlast⟩
  · rintro ⟨⟨k, hk⟩, hne, hvalue⟩
    exact ⟨k, y.time.toInt, by rw [Int.mul_comm k, ← hk]; omega, hne, rfl, hvalue⟩
  · rintro ⟨k, b, hb, hne, rfl, hvalue⟩
    exact ⟨⟨k, by rw [hb, Int.mul_comm]; omega⟩, hne, hvalue⟩
  · obtain ⟨y, hy, hyx⟩ := exists_bucket hs h hx
    refine ⟨y, ⟨hy, hyx⟩, ?_⟩
    rintro z ⟨hz, hzx⟩
    -- two buckets of one grid with `x` in both are one, and it has one sample
    have hsame := hzx.unique hyx (dvd_sub_of_origin ((hmem z).mp hz).1 ((hmem y).mp hy).1)
    exact hascending.eq_of_time_eq hz hy (Int64.toInt_inj.mp hsame)

end Downsampling
end SeriesQuery
