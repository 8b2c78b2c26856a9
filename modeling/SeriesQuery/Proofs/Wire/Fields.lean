/-
  The fields of the wire format: numbers, floats, truth values, texts, lists.

  Each field is read back as it was written, and nothing else is read as its value.  Both together
  are one equivalence for each field: reading gives a value and a rest exactly if the input is what
  is written for the value with the rest behind it.  Two fields need a word more.

  * A length is written in eight bytes, so a text or a list has to be short enough to be counted.
  * All bit patterns for "not a number" are the same float.  Of that float alone the equivalence
    would be false; no parameter of a stage may be it.
-/
import Mathlib
import SeriesQuery.Proofs.Wire.Readers

namespace SeriesQuery.Wire

open Float.Model (UnpackedFloat)

variable {α : Type} {input rest : Bytes}

/-! ## Numbers -/

/-- The width of a number does not depend on the number. -/
theorem length_bigEndian (count n : Nat) : (bigEndian count n).length = count := by
  induction count generalizing n with
  | zero => rfl
  | succ count ih => rw [bigEndian, List.length_append, ih, List.length_singleton]

/-- One more byte at the end is one more digit to the base 256. -/
theorem ofBigEndian_append_byte (bytes : Bytes) (b : UInt8) :
    ofBigEndian (bytes ++ [b]) = 256 * ofBigEndian bytes + b.toNat := by
  simp only [ofBigEndian, List.foldl_append, List.foldl_cons, List.foldl_nil]

/-- A number that fits the width is read back.  A larger one would lose its high digits. -/
theorem ofBigEndian_bigEndian {count n : Nat} (h : n < 256 ^ count) :
    ofBigEndian (bigEndian count n) = n := by
  -- the lowest digit is written last, so the induction takes it off first
  induction count generalizing n with
  | zero =>
    rw [Nat.pow_zero] at h
    show 0 = n
    omega
  | succ count ih =>
    have hhigh : n / 256 < 256 ^ count := Nat.div_lt_of_lt_mul (by rwa [← Nat.pow_succ'])
    rw [bigEndian, ofBigEndian_append_byte, ih hhigh, UInt8.toNat_ofNat']
    omega

/-- Bytes are what is written for their number, so no two rows of bytes of one width are read as the
    same number. -/
theorem bigEndian_ofBigEndian (bytes : Bytes) :
    bigEndian bytes.length (ofBigEndian bytes) = bytes := by
  -- from the last byte on, which is the lowest digit
  induction bytes using List.reverseRecOn with
  | nil => rfl
  | append_singleton bytes b ih =>
    have hb : b.toNat < 256 := b.toNat_lt
    have hhigh : (256 * ofBigEndian bytes + b.toNat) / 256 = ofBigEndian bytes := by omega
    have hlow : UInt8.ofNat (256 * ofBigEndian bytes + b.toNat) = b := by
      apply UInt8.toNat_inj.mp
      rw [UInt8.toNat_ofNat']
      omega
    rw [List.length_append, List.length_singleton, ofBigEndian_append_byte, bigEndian, hhigh, hlow,
      ih]

/-- What is read from so many bytes fits their width. -/
theorem ofBigEndian_lt (bytes : Bytes) : ofBigEndian bytes < 256 ^ bytes.length := by
  induction bytes using List.reverseRecOn with
  | nil => exact Nat.one_pos
  | append_singleton bytes b ih =>
    have hb : b.toNat < 256 := b.toNat_lt
    rw [ofBigEndian_append_byte, List.length_append, List.length_singleton, Nat.pow_succ]
    omega

/-- Bytes are taken off the front, and there have to be enough of them. -/
theorem takeBytes_eq_ok {count : Nat} {bytes : Bytes} :
    takeBytes count input = .ok (bytes, rest) ↔ bytes.length = count ∧ input = bytes ++ rest := by
  unfold takeBytes
  constructor
  · intro h
    split at h
    -- too few bytes are left
    case isTrue => cases h
    case isFalse hlong =>
      cases h
      exact ⟨List.length_take_of_le (by omega), (List.take_append_drop count input).symm⟩
  · rintro ⟨rfl, rfl⟩
    rw [if_neg (by rw [List.length_append]; omega), List.take_left, List.drop_left]

/-- A number of a fixed width. -/
theorem readNumber_eq_ok {count n : Nat} :
    (ofBigEndian <$> takeBytes count) input = .ok (n, rest) ↔
      n < 256 ^ count ∧ input = bigEndian count n ++ rest := by
  simp only [Reader.map_eq_ok, takeBytes_eq_ok]
  constructor
  · rintro ⟨bytes, ⟨rfl, rfl⟩, rfl⟩
    exact ⟨ofBigEndian_lt bytes, by rw [bigEndian_ofBigEndian]⟩
  · rintro ⟨hn, rfl⟩
    exact ⟨_, ⟨length_bigEndian count n, rfl⟩, ofBigEndian_bigEndian hn⟩

/-- A tag. -/
theorem readWord_eq_ok {n : Nat} :
    readWord input = .ok (n, rest) ↔ n < 2 ^ 32 ∧ input = word n ++ rest :=
  readNumber_eq_ok

/-- A length, or the bits of a number. -/
theorem readLong_eq_ok {n : Nat} :
    readLong input = .ok (n, rest) ↔ n < 2 ^ 64 ∧ input = long n ++ rest :=
  readNumber_eq_ok

/-- Sixty-four bits lose nothing of a number that fits them. -/
theorem toNat_ofNat_long {n : Nat} (h : n < 2 ^ 64) : (UInt64.ofNat n).toNat = n :=
  UInt64.toNat_ofNat_of_lt' h

/-- A number that is made a value of sixty-four bits. -/
theorem readBits_eq_ok {bits : UInt64} :
    (∃ n, readLong input = .ok (n, rest) ∧ UInt64.ofNat n = bits) ↔
      input = long bits.toNat ++ rest := by
  simp only [readLong_eq_ok]
  constructor
  · rintro ⟨n, ⟨hn, rfl⟩, rfl⟩
    rw [toNat_ofNat_long hn]
  · rintro rfl
    exact ⟨bits.toNat, ⟨bits.toNat_lt, rfl⟩, UInt64.ofNat_toNat⟩

/-- An integer goes over the wire in two's complement. -/
theorem readInt64_eq_ok {n : Int64} :
    readInt64 input = .ok (n, rest) ↔ input = long n.toUInt64.toNat ++ rest := by
  rw [← readBits_eq_ok, readInt64, Reader.bind_eq_ok]
  simp only [Reader.pure_eq_ok]
  constructor
  · rintro ⟨m, _, hm, rfl, rfl⟩
    exact ⟨m, hm, rfl⟩
  · rintro ⟨m, hm, hbits⟩
    exact ⟨m, rest, hm, by rw [hbits, Int64.toInt64_toUInt64], rfl⟩

/-! ## Floats -/

/-- The bits of a float are those it was made from, unless it is "not a number". -/
theorem toBits_ofBits {bits : UInt64} (h : (Float.ofBits bits).isNaN = false) :
    (Float.ofBits bits).toBits = bits := by
  -- a float keeps the bits it is made from, but all bit patterns of "not a number" become one
  have hbits : (Float.ofBits bits).toBits.toBitVec =
      if @UnpackedFloat.isNaNBits .binary64 bits.toBitVec then UnpackedFloat.packedNaN .binary64
      else bits.toBitVec := @UnpackedFloat.pack_unpack .binary64 bits.toBitVec (by decide)
  have hnan : (Float.ofBits bits).isNaN =
      (UnpackedFloat.unpack .binary64 (Float.ofBits bits).toBits.toBitVec).isNaN := rfl
  apply UInt64.toBitVec_inj.mp
  rw [hbits]
  split
  case isFalse => rfl
  case isTrue hb =>
    rw [hnan, hbits, if_pos hb, UnpackedFloat.unpack_packedNaN] at h
    cases h

/-- A finite float is a number. -/
theorem isNaN_eq_false_of_isFinite {x : Float} (h : x.isFinite = true) : x.isNaN = false := by
  -- what is not finite is an infinity or "not a number", and only these two have to be told apart
  show x.toModel.unpack.isNaN = false
  have hx : x.toModel.unpack.isFinite = true := h
  cases hu : x.toModel.unpack with
  | notANumber =>
    rw [hu] at hx
    cases hx
  | infinity _ => rfl
  | zero _ => rfl
  | finite _ _ _ _ => rfl

/-- What is compared with success is a number. -/
theorem isNaN_eq_false_of_le {x y : Float} (h : x ≤ y) : x.isNaN = false := by
  -- no comparison with "not a number" succeeds
  have hmodel : x.toModel ≤ y.toModel := of_decide_eq_true h
  have hle : x.toModel.unpack.le y.toModel.unpack = true := hmodel
  show x.toModel.unpack.isNaN = false
  cases hu : x.toModel.unpack with
  | notANumber =>
    rw [hu] at hle
    cases hle
  | infinity _ => rfl
  | zero _ => rfl
  | finite _ _ _ _ => rfl

/-- A float is read as the number that was written, bit for bit. -/
theorem readFloat_eq_ok {x : Float} (hx : x.isNaN = false) :
    readFloat input = .ok (x, rest) ↔ input = float x ++ rest := by
  rw [float, ← readBits_eq_ok, readFloat, Reader.bind_eq_ok]
  simp only [Reader.pure_eq_ok]
  constructor
  · rintro ⟨n, _, hn, rfl, rfl⟩
    exact ⟨n, hn, (toBits_ofBits hx).symm⟩
  · rintro ⟨n, hn, hbits⟩
    exact ⟨n, rest, hn, by rw [hbits, Float.ofBits_toBits], rfl⟩

/-! ## Truth values -/

/-- A truth value is one byte, 0 or 1.  Any other byte is refused, so that there is one way only to
    write each of the two. -/
theorem readBool_eq_ok {b : Bool} :
    readBool input = .ok (b, rest) ↔ input = bool b ++ rest := by
  rw [readBool, Reader.bind_eq_ok]
  simp only [takeBytes_eq_ok]
  constructor
  · rintro ⟨byte, _, ⟨-, rfl⟩, h⟩
    split at h
    case h_1 =>
      obtain ⟨rfl, rfl⟩ := Reader.pure_eq_ok.mp h
      rfl
    case h_2 =>
      obtain ⟨rfl, rfl⟩ := Reader.pure_eq_ok.mp h
      rfl
    case h_3 => cases h
  · rintro rfl
    cases b with
    | false => exact ⟨[0], rest, ⟨rfl, rfl⟩, rfl⟩
    | true => exact ⟨[1], rest, ⟨rfl, rfl⟩, rfl⟩

/-! ## Texts -/

/-- Bytes are a text exactly if they are its bytes. -/
theorem fromUTF8?_eq_some {bytes : Bytes} {s : String} :
    String.fromUTF8? ⟨bytes.toArray⟩ = some s ↔ bytes = s.toByteArray.data.toList := by
  unfold String.fromUTF8?
  constructor
  · intro h
    split at h
    case isTrue =>
      cases h
      rfl
    case isFalse => cases h
  · rintro rfl
    rw [dif_pos s.isValidUTF8]
    rfl

/-- A text is read back if eight bytes can count its bytes. -/
theorem readString_eq_ok {s : String} :
    readString input = .ok (s, rest) ↔
      s.utf8ByteSize < 2 ^ 64 ∧ input = string s ++ rest := by
  have hsize : s.toByteArray.data.toList.length = s.utf8ByteSize := rfl
  rw [readString, Reader.bind_eq_ok]
  simp only [readLong_eq_ok, Reader.bind_eq_ok, takeBytes_eq_ok]
  constructor
  · rintro ⟨n, _, ⟨hn, rfl⟩, bytes, _, ⟨rfl, rfl⟩, h⟩
    -- the bytes are a text or not; if so, they are its bytes
    cases ht : String.fromUTF8? ⟨bytes.toArray⟩ with
    | none =>
      rw [ht] at h
      cases h
    | some t =>
      rw [ht] at h
      obtain ⟨rfl, rfl⟩ := Reader.pure_eq_ok.mp h
      obtain rfl := fromUTF8?_eq_some.mp ht
      exact ⟨hn, (List.append_assoc _ _ _).symm⟩
  · rintro ⟨hs, rfl⟩
    refine ⟨_, _, ⟨hs, List.append_assoc _ _ _⟩, s.toByteArray.data.toList, rest, ⟨rfl, rfl⟩, ?_⟩
    rw [fromUTF8?_eq_some.mpr rfl]
    rfl

/-! ## Lists -/

variable {read : Reader α} {write : α → Bytes} {fits : α → Prop}

/-- A row of items is read exactly from the bytes of these, one after the other.  `fits` is what an
    item has to satisfy so that it can be written at all; every item that was read does. -/
theorem readMany_eq_ok
    (hread : ∀ {input a rest}, read input = .ok (a, rest) ↔ fits a ∧ input = write a ++ rest)
    {count : Nat} {items : List α} :
    readMany read count input = .ok (items, rest) ↔
      items.length = count ∧ (∀ a ∈ items, fits a) ∧ input = items.flatMap write ++ rest := by
  -- on the number of items: the first one is read off, and the induction reads the others from what
  -- it leaves over
  induction count generalizing input rest items with
  | zero =>
    rw [readMany, Reader.pure_eq_ok, List.length_eq_zero_iff]
    constructor
    · rintro ⟨rfl, rfl⟩
      exact ⟨rfl, fun a ha => absurd ha List.not_mem_nil, rfl⟩
    · rintro ⟨rfl, -, rfl⟩
      exact ⟨rfl, rfl⟩
  | succ count ih =>
    rw [readMany, Reader.bind_eq_ok]
    simp only [Reader.bind_eq_ok, hread, ih, Reader.pure_eq_ok]
    constructor
    · -- from left to right: both parts have been read, so the input is theirs
      rintro ⟨a, _, ⟨ha, rfl⟩, items, _, ⟨rfl, hitems, rfl⟩, rfl, rfl⟩
      refine ⟨rfl, List.forall_mem_cons.mpr ⟨ha, hitems⟩, ?_⟩
      rw [List.flatMap_cons, List.append_assoc]
    · -- from right to left: there is a first item, since there are as many as were counted
      rintro ⟨hcount, hitems, rfl⟩
      cases items with
      | nil => cases hcount
      | cons a items =>
        obtain ⟨ha, hitems⟩ := List.forall_mem_cons.mp hitems
        refine ⟨a, _, ⟨ha, ?_⟩, items, rest, ⟨Nat.succ.inj hcount, hitems, rfl⟩, rfl, rfl⟩
        rw [List.flatMap_cons, List.append_assoc]

/-- A list is read as what was written exactly if its items are. -/
theorem readList_eq_ok
    (hread : ∀ {input a rest}, read input = .ok (a, rest) ↔ fits a ∧ input = write a ++ rest)
    {items : List α} :
    readList read input = .ok (items, rest) ↔
      items.length < 2 ^ 64 ∧ (∀ a ∈ items, fits a) ∧ input = list write items ++ rest := by
  rw [readList, Reader.bind_eq_ok]
  simp only [readLong_eq_ok, readMany_eq_ok hread]
  constructor
  · rintro ⟨n, _, ⟨hn, rfl⟩, rfl, hitems, rfl⟩
    exact ⟨hn, hitems, (List.append_assoc _ _ _).symm⟩
  · rintro ⟨hlength, hitems, rfl⟩
    exact ⟨_, _, ⟨hlength, List.append_assoc _ _ _⟩, rfl, hitems, rfl⟩

/-- The list of label names that arithmetic matches on. -/
theorem readStrings_eq_ok {texts : List String} :
    readList readString input = .ok (texts, rest) ↔
      texts.length < 2 ^ 64 ∧ (∀ s ∈ texts, s.utf8ByteSize < 2 ^ 64) ∧
        input = list string texts ++ rest :=
  readList_eq_ok readString_eq_ok

/-! ## More input -/

/-- Numbers are bytes that are taken off the front. -/
theorem steady_readWord : Steady readWord := (Steady.takeBytes 4).map ofBigEndian

theorem steady_readLong : Steady readLong := (Steady.takeBytes 8).map ofBigEndian

theorem steady_readInt64 : Steady readInt64 := steady_readLong.bind fun _ => .pure _

theorem steady_readFloat : Steady readFloat := steady_readLong.bind fun _ => .pure _

/-- Which byte it is does not depend on what comes after it. -/
theorem steady_readBool : Steady readBool := by
  refine (Steady.takeBytes 1).bind fun byte => ?_
  split
  · exact .pure _
  · exact .pure _
  · exact .malformed

/-- Whether the bytes are a text does not depend on what comes after them. -/
theorem steady_readString : Steady readString := by
  refine steady_readLong.bind fun length => (Steady.takeBytes length).bind fun bytes => ?_
  split
  · exact .pure _
  · exact .malformed

/-- A list is a length and so many items. -/
theorem steady_readList (h : Steady read) : Steady (readList read) :=
  steady_readLong.bind fun count => h.readMany count

end SeriesQuery.Wire
