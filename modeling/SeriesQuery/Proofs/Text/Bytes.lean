/-
  Texts in order: code points and bytes.

  This library compares texts by code points.  Here it is shown that their UTF-8 bytes are in the
  same order, so that it makes no difference which of the two a reader has in mind.

  The encoding is made for this.  The first byte of a character tells how many follow, and more
  bytes mean a greater first byte; within one length, the bytes are the digits of the code point to
  the base 64, the most significant digit first.
-/
import Mathlib.Data.String.Basic

namespace SeriesQuery

/-- The UTF-8 bytes of a text. -/
def utf8 (text : String) : List UInt8 := text.toUTF8.data.toList

/-- The bytes of a text are those of its characters, one after the other. -/
theorem utf8_eq_flatMap (text : String) :
    utf8 text = text.toList.flatMap String.utf8EncodeChar := by
  show text.toByteArray.data.toList = _
  rw [← String.utf8Encode_toList]
  exact List.toList_data_toByteArray

/-! ## Characters -/

/-- Code points end at `10ffff`, which four bytes hold. -/
theorem codePoint_le (c : Char) : c.val.toNat ≤ 0x10ffff := by
  rcases c.valid with hlow | ⟨-, hhigh⟩
  · have hlow' : c.val.toNat < 0xd800 := hlow
    omega
  · have hhigh' : c.val.toNat < 0x110000 := hhigh
    omega

/-- A smaller character is encoded smaller, whatever follows. -/
theorem utf8EncodeChar_append_lt {c d : Char} (h : c < d) (s t : List UInt8) :
    String.utf8EncodeChar c ++ s < String.utf8EncodeChar d ++ t := by
  have hcd : c.val.toNat < d.val.toNat := UInt32.lt_iff_toNat_lt.mp h
  have hd := codePoint_le d
  unfold String.utf8EncodeChar
  generalize c.val.toNat = v at hcd
  generalize d.val.toNat = w at hcd hd
  have htwo : ∀ n, n / 4096 = n / 64 / 64 := by intro n; omega
  have hthree : ∀ n, n / 262144 = n / 64 / 64 / 64 := by intro n; omega
  dsimp only
  -- one case for each pair of lengths, of which `hcd` excludes a longer encoding of `c`
  split_ifs
  any_goals omega
  all_goals
    simp only [List.cons_append, List.nil_append, List.cons_lt_cons_iff, UInt8.lt_iff_toNat_lt,
      UInt8.toNat_ofNat', ← UInt8.toNat_inj, htwo, hthree]
    simp (disch := omega) only [Nat.mod_eq_of_lt]
    omega

/-- No character is encoded by nothing. -/
theorem utf8EncodeChar_ne_nil (c : Char) : String.utf8EncodeChar c ≠ [] := by
  intro h
  have hlength := congrArg List.length h
  have hpos := c.utf8Size_pos
  rw [String.length_utf8EncodeChar, List.length_nil] at hlength
  omega

/-! ## Texts -/

/-- What is less as a list of characters is less as a list of bytes. -/
theorem flatMap_utf8EncodeChar_lt {cs ds : List Char} (h : cs < ds) :
    cs.flatMap String.utf8EncodeChar < ds.flatMap String.utf8EncodeChar := by
  induction h with
  -- The lists agree up to the end of the first, up to a smaller character, or go on to agree.
  | @nil d ds =>
    rw [List.flatMap_nil, List.flatMap_cons]
    obtain ⟨first, rest, heq⟩ := List.exists_cons_of_ne_nil (utf8EncodeChar_ne_nil d)
    rw [heq]
    exact List.nil_lt_cons first _
  | @rel c cs d ds hcd =>
    rw [List.flatMap_cons, List.flatMap_cons]
    exact utf8EncodeChar_append_lt hcd _ _
  | @cons c cs ds _ ih =>
    rw [List.flatMap_cons, List.flatMap_cons]
    exact List.append_left_lt ih

/-- **The order of code points is the order of bytes.** -/
theorem utf8_lt_iff {s t : String} : utf8 s < utf8 t ↔ s < t := by
  have hmono : ∀ {s t : String}, s < t → utf8 s < utf8 t := by
    intro s t h
    rw [utf8_eq_flatMap, utf8_eq_flatMap]
    exact flatMap_utf8EncodeChar_lt (String.lt_iff_toList_lt.mp h)
  -- The order of texts is total, so the converse follows from this direction.
  refine ⟨fun h => ?_, hmono⟩
  rcases lt_trichotomy s t with hlt | rfl | hgt
  · exact hlt
  · exact absurd h (List.lt_irrefl _)
  · exact absurd (hmono hgt) (List.lt_asymm h)

/-- Texts are in weak order exactly if their bytes are. -/
theorem utf8_le_iff {s t : String} : utf8 s ≤ utf8 t ↔ s ≤ t := by
  rw [← List.not_lt, utf8_lt_iff, not_lt]

end SeriesQuery
