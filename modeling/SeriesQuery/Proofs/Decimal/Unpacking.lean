/-
  Floats and what they unpack to.

  Operations on floats unpack their operands, round, and pack the result.  A positive float and its
  mantissa and exponent determine each other (`Unpacks.unique`, `unpacks_pack`), so that a result
  is known once these two are.  They are also what the bits of the float say (`ofFloat_eq`).
-/
import SeriesQuery.Proofs.Decimal.Rounding

namespace SeriesQuery.Binary64

open Float.Model
open Float.Model.UnpackedFloat

variable {x y z : Float} {m : ℕ} {e e₁ : ℤ}

/-! ## Packing

A number with mantissa and exponent in range is packed into fields and comes out of them unchanged.
There are two forms.  With fifty-three bits the first bit is left out, and the exponent tells that
it is there.  With fewer, all bits are stored, under the least exponent. -/

/-- The bit in front of the others counts for itself. -/
theorem toNat_one_append (v : BitVec 52) : (1#1 ++ v).toNat = v.toNat + leadingBit := by
  have hor := Nat.two_pow_add_eq_or_of_lt v.isLt 1
  rw [mul_one] at hor
  rw [BitVec.toNat_append, add_comm]
  exact hor.symm

/-- How a finite float is packed: as an infinity, with all its bits, or with the least exponent. -/
theorem pack_finite (hpos : 0 < m) :
    UnpackedFloat.pack .binary64 (.finite .positive m e hpos) =
      if 2 ^ 11 ≤ (e + 1023 + 52).toNat + 1 then packedInfinity .binary64 .positive
      else if m.log2 + 1 = 53 then
        packComponents .binary64 .positive (BitVec.ofNat 11 (e + 1023 + 52).toNat)
          (BitVec.ofNat 52 m)
      else packComponents .binary64 .positive 0#11 (BitVec.ofNat 52 m) := rfl

/-- A mantissa with all its bits comes out as it was packed. -/
theorem unpack_pack_normal (hpos : 0 < m) (hlow : 2 ^ 52 ≤ m) (hhigh : m < 2 ^ 53)
    (hleast : -1074 ≤ e) (hgreatest : e ≤ 971) :
    UnpackedFloat.unpack .binary64 (UnpackedFloat.pack .binary64 (.finite .positive m e hpos)) =
      .finite .positive m e hpos := by
  obtain ⟨b, hb⟩ : ∃ b : ℕ, (e + 1023 + 52).toNat = b := ⟨_, rfl⟩
  -- With fifty-three bits, the first one is not stored.
  have hlog : m.log2 + 1 = 53 := congrArg (· + 1) ((Nat.log2_eq_iff hpos.ne').mpr ⟨hlow, hhigh⟩)
  have hpack : UnpackedFloat.pack .binary64 (.finite .positive m e hpos) =
      packComponents .binary64 .positive (BitVec.ofNat 11 b) (BitVec.ofNat 52 m) := by
    rw [pack_finite, hb, if_neg (by omega), if_pos hlog]
  -- The stored exponent fits its eleven bits, and is neither the least nor the greatest.
  have hexponent : (BitVec.ofNat 11 b).toNat = b := by
    rw [BitVec.toNat_ofNat, Nat.mod_eq_of_lt (by omega)]
  have hne : ∀ v : BitVec 11, v.toNat ≠ b → BitVec.ofNat 11 b ≠ v := by
    rintro v hv rfl
    exact hv hexponent
  have hmax : BitVec.ofNat 11 b ≠ -1#11 := hne _ (by rw [show (-1#11).toNat = 2047 from rfl]; omega)
  have hmin : BitVec.ofNat 11 b ≠ 0#11 := hne _ (by rw [show (0#11).toNat = 0 from rfl]; omega)
  rw [hpack]
  unfold UnpackedFloat.unpack
  simp only [unpackMantissa_packComponents, unpackExponent_packComponents,
    unpackSign_packComponents, if_neg hmax, if_neg hmin]
  congr 1
  · rw [toNat_one_append, BitVec.toNat_ofNat]
    show m % 2 ^ 52 + 2 ^ 52 = m
    omega
  · rw [hexponent]
    show (b : ℤ) - ((1023 : ℕ) + 52) = e
    omega

/-- A shorter one comes out with the least exponent. -/
theorem unpack_pack_subnormal (hpos : 0 < m) (hhigh : m < 2 ^ 52) :
    UnpackedFloat.unpack .binary64
        (UnpackedFloat.pack .binary64 (.finite .positive m (-1074) hpos)) =
      .finite .positive m (-1074) hpos := by
  have hlog : ¬ m.log2 + 1 = 53 := by
    have := (Nat.log2_lt hpos.ne').mpr hhigh
    omega
  have hpack : UnpackedFloat.pack .binary64 (.finite .positive m (-1074) hpos) =
      packComponents .binary64 .positive 0#11 (BitVec.ofNat 52 m) := by
    rw [pack_finite, if_neg (by decide), if_neg hlog]
  -- All bits are stored, with the least exponent to tell that none is missing.
  have hmantissa : (BitVec.ofNat 52 m).toNat = m := by
    rw [BitVec.toNat_ofNat, Nat.mod_eq_of_lt hhigh]
  have hzero : ¬ BitVec.ofNat 52 m = 0#52 := fun h => by
    rw [h] at hmantissa
    exact hpos.ne hmantissa
  rw [hpack]
  unfold UnpackedFloat.unpack
  simp only [unpackMantissa_packComponents, unpackExponent_packComponents,
    unpackSign_packComponents]
  rw [if_neg (by decide), if_pos trivial, dif_neg hzero]
  congr 1

/-- A positive float with its mantissa and exponent. -/
structure Unpacks (x : Float) (m : ℕ) (e : ℤ) : Prop extends Canonical m e where
  unpack_eq : x.toModel.unpack = .finite .positive m e pos

/-- Two floats that unpack alike are the same. -/
theorem eq_of_unpack_eq (h : x.toModel.unpack = y.toModel.unpack) : x = y := by
  have hbits : x.toModel.toBits.toBitVec = y.toModel.toBits.toBitVec :=
    (unpack_inj_of_valid x.toModel.valid y.toModel.valid).mp h
  exact Float.toBits_inj.mp (UInt64.toBitVec_inj.mp hbits)

/-- Mantissa and exponent determine the float. -/
theorem Unpacks.unique (hx : Unpacks x m e) (hy : Unpacks y m e) : x = y :=
  eq_of_unpack_eq (hx.unpack_eq.trans hy.unpack_eq.symm)

/-- What is packed comes out again. -/
theorem unpacks_pack (h : Canonical m e) :
    Unpacks (.ofModel (.pack (.finite .positive m e h.pos))) m e := by
  refine ⟨h, ?_⟩
  show UnpackedFloat.unpack .binary64
    (UnpackedFloat.pack .binary64 (.finite .positive m e h.pos)) = _
  -- With all its bits, or with the least exponent.
  by_cases hfull : 2 ^ 52 ≤ m
  · exact unpack_pack_normal h.pos hfull h.bits h.least h.greatest
  · obtain rfl := h.full.resolve_left hfull
    exact unpack_pack_subnormal h.pos (not_le.mp hfull)

/-! ## The number that a float stands for

`ofFloat` reads the bits of a float by itself, with quotients and remainders.  It is compared field
by field with the unpacking that the operations start from, so that what is known of unpacked floats
can be said of numbers, and the other way round. -/

/-- The number of an unpacked float. -/
def ofUnpacked : UnpackedFloat → Binary64
  | .notANumber => .nan
  | .infinity sign => .infinite (sign == .negative)
  | .zero sign => .finite (sign == .negative) 0 (-1074)
  | .finite sign m e _ => .finite (sign == .negative) m e

/-- The fields of a float's bits. -/
theorem toNat_fields (b : BitVec 64) :
    (@unpackMantissa .binary64 b).toNat = b.toNat % leadingBit ∧
      (@unpackExponent .binary64 b).toNat = b.toNat >>> 52 % 2048 ∧
      (Sign.ofBitVec (@unpackSign .binary64 b) == .negative) = (b.toNat >>> 63 == 1) := by
  refine ⟨?_, ?_, ?_⟩
  · rw [unpackMantissa_def, BitVec.extractLsb'_toNat, Nat.shiftRight_zero]
    rfl
  · rw [unpackExponent_def, BitVec.extractLsb'_toNat]
    rfl
  · have hsign : (@unpackSign .binary64 b).toNat = b.toNat >>> 63 := by
      rw [unpackSign_def, BitVec.extractLsb'_toNat]
      refine Nat.mod_eq_of_lt ?_
      show b.toNat >>> 63 < 2 ^ 1
      have hlt := b.isLt
      rw [Nat.shiftRight_eq_div_pow]
      omega
    have hlt : (@unpackSign .binary64 b).toNat < 2 ^ 1 := BitVec.isLt _
    rw [← hsign]
    generalize @unpackSign .binary64 b = s
    decide +revert

/-- The bits of a float are read as they are unpacked. -/
theorem ofBits_eq (b : BitVec 64) : ofBits ⟨b⟩ = ofUnpacked (UnpackedFloat.unpack .binary64 b) := by
  obtain ⟨hmantissa, hexponent, hsign⟩ := toNat_fields b
  -- The tests on the fields, as tests on the number that the bits are.
  have hexpmax : @unpackExponent .binary64 b = -1#11 ↔ b.toNat >>> 52 % 2048 = 2047 := by
    rw [← BitVec.toNat_inj, hexponent]
    rfl
  have hexpmin : @unpackExponent .binary64 b = 0#11 ↔ b.toNat >>> 52 % 2048 = 0 := by
    rw [← BitVec.toNat_inj, hexponent]
    rfl
  have hnone : @unpackMantissa .binary64 b = 0#52 ↔ b.toNat % leadingBit = 0 := by
    rw [← BitVec.toNat_inj, hmantissa]
    rfl
  unfold ofBits UnpackedFloat.unpack
  simp only [beq_iff_eq]
  show (if b.toNat >>> 52 % 2048 = 2047 then if b.toNat % leadingBit = 0 then _ else _
    else if b.toNat >>> 52 % 2048 = 0 then _ else _) = _
  split
  · -- The greatest exponent: infinities, and "not a number".
    next hmax =>
    rw [if_pos (hexpmax.mpr hmax)]
    split
    · next hnil =>
      rw [if_pos (hnone.mpr hnil)]
      exact congrArg Binary64.infinite hsign.symm
    · next hnil =>
      rw [if_neg (mt hnone.mp hnil)]
      rfl
  · next hmax =>
    rw [if_neg (mt hexpmax.mp hmax)]
    split
    · -- The least exponent: the zeros, and what has no leading bit.
      next hmin =>
      rw [if_pos (hexpmin.mpr hmin)]
      split
      · next hnil =>
        show Binary64.finite (b.toNat >>> 63 == 1) (b.toNat % leadingBit) _ = _
        rw [hnone.mp hnil, ← hsign]
        rfl
      · show Binary64.finite (b.toNat >>> 63 == 1) (b.toNat % leadingBit) _ = .finite _ _ _
        rw [hmantissa, hsign, hexponent, hmin]
        rfl
    · next hmin =>
      rw [if_neg (mt hexpmin.mp hmin)]
      show Binary64.finite (b.toNat >>> 63 == 1) (b.toNat % leadingBit + leadingBit) _ =
        .finite _ (1#1 ++ @unpackMantissa .binary64 b).toNat _
      rw [toNat_one_append, hmantissa, hsign, hexponent]
      rfl

/-- **The number of a float is what it unpacks to.** -/
theorem ofFloat_eq (x : Float) : ofFloat x = ofUnpacked x.toModel.unpack :=
  ofBits_eq x.toBits.toBitVec

/-- What is unpacked has all the bits that it can have. -/
theorem canonical_of_unpack {b : BitVec 64} {sign : Sign} {hpos : 0 < m}
    (h : UnpackedFloat.unpack .binary64 b = .finite sign m e hpos) : Canonical m e := by
  have hmantissa : (@unpackMantissa .binary64 b).toNat < 2 ^ 52 := BitVec.isLt _
  have hexponent : (@unpackExponent .binary64 b).toNat < 2 ^ 11 := BitVec.isLt _
  have hleading : leadingBit = 2 ^ 52 := rfl
  unfold UnpackedFloat.unpack at h
  dsimp only at h
  split at h
  · split at h <;> cases h
  · next hmax =>
    have hmax : (@unpackExponent .binary64 b).toNat ≠ 2047 := fun heq =>
      hmax (BitVec.eq_of_toNat_eq heq)
    split at h
    · next hmin =>
      split at h
      · cases h
      · obtain ⟨-, rfl, rfl⟩ := UnpackedFloat.finite.inj h
        rw [hmin]
        exact ⟨hpos, by omega, .inr rfl, by decide, by decide⟩
    · next hmin =>
      have hmin : (@unpackExponent .binary64 b).toNat ≠ 0 := fun heq =>
        hmin (BitVec.eq_of_toNat_eq heq)
      obtain ⟨-, rfl, rfl⟩ := UnpackedFloat.finite.inj h
      have hvalue := toNat_one_append (@unpackMantissa .binary64 b)
      have hbias : Format.binary64.exponentBias = 1023 := rfl
      exact ⟨hpos, by omega, .inl (by omega), by omega, by omega⟩

/-- What a float without a sign is unpacked to. -/
theorem unpack_of_ofFloat (h : ofFloat x = .finite false m e) :
    m = 0 ∧ x.toModel.unpack = .zero .positive ∨
      ∃ hpos, x.toModel.unpack = .finite .positive m e hpos := by
  rw [ofFloat_eq] at h
  cases hx : x.toModel.unpack with
  | notANumber =>
    rw [hx] at h
    cases h
  | infinity sign =>
    rw [hx] at h
    cases h
  | zero sign =>
    rw [hx] at h
    obtain ⟨hsign, rfl, -⟩ := Binary64.finite.inj h
    cases sign with
    | negative => cases hsign
    | positive => exact .inl ⟨rfl, rfl⟩
  | finite sign m' e' hpos =>
    rw [hx] at h
    obtain ⟨hsign, rfl, rfl⟩ := Binary64.finite.inj h
    cases sign with
    | negative => cases hsign
    | positive => exact .inr ⟨hpos, rfl⟩

/-- A positive number and the float that stands for it. -/
theorem unpacks_of_ofFloat (h : ofFloat x = .finite false m e) (hpos : 0 < m) : Unpacks x m e := by
  rcases unpack_of_ofFloat h with ⟨rfl, -⟩ | ⟨_, hx⟩
  · exact absurd hpos (lt_irrefl 0)
  · exact ⟨canonical_of_unpack hx, hx⟩

/-- There is one zero without a sign. -/
theorem eq_of_ofFloat_zero (hx : ofFloat x = .finite false 0 e)
    (hy : ofFloat y = .finite false 0 e₁) : x = y := by
  rcases unpack_of_ofFloat hx with ⟨-, hx⟩ | ⟨hpos, -⟩
  · rcases unpack_of_ofFloat hy with ⟨-, hy⟩ | ⟨hpos, -⟩
    · exact eq_of_unpack_eq (hx.trans hy.symm)
    · exact absurd hpos (lt_irrefl 0)
  · exact absurd hpos (lt_irrefl 0)

/-- A float that is neither infinite nor "not a number" stands for a number. -/
theorem ofFloat_of_isFinite (h : x.isFinite = true) : ∃ sign m e, ofFloat x = .finite sign m e := by
  have h : x.toModel.unpack.isFinite = true := h
  rw [ofFloat_eq]
  cases hx : x.toModel.unpack with
  | notANumber =>
    rw [hx] at h
    cases h
  | infinity sign =>
    rw [hx] at h
    cases h
  | zero sign => exact ⟨_, _, _, rfl⟩
  | finite sign m e hpos => exact ⟨_, _, _, rfl⟩

/-- Between two numbers there is neither. -/
theorem isFinite_of_between (hxy : x ≤ y) (hyz : y ≤ z) (hx : x.isFinite = true)
    (hz : z.isFinite = true) : y.isFinite = true := by
  have hxmodel : x.toModel ≤ y.toModel := of_decide_eq_true hxy
  have hzmodel : y.toModel ≤ z.toModel := of_decide_eq_true hyz
  have hxy : x.toModel.unpack.le y.toModel.unpack = true := hxmodel
  have hyz : y.toModel.unpack.le z.toModel.unpack = true := hzmodel
  have hx : x.toModel.unpack.isFinite = true := hx
  have hz : z.toModel.unpack.isFinite = true := hz
  show y.toModel.unpack.isFinite = true
  -- By the kinds of the three: infinities are at the ends of the order, and "not a number" is
  -- outside of it.
  generalize x.toModel.unpack = a at hxy hx
  generalize z.toModel.unpack = c at hyz hz
  generalize y.toModel.unpack = b at hxy hyz ⊢
  cases b with
  | zero sign => rfl
  | finite sign m e hpos => rfl
  | notANumber => cases c <;> cases hyz
  | infinity sign =>
    cases sign with
    | positive =>
      cases c with
      | infinity sign => cases hz
      | _ => cases hyz
    | negative =>
      cases a with
      | infinity sign => cases hx
      | finite sign m e hpos => cases sign <;> cases hxy
      | _ => cases hxy

/-- Only one float has a sign and is not below zero. -/
theorem eq_negative_zero (hlow : 0.0 ≤ x) (h : ofFloat x = .finite true m e) : x = -0.0 := by
  have hmodel : (0.0 : Float).toModel ≤ x.toModel := of_decide_eq_true hlow
  have hle : (0.0 : Float).toModel.unpack.le x.toModel.unpack = true := hmodel
  have hzero : (-0.0 : Float).toModel.unpack = .zero .negative := rfl
  rw [ofFloat_eq] at h
  cases hx : x.toModel.unpack with
  | notANumber =>
    rw [hx] at h
    cases h
  | infinity sign =>
    rw [hx] at h
    cases h
  | zero sign =>
    rw [hx] at h
    cases sign with
    | positive => cases h
    | negative => exact eq_of_unpack_eq (hx.trans hzero.symm)
  | finite sign m' e' hpos =>
    rw [hx] at h hle
    -- Zero and the positive numbers have no sign, and a negative number is below zero.
    cases sign with
    | positive => cases h
    | negative => cases hle

end SeriesQuery.Binary64
