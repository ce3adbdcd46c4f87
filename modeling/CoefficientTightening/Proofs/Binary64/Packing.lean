import CoefficientTightening.Proofs.Binary64.Values

/-! Numbers in 64 bits. What is unpacked is canonical and its exponent is not too large; packing such
a number and unpacking it again gives it back. A number with a larger exponent is packed as an
infinity. -/
namespace CoefficientTightening.Binary64

open Float.Model (UnpackedFloat)
open Float.Model.UnpackedFloat (Sign pack unpack packComponents unpackMantissa unpackExponent)

/-! ### Unpacking -/

theorem exponentBias_format : format.exponentBias = 1023 := rfl

/-- The implicit bit stands in front of the stored ones. -/
theorem toNat_one_append (m : BitVec 52) : (1#1 ++ m).toNat = 2 ^ 52 + m.toNat := by
  rw [BitVec.toNat_append, ← Nat.shiftLeft_add_eq_or_of_lt m.isLt]
  rfl

theorem unpack_fits (b : BitVec format.numBits) : Fits (unpack format b) := by
  have hm : (unpackMantissa b).toNat < 2 ^ 52 := (unpackMantissa b).isLt
  have he : (unpackExponent b).toNat < 2 ^ 11 := (unpackExponent b).isLt
  fun_cases unpack format b with
  | case1 => trivial
  | case2 => trivial
  | case3 => trivial
  | case4 mantissa exponent e _ sign _ hzero =>
    have hexp : e + 1 = -1074 := by
      simp only [e, hzero, exponentBias_format]
      rfl
    exact ⟨⟨Nat.lt_trans hm (by decide), hexp.ge, .inr hexp⟩, by omega⟩
  | case5 mantissa exponent e _ sign hall hzero =>
    have hzero' : (unpackExponent b).toNat ≠ 0 := fun h => hzero (BitVec.eq_of_toNat_eq h)
    have hall' : (unpackExponent b).toNat ≠ 2047 := fun h => hall (BitVec.eq_of_toNat_eq h)
    have hexp : e = (unpackExponent b).toNat - 1075 := rfl
    have happend : (1#1 ++ mantissa).toNat = 2 ^ 52 + (unpackMantissa b).toNat :=
      toNat_one_append (unpackMantissa b)
    refine ⟨⟨?_, by omega, .inl ?_⟩, by omega⟩ <;> rw [happend] <;> omega

/-! ### Packing -/

theorem unpack_packedInfinity (s : Sign) :
    unpack format (UnpackedFloat.packedInfinity format s) = .infinity s := by
  cases s <;> rfl

/-- Without an exponent the mantissa stands alone. -/
theorem unpack_components_subnormal (s : Sign) {m : BitVec 52} (hm : m ≠ 0#52) :
    unpack format (packComponents format s 0#11 m) =
      .finite s m.toNat (-1074) (Nat.pos_of_ne_zero fun h => hm (BitVec.eq_of_toNat_eq h)) := by
  unfold unpack
  simp only [UnpackedFloat.unpackExponent_packComponents,
    UnpackedFloat.unpackMantissa_packComponents, UnpackedFloat.unpackSign_packComponents,
    UnpackedFloat.Sign.ofBitVec_toBitVec]
  rw [if_neg (by decide), if_pos trivial, dif_neg hm]
  rfl

theorem unpack_components_normal (s : Sign) {x : BitVec 11} {m : BitVec 52} (hzero : x ≠ 0#11)
    (hall : x ≠ -1#11) :
    unpack format (packComponents format s x m) =
      .finite s (2 ^ 52 + m.toNat) (x.toNat - 1075) (by omega) := by
  unfold unpack
  simp only [UnpackedFloat.unpackExponent_packComponents,
    UnpackedFloat.unpackMantissa_packComponents, UnpackedFloat.unpackSign_packComponents,
    UnpackedFloat.Sign.ofBitVec_toBitVec]
  rw [if_neg hall, if_neg hzero]
  congr 1
  exact toNat_one_append m

variable {m : ℕ} {e : ℤ}

theorem pack_finite (s : Sign) (hm : 0 < m) :
    pack format (.finite s m e hm) =
      if 2048 ≤ (e + 1075).toNat + 1 then UnpackedFloat.packedInfinity format s
      else packComponents format s
        (if m.log2 + 1 = 53 then .ofNat 11 (e + 1075).toNat else 0#11) (.ofNat 52 m) := by
  rw [show e + 1075 = e + (1023 : ℕ) + (52 : ℕ) by omega, apply_ite (packComponents format s),
    ite_apply]
  rfl

theorem unpack_pack_of_overflow (s : Sign) (hm : 0 < m) (he : 971 < e) :
    unpack format (pack format (.finite s m e hm)) = .infinity s := by
  rw [pack_finite, if_pos (by omega), unpack_packedInfinity]

theorem unpack_pack_of_normal (s : Sign) (hm : 0 < m) (hlt : m < 2 ^ 53) (hle : 2 ^ 52 ≤ m)
    (he : -1074 ≤ e) (he' : e ≤ 971) :
    unpack format (pack format (.finite s m e hm)) = .finite s m e hm := by
  have hlog : m.log2 = 52 := (Nat.log2_eq_iff (by omega)).mpr ⟨hle, hlt⟩
  have hx : (BitVec.ofNat 11 (e + 1075).toNat).toNat = (e + 1075).toNat := by
    rw [BitVec.toNat_ofNat, Nat.mod_eq_of_lt (by omega)]
  have hzero : BitVec.ofNat 11 (e + 1075).toNat ≠ 0#11 := by
    intro h
    rw [h, BitVec.toNat_ofNat] at hx
    omega
  have hall : BitVec.ofNat 11 (e + 1075).toNat ≠ -1#11 := by
    intro h
    rw [h, show (-1#11).toNat = 2047 from rfl] at hx
    omega
  rw [pack_finite, if_neg (by omega), if_pos (by rw [hlog]), unpack_components_normal s hzero hall]
  congr 1
  · rw [BitVec.toNat_ofNat]
    omega
  · rw [hx]
    omega

theorem unpack_pack_of_subnormal (s : Sign) (hm : 0 < m) (hlt : m < 2 ^ 52) :
    unpack format (pack format (.finite s m (-1074) hm)) = .finite s m (-1074) hm := by
  have hlog : m.log2 < 52 := (Nat.log2_lt (by omega)).mpr hlt
  have hm' : (BitVec.ofNat 52 m).toNat = m := by
    rw [BitVec.toNat_ofNat, Nat.mod_eq_of_lt hlt]
  have hzero : BitVec.ofNat 52 m ≠ 0#52 := by
    intro h
    rw [h, BitVec.toNat_ofNat] at hm'
    omega
  rw [pack_finite, if_neg (by decide), if_neg (by omega), unpack_components_subnormal s hzero]
  congr 1

/-- What fits into a double comes back out of it. -/
theorem unpack_pack {u : UnpackedFloat} (h : Fits u) : unpack format (pack format u) = u := by
  cases u with
  | infinity s => exact unpack_packedInfinity s
  | notANumber => exact UnpackedFloat.unpack_packedNaN
  | zero s => exact UnpackedFloat.unpack_packedZero
  | finite s m e hm =>
    obtain ⟨hcanonical, he⟩ := h
    by_cases hle : 2 ^ 52 ≤ m
    · exact unpack_pack_of_normal s hm hcanonical.lt hle hcanonical.le he
    · obtain rfl := hcanonical.normal.resolve_left hle
      exact unpack_pack_of_subnormal s hm (by omega)

end CoefficientTightening.Binary64
