import CoefficientTightening.Proofs.Binary64.Arithmetic

/-! Whole numbers as doubles. A whole number of at most 53 bits in size is a double, so an operation
on doubles whose exact result is such a number gives just that number. -/
namespace CoefficientTightening

open Extended (finite)

/-- A whole number of at most 53 bits in size. -/
def Extended.IsSmallWhole (a : Extended) : Prop := ∃ k : ℤ, |k| ≤ 2 ^ 53 ∧ a = finite k

namespace Binary64

open Float.Model.UnpackedFloat (Sign)

/-- Each canonical magnitude with an exponent in range is a double. -/
theorem exists_denote_eq (s : Sign) {n : ℕ} {f : ℤ} (h : IsCanonical n f) (hf : f ≤ 971) :
    ∃ x, denote x = finite (s.apply n * 2 ^ f) := by
  refine ⟨.ofModel (.pack (ofParts s n f)), ?_⟩
  have hvalue := value_stored_ofParts s h
  rw [if_pos hf] at hvalue
  exact hvalue

/-- A mantissa of at most 53 bits, shifted to 53 bits. -/
theorem exists_canonical_natCast {n : ℕ} (h0 : 0 < n) (hn : n ≤ 2 ^ 53) :
    ∃ m f, IsCanonical m f ∧ f ≤ 971 ∧ (m : ℚ) * 2 ^ f = n := by
  rcases Nat.lt_or_eq_of_le hn with hlt | rfl
  · have hlog : n.log2 ≤ 52 := by
      have := (Nat.log2_lt h0.ne').mpr hlt
      omega
    have hshift : (n <<< (52 - n.log2)).log2 = 52 := by
      rw [log2_shiftLeft h0]
      omega
    have hpos : n <<< (52 - n.log2) ≠ 0 := by
      rw [Nat.shiftLeft_eq]
      positivity
    obtain ⟨hle, hlt'⟩ := (Nat.log2_eq_iff hpos).mp hshift
    refine ⟨n <<< (52 - n.log2), -(52 - n.log2 : ℕ), ⟨hlt', by omega, .inl hle⟩, by omega, ?_⟩
    rw [Nat.shiftLeft_eq, zpow_neg, zpow_natCast]
    push_cast
    field_simp
  · exact ⟨2 ^ 52, 1, ⟨by norm_num, by norm_num, .inl le_rfl⟩, by norm_num, by norm_num⟩

theorem exists_denote_natCast {n : ℕ} (hn : n ≤ 2 ^ 53) : ∃ x, denote x = finite n := by
  rcases Nat.eq_zero_or_pos n with rfl | h0
  · exact ⟨0, rfl⟩
  · obtain ⟨m, f, hcanonical, hf, hm⟩ := exists_canonical_natCast h0 hn
    obtain ⟨x, hx⟩ := exists_denote_eq .positive hcanonical hf
    refine ⟨x, hx.trans (congrArg finite ?_)⟩
    rw [← hm]
    simp only [Sign.apply, Int.cast_natCast]

/-- A whole number of at most 53 bits in size is a double. -/
theorem exists_denote_intCast {k : ℤ} (hk : |k| ≤ 2 ^ 53) : ∃ x, denote x = finite k := by
  have hn : k.natAbs ≤ 2 ^ 53 := by
    rw [Int.abs_eq_natAbs] at hk
    exact_mod_cast hk
  obtain ⟨x, hx⟩ := exists_denote_natCast hn
  rcases k.natAbs_eq with heq | heq
  · exact ⟨x, by rw [hx, heq]; rfl⟩
  · exact ⟨-x, by rw [denote_neg, hx, Extended.neg_finite, heq]; simp⟩

theorem denote_one : denote 1 = finite 1 := by decide +kernel

/-- Nothing is rounded where the exact result is a small whole number. -/
theorem eq_of_isSmallWhole {exact rounded : Extended} (h : RoundsTo denote exact rounded)
    (hexact : exact.IsSmallWhole) : rounded = exact := by
  obtain ⟨k, hk, rfl⟩ := hexact
  obtain ⟨x, hx⟩ := exists_denote_intCast hk
  have hbelow := h.not_below x
  have habove := h.not_above x
  rw [hx] at hbelow habove
  have hself : finite (k : ℚ) ≤ finite (k : ℚ) := (Extended.finite_le _ _).mpr le_rfl
  obtain ⟨r, rfl, hle, hge⟩ := Extended.finite_of_between (hbelow hself) (habove hself)
  rw [le_antisymm hge hle]

end Binary64

end CoefficientTightening
