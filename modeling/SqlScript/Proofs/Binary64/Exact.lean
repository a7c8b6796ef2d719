import SqlScript.Binary64.Decimal

/-!
# Every number is a decimal

The smallest positive number is a power of one half, and so a decimal. All others are multiples of
it, and rounding such a decimal gives the number it is (`exists_ofDecimal`).
-/

namespace SqlScript.Binary64

/-! ## Numbers in steps -/

section Units

variable {k : Nat}

/-- The smallest numbers are as many units as their index says. -/
theorem units_of_lt (h : k < twoPow 52) : units k = k := by
  have hscale : scale k = 0 := by rw [scale, Nat.div_eq_of_lt h]
  rw [units, hscale, significand, if_pos h]
  exact Nat.mul_one k

/-- From the index on where they are normal, significands have 53 bits. -/
theorem significand_bounds (h : twoPow 52 ≤ k) :
    twoPow 52 ≤ significand k ∧ significand k < twoPow 53 := by
  have hmod : k % twoPow 52 < twoPow 52 := Nat.mod_lt k (twoPow_pos 52)
  have htwice : twoPow 53 = twoPow 52 + twoPow 52 := by decide
  rw [significand, if_neg (Nat.not_lt.mpr h)]
  omega

/-- An index counts the steps below its number. -/
theorem scale_add_significand (h : twoPow 52 ≤ k) :
    scale k * twoPow 52 + significand k = k := by
  have hdiv : 0 < k / twoPow 52 := Nat.div_pos h (twoPow_pos 52)
  rw [scale, significand, if_neg (Nat.not_lt.mpr h), ← Nat.add_assoc, ← Nat.succ_mul,
    Nat.succ_eq_add_one, Nat.sub_add_cancel hdiv, Nat.mul_comm]
  exact Nat.div_add_mod k (twoPow 52)

/-- The scale is the logarithm, but for the bits of the significand. -/
theorem log2_units (h : twoPow 52 ≤ k) : Nat.log2 (units k) = 52 + scale k := by
  obtain ⟨hlow, hhigh⟩ := significand_bounds h
  have hscale : 0 < twoPow (scale k) := twoPow_pos _
  have hne : units k ≠ 0 :=
    Nat.ne_of_gt (Nat.mul_pos (Nat.lt_of_lt_of_le (twoPow_pos 52) hlow) hscale)
  rw [Nat.log2_eq_iff hne, units]
  have hlow' : twoPow 52 * twoPow (scale k) ≤ significand k * twoPow (scale k) :=
    Nat.mul_le_mul_right _ hlow
  have hhigh' : significand k * twoPow (scale k) < twoPow 53 * twoPow (scale k) :=
    Nat.mul_lt_mul_of_pos_right hhigh hscale
  simp only [Nat.pow_eq] at hlow' hhigh' ⊢
  rw [← Nat.pow_add] at hlow' hhigh'
  exact ⟨hlow', by rwa [show 52 + scale k + 1 = 53 + scale k by omega]⟩

end Units

/-! ## Rounding what needs no rounding -/

/-- What divides without a rest needs no rounding. -/
theorem roundDiv_mul (n : Nat) {d : Nat} (hd : 0 < d) : roundDiv (n * d) d = n := by
  simp [roundDiv, Nat.mul_div_cancel n hd, hd]

/-- A number is nearest to itself. -/
theorem nearestIndex_units (k : Nat) {d : Nat} (hd : 0 < d) : nearestIndex (units k * d) d = k := by
  rw [nearestIndex, Nat.mul_div_cancel _ hd]
  by_cases h : k < twoPow 52
  · have hlog : Nat.log2 (units k) - 52 = 0 := by
      rw [units_of_lt h]
      by_cases hk : k = 0
      · subst hk
        decide
      · have := (Nat.log2_lt hk).mpr h
        omega
    simp only [hlog]
    rw [units_of_lt h]
    simpa using roundDiv_mul k hd
  · have hk := Nat.not_lt.mp h
    have hstep : 0 < d * twoPow (scale k) := Nat.mul_pos hd (twoPow_pos _)
    have hunits : units k * d = significand k * (d * twoPow (scale k)) := by
      rw [units, Nat.mul_assoc, Nat.mul_comm d]
    rw [log2_units hk, Nat.add_sub_cancel_left, hunits, roundDiv_mul _ hstep]
    exact scale_add_significand hk

/-- One is a power of two of units. -/
theorem exists_unitsPerOne : ∃ places, unitsPerOne = twoPow places := by
  refine ⟨1074, ?_⟩
  -- only the name may be unfolded: the power itself is too large to compute with
  delta unitsPerOne
  exact Eq.refl _

/-- Every number that is not negative is a decimal, and infinity is a large one. -/
theorem exists_ofDecimal (k : Nat) : ∃ n places, ofDecimal n places = ofIndex k := by
  obtain ⟨places, hplaces⟩ := exists_unitsPerOne
  have hten : 5 ^ places * twoPow places = tenPow places := (Nat.mul_pow 5 2 places).symm
  refine ⟨units k * 5 ^ places, places, ?_⟩
  rw [ofDecimal, hplaces, Nat.mul_assoc, hten, nearestIndex_units k (tenPow_pos places)]

/-! ## What decimals are not -/

/-- The index is the bit pattern, up to that of infinity. -/
theorem bits_ofIndex (k : Nat) : (ofIndex k).bits.toNat = min k infinityIndex := by
  have hle : min k infinityIndex ≤ infinityIndex := Nat.min_le_right _ _
  have hsmall : infinityIndex < 2 ^ 64 := by decide +kernel
  rw [ofIndex, UInt64.toNat_ofNat', Nat.mod_eq_of_lt (Nat.lt_of_le_of_lt hle hsmall)]

theorem index_ofIndex (k : Nat) : (ofIndex k).index = min k infinityIndex := by
  have hle : min k infinityIndex ≤ infinityIndex := Nat.min_le_right _ _
  have hsmall : infinityIndex < twoPow 63 := by decide +kernel
  rw [index, bits_ofIndex, Nat.mod_eq_of_lt (Nat.lt_of_le_of_lt hle hsmall)]

theorem isNaN_ofIndex (k : Nat) : (ofIndex k).isNaN = false := by
  rw [isNaN, index_ofIndex]
  exact decide_eq_false (Nat.not_lt.mpr (Nat.min_le_right _ _))

theorem isNegative_ofIndex (k : Nat) : (ofIndex k).isNegative = false := by
  have hle : min k infinityIndex ≤ infinityIndex := Nat.min_le_right _ _
  have hsmall : infinityIndex < twoPow 63 := by decide +kernel
  rw [isNegative, bits_ofIndex]
  exact decide_eq_false (Nat.not_le.mpr (Nat.lt_of_le_of_lt hle hsmall))

/-- Without a sign, the index tells a number from all others. -/
theorem eq_ofIndex {x : Binary64} (hnan : x.isNaN = false) (hsign : x.isNegative = false) :
    x = ofIndex x.index := by
  have hbits : x.bits.toNat < twoPow 63 := Nat.not_le.mp (of_decide_eq_false hsign)
  have hindex : x.index = x.bits.toNat := Nat.mod_eq_of_lt hbits
  have hmin : min x.bits.toNat infinityIndex = x.bits.toNat := by
    have := Nat.not_lt.mp (of_decide_eq_false hnan)
    omega
  obtain ⟨bits⟩ := x
  rw [ofIndex, hindex, hmin, UInt64.ofNat_toNat]

end SqlScript.Binary64
