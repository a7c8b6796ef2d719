import Mathlib.Algebra.Order.Field.Power
import Mathlib.Algebra.Order.Ring.Rat
import Mathlib.Tactic.FieldSimp
import Mathlib.Tactic.Linarith
import Mathlib.Tactic.LinearCombination
import Mathlib.Tactic.Ring
import Mathlib.Tactic.SplitIfs
import SqlScript.Binary64.Shortest
import SqlScript.Proofs.Binary64.Exact

/-!
# The shortest decimal reads back

A decimal reads as one number at most (`Reads.unique`), and the shortest decimal of a number reads
as this number (`reads_shortest`): with seventeen digits the decimals lie closer together than the
numbers do. So different numbers have shortest decimals of different values.
-/

namespace SqlScript

/-- The number that a decimal denotes. -/
def Decimal.value (d : Decimal) : ℚ := d.coefficient * 10 ^ d.exponent

namespace Binary64

/-! ## How far apart numbers lie -/

theorem significand_lt (k : Nat) : significand k < twoPow 53 := by
  by_cases h : k < twoPow 52
  · rw [significand, if_pos h]
    exact Nat.lt_trans h (by decide)
  · exact (significand_bounds (Nat.not_lt.mp h)).2

/-- The next number is one step away. -/
theorem units_succ (k : Nat) : units (k + 1) = units k + twoPow (scale k) := by
  have hpow : twoPow 52 = 4503599627370496 := by decide
  have hsame : scale (k + 1) = scale k ∧ significand (k + 1) = significand k + 1 ∨
      scale (k + 1) = scale k + 1 ∧ significand (k + 1) = 4503599627370496 ∧
        significand k + 1 = 2 * 4503599627370496 := by
    simp only [scale, significand, hpow]
    split <;> split <;> omega
  rw [units, units]
  rcases hsame with ⟨hscale, hsig⟩ | ⟨hscale, hsig, hlast⟩
  · rw [hscale, hsig, Nat.succ_mul]
  -- behind the last step of a size the steps are twice as large
  · have hdouble : twoPow (scale k + 1) = 2 * twoPow (scale k) := Nat.pow_succ'
    rw [hscale, hsig, hdouble, ← Nat.succ_mul, Nat.succ_eq_add_one, hlast]
    ring

theorem units_lt_succ (k : Nat) : units k < units (k + 1) := by
  rw [units_succ]
  exact Nat.lt_add_of_pos_right (twoPow_pos _)

/-- A number is less than `2 ^ 53` steps of the size below it. -/
theorem units_succ_le (k : Nat) : units (k + 1) ≤ twoPow 53 * twoPow (scale k) := by
  rw [units_succ, units, ← Nat.succ_mul]
  exact Nat.mul_le_mul_right _ (significand_lt k)

theorem twoPow_scale_le_succ (k : Nat) : twoPow (scale k) ≤ twoPow (scale (k + 1)) := by
  refine Nat.pow_le_pow_right (by decide) ?_
  have hdiv : k / twoPow 52 ≤ (k + 1) / twoPow 52 := Nat.div_le_div_right (Nat.le_add_right k 1)
  exact Nat.sub_le_sub_right hdiv 1

/-! ## Reading -/

/-- Twice the midpoint between a number and the one before it, in smallest positive numbers. -/
def lower (k : Nat) : Nat := units (k - 1) + units k

theorem lower_lt_succ (k : Nat) : lower k < lower (k + 1) := by
  have hlt := units_lt_succ k
  have hle : units (k - 1) ≤ units k := by
    cases k with
    | zero => exact Nat.le_refl _
    | succ k => exact Nat.le_of_lt (units_lt_succ k)
  simp only [lower, Nat.add_sub_cancel]
  omega

theorem lower_strictMono : StrictMono lower := strictMono_nat_of_lt_succ lower_lt_succ

/-- The number with index `k` is the nearest one; halfway between two it is the even one. -/
def Reads (v : ℚ) (k : Nat) : Prop :=
  if k % 2 = 0 then lower k ≤ v * (2 * unitsPerOne) ∧ v * (2 * unitsPerOne) ≤ lower (k + 1)
  else lower k < v * (2 * unitsPerOne) ∧ v * (2 * unitsPerOne) < lower (k + 1)

theorem Reads.le {v : ℚ} {k : Nat} (h : Reads v k) :
    lower k ≤ v * (2 * unitsPerOne) ∧ v * (2 * unitsPerOne) ≤ lower (k + 1) := by
  rw [Reads] at h
  split at h
  · exact h
  · exact ⟨h.1.le, h.2.le⟩

theorem Reads.of_lt {v : ℚ} {k : Nat} (hlow : lower k < v * (2 * unitsPerOne))
    (hhigh : v * (2 * unitsPerOne) < lower (k + 1)) : Reads v k := by
  rw [Reads]
  split
  · exact ⟨hlow.le, hhigh.le⟩
  · exact ⟨hlow, hhigh⟩

theorem Reads.not_below {v : ℚ} {k l : Nat} (hk : Reads v k) (hl : Reads v l) : ¬ k < l := by
  intro hlt
  have hbetween : (lower (k + 1) : ℚ) ≤ lower l := by
    exact_mod_cast lower_strictMono.monotone hlt
  have hsame : (lower (k + 1) : ℚ) = lower l := le_antisymm hbetween (hl.le.1.trans hk.le.2)
  have hnext : k + 1 = l := lower_strictMono.injective (by exact_mod_cast hsame)
  subst hnext
  -- both reach the midpoint between them only if both indices are even
  have heq : v * (2 * unitsPerOne) = lower (k + 1) := le_antisymm hk.le.2 hl.le.1
  rw [Reads, heq] at hk hl
  split at hk
  · split at hl
    · omega
    · exact lt_irrefl _ hl.1
  · exact lt_irrefl _ hk.2

/-- Nothing reads as two numbers. -/
theorem Reads.unique {v : ℚ} {k l : Nat} (hk : Reads v k) (hl : Reads v l) : k = l :=
  Nat.le_antisymm (Nat.not_lt.mp (hl.not_below hk)) (Nat.not_lt.mp (hk.not_below hl))

end Binary64

/-! ## Decimals -/

theorem Decimal.value_mul (d : Decimal) :
    d.value * tenPow (-d.exponent).toNat = d.coefficient * tenPow d.exponent.toNat := by
  obtain ⟨c, e⟩ := d
  have hsplit : e + ((-e).toNat : Int) = (e.toNat : Int) := by omega
  have hten : (10 : ℚ) ≠ 0 := by norm_num
  simp only [value, Nat.pow_eq, Nat.cast_pow, Nat.cast_ofNat]
  rw [← zpow_natCast, ← zpow_natCast, mul_assoc, ← zpow_add₀ hten, hsplit]

theorem Decimal.readsAs_iff {d : Decimal} {k : Nat} : d.readsAs k ↔ Binary64.Reads d.value k := by
  have hone : (0 : ℚ) < tenPow (-d.exponent).toNat := by exact_mod_cast tenPow_pos _
  have hvalue : d.value * (2 * Binary64.unitsPerOne) * tenPow (-d.exponent).toNat =
      (d.coefficient * tenPow d.exponent.toNat * (2 * Binary64.unitsPerOne) : Nat) := by
    rw [mul_right_comm, d.value_mul]
    push_cast
    ring
  have hlow (n : Nat) : (n : ℚ) ≤ d.value * (2 * Binary64.unitsPerOne) ↔
      n * tenPow (-d.exponent).toNat ≤
        d.coefficient * tenPow d.exponent.toNat * (2 * Binary64.unitsPerOne) := by
    rw [← mul_le_mul_iff_left₀ hone, hvalue]
    norm_cast
  have hhigh (n : Nat) : d.value * (2 * Binary64.unitsPerOne) ≤ n ↔
      d.coefficient * tenPow d.exponent.toNat * (2 * Binary64.unitsPerOne) ≤
        n * tenPow (-d.exponent).toNat := by
    rw [← mul_le_mul_iff_left₀ hone, hvalue]
    norm_cast
  rw [readsAs, Binary64.Reads]
  simp only [← not_le (a := d.value * _), ← not_le (b := d.value * _), hlow, hhigh,
    Binary64.lower, Nat.add_sub_cancel]
  split <;> simp

theorem Decimal.value_trim (d : Decimal) : d.trim.value = d.value := by
  fun_induction Decimal.trim d with
  | case1 d h ih =>
    have hten : (10 : ℚ) ≠ 0 := by norm_num
    have hdiv : ((d.coefficient / 10 : Nat) : ℚ) * 10 = d.coefficient := by
      exact_mod_cast Nat.div_mul_cancel (Nat.dvd_of_mod_eq_zero h.2)
    rw [ih, value, value, zpow_add_one₀ hten, ← hdiv]
    ring
  | case2 d h => rfl

theorem lt_tenPow_decimalLength (n : Nat) : n < tenPow (decimalLength n) := by
  fun_induction decimalLength n with
  | case1 => exact tenPow_pos 0
  | case2 n h ih =>
    simp only [Nat.pow_eq] at ih ⊢
    omega

theorem tenPow_decimalLength_le {n : Nat} (h : n ≠ 0) : tenPow (decimalLength n - 1) ≤ n := by
  fun_induction decimalLength n with
  | case1 => exact absurd rfl h
  | case2 n _ ih =>
    by_cases hn : n / 10 = 0
    · rw [hn, decimalLength, if_pos rfl]
      exact Nat.pos_of_ne_zero h
    · have hlen : decimalLength (n / 10) = decimalLength (n / 10) - 1 + 1 := by
        rw [decimalLength, if_neg hn]
        rfl
      have := ih hn
      rw [Nat.add_sub_cancel, hlen]
      simp only [Nat.pow_eq] at this ⊢
      omega

namespace Binary64

theorem unitsPerOne_pos : 0 < unitsPerOne := by
  obtain ⟨places, hplaces⟩ := exists_unitsPerOne
  exact hplaces ▸ twoPow_pos places

/-- A number is at least the power of ten at its first digit. -/
theorem tenPow_magnitude_le {k : Nat} (hk : units k ≠ 0) :
    unitsPerOne * (10 : ℚ) ^ magnitude k ≤ units k := by
  have hten : (0 : ℚ) < 10 := by norm_num
  rw [magnitude]
  split
  case isTrue h =>
    have hq : units k / unitsPerOne ≠ 0 := Nat.ne_of_gt (Nat.div_pos h unitsPerOne_pos)
    have hlen : ((decimalLength (units k / unitsPerOne) : Int) - 1) =
        ((decimalLength (units k / unitsPerOne) - 1 : Nat) : Int) := by
      rw [decimalLength, if_neg hq]
      simp
    have hle : unitsPerOne * tenPow (decimalLength (units k / unitsPerOne) - 1) ≤ units k :=
      (Nat.mul_le_mul_left _ (tenPow_decimalLength_le hq)).trans (Nat.mul_div_le _ _)
    rw [hlen, zpow_natCast]
    exact_mod_cast hle
  case isFalse h =>
    have hlt := lt_tenPow_decimalLength ((unitsPerOne - 1) / units k)
    rw [Nat.div_lt_iff_lt_mul (Nat.pos_of_ne_zero hk)] at hlt
    have hle : unitsPerOne ≤ units k * tenPow (decimalLength ((unitsPerOne - 1) / units k)) := by
      rw [Nat.mul_comm]
      omega
    rw [zpow_neg, zpow_natCast, ← div_eq_mul_inv, div_le_iff₀ (by positivity)]
    exact_mod_cast hle

/-- In whole steps, the first neighbour is at most half a step away. -/
theorem neighbours_fst (tie : Tie) (k : Nat) (p : Int) {n step : Nat} (hstep : 0 < step)
    (hn : units k * tenPow (-p).toNat = n) (hs : unitsPerOne * tenPow p.toNat = step) :
    ∃ m, (neighbours tie k p).1 = ⟨m, p⟩ ∧
      2 * n ≤ 2 * (m * step) + step ∧ 2 * (m * step) ≤ 2 * n + step := by
  unfold neighbours
  simp only [hn, hs]
  have hdiv : n / step * step + n % step = n := Nat.div_add_mod' n step
  have hr : n % step < step := Nat.mod_lt n hstep
  split_ifs with hup
  · refine ⟨n / step + 1, rfl, ?_⟩
    have : step < 2 * (n % step) ∨ step = 2 * (n % step) := by
      simp only [Bool.or_eq_true, Bool.and_eq_true, decide_eq_true_eq, beq_iff_eq] at hup
      exact hup.imp_right And.left
    rw [Nat.add_one_mul (n / step)]
    omega
  · refine ⟨n / step, rfl, ?_⟩
    have : 2 * (n % step) ≤ step := by
      simp only [Bool.or_eq_true, decide_eq_true_eq, not_or] at hup
      exact Nat.not_lt.mp hup.1
    omega

theorem neighbours_near (tie : Tie) (k : Nat) (p : Int) :
    |(neighbours tie k p).1.value * (2 * unitsPerOne) - 2 * units k| ≤ unitsPerOne * 10 ^ p := by
  have hstep : 0 < unitsPerOne * tenPow p.toNat := Nat.mul_pos unitsPerOne_pos (tenPow_pos _)
  obtain ⟨m, hnear, hlow, hhigh⟩ := neighbours_fst tie k p hstep rfl rfl
  have hone : (0 : ℚ) < tenPow (-p).toNat := by exact_mod_cast tenPow_pos _
  have hvalue : (Decimal.mk m p).value * tenPow (-p).toNat = m * tenPow p.toNat :=
    (Decimal.mk m p).value_mul
  have hpow : (10 : ℚ) ^ p * tenPow (-p).toNat = tenPow p.toNat := by
    simpa [Decimal.value] using (Decimal.mk 1 p).value_mul
  have hlow' : 2 * ((units k : ℚ) * tenPow (-p).toNat) ≤
      2 * (m * (unitsPerOne * tenPow p.toNat)) + unitsPerOne * tenPow p.toNat := by
    exact_mod_cast hlow
  have hhigh' : 2 * (m * ((unitsPerOne : ℚ) * tenPow p.toNat)) ≤
      2 * (units k * tenPow (-p).toNat) + unitsPerOne * tenPow p.toNat := by
    exact_mod_cast hhigh
  have hdiff : ((Decimal.mk m p).value * (2 * unitsPerOne) - 2 * units k) * tenPow (-p).toNat =
      2 * (m * (unitsPerOne * tenPow p.toNat)) - 2 * (units k * tenPow (-p).toNat) := by
    linear_combination 2 * (unitsPerOne : ℚ) * hvalue
  have hbound : unitsPerOne * 10 ^ p * tenPow (-p).toNat =
      (unitsPerOne : ℚ) * tenPow p.toNat := by
    rw [mul_assoc, hpow]
  rw [hnear, ← mul_le_mul_iff_left₀ hone, hbound, ← abs_of_pos hone, ← abs_mul, hdiff, abs_le]
  constructor <;> linarith

/-- With seventeen digits the nearest decimal lies between the midpoints. -/
theorem neighbours_reads (tie : Tie) {k : Nat} (hk : k ≠ 0) {p : Int}
    (hp : unitsPerOne * (10 : ℚ) ^ (p + 16) ≤ units k) :
    Reads (neighbours tie k p).1.value k := by
  obtain ⟨j, rfl⟩ := Nat.exists_eq_succ_of_ne_zero hk
  -- the step below is the smaller one, and still larger than the decimal step
  have hstep : (twoPow (scale j) : ℚ) ≤ twoPow (scale (j + 1)) := by
    exact_mod_cast twoPow_scale_le_succ j
  have hfine : unitsPerOne * (10 : ℚ) ^ p < twoPow (scale j) := by
    have hpos : (0 : ℚ) < twoPow (scale j) := by exact_mod_cast twoPow_pos _
    have hsize : (units (j + 1) : ℚ) ≤ 9007199254740992 * twoPow (scale j) := by
      exact_mod_cast units_succ_le j
    have hdigits : (10 : ℚ) ^ (16 : Int) = 10000000000000000 := by norm_num
    rw [zpow_add₀ (by norm_num), hdigits, ← mul_assoc] at hp
    linarith only [hp, hsize, hpos]
  have hlow : (lower (j + 1) : ℚ) = 2 * units (j + 1) - twoPow (scale j) := by
    rw [lower, Nat.add_sub_cancel, units_succ]
    push_cast
    ring
  have hhigh : (lower (j + 1 + 1) : ℚ) = 2 * units (j + 1) + twoPow (scale (j + 1)) := by
    rw [lower, Nat.add_sub_cancel, units_succ (j + 1)]
    push_cast
    ring
  obtain ⟨hbelow, habove⟩ := abs_le.mp (neighbours_near tie (j + 1) p)
  refine Reads.of_lt ?_ ?_
  · rw [hlow]
    linarith
  · rw [hhigh]
    linarith

theorem shortestFrom_reads {tie : Tie} {k : Nat} (hk : k ≠ 0) {more : Nat} {p : Int}
    (hp : unitsPerOne * (10 : ℚ) ^ (p - more + 16) ≤ units k) :
    Reads (shortestFrom tie k more p).value k := by
  induction more generalizing p with
  | zero =>
    rw [Nat.cast_zero, sub_zero] at hp
    exact neighbours_reads tie hk hp
  | succ more ih =>
    rw [shortestFrom]
    obtain ⟨near, far⟩ := neighbours tie k p
    dsimp only
    split_ifs with hnear hfar
    · exact Decimal.readsAs_iff.mp hnear
    · exact Decimal.readsAs_iff.mp hfar
    · refine ih ?_
      rwa [show p - 1 - (more : Int) = p - (more + 1 : Nat) by omega]

theorem value_shortest_zero (tie : Tie) : (shortest tie 0).value = 0 := by
  simp [shortest, Decimal.value]

/-- The shortest decimal of a number reads back. -/
theorem reads_shortest (tie : Tie) (k : Nat) : Reads (shortest tie k).value k := by
  by_cases hk : k = 0
  · subst hk
    have hzero : lower 0 = 0 := by rw [lower, units_of_lt (twoPow_pos 52)]
    rw [value_shortest_zero, Reads, if_pos rfl, hzero, zero_mul, Nat.cast_zero]
    exact ⟨le_refl 0, Nat.cast_nonneg _⟩
  · rw [shortest, if_neg hk, Decimal.value_trim]
    refine shortestFrom_reads hk ?_
    have hpos : units k ≠ 0 := by
      obtain ⟨j, rfl⟩ := Nat.exists_eq_succ_of_ne_zero hk
      exact Nat.ne_of_gt (Nat.zero_lt_of_lt (units_lt_succ j))
    have hlast : magnitude k - (16 : Nat) + 16 = magnitude k := Int.sub_add_cancel _ _
    rw [hlast]
    exact tenPow_magnitude_le hpos

theorem shortest_value_inj {tie : Tie} {k l : Nat}
    (h : (shortest tie k).value = (shortest tie l).value) : k = l :=
  (reads_shortest tie k).unique (h ▸ reads_shortest tie l)

end Binary64

end SqlScript
