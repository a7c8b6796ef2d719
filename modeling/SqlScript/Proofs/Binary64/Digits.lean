import Mathlib.Tactic.Ring
import SqlScript.Binary64.Decimal

/-!
# Digits

Every whole number is the value of some digits, among others of those that it is written in
(`digitsValue_toDigits`), with as many of them behind a point as one likes (`exists_places`).
-/

namespace SqlScript

/-- Digits in front count as much more as there are digits behind them. -/
theorem digitsValue_append (xs ys : List Char) :
    digitsValue (xs ++ ys) = digitsValue xs * 10 ^ ys.length + digitsValue ys := by
  rw [Nat.mul_comm]
  exact (Nat.ofDigitChars_append 0).trans Nat.ofDigitChars_eq_ofDigitChars_zero

theorem digitsValue_zeros (n : Nat) : digitsValue (List.replicate n '0') = 0 := by
  have hzeros : digitsValue (List.replicate n '0') = 10 ^ n * 0 := Nat.ofDigitChars_replicate_zero
  rwa [Nat.mul_zero] at hzeros

/-! ## The digits of a number -/

/-- A number is what its digits stand for. -/
theorem digitsValue_toDigits (n : Nat) : digitsValue (Nat.toDigits 10 n) = n :=
  Nat.ofDigitChars_ten_toDigits

/-- A number is written in digits only. -/
theorem isDigit_toDigits {n : Nat} : ∀ c ∈ Nat.toDigits 10 n, c.isDigit = true :=
  fun _ hc => Nat.isDigit_of_mem_toDigits (by decide) (by decide) hc

theorem toDigits_ne_nil (n : Nat) : Nat.toDigits 10 n ≠ [] :=
  List.ne_nil_of_length_pos Nat.length_toDigits_pos

/-- How many digits a number has is known without writing it. -/
theorem length_toDigits {n : Nat} (h : n ≠ 0) :
    (Nat.toDigits 10 n).length = decimalLength n := by
  fun_induction decimalLength n with
  | case1 => exact absurd rfl h
  | case2 n _ ih =>
    by_cases hn : n < 10
    · rw [Nat.toDigits_of_lt_base hn, Nat.div_eq_of_lt hn, decimalLength, if_pos rfl]
      rfl
    · have hlen := ih (by omega)
      rw [Nat.toDigits_of_base_le (by decide) (Nat.not_lt.mp hn), List.length_append, hlen]
      rfl

/-! ## Numbers with places -/

/-- Every number below ten has a digit. -/
theorem exists_digit {d : Nat} (h : d < 10) :
    ∃ c : Char, c.isDigit = true ∧ digitsValue [c] = d := by
  have hall : ∀ d < 10, (Nat.digitChar d).isDigit = true ∧
      digitsValue [Nat.digitChar d] = d := by decide
  exact ⟨Nat.digitChar d, hall d h⟩

/-- Digits with a given number of them behind the point. -/
theorem exists_places (n places : Nat) :
    ∃ whole fraction, whole ≠ [] ∧ (∀ c ∈ whole, c.isDigit = true) ∧
      (∀ c ∈ fraction, c.isDigit = true) ∧ fraction.length = places ∧
      digitsValue (whole ++ fraction) = n := by
  induction places generalizing n with
  | zero =>
    refine ⟨Nat.toDigits 10 n, [], toDigits_ne_nil n, isDigit_toDigits, by simp, rfl, ?_⟩
    rw [List.append_nil, digitsValue_toDigits]
  | succ places ih =>
    obtain ⟨c, hc, hdigit⟩ := exists_digit (Nat.mod_lt n (by decide : 0 < 10))
    obtain ⟨whole, fraction, hne, hwhole, hfraction, hlength, hvalue⟩ := ih (n / 10)
    refine ⟨whole, fraction ++ [c], hne, hwhole, ?_, by simp [hlength], ?_⟩
    · simpa [or_imp, forall_and] using ⟨hfraction, hc⟩
    · rw [← List.append_assoc, digitsValue_append, hvalue, hdigit]
      exact Nat.div_add_mod' n 10

end SqlScript
