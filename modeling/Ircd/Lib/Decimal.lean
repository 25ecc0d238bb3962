import Mathlib.Data.Nat.Digits.Lemmas

/-!
# Decimals of a fixed width

The last digits of a number, with zeros in front where the number has fewer. They are written from pieces, and without
their zeros they are the number.
-/
namespace Ircd

/-- The last `width` decimal digits of a number. -/
def padded : ℕ → ℕ → List Char
  | 0, _ => []
  | width + 1, n => padded width (n / 10) ++ [(n % 10).digitChar]

/-- The digits in two pieces. -/
theorem padded_add (high low n : ℕ) : padded (high + low) n = padded high (n / 10 ^ low) ++ padded low n := by
  induction low generalizing n with
  | zero => simp [padded]
  | succ low ih => rw [← add_assoc, padded, padded, ih, Nat.div_div_eq_div_mul, ← pow_succ', List.append_assoc]

/-- Digits further to the left do not matter. -/
theorem padded_mod (width n : ℕ) : padded width (n % 10 ^ width) = padded width n := by
  induction width generalizing n with
  | zero => rfl
  | succ width ih =>
    have high : n % 10 ^ (width + 1) / 10 = n / 10 % 10 ^ width := by
      rw [pow_succ', Nat.mod_mul_right_div_self]
    have low : n % 10 ^ (width + 1) % 10 = n % 10 := Nat.mod_mod_of_dvd n (dvd_pow_self 10 (by omega))
    rw [padded, padded, high, low, ih]

theorem padded_zero (width : ℕ) : padded width 0 = List.replicate width '0' := by
  induction width with
  | zero => rfl
  | succ width ih => rw [padded, Nat.zero_div, ih, List.replicate_succ']; rfl

/-- A number with its zeros in front. -/
theorem padded_eq {width n : ℕ} (some_ : 0 < width) (fits : n < 10 ^ width) :
    padded width n = List.replicate (width - (Nat.toDigits 10 n).length) '0' ++ Nat.toDigits 10 n := by
  induction width generalizing n with
  | zero => omega
  | succ width ih =>
    rw [padded]
    by_cases one : n < 10
    · rw [Nat.div_eq_of_lt one, Nat.mod_eq_of_lt one, padded_zero, Nat.toDigits_of_lt_base one]
      rfl
    · have wide : 0 < width := by
        rcases Nat.eq_zero_or_pos width with rfl | wide
        · simp at fits
          omega
        · exact wide
      have smaller : n / 10 < 10 ^ width := Nat.div_lt_of_lt_mul (by rw [pow_succ'] at fits; exact fits)
      rw [ih wide smaller, Nat.toDigits_of_base_le (by omega) (by omega : 10 ≤ n), List.length_append,
        List.length_singleton, Nat.add_sub_add_right, List.append_assoc]

/-- The first digit of a number is not a zero. -/
theorem head_toDigits {n : ℕ} (some_ : 0 < n) : ∃ c rest, Nat.toDigits 10 n = c :: rest ∧ c ≠ '0' := by
  induction n using Nat.strong_induction_on with
  | _ n ih =>
    by_cases one : n < 10
    · refine ⟨n.digitChar, [], Nat.toDigits_of_lt_base one, ?_⟩
      interval_cases n <;> decide
    · obtain ⟨c, rest, digits, first⟩ := ih (n / 10) (by omega) (by omega)
      exact ⟨c, rest ++ [(n % 10).digitChar], by
        rw [Nat.toDigits_of_base_le (by omega) (by omega), digits, List.cons_append], first⟩

/-- Without its zeros a padded number is the number. -/
theorem dropWhile_padded {width n : ℕ} (some_ : 0 < n) (fits : n < 10 ^ width) :
    (padded width n).dropWhile (· == '0') = Nat.toDigits 10 n := by
  have wide : 0 < width := by
    rcases Nat.eq_zero_or_pos width with rfl | wide
    · simp at fits
      omega
    · exact wide
  obtain ⟨c, rest, digits, first⟩ := head_toDigits some_
  rw [padded_eq wide fits, List.dropWhile_append, List.dropWhile_replicate, digits]
  simp [first]

end Ircd
