import Ircd.Text
import Mathlib.Data.Nat.Digits.Lemmas
import Mathlib.Data.List.TakeWhile

/-!
# Numbers in text

What `%lu` and `%d` write, `atol` reads back.
-/
namespace Ircd

/-- A text of digits. -/
def AllDigits (text : List Char) : Prop := text ≠ [] ∧ ∀ c ∈ text, c.isDigit = true

theorem isDigit_iff (c : Char) : c.isDigit = true ↔ '0' ≤ c ∧ c ≤ '9' := by
  simp [Char.isDigit, Char.le_def]

theorem not_isSpace_of_digit {c : Char} (digit : c.isDigit = true) :
    isSpace c = false ∧ c ≠ '-' ∧ c ≠ '+' := by
  obtain ⟨low, high⟩ := (isDigit_iff c).mp digit
  have low' : 48 ≤ c.toNat := low
  have high' : c.toNat ≤ 57 := high
  have other : ∀ d : Char, d.toNat < 48 → c ≠ d := by
    rintro d less rfl
    omega
  refine ⟨?_, other '-' (by decide), other '+' (by decide)⟩
  unfold isSpace
  have notSpace := other ' ' (by decide)
  have notControl : ¬ c ≤ '\r' := by
    intro less
    have : c.toNat ≤ 13 := less
    omega
  simp [notSpace, notControl]

theorem allDigits_toDigits (n : ℕ) : AllDigits (Nat.toDigits 10 n) :=
  ⟨Nat.toDigits_ne_nil, fun _ member => Nat.isDigit_of_mem_toDigits (by decide) (by decide) member⟩

theorem numeral_digits {text : List Char} (digits : AllDigits text) :
    numeral text = ⟨false, text, []⟩ := by
  obtain ⟨nonempty, all⟩ := digits
  cases text with
  | nil => exact absurd rfl nonempty
  | cons c text =>
    obtain ⟨noSpace, noMinus, noPlus⟩ := not_isSpace_of_digit (all c (by simp))
    have taken : (c :: text).takeWhile Char.isDigit = c :: text := List.takeWhile_eq_self_iff.mpr all
    have dropped : (c :: text).dropWhile Char.isDigit = [] := List.dropWhile_eq_nil_iff.mpr all
    unfold numeral
    rw [List.dropWhile_cons_of_neg (by simp [noSpace])]
    simp [noMinus, noPlus, taken, dropped]

theorem numeral_minus {text : List Char} (digits : AllDigits text) :
    numeral ('-' :: text) = ⟨true, text, []⟩ := by
  obtain ⟨-, all⟩ := digits
  have taken : text.takeWhile Char.isDigit = text := List.takeWhile_eq_self_iff.mpr all
  have dropped : text.dropWhile Char.isDigit = [] := List.dropWhile_eq_nil_iff.mpr all
  unfold numeral
  rw [List.dropWhile_cons_of_neg (by decide)]
  simp [taken, dropped]

theorem atol_digits {text : List Char} (digits : AllDigits text)
    (small : Nat.ofDigitChars 10 text 0 < 2 ^ 63) : atol text = Nat.ofDigitChars 10 text 0 := by
  unfold atol
  simp only [numeral_digits digits, Bool.false_eq_true, if_false]
  omega

/-- `%d` and `atol`. -/
theorem atol_printD {value : ℤ} (low : -2 ^ 31 ≤ value) (high : value < 2 ^ 31) :
    atol (printD value) = value := by
  unfold printD
  by_cases negative : value < 0
  · rw [if_pos negative]
    unfold atol
    simp only [numeral_minus (allDigits_toDigits _), if_true, Nat.ofDigitChars_ten_toDigits]
    omega
  · rw [if_neg negative, atol_digits (allDigits_toDigits _)]
    · rw [Nat.ofDigitChars_ten_toDigits]
      omega
    · rw [Nat.ofDigitChars_ten_toDigits]
      omega

/-- The nine digits of `%lu`. -/
theorem allDigits_low (value : ℕ) :
    AllDigits (List.replicate (9 - (Nat.toDigits 10 value).length) '0' ++ Nat.toDigits 10 value) := by
  refine ⟨by simp [Nat.toDigits_ne_nil], fun c member => ?_⟩
  rcases List.mem_append.mp member with zero | digit
  · obtain rfl := (List.mem_replicate.mp zero).2
    decide
  · exact (allDigits_toDigits _).2 c digit

/-- `%lu` gives digits, with one character in front of them if the number is long. -/
theorem printLu_split (value : ℕ) :
    ∃ digits, AllDigits digits ∧ (printLu value = digits ∨ ∃ c, printLu value = c :: digits) := by
  refine ⟨_, allDigits_low (value % 10 ^ 9), ?_⟩
  unfold printLu
  dsimp only
  rw [List.append_assoc]
  split
  · exact Or.inr ⟨_, rfl⟩
  · exact Or.inl rfl

/-- The first character of `%lu` is a digit as long as the number has at most ten. -/
theorem allDigits_printLu {value : ℕ} (small : value < 10 ^ 10) : AllDigits (printLu value) := by
  have low := allDigits_low (value % 10 ^ 9)
  unfold printLu
  dsimp only
  rw [List.append_assoc]
  refine ⟨by simp, fun c member => ?_⟩
  rcases List.mem_append.mp member with first | rest
  · split at first
    · obtain rfl := List.mem_singleton.mp first
      have : value / 10 ^ 9 < 10 := by omega
      interval_cases value / 10 ^ 9 <;> decide
    · cases first
  · exact low.2 c rest

/-- The value of what `%lu` writes. -/
theorem ofDigitChars_printLu {value : ℕ} (small : value < 10 ^ 10) :
    Nat.ofDigitChars 10 (printLu value) 0 = value := by
  unfold printLu
  dsimp only
  rw [Nat.ofDigitChars_append, Nat.ofDigitChars_append, Nat.ofDigitChars_replicate_zero,
    Nat.ofDigitChars_eq_ofDigitChars_zero, Nat.ofDigitChars_ten_toDigits]
  have width : (Nat.toDigits 10 (value % 10 ^ 9)).length ≤ 9 :=
    (Nat.length_toDigits_le_iff (by decide) (by decide)).mpr (Nat.mod_lt _ (by decide))
  rw [← mul_assoc, ← pow_add, Nat.add_sub_cancel' width]
  split
  · have digit : Nat.ofDigitChars 10 [Char.ofNat (('0'.toNat + value / 10 ^ 9) % 256)] 0 =
        value / 10 ^ 9 := by
      have : value / 10 ^ 9 < 10 := by omega
      interval_cases value / 10 ^ 9 <;> rfl
    rw [digit]
    exact Nat.div_add_mod _ _
  · rw [Nat.ofDigitChars_nil]
    omega

/-- `%lu` and `atol`. -/
theorem atol_printLu {value : ℕ} (small : value < 10 ^ 10) : atol (printLu value) = value := by
  have number := ofDigitChars_printLu small
  rw [atol_digits (allDigits_printLu small) (by rw [number]; omega), number]

/-! ### Lengths -/

/-- Nine digits, and ten from 1000000000 on. -/
theorem length_printLu (v : ℕ) : (printLu v).length = (if 999999999 < v then 1 else 0) + 9 := by
  have low : (Nat.toDigits 10 (v % 10 ^ 9)).length ≤ 9 :=
    (Nat.length_toDigits_le_iff (by decide) (by decide)).mpr (Nat.mod_lt _ (by decide))
  unfold printLu
  by_cases long : v > 999999999
  · simp only [if_pos long, List.length_append, List.length_replicate, List.length_singleton]
    omega
  · simp only [if_neg long, List.length_append, List.length_replicate, List.length_nil]
    omega

theorem length_printLu_le (value : ℕ) : (printLu value).length ≤ 10 := by
  rw [length_printLu]
  split <;> omega

theorem length_printD_le {value : ℤ} (low : -2 ^ 31 ≤ value) (high : value < 2 ^ 31) :
    (printD value).length ≤ 11 := by
  have digits : (Nat.toDigits 10 value.natAbs).length ≤ 10 :=
    (Nat.length_toDigits_le_iff (by decide) (by decide)).mpr (by omega)
  unfold printD
  split
  · rw [List.length_cons]
    omega
  · omega

end Ircd
