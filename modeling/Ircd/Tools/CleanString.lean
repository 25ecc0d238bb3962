import Mathlib.Algebra.BigOperators.Group.List.Basic
import Mathlib.Algebra.Ring.Nat
import Mathlib.Data.List.Infix

/-!
# Cleaned strings

`clean_string` of `src/irc_string.c`: what is printable is copied, and what is not is written with one or two other
characters. The room that is left is counted in a `size_t` of `w` bits, which are sixteen at least.
-/
namespace Ircd.CleanString

/-- `IsPrint`, by the table `CharAttrs`. -/
def isPrint (c : UInt8) : Bool := 0x20 ≤ c && c ≤ 0x7E

variable {w : ℕ}

/-- The loop of `clean_string`: what is written with room for `len` more. -/
def cleanLoop (len : BitVec w) : List UInt8 → List UInt8
  | [] => []
  | c :: src =>
    if c = 0 ∨ len = 0 then []
    else if c &&& 0x80 ≠ 0 then 46 :: cleanLoop (len - 1#w - 1#w) src
    else if !isPrint c then 94 :: (0x40 + c) :: cleanLoop (len - 1#w - 1#w) src
    else c :: cleanLoop (len - 1#w) src

/-- `clean_string`: all that is written to `dest`. -/
def cleanString (src : List UInt8) (len : BitVec w) : List UInt8 := cleanLoop (len - 3#w) src ++ [0]

/-! ### What is promised -/

/-- A control character of ASCII, or of the same characters with the high bit. -/
def isControl (c : UInt8) : Bool := c < 0x20 || (0x7F ≤ c && c < 0xA0)

/-- What is written stays in a buffer, and the string has no control characters. -/
structure Clean (dest : List UInt8) (len : ℕ) : Prop where
  fits : dest.length ≤ len
  plain : ∀ c ∈ dest.dropLast, isControl c = false

/-- What is written for a character. -/
def clean (c : UInt8) : List UInt8 :=
  if c &&& 0x80 ≠ 0 then [46] else if !isPrint c then [94, 0x40 + c] else [c]

/-- What the counter loses for a character. -/
def spend (c : UInt8) : ℕ := if c &&& 0x80 ≠ 0 ∨ isPrint c = false then 2 else 1

/-- What the counter loses for a text. -/
def spent (text : List UInt8) : ℕ := (text.map spend).sum

/-! ### The loop -/

theorem cleanLoop_cons {c : UInt8} {len : BitVec w} {src : List UInt8} (real : c ≠ 0) (room : len ≠ 0) :
    cleanLoop len (c :: src) = clean c ++ cleanLoop (len - BitVec.ofNat w (spend c)) src := by
  have twice : len - 1#w - 1#w = len - BitVec.ofNat w 2 := by
    rw [BitVec.sub_sub, ← BitVec.ofNat_add]
  have goes : ¬(c = 0 ∨ len = 0) := not_or.mpr ⟨real, room⟩
  rw [cleanLoop, if_neg goes]
  by_cases high : c &&& 0x80 ≠ 0
  · simp [clean, spend, high, twice]
  · cases print : isPrint c with
    | true => simp [clean, spend, high, print]
    | false => simp [clean, spend, high, print, twice]

theorem spent_cons (c : UInt8) (text : List UInt8) : spent (c :: text) = spend c + spent text := by
  rw [spent, List.map_cons, List.sum_cons, ← spent]

/-- The loop takes characters until the source is at its end or the counter is at zero. -/
theorem cleanLoop_cases (len : BitVec w) (src : List UInt8) : ∃ front back,
    src.takeWhile (· ≠ 0) = front ++ back ∧ cleanLoop len src = front.flatMap clean ∧
      (back = [] ∨ len = BitVec.ofNat w (spent front)) ∧
      ∀ less, less <+: front → less ≠ front → len ≠ BitVec.ofNat w (spent less) := by
  induction src generalizing len with
  | nil => exact ⟨[], [], rfl, rfl, .inl rfl, fun less before other => absurd (List.prefix_nil.mp before) other⟩
  | cons c src ih =>
    by_cases nul : c = 0
    · refine ⟨[], [], by simp [nul], by simp [cleanLoop, nul], .inl rfl, fun less before other => ?_⟩
      exact absurd (List.prefix_nil.mp before) other
    by_cases zero : len = 0
    · refine ⟨[], c :: src.takeWhile (· ≠ 0), by simp [nul], by simp [cleanLoop, zero], .inr zero, ?_⟩
      exact fun less before other => absurd (List.prefix_nil.mp before) other
    obtain ⟨front, back, split, written, ends, before⟩ := ih (len - BitVec.ofNat w (spend c))
    have counted (text : List UInt8) : len - BitVec.ofNat w (spend c) = BitVec.ofNat w (spent text) ↔
        len = BitVec.ofNat w (spent (c :: text)) := by
      rw [spent_cons, Nat.add_comm, BitVec.ofNat_add]
      exact BitVec.sub_eq_iff_eq_add
    refine ⟨c :: front, back, ?_, ?_, ?_, ?_⟩
    · rw [List.takeWhile_cons_of_pos (by simpa using nul), split, List.cons_append]
    · rw [cleanLoop_cons nul zero, written, List.flatMap_cons]
    · exact ends.imp_right (counted front).mp
    · intro less shorter other
      rcases List.prefix_cons_iff.mp shorter with rfl | ⟨less', rfl, shorter'⟩
      · exact zero
      · intro here
        exact before less' shorter' (fun same => other (same ▸ rfl)) ((counted less').mpr here)

/-! ### How much is written -/

theorem length_clean (c : UInt8) : 1 ≤ (clean c).length ∧ (clean c).length ≤ spend c ∧ spend c ≤ 2 := by
  by_cases high : c &&& 0x80 ≠ 0
  · simp [clean, spend, high]
  · cases print : isPrint c <;> simp [clean, spend, high, print]

/-- A text is at most twice as dear as it is long, and what is written for it lies between. -/
theorem length_flatMap_clean (text : List UInt8) : text.length ≤ (text.flatMap clean).length ∧
    (text.flatMap clean).length ≤ spent text ∧ spent text ≤ 2 * text.length := by
  induction text with
  | nil => decide
  | cons c text ih =>
    have one := length_clean c
    rw [spent_cons, List.flatMap_cons, List.length_append, List.length_cons]
    omega

theorem spent_append (text more : List UInt8) : spent (text ++ more) = spent text + spent more := by
  rw [spent, List.map_append, List.sum_append, ← spent, ← spent]

theorem isControl_eq_false_iff (c : UInt8) :
    isControl c = false ↔ 32 ≤ c.toNat ∧ (c.toNat < 127 ∨ 160 ≤ c.toNat) := by
  simp only [isControl, Bool.or_eq_false_iff, Bool.and_eq_false_iff, decide_eq_false_iff_not,
    UInt8.le_iff_toNat_le, UInt8.lt_iff_toNat_lt, Nat.not_lt, Nat.not_le]
  rfl

theorem isPrint_iff (c : UInt8) : isPrint c = true ↔ 32 ≤ c.toNat ∧ c.toNat ≤ 126 := by
  simp only [isPrint, Bool.and_eq_true, decide_eq_true_eq, UInt8.le_iff_toNat_le]
  rfl

/-- A character without the high bit is below it. -/
theorem toNat_lt_of_low {c : UInt8} (low : c &&& 0x80 = 0) : c.toNat < 128 := by
  by_contra high
  have bit : (c.toNat &&& 128).testBit 7 = true := by
    rw [Nat.testBit_and, Nat.testBit_eq_decide_div_mod_eq]
    have below := c.toNat_lt
    have one : c.toNat / 2 ^ 7 % 2 = 1 := by omega
    rw [one]
    rfl
  have none : c.toNat &&& 128 = 0 := congrArg UInt8.toNat low
  rw [none] at bit
  cases bit

theorem clean_plain (c : UInt8) : ∀ d ∈ clean c, isControl d = false := by
  intro d member
  unfold clean at member
  split at member
  · obtain rfl := List.mem_singleton.mp member
    rfl
  · next low =>
    have below := toNat_lt_of_low (not_not.mp low)
    rw [isControl_eq_false_iff]
    split at member
    · next unprintable =>
      -- a control character of ASCII is 64 below what is written for it
      have outside := (isPrint_iff c).not.mp (by simpa using unprintable)
      rcases List.mem_cons.mp member with rfl | rest
      · exact ⟨by decide, .inl (by decide)⟩
      · obtain rfl := List.mem_singleton.mp rest
        rw [UInt8.toNat_add]
        have shown : UInt8.toNat 0x40 = 64 := rfl
        omega
    · next print =>
      obtain rfl := List.mem_singleton.mp member
      have inside := (isPrint_iff d).mp (by simpa using print)
      omega

/-! ### The buffer -/

theorem counter_eq_iff (len : BitVec w) (n : ℕ) : len - 3#w = BitVec.ofNat w n ↔ (n + 3) % 2 ^ w = len.toNat := by
  rw [BitVec.sub_eq_iff_eq_add, ← BitVec.ofNat_add, ← BitVec.toNat_inj, BitVec.toNat_ofNat, eq_comm]

/-- A counter that has gone past zero does not get there again before the buffer is full. -/
theorem spent_of_fits (wide : 16 ≤ w) {len : BitVec w} {front : List UInt8}
    (zero : (spent front + 3) % 2 ^ w = len.toNat)
    (before : ∀ less, less <+: front → less ≠ front → (spent less + 3) % 2 ^ w ≠ len.toNat)
    (fits : (front.flatMap clean).length + 1 ≤ len.toNat) : spent front + 3 = len.toNat := by
  by_contra other
  have small := len.isLt
  have size := length_flatMap_clean front
  have rounds := Nat.div_add_mod (spent front + 3) (2 ^ w)
  have past : 2 ^ w ≤ 2 ^ w * ((spent front + 3) / 2 ^ w) := by
    refine Nat.le_mul_of_pos_right _ (Nat.pos_of_ne_zero fun none => other ?_)
    rw [none, Nat.mul_zero, Nat.zero_add, zero] at rounds
    exact rounds.symm
  obtain ⟨v, rfl⟩ : ∃ v, w = v + 2 := ⟨w - 2, by omega⟩
  have some_ : 0 < 2 ^ v := Nat.two_pow_pos v
  have four : 2 ^ (v + 2) = 4 * 2 ^ v := by
    rw [pow_succ, pow_succ]
    omega
  rw [zero] at rounds
  rw [four] at small past before rounds
  generalize 4 * 2 ^ v * ((spent front + 3) / (4 * 2 ^ v)) = round at past rounds
  generalize 2 ^ v = m at *
  -- all characters have the high bit then, and the counter has been at zero half the way before
  have whole := spent_append (front.take (2 * m - 2)) (front.drop (2 * m - 2))
  have first := length_flatMap_clean (front.take (2 * m - 2))
  have second := length_flatMap_clean (front.drop (2 * m - 2))
  rw [List.take_append_drop] at whole
  rw [List.length_take] at first
  rw [List.length_drop] at second
  refine before (front.take (2 * m - 2)) (List.take_prefix _ _) (fun all => ?_) ?_
  · have lengths := congrArg List.length all
    rw [List.length_take] at lengths
    omega
  · rw [Nat.mod_eq_of_lt] <;> omega

/-- `clean_string` stays in the buffer exactly if all of the clean text fits in there, or the counter, which starts at
three less than the room, is at zero behind some front of the source. -/
theorem cleanString_clean_iff (wide : 16 ≤ w) (src : List UInt8) (len : BitVec w) :
    Clean (cleanString src len) len.toNat ↔
      ((src.takeWhile (· ≠ 0)).flatMap clean).length + 1 ≤ len.toNat ∨
        ∃ front, front <+: src.takeWhile (· ≠ 0) ∧ spent front + 3 = len.toNat := by
  obtain ⟨front, back, split, written, ends, before⟩ := cleanLoop_cases (len - 3#w) src
  have size : (cleanString src len).length = (front.flatMap clean).length + 1 := by
    rw [cleanString, written, List.length_append, List.length_singleton]
  have inside : front <+: src.takeWhile (· ≠ 0) := split ▸ List.prefix_append _ _
  simp only [counter_eq_iff, ne_eq] at ends before
  constructor
  · intro cleaned
    have fits := cleaned.fits
    rw [size] at fits
    rcases ends with none | zero
    · left
      rw [split, none, List.append_nil]
      exact fits
    · exact .inr ⟨front, inside, spent_of_fits wide zero before fits⟩
  · intro enough
    constructor
    · rw [size]
      rcases enough with all | ⟨less, shorter, stops⟩
      · rw [split, List.flatMap_append, List.length_append] at all
        omega
      · -- the loop does not get past the front that takes the counter to zero
        have inFront : front <+: less := by
          rcases List.prefix_or_prefix_of_prefix inside shorter with inFront | beyond
          · exact inFront
          · by_cases same : less = front
            · exact same ▸ List.prefix_rfl
            · exact absurd (stops ▸ Nat.mod_eq_of_lt (stops ▸ len.isLt)) (before less beyond same)
        obtain ⟨more, rfl⟩ := inFront
        have cost := length_flatMap_clean front
        rw [spent_append] at stops
        omega
    · intro c member
      rw [cleanString, written, List.dropLast_concat] at member
      obtain ⟨c', -, member'⟩ := List.mem_flatMap.mp member
      exact clean_plain c' c member'

/-- A mask of `LINKS` that is as long as its buffer has room for. -/
theorem cleanString_clean_iff_short : Clean (cleanString [97, 7, 98] 126#64) 126 :=
  (cleanString_clean_iff (by decide) [97, 7, 98] 126#64).mpr (.inl (by decide))

/-- A mask of `LINKS` with one character of high value where the counter is at one. -/
theorem links_mask_overruns :
    ¬Clean (cleanString (List.replicate 122 97 ++ 0xE4 :: List.replicate 12 97) 126#64) 126 := by
  intro cleaned
  have fits := cleaned.fits
  revert fits
  decide +kernel

end Ircd.CleanString
