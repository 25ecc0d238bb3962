import Mathlib.Algebra.Ring.Int.Defs
import Mathlib.Algebra.Ring.Nat
import Mathlib.Data.List.Basic

/-!
# Strings

C strings are lists of characters without the terminating NUL. Case is that of the tables
in `src/match.c`: `{|}~` are the lower case of `[\]^`.
-/
namespace Ircd

theorem toNat_charOfNat (n : ℕ) (small : n < 256) : (Char.ofNat n).toNat = n := by
  have valid : n.isValidChar := Or.inl (by omega)
  rw [Char.ofNat, dif_pos valid]
  rfl

/-- `ToLower`. -/
def toLower (c : Char) : Char :=
  if 'A' ≤ c ∧ c ≤ '^' then Char.ofNat (c.toNat + 32) else c

/-- `ToUpper`. -/
def toUpper (c : Char) : Char :=
  if 'a' ≤ c ∧ c ≤ '~' then Char.ofNat (c.toNat - 32) else c

/-- `irccmp` finds no difference. -/
def IrcEq (s t : List Char) : Prop := s.map toUpper = t.map toUpper

instance (s t : List Char) : Decidable (IrcEq s t) :=
  inferInstanceAs (Decidable (s.map toUpper = t.map toUpper))

theorem IrcEq.refl (s : List Char) : IrcEq s s := rfl

theorem IrcEq.symm {s t : List Char} (equal : IrcEq s t) : IrcEq t s := Eq.symm equal

theorem IrcEq.length_eq {s t : List Char} (equal : IrcEq s t) : s.length = t.length := by
  simpa using congrArg List.length equal

theorem IrcEq.trans {s t u : List Char} (left : IrcEq s t) (right : IrcEq t u) : IrcEq s u :=
  Eq.trans left right

/-- A character below the letters is its own upper case, and that of no other. -/
theorem eq_of_toUpper {c d : Char} (equal : toUpper c = d) (low : d.toNat < 65) : c = d := by
  unfold toUpper at equal
  split at equal
  · rename_i lower
    have least : 97 ≤ c.toNat := lower.1
    have most : c.toNat ≤ 126 := lower.2
    rw [← equal, toNat_charOfNat _ (by omega)] at low
    omega
  · exact equal

theorem toLower_toUpper (c : Char) : toLower (toUpper c) = toLower c := by
  unfold toUpper
  split
  next lower =>
    have least : 97 ≤ c.toNat := lower.1
    have most : c.toNat ≤ 126 := lower.2
    have value : (Char.ofNat (c.toNat - 32)).toNat = c.toNat - 32 := toNat_charOfNat _ (by omega)
    have upper : 'A' ≤ Char.ofNat (c.toNat - 32) ∧ Char.ofNat (c.toNat - 32) ≤ '^' := by
      constructor
      · change 65 ≤ (Char.ofNat (c.toNat - 32)).toNat
        omega
      · change (Char.ofNat (c.toNat - 32)).toNat ≤ 94
        omega
    have notUpper : ¬('A' ≤ c ∧ c ≤ '^') := by
      rintro ⟨-, below⟩
      have : c.toNat ≤ 94 := below
      omega
    unfold toLower
    rw [if_pos upper, if_neg notUpper, value, Nat.sub_add_cancel (by omega), Char.ofNat_toNat]
  · rfl

theorem IrcEq.map_toLower {s t : List Char} (equal : IrcEq s t) : s.map toLower = t.map toLower := by
  have lower : ∀ text : List Char, text.map toLower = (text.map toUpper).map toLower := by
    intro text
    rw [List.map_map]
    exact List.map_congr_left fun c _ => (toLower_toUpper c).symm
  rw [lower s, lower t, equal]

/-- The white space of the C library. -/
def isSpace (c : Char) : Bool := c == ' ' || ('\t' ≤ c && c ≤ '\r')

/-- What `strtol` and `strtoul` see in a text: a sign, digits, and the text behind them. -/
structure Numeral where
  negative : Bool
  digits : List Char
  after : List Char

def numeral (text : List Char) : Numeral :=
  let unspaced := text.dropWhile isSpace
  let negative := unspaced.head? = some '-'
  let number := if negative ∨ unspaced.head? = some '+' then unspaced.tail else unspaced
  ⟨negative, number.takeWhile Char.isDigit, number.dropWhile Char.isDigit⟩

/-- `strtoul` in base ten: the value and the text behind it. -/
def strtoul (text : List Char) : ℕ × List Char :=
  let n := numeral text
  if n.digits = [] then (0, text)
  else
    let value := Nat.ofDigitChars 10 n.digits 0
    (if value ≥ 2 ^ 64 then 2 ^ 64 - 1 else if n.negative then (2 ^ 64 - value) % 2 ^ 64 else value,
      n.after)

/-- `atol`. A value that does not fit is replaced by the nearest that does. -/
def atol (text : List Char) : ℤ :=
  let n := numeral text
  let value := Nat.ofDigitChars 10 n.digits 0
  if n.negative then max (-value) (-2 ^ 63) else min value (2 ^ 63 - 1)

/-- A value as it is stored in an `int`. -/
def toInt (value : ℤ) : ℤ := Int.bmod value (2 ^ 32)

/-- `atoi`. -/
def atoi (text : List Char) : ℤ := toInt (atol text)

/-- `%d`. -/
def printD (value : ℤ) : List Char :=
  if value < 0 then '-' :: Nat.toDigits 10 value.natAbs else Nat.toDigits 10 value.natAbs

/-- `%lu`: nine digits, and one character for what is left in front of them. -/
def printLu (value : ℕ) : List Char :=
  let low := Nat.toDigits 10 (value % 10 ^ 9)
  (if value > 999999999 then [Char.ofNat (('0'.toNat + value / 10 ^ 9) % 256)] else []) ++
    List.replicate (9 - low.length) '0' ++ low

end Ircd
