import Ircd.Numbers
import Ircd.Lib.Decimal
import Mathlib.Tactic.IntervalCases

/-!
# `ircsprintf`

`vsprintf_irc` of `src/sprintf_irc.c` has its own conversions of numbers, three digits at a time. It is compared with
`sprintf` on the formats that it does itself; for another one it calls the C library.
-/
namespace Ircd.Sprintf

/-- What a caller passes. A `char` is passed as an `int`. -/
inductive Arg
  | str (text : List Char)
  | int (value : BitVec 32)
  | long (value : BitVec 64)
  deriving DecidableEq, Repr

/-! ### Numbers -/

/-- `atoi_tab`: for each number below a thousand its three digits and a NUL. -/
def atoiTab (i : ℕ) : Char :=
  match i % 4 with
  | 0 => (i / 4 / 100).digitChar
  | 1 => (i / 4 / 10 % 10).digitChar
  | 2 => (i / 4 % 10).digitChar
  | _ => '\x00'

/-- The three characters behind `atoi_tab + (v << 2)`. -/
def tabDigits (v : ℕ) : List Char := [atoiTab (4 * v), atoiTab (4 * v + 1), atoiTab (4 * v + 2)]

/-- The loop that fills the scratch buffer from its end: what stands behind `s` when it has ended. -/
def scratch (v1 : ℕ) (behind : List Char) : List Char :=
  let v2 := v1 / 1000
  let behind := tabDigits (v1 - 1000 * v2) ++ behind
  if 0 < v2 then scratch v2 behind else behind
termination_by v1
decreasing_by omega

/-- `%u`. -/
def writeU (v1 : ℕ) : List Char := if v1 = 0 then ['0'] else (scratch v1 []).dropWhile (· == '0')

/-- `%d`. -/
def writeD (v1 : BitVec 32) : List Char :=
  if v1.toInt ≤ 0 then
    if v1 = 0 then ['0'] else '-' :: (scratch (-v1).toNat []).dropWhile (· == '0')
  else (scratch v1.toNat []).dropWhile (· == '0')

/-- `%lu`. -/
def writeLu (v1 : ℕ) : List Char :=
  let front := if 999999999 < v1 then [Char.ofNat (('0'.toNat + v1 / 1000000000) % 256)] else []
  let v1 := if 999999999 < v1 then v1 - v1 / 1000000000 * 1000000000 else v1
  let rest := v1 - v1 / 1000000 * 1000000
  front ++ tabDigits (v1 / 1000000) ++ tabDigits (rest / 1000) ++ tabDigits (rest - rest / 1000 * 1000)

/-- `%t`. -/
def writeT (v1 : ℕ) : List Char :=
  [Char.ofNat ((v1 / 10 + '0'.toNat) % 256), Char.ofNat ((v1 % 10 + '0'.toNat) % 256)]

/-! ### The loop over the format -/

/-- A text goes to `str`, and `bytes` goes up. -/
def write (text : List Char) (bytes : ℕ) (rest : Option (List Char × ℕ)) : Option (List Char × ℕ) :=
  rest.map fun (str, count) => (text ++ str, bytes + count)

/-- `va_arg(args, const char *)`. -/
def vaStr : List Arg → Option (List Char × List Arg)
  | .str text :: args => some (text, args)
  | _ => none

/-- `va_arg(args, int)`. -/
def vaInt : List Arg → Option (BitVec 32 × List Arg)
  | .int value :: args => some (value, args)
  | _ => none

/-- `va_arg(args, unsigned long)`. -/
def vaLong : List Arg → Option (BitVec 64 × List Arg)
  | .long value :: args => some (value, args)
  | _ => none

/-- `vsprintf_irc`, with the `vsprintf` of the C library. An argument that is missing or is of another kind has no
meaning. -/
def vsprintfIrc (vsprintf : List Char → List Arg → Option (List Char × ℕ)) :
    List Char → List Arg → Option (List Char × ℕ)
  | [], _ => some ([], 0)
  | [c], args => if c = '%' then vsprintf [c] args else some ([c], 1)
  | c :: d :: format, args =>
    -- what stands between the conversions
    if c ≠ '%' then write [c] 1 (vsprintfIrc vsprintf (d :: format) args)
    else if d = 's' then
      (vaStr args).bind fun (text, args) => write text text.length (vsprintfIrc vsprintf format args)
    else if d = 'c' then
      (vaInt args).bind fun (value, args) =>
        write [Char.ofNat (value.toNat % 256)] 1 (vsprintfIrc vsprintf format args)
    else if d = 'l' then
      match format with
      | 'u' :: format =>
        -- nine digits at least, with zeros in front
        (vaLong args).bind fun (value, args) =>
          write (writeLu value.toNat) ((if 999999999 < value.toNat then 1 else 0) + 9)
            (vsprintfIrc vsprintf format args)
      | _ => vsprintf (c :: d :: format) args
    else if d = 't' then
      (vaInt args).bind fun (value, args) => write (writeT value.toNat) 2 (vsprintfIrc vsprintf format args)
    else if d = 'd' then
      (vaInt args).bind fun (value, args) =>
        write (writeD value) (writeD value).length (vsprintfIrc vsprintf format args)
    else if d = 'u' then
      (vaInt args).bind fun (value, args) =>
        write (writeU value.toNat) (writeU value.toNat).length (vsprintfIrc vsprintf format args)
    -- from here on the C library has the rest of the format
    else if d ≠ '%' then vsprintf (c :: d :: format) args
    else write [d] 1 (vsprintfIrc vsprintf format args)

/-! ### `sprintf` -/

/-- A piece of a format with the value that it is for. -/
inductive Piece
  | text (c : Char) (plain : c ≠ '%')
  | percent
  | s (text : List Char)
  | c (value : BitVec 32)
  | d (value : BitVec 32)
  | u (value : BitVec 32)
  | lu (value : BitVec 64)

namespace Piece

/-- How a format has the piece. -/
def format : Piece → List Char
  | .text ch _ => [ch]
  | .percent => ['%', '%']
  | .s _ => ['%', 's']
  | .c _ => ['%', 'c']
  | .d _ => ['%', 'd']
  | .u _ => ['%', 'u']
  | .lu _ => ['%', 'l', 'u']

def args : Piece → List Arg
  | .text _ _ | .percent => []
  | .s content => [.str content]
  | .c value | .d value | .u value => [.int value]
  | .lu value => [.long value]

/-- What `sprintf` writes, with `%lu` read as `%09lu`. -/
def sprintf : Piece → List Char
  | .text ch _ => [ch]
  | .percent => ['%']
  | .s content => content
  | .c value => [Char.ofNat (value.toNat % 256)]
  | .d value => printD value.toInt
  | .u value => Nat.toDigits 10 value.toNat
  | .lu value => (Nat.toDigits 10 value.toNat).leftpad 9 '0'

/-- What `vsprintf_irc` writes. -/
def written : Piece → List Char
  | .lu value => printLu value.toNat
  | piece => piece.sprintf

/-- The number of a `%lu` has at most ten digits. -/
def Fits : Piece → Prop
  | .lu value => value.toNat < 10 ^ 10
  | _ => True

end Piece

/-! ### The conversions -/

theorem tabDigits_eq {v : ℕ} (small : v < 1000) : tabDigits v = padded 3 v := by
  have first : 4 * v / 4 = v := by omega
  have second : (4 * v + 1) / 4 = v := by omega
  have third : (4 * v + 2) / 4 = v := by omega
  have zero : 4 * v % 4 = 0 := by omega
  have one : (4 * v + 1) % 4 = 1 := by omega
  have two : (4 * v + 2) % 4 = 2 := by omega
  have top : v / 10 / 10 % 10 = v / 100 := by omega
  simp [tabDigits, atoiTab, padded, first, second, third, zero, one, two, top]

/-- The scratch buffer holds the number, with zeros in front. -/
theorem scratch_eq (v : ℕ) (behind : List Char) :
    ∃ width, v < 10 ^ width ∧ scratch v behind = padded width v ++ behind := by
  induction v using Nat.strong_induction_on generalizing behind with
  | _ v ih =>
    have group : v - 1000 * (v / 1000) = v % 10 ^ 3 := by omega
    have digits : tabDigits (v - 1000 * (v / 1000)) = padded 3 v := by
      rw [tabDigits_eq (by omega), group, padded_mod]
    unfold scratch
    dsimp only
    rw [digits]
    split
    next more =>
      obtain ⟨width, fits, same⟩ := ih (v / 1000) (by omega) (padded 3 v ++ behind)
      refine ⟨width + 3, ?_, ?_⟩
      · rw [pow_add]
        omega
      · rw [same, padded_add, List.append_assoc]
        rfl
    next last => exact ⟨3, by omega, rfl⟩

theorem dropWhile_scratch {v : ℕ} (some_ : 0 < v) :
    (scratch v []).dropWhile (· == '0') = Nat.toDigits 10 v := by
  obtain ⟨width, fits, same⟩ := scratch_eq v []
  rw [same, List.append_nil, dropWhile_padded some_ fits]

theorem writeU_eq (v : ℕ) : writeU v = Nat.toDigits 10 v := by
  unfold writeU
  split
  next zero =>
    subst zero
    rfl
  next some_ => exact dropWhile_scratch (by omega)

theorem writeD_eq (v : BitVec 32) : writeD v = printD v.toInt := by
  have bound := v.isLt
  have value := BitVec.toInt_eq_toNat_cond v
  unfold writeD printD
  by_cases zero : v = 0
  · subst zero
    rfl
  have some_ : v.toNat ≠ 0 := fun none => zero (BitVec.eq_of_toNat_eq none)
  by_cases negative : v.toInt < 0
  · have large : 2 ^ 31 ≤ v.toNat := by
      by_contra small
      rw [if_pos (by omega)] at value
      omega
    have opposite : (-v).toNat = v.toInt.natAbs := by
      rw [if_neg (by omega)] at value
      rw [BitVec.toNat_neg, Nat.mod_eq_of_lt (by omega), value]
      omega
    rw [if_pos negative.le, if_neg zero, if_pos negative, dropWhile_scratch (by omega), opposite]
  · have small : v.toNat < 2 ^ 31 := by
      by_contra large
      rw [if_neg (by omega)] at value
      omega
    rw [if_pos (by omega)] at value
    rw [if_neg (by omega), if_neg negative, dropWhile_scratch (by omega), value]
    rfl

/-- The nine digits of `%lu`. -/
theorem nineDigits {v : ℕ} (small : v < 10 ^ 9) :
    tabDigits (v / 1000000) ++ tabDigits ((v - v / 1000000 * 1000000) / 1000) ++
      tabDigits (v - v / 1000000 * 1000000 - (v - v / 1000000 * 1000000) / 1000 * 1000) = padded 9 v := by
  have middle : (v - v / 1000000 * 1000000) / 1000 = v / 10 ^ 3 % 10 ^ 3 := by omega
  have low : v - v / 1000000 * 1000000 - (v - v / 1000000 * 1000000) / 1000 * 1000 = v % 10 ^ 3 := by omega
  have split₁ := padded_add 6 3 v
  have split₂ := padded_add 3 3 (v / 10 ^ 3)
  rw [tabDigits_eq (by omega), tabDigits_eq (by omega), tabDigits_eq (by omega), low, middle, padded_mod, padded_mod,
    split₁, split₂, Nat.div_div_eq_div_mul]
  norm_num

/-- The conversion of `%lu` is the one that the servers' lines are made with. -/
theorem writeLu_eq (v : ℕ) : writeLu v = printLu v := by
  have nine : padded 9 (v % 10 ^ 9) = List.replicate (9 - (Nat.toDigits 10 (v % 10 ^ 9)).length) '0' ++
      Nat.toDigits 10 (v % 10 ^ 9) := padded_eq (by omega) (Nat.mod_lt _ (by decide))
  unfold writeLu printLu
  dsimp only
  rw [List.append_assoc, List.append_assoc, List.append_assoc, ← nine]
  by_cases long : 999999999 < v
  · have front : v / 1000000000 = v / 10 ^ 9 := by norm_num
    have rest : v - v / 1000000000 * 1000000000 = v % 10 ^ 9 := by omega
    rw [← nineDigits (Nat.mod_lt _ (by decide)), List.append_assoc, rest]
    simp only [gt_iff_lt, if_pos long, front]
  · have whole : v % 10 ^ 9 = v := Nat.mod_eq_of_lt (by omega)
    rw [whole, ← nineDigits (by omega), List.append_assoc]
    simp only [gt_iff_lt, if_neg long]

/-- A number that is longer is written with ten characters all the same. -/
theorem length_printLu_lt {v : ℕ} (long : 10 ^ 10 ≤ v) :
    (printLu v).length < ((Nat.toDigits 10 v).leftpad 9 '0').length := by
  have eleven : 10 < (Nat.toDigits 10 v).length := by
    by_contra short
    have := (Nat.length_toDigits_le_iff (by decide) (by decide : 0 < 10)).mp (Nat.le_of_not_lt short)
    omega
  rw [length_printLu, if_pos (by omega), List.length_leftpad]
  omega

/-- As long as the number has at most ten digits, that is `%09lu`. -/
theorem printLu_eq_leftpad {v : ℕ} (fits : v < 10 ^ 10) : printLu v = (Nat.toDigits 10 v).leftpad 9 '0' := by
  have nine : padded 9 (v % 10 ^ 9) = List.replicate (9 - (Nat.toDigits 10 (v % 10 ^ 9)).length) '0' ++
      Nat.toDigits 10 (v % 10 ^ 9) := padded_eq (by omega) (Nat.mod_lt _ (by decide))
  unfold printLu List.leftpad
  dsimp only
  rw [List.append_assoc, ← nine]
  by_cases long : v > 999999999
  · have ten : (Nat.toDigits 10 v).length = 10 := by
      have most := (Nat.length_toDigits_le_iff (by decide) (by decide : 0 < 10)).mpr fits
      have least : ¬ (Nat.toDigits 10 v).length ≤ 9 := fun short => by
        have := (Nat.length_toDigits_le_iff (by decide) (by decide : 0 < 9)).mp short
        omega
      omega
    have whole := padded_eq (by decide : 0 < 10) fits
    have split_ := padded_add 1 9 v
    have digit : Char.ofNat (('0'.toNat + v / 10 ^ 9) % 256) = (v / 10 ^ 9 % 10).digitChar := by
      have : v / 10 ^ 9 < 10 := by omega
      interval_cases v / 10 ^ 9 <;> rfl
    rw [ten] at whole ⊢
    rw [if_pos long, padded_mod, digit, ← List.nil_append (Nat.toDigits 10 v)]
    rw [show (9 - 10 : ℕ) = 10 - 10 from rfl, List.nil_append, ← whole, split_]
    rfl
  · rw [if_neg long, Nat.mod_eq_of_lt (by omega), List.nil_append, padded_eq (by decide) (by omega)]

/-! ### A whole format -/

/-- One piece of a format. -/
theorem vsprintfIrc_piece (vsprintf : List Char → List Arg → Option (List Char × ℕ)) (piece : Piece)
    (format : List Char) (args : List Arg) :
    vsprintfIrc vsprintf (piece.format ++ format) (piece.args ++ args) =
      write piece.written piece.written.length (vsprintfIrc vsprintf format args) := by
  cases piece with
  | text ch plain =>
    cases format with
    | nil => simp [Piece.format, Piece.args, Piece.written, Piece.sprintf, vsprintfIrc, write, plain]
    | cons d format =>
      simp only [Piece.format, Piece.args, List.cons_append, List.nil_append]
      rw [vsprintfIrc.eq_def]
      simp [Piece.written, Piece.sprintf, plain]
  | _ =>
    simp only [Piece.format, Piece.args, List.cons_append, List.nil_append]
    rw [vsprintfIrc.eq_def]
    simp [Piece.written, Piece.sprintf, vaStr, vaInt, vaLong, writeD_eq, writeU_eq, writeLu_eq, length_printLu]

theorem vsprintfIrc_pieces (vsprintf : List Char → List Arg → Option (List Char × ℕ)) (pieces : List Piece) :
    vsprintfIrc vsprintf (pieces.flatMap Piece.format) (pieces.flatMap Piece.args) =
      some (pieces.flatMap Piece.written, (pieces.flatMap Piece.written).length) := by
  induction pieces with
  | nil => rfl
  | cons piece pieces ih =>
    rw [List.flatMap_cons, List.flatMap_cons, vsprintfIrc_piece, ih]
    simp [write]

theorem Piece.written_eq {piece : Piece} (fits : piece.Fits) : piece.written = piece.sprintf := by
  cases piece with
  | lu value => exact printLu_eq_leftpad fits
  | _ => rfl

theorem Piece.length_written_lt {piece : Piece} (long : ¬ piece.Fits) :
    piece.written.length < piece.sprintf.length := by
  cases piece with
  | lu value => exact length_printLu_lt (Nat.le_of_not_lt long)
  | _ => exact absurd trivial long

theorem Piece.length_written_le (piece : Piece) : piece.written.length ≤ piece.sprintf.length := by
  by_cases fits : piece.Fits
  · rw [written_eq fits]
  · exact (length_written_lt fits).le

/-- The text is that of `sprintf` if and only if all numbers of `%lu` fit. -/
theorem written_eq_iff (pieces : List Piece) :
    pieces.flatMap Piece.written = pieces.flatMap Piece.sprintf ↔ ∀ piece ∈ pieces, piece.Fits := by
  constructor
  · intro same
    have all_le : ∀ pieces : List Piece,
        (pieces.flatMap Piece.written).length ≤ (pieces.flatMap Piece.sprintf).length := by
      intro pieces
      induction pieces with
      | nil => exact le_refl _
      | cons piece pieces ih =>
        simp only [List.flatMap_cons, List.length_append]
        exact Nat.add_le_add piece.length_written_le ih
    have lengths := congrArg List.length same
    clear same
    induction pieces with
    | nil => simp
    | cons piece pieces ih =>
      have first := piece.length_written_le
      have rest := all_le pieces
      simp only [List.flatMap_cons, List.length_append] at lengths
      intro other member
      rcases List.mem_cons.mp member with rfl | later
      · by_contra long
        have := other.length_written_lt long
        omega
      · exact ih (by omega) other later
  · intro fits
    exact List.flatMap_congr fun piece member => (piece.written_eq (fits piece member))

/-- `strtoul` reads back what `%lu` writes. -/
theorem strtoul_printLu {v : ℕ} (fits : v < 10 ^ 10) : strtoul (printLu v) = (v, []) := by
  have number := ofDigitChars_printLu fits
  unfold strtoul
  simp only [numeral_digits (allDigits_printLu fits), (allDigits_printLu fits).1, if_false, number]
  rw [if_neg (by omega)]
  simp

/-- `vsprintf_irc` writes what `sprintf` does, and counts it, if and only if the numbers of `%lu` have at most ten digits;
and such a number is read back unchanged. -/
theorem vsprintfIrc_eq_sprintf_iff (vsprintf : List Char → List Arg → Option (List Char × ℕ)) :
    (∀ pieces : List Piece, vsprintfIrc vsprintf (pieces.flatMap Piece.format) (pieces.flatMap Piece.args) =
        some (pieces.flatMap Piece.sprintf, (pieces.flatMap Piece.sprintf).length) ↔
          ∀ piece ∈ pieces, piece.Fits) ∧
      ∀ value : BitVec 64, value.toNat < 10 ^ 10 → ∃ text, vsprintfIrc vsprintf ['%', 'l', 'u'] [.long value] =
        some (text, text.length) ∧ atol text = value.toNat ∧ strtoul text = (value.toNat, []) := by
  constructor
  · intro pieces
    rw [vsprintfIrc_pieces, ← written_eq_iff]
    constructor
    · intro same
      exact congrArg Prod.fst (Option.some.inj same)
    · intro same
      rw [same]
  · intro value fits
    exact ⟨printLu value.toNat, by
      simpa [Piece.format, Piece.args, Piece.written] using vsprintfIrc_pieces vsprintf [.lu value], atol_printLu fits,
      strtoul_printLu fits⟩

/-- The eleven digits of `10000000000` are written as ten characters, of which the first is no digit. -/
theorem tenBillion_not_sprintf : ¬ ∀ (vsprintf : List Char → List Arg → Option (List Char × ℕ)) (pieces : List Piece),
    vsprintfIrc vsprintf (pieces.flatMap Piece.format) (pieces.flatMap Piece.args) =
      some (pieces.flatMap Piece.sprintf, (pieces.flatMap Piece.sprintf).length) := by
  intro all
  have wrong := all (fun _ _ => none) [.lu 10000000000]
  revert wrong
  decide +kernel

end Ircd.Sprintf
