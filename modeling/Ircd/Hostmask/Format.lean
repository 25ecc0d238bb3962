import Ircd.Hostmask.Netmask
import Mathlib.Tactic.IntervalCases

/-!
# Writing a netmask

`format_netmask` as it is built without IPv6. The operand of `RecordDec` stands in the macro three times and without
brackets, so its `i++` is done three times, and the divisions apply to the shift and not to the number.
-/
namespace Ircd.Hostmask

/-- The size of the buffer. -/
def netmaskBuffer : ℕ := 3 * 7 + 2 + 1 + 3 + 1

/-- What stands in front of `p`, and `i`. -/
structure FormatRun where
  text : List Char
  i : ℕ

/-- Writing behind the end of the buffer is the end of the run. -/
def FormatRun.write (r : FormatRun) (text : List Char) : Option FormatRun :=
  if (r.text ++ text).length ≤ netmaskBuffer then some { r with text := r.text ++ text } else none

/-- A digit of `RecordDec`. -/
def recordDigit (digit : ℤ) : List Char := if digit > 0 then [Char.ofNat ((digit + 48) % 256).toNat] else []

/-- `RecordDec`, where its operand is a variable. -/
def recordDec (num : ℕ) : List Char :=
  recordDigit (toInt (num / 100)) ++ recordDigit (toInt (num / 10 % 10)) ++ recordDigit (toInt (num % 10))

/-- `(s_addr & (3<<i)) << 8 >> shift`. Of a shift the machine takes the low five bits. -/
def shiftedBits (sAddr : UInt32) (i shift : ℕ) : UInt32 :=
  ((sAddr &&& (3 <<< UInt32.ofNat i)) <<< 8) >>> UInt32.ofNat shift

/-- The body of the first loop. Whether the mask has the `i` in front of or behind the `i++` is left open; here
it has the one in front. -/
def recordOctet (sAddr : UInt32) (r : FormatRun) : Option FormatRun := do
  let i := r.i
  let d1 := toInt (shiftedBits sAddr i (i / 100)).toNat
  let d2 := toInt (shiftedBits sAddr (i + 1) ((i + 1) / 10 % 10)).toNat
  let d3 := toInt (shiftedBits sAddr (i + 2) ((i + 2) % 10)).toNat
  let r ← r.write (recordDigit d1 ++ recordDigit d2 ++ recordDigit d3)
  let r := { r with i := i + 3 }
  if r.i < 4 then r.write ['.'] else some r

/-- `while (bl >= 8)`, with so many rounds at most. The body leaves `bl` alone. -/
def octetLoop (sAddr : UInt32) (bl : ℤ) : ℕ → FormatRun → Option FormatRun
  | 0, _ => none
  | fuel + 1, r => if bl ≥ 8 then (recordOctet sAddr r).bind (octetLoop sAddr bl fuel) else some r

/-- The octet of the remaining bits. -/
def remainingOctet (sAddr : UInt32) (bl : ℤ) (r : FormatRun) : Option FormatRun :=
  if r.i < 8 ∧ bl ≠ 0 then do
    let n := (shiftedBits sAddr r.i r.i).toUInt64 &&& (~~~((1 : UInt64) <<< UInt64.ofInt bl) - 1)
    let r ← { r with i := r.i + 1 }.write (recordDec n.toNat)
    if r.i < 4 then r.write ['.'] else some r
  else some r

/-- What the last loop writes. -/
def zeroFill (i : ℕ) : List Char :=
  (List.range' i (4 - i)).flatMap fun i => '0' :: if i + 1 < 8 then ['.'] else []

/-- `format_netmask`, behind the test of the bit count. The terminator has to fit too. -/
def formatBits (sAddr : UInt32) (bits : ℤ) (fuel : ℕ) : Option (List Char) := do
  let r ← octetLoop sAddr bits fuel ⟨[], 0⟩
  let r ← remainingOctet sAddr bits r
  let r ← r.write (zeroFill r.i)
  let r ← r.write (if bits < 128 then '/' :: recordDec bits.toNat else [])
  let _ ← r.write ['\x00']
  some r.text

/-- `format_netmask`. -/
def formatNetmask (sAddr : UInt32) (bits : ℤ) (fuel : ℕ) : Option (List Char) :=
  formatBits sAddr (if bits > 32 ∨ bits < 0 then 32 else bits) fuel

/-- The text comes, and is read as the address it was made of. -/
def ReadsBack (htonl : UInt32 → UInt32) (addr : UInt32) (bits : ℤ) : Prop :=
  ∃ fuel text, formatNetmask (htonl addr) bits fuel = some text ∧
    parseNetmask text = .ipv4 (addr &&& prefixMask bits) bits

theorem octetLoop_endless (sAddr : UInt32) {bl : ℤ} (many : 8 ≤ bl) (fuel : ℕ) (r : FormatRun) :
    octetLoop sAddr bl fuel r = none := by
  induction fuel generalizing r with
  | zero => rfl
  | succ fuel ih =>
    rw [octetLoop, if_pos many]
    cases recordOctet sAddr r with
    | none => rfl
    | some r' => exact ih r'

/-- From eight bits on there is no end. -/
theorem formatBits_endless (sAddr : UInt32) {bits : ℤ} (many : 8 ≤ bits) (fuel : ℕ) :
    formatBits sAddr bits fuel = none := by
  unfold formatBits
  rw [octetLoop_endless sAddr many]
  rfl

/-- With less than eight bits there is a dot too many, whatever the two bits of the address are that are
looked at. -/
theorem shortText_refused : ∀ low < 4, ∀ bits < 8, bits ≠ 0 →
    ∀ text, formatBits (UInt32.ofNat low) (bits : ℕ) 1 = some text → parseNetmask text = .host := by
  decide

theorem formatBits_short (sAddr : UInt32) {bits : ℕ} (few : bits < 8) (fuel : ℕ) :
    formatBits sAddr bits (fuel + 1) = formatBits (UInt32.ofNat (sAddr.toNat % 4)) bits 1 := by
  have low : sAddr &&& 3 = UInt32.ofNat (sAddr.toNat % 4) &&& 3 := by
    apply UInt32.toNat_inj.mp
    simp [Nat.and_two_pow_sub_one_eq_mod _ 2]
  have stops : ∀ sAddr fuel, octetLoop sAddr bits (fuel + 1) ⟨[], 0⟩ = some ⟨[], 0⟩ := fun _ _ =>
    if_neg (by omega)
  have first : remainingOctet sAddr bits ⟨[], 0⟩ =
      remainingOctet (UInt32.ofNat (sAddr.toNat % 4)) bits ⟨[], 0⟩ := by
    unfold remainingOctet shiftedBits
    dsimp only
    rw [show (3 : UInt32) <<< UInt32.ofNat 0 = 3 from rfl, low]
  unfold formatBits
  rw [stops, stops _ 0]
  simp only [Option.bind_eq_bind, Option.bind_some, first]

/-- Whatever the address and the bit count are, the text does not come or is no address. -/
theorem netmask_not_read_back (htonl : UInt32 → UInt32) (addr : UInt32) {bits : ℤ} (low : 1 ≤ bits)
    (high : bits ≤ 32) : ¬ReadsBack htonl addr bits := by
  rintro ⟨fuel, text, written, read⟩
  unfold formatNetmask at written
  rw [if_neg (by omega)] at written
  by_cases many : 8 ≤ bits
  · rw [formatBits_endless _ many] at written
    cases written
  · cases fuel with
    | zero => cases written
    | succ fuel =>
      lift bits to ℕ using by omega
      rw [formatBits_short _ (by omega)] at written
      have host := shortText_refused _ (Nat.mod_lt _ (by decide)) bits (by omega) (by omega) text written
      rw [host] at read
      cases read

/-- DLINE of a nick asks for 24 bits. -/
theorem dline_mask_endless : ¬ ∀ (htonl : UInt32 → UInt32) (addr : UInt32) (bits : ℤ), 1 ≤ bits → bits ≤ 32 →
    ReadsBack htonl addr bits := by
  intro all
  obtain ⟨fuel, text, written, -⟩ := all id 0xc0a80101 24 (by decide) (by decide)
  unfold formatNetmask at written
  rw [if_neg (by decide), formatBits_endless _ (by decide)] at written
  cases written

theorem netmask_not_read_back_ten : ¬ReadsBack id 0x0a000001 10 :=
  netmask_not_read_back id 0x0a000001 (by decide) (by decide)

end Ircd.Hostmask
