import Ircd.Text
import Mathlib.Data.List.Forall2
import Mathlib.Tactic.IntervalCases

/-!
# Masks of hosts and addresses

`parse_netmask` of `src/hostmask.c` in the build without IPv6, and the address arithmetic
that goes with it.
-/
namespace Ircd.Hostmask

/-- The `int` mask with `bits` leading ones, `~((1 << (32 - bits)) - 1)`. The machine takes
the shift count modulo 32, so that `bits = 0` gives all ones rather than none. -/
def prefixMask (bits : ℤ) : UInt32 := ~~~((1 <<< UInt32.ofInt (32 - bits)) - 1)

/-- `match_ipv4`. -/
def matchIpv4 (addr mask : UInt32) (bits : ℤ) : Bool := (addr &&& prefixMask bits) == mask

/-- `ATABLE_SIZE`. -/
def atableSize : ℕ := 0x1000

/-- `hash_ipv4`. -/
def hashIpv4 (addr : UInt32) (bits : ℤ) : ℕ :=
  let av := addr &&& prefixMask bits
  (av ^^^ (av >>> 12) ^^^ (av >>> 24)).toNat % atableSize

/-- One round of `hash_text`. -/
def hashChar (h : UInt64) (c : Char) : UInt64 := (h <<< 4) - (h + (toLower c).toNat.toUInt64)

/-- `hash_text`. -/
def hashText (text : List Char) : ℕ := (text.foldl hashChar 0).toNat % atableSize

/-- The loop of `get_mask_hash`, from the end of the text down: the characters in front, the
text behind them, and the text after the last dot seen. -/
def maskHashLoop : List Char → List Char → List Char → Option (List Char)
  | [], _, _ => none
  | c :: front, behind, hp =>
    if c = '*' ∨ c = '?' then some hp
    else maskHashLoop front (c :: behind) (if c = '.' then behind else hp)

/-- `get_mask_hash`. -/
def getMaskHash (text : List Char) : ℕ :=
  hashText ((maskHashLoop text.reverse [] []).getD text)

/-- What `parse_netmask` makes of a text. -/
inductive Netmask where
  | host
  | ipv4 (addr : UInt32) (bits : ℤ)
deriving DecidableEq

/-- The loop of `try_parse_v4_netmask`: the starts of the numbers and the bit count. -/
def scanV4 : List Char → Option Char → List (List Char) → Option (List (List Char) × ℤ)
  | [], _, digits => some (digits, 0)
  | c :: text, before, digits =>
    if c.isDigit then scanV4 text (some c) digits
    else if c = '.' then
      if digits.length ≥ 4 then none else scanV4 text (some c) (digits ++ [text])
    else if c = '*' then
      if text ≠ [] ∨ before ≠ some '.' then none else some (digits, (digits.length - 1) * 8)
    else if c = '/' then
      let (value, after) := strtoul text
      let bits := toInt value
      if bits = 0 ∨ after ≠ [] then none
      else if bits > digits.length * 8 then none
      else some (digits, bits)
    else none

/-- The octets with the unused bits set to zero. A negative bit count writes in front of
the octets too, which this does not show. -/
def clearUnused (addb : List UInt8) (bits : ℤ) : List UInt8 :=
  addb.mapIdx fun n octet =>
    if n ≥ bits.tdiv 8 + (if bits.tmod 8 ≠ 0 then 1 else 0) then 0
    else if bits < 32 ∧ bits.tmod 8 ≠ 0 ∧ n = bits.tdiv 8 then
      (octet.toUInt32 &&& ~~~((1 <<< UInt32.ofInt (8 - bits.tmod 8)) - 1)).toUInt8
    else octet

def packOctet (addr : UInt32) (octet : UInt8) : UInt32 := (addr <<< 8) ||| octet.toUInt32

/-- `try_parse_v4_netmask`. -/
def tryParseV4Netmask (text : List Char) : Netmask :=
  match scanV4 text none [text] with
  | none => .host
  | some (digits, bits) =>
    let bits := if digits.length < 4 ∧ bits = 0 then (digits.length * 8 : ℤ) else bits
    let numbers := digits ++ List.replicate (4 - digits.length) ['0']
    let addb := numbers.map fun number => (strtoul number).1.toUInt8
    let bits := if bits = 0 then 32 else bits
    .ipv4 ((clearUnused addb bits).foldl packOctet 0) bits

/-- `parse_netmask`. -/
def parseNetmask (text : List Char) : Netmask :=
  if '.' ∈ text then tryParseV4Netmask text else .host

/-! ### Hashes and matches -/

theorem hashText_congr {text text' : List Char}
    (same : List.Forall₂ (fun c d => toLower c = toLower d) text text') :
    hashText text = hashText text' := by
  have folded : ∀ h : UInt64, text.foldl hashChar h = text'.foldl hashChar h := by
    induction same with
    | nil => exact fun _ => rfl
    | cons equal _ ih =>
      intro h
      rw [List.foldl_cons, List.foldl_cons, hashChar, hashChar, equal]
      exact ih _
  unfold hashText
  rw [folded]

/-- The bits of a shorter prefix are bits of a longer one. -/
theorem prefixMask_and (bits : ℤ) (low : 8 ≤ bits) (high : bits ≤ 32) :
    prefixMask bits &&& prefixMask (bits - bits.tmod 8) = prefixMask (bits - bits.tmod 8) := by
  interval_cases bits <;> decide

/-- An address that matches a mask has the mask's hash at the prefix rounded down. -/
theorem hashIpv4_of_match {addr mask : UInt32} {bits : ℤ} (low : 8 ≤ bits) (high : bits ≤ 32)
    (matched : matchIpv4 addr mask bits = true) :
    hashIpv4 mask (bits - bits.tmod 8) = hashIpv4 addr (bits - bits.tmod 8) := by
  have equal : addr &&& prefixMask bits = mask := by simpa [matchIpv4] using matched
  have rounded : mask &&& prefixMask (bits - bits.tmod 8) =
      addr &&& prefixMask (bits - bits.tmod 8) := by
    rw [← equal, UInt32.and_assoc, prefixMask_and bits low high]
  unfold hashIpv4
  rw [rounded]

end Ircd.Hostmask
