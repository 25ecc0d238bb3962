import Ircd.Hostmask.Netmask
import Ircd.Numbers

/-!
# IPv4 masks as they are written

The written form of a mask of addresses, and which texts `try_parse_v4_netmask` reads as the
mask that they write.
-/
namespace Ircd.Hostmask

/-- A number in decimal, from `low` to `high`. -/
structure Decimal (low high : ℕ) where
  digits : List Char
  written : AllDigits digits
  low_le : low ≤ Nat.ofDigitChars 10 digits 0
  le_high : Nat.ofDigitChars 10 digits 0 ≤ high

def Decimal.value {low high : ℕ} (d : Decimal low high) : ℕ := Nat.ofDigitChars 10 d.digits 0

/-- What stands behind the octets. -/
inductive Ending where
  | whole
  | star
  | bits (count : Decimal 1 32)

def Ending.text : Ending → List Char
  | .whole => []
  | .star => ['.', '*']
  | .bits count => '/' :: count.digits

/-- One to four octets and what stands behind them. -/
structure V4Mask where
  octets : List (Decimal 0 255)
  nonempty : octets ≠ []
  most : octets.length ≤ 4
  ending : Ending

def V4Mask.text (m : V4Mask) : List Char :=
  ['.'].intercalate (m.octets.map Decimal.digits) ++ m.ending.text

/-- The bit count that is written, or eight for each octet. -/
def V4Mask.bits (m : V4Mask) : ℕ :=
  match m.ending with
  | .bits count => count.value
  | _ => 8 * m.octets.length

def V4Mask.octet (m : V4Mask) (n : ℕ) : ℕ := (m.octets.map Decimal.value).getD n 0

/-- The address has the octets up to the bit count, and zeros behind it. -/
def V4Mask.Holds (m : V4Mask) (addr : UInt32) : Prop :=
  ∀ i < 32, addr.toNat.testBit (31 - i) =
    (decide (i < m.bits) && (m.octet (i / 8)).testBit (7 - i % 8))

/-- What the parser says of a text is what the text writes. -/
structure ReadAsWritten (text : List Char) : Prop where
  ipv4 : ∀ addr bits, tryParseV4Netmask text = .ipv4 addr bits →
    1 ≤ bits ∧ bits ≤ 32 ∧ ∃ m : V4Mask, m.text = text ∧ m.bits = bits ∧ m.Holds addr
  host : (¬∃ m : V4Mask, m.text = text) → tryParseV4Netmask text = .host

/-! ### The texts that are taken -/

def isDotted (c : Char) : Bool := c.isDigit || c == '.'

/-- The numbers at the front of a text, between dots. -/
def numbers (text : List Char) : List (List Char) := (text.takeWhile isDotted).splitOn '.'

/-- What is behind the numbers does not stop the scan. -/
def EndingTaken (dotted : List Char) (count : ℕ) : List Char → Prop
  | [] => True
  | c :: rest =>
    (c = '*' ∧ rest = [] ∧ dotted.getLast? = some '.') ∨
    (c = '/' ∧ (strtoul rest).2 = [] ∧ toInt (strtoul rest).1 ≠ 0 ∧
      toInt (strtoul rest).1 ≤ count * 8)

/-- The scan gets through the text. -/
def Taken (text : List Char) : Prop :=
  (numbers text).length ≤ 4 ∧
    EndingTaken (text.takeWhile isDotted) (numbers text).length (text.dropWhile isDotted)

/-- The numbers that stand for octets: the star is not one. -/
def octetTexts (text : List Char) : List (List Char) :=
  if text.dropWhile isDotted = ['*'] then (numbers text).dropLast else numbers text

/-- Every octet is a number up to 255, and the bit count one up to 32. -/
def PartsInRange (text : List Char) : Prop :=
  (∀ part ∈ octetTexts text, part ≠ [] ∧ Nat.ofDigitChars 10 part 0 ≤ 255) ∧
    ∀ rest, text.dropWhile isDotted = '/' :: rest →
      (∀ c ∈ rest, c.isDigit = true) ∧ Nat.ofDigitChars 10 rest 0 ≤ 32

/-! ### What `strtoul` reads between dots -/

/-- What `strtoul` makes of the digits at the front of a text. -/
def reading (field : List Char) : ℕ :=
  if field = [] then 0 else min (Nat.ofDigitChars 10 field 0) (2 ^ 64 - 1)

/-- The text has nothing in front that belongs to a number. -/
def Stops (text : List Char) : Prop :=
  ∀ c, text.head? = some c → c.isDigit = false ∧ isSpace c = false ∧ c ≠ '-' ∧ c ≠ '+'

theorem numeral_field {field stop : List Char} (digits : ∀ c ∈ field, c.isDigit = true)
    (stops : Stops stop) : numeral (field ++ stop) = ⟨false, field, stop⟩ := by
  have front : ∀ c, (field ++ stop).head? = some c → isSpace c = false ∧ c ≠ '-' ∧ c ≠ '+' := by
    intro c first
    cases field with
    | nil => exact (stops c first).2
    | cons d field =>
      have same : d = c := by simpa using first
      have digit := digits d (by simp)
      rw [same] at digit
      exact not_isSpace_of_digit digit
  have unspaced : (field ++ stop).dropWhile isSpace = field ++ stop := by
    cases h : field ++ stop with
    | nil => rfl
    | cons c rest =>
      rw [List.dropWhile_cons_of_neg]
      have := (front c (by rw [h]; rfl)).1
      simp [this]
  have minus : (field ++ stop).head? ≠ some '-' := fun first => (front _ first).2.1 rfl
  have plus : (field ++ stop).head? ≠ some '+' := fun first => (front _ first).2.2 rfl
  have ends : stop.takeWhile Char.isDigit = [] ∧ stop.dropWhile Char.isDigit = stop := by
    cases stop with
    | nil => exact ⟨rfl, rfl⟩
    | cons c rest => simp [(stops c rfl).1]
  unfold numeral
  simp only [unspaced, minus, plus, decide_false, or_self, if_false]
  rw [List.takeWhile_append_of_pos digits, List.dropWhile_append_of_pos digits, ends.1, ends.2,
    List.append_nil]

theorem strtoul_field {field stop : List Char} (digits : ∀ c ∈ field, c.isDigit = true)
    (stops : Stops stop) : (strtoul (field ++ stop)).1 = reading field := by
  unfold strtoul reading
  rw [numeral_field digits stops]
  by_cases empty : field = []
  · simp [empty]
  · simp only [empty, if_false, Bool.false_eq_true]
    split <;> omega

/-- The starts of the numbers behind the first. -/
def starts : List Char → List Char → List (List Char)
  | [], _ => []
  | c :: front, rest =>
    if c = '.' then (front ++ rest) :: starts front rest else starts front rest

/-- What `strtoul` reads at the starts are the numbers between the dots. -/
theorem starts_fields {front rest : List Char} (dotted : ∀ c ∈ front, isDotted c = true)
    (stops : Stops rest) :
    ∃ head tail stop, front.splitOn '.' = head :: tail ∧ front ++ rest = head ++ stop ∧
      Stops stop ∧ (∀ c ∈ head, c.isDigit = true) ∧
      (starts front rest).map (fun text => (strtoul text).1) = tail.map reading := by
  induction front with
  | nil => exact ⟨[], [], rest, by simp, rfl, stops, by simp, rfl⟩
  | cons c front ih =>
    obtain ⟨head, tail, stop, split_, cut, stops', digits, read⟩ :=
      ih fun d member => dotted d (by simp [member])
    by_cases dot : c = '.'
    · refine ⟨[], head :: tail, c :: front ++ rest, ?_, rfl, ?_, by simp, ?_⟩
      · rw [List.splitOn_cons_eq_if_modifyHead, split_]
        simp [dot]
      · intro d first
        have same : c = d := by simpa using first
        rw [← same, dot]
        decide
      · rw [starts, if_pos dot, List.map_cons, List.map_cons, read, cut, strtoul_field digits stops']
    · refine ⟨c :: head, tail, stop, ?_, ?_, stops', ?_, ?_⟩
      · rw [List.splitOn_cons_eq_if_modifyHead, split_]
        simp [dot]
      · rw [List.cons_append, cut, List.cons_append]
      · have digit : c.isDigit = true := by
          have := dotted c (by simp)
          simpa [isDotted, dot] using this
        simpa [digit] using digits
      · rw [starts, if_neg dot, read]

theorem starts_read {front rest : List Char} (dotted : ∀ c ∈ front, isDotted c = true)
    (stops : Stops rest) :
    ((front ++ rest) :: starts front rest).map (fun text => (strtoul text).1) =
      (front.splitOn '.').map reading := by
  obtain ⟨head, tail, stop, split_, cut, stops', digits, read⟩ := starts_fields dotted stops
  rw [List.map_cons, read, split_, List.map_cons, cut, strtoul_field digits stops']

theorem starts_length (front rest : List Char) :
    (starts front rest).length + 1 = (front.splitOn '.').length := by
  induction front with
  | nil => simp [starts]
  | cons c front ih =>
    rw [List.splitOn_cons_eq_if_modifyHead, starts]
    by_cases dot : c = '.'
    · simp [dot, ih]
    · simp [dot, ih]

/-! ### The scan -/

theorem scanV4_front {front rest : List Char} (dotted : ∀ c ∈ front, isDotted c = true)
    (before : Option Char) (digits : List (List Char)) (most : digits.length ≤ 4) :
    scanV4 (front ++ rest) before digits =
      if digits.length + (starts front rest).length ≤ 4 then
        scanV4 rest (front.getLast?.or before) (digits ++ starts front rest)
      else none := by
  induction front generalizing before digits with
  | nil => simp [starts, most]
  | cons c front ih =>
    have behind : ∀ d ∈ front, isDotted d = true := fun d member => dotted d (by simp [member])
    have last : (c :: front).getLast?.or before = front.getLast?.or (some c) := by
      rw [List.getLast?_cons]
      cases front.getLast? <;> rfl
    rw [List.cons_append, scanV4, last, starts]
    by_cases digit : c.isDigit = true
    · have dot : c ≠ '.' := by
        rintro rfl
        exact absurd digit (by decide)
      rw [if_pos digit, if_neg dot, ih behind _ _ most]
    · have dot : c = '.' := by
        have := dotted c (by simp)
        simpa [isDotted, digit] using this
      rw [if_neg digit, if_pos dot, if_pos dot]
      by_cases full : digits.length ≥ 4
      · rw [if_pos full, if_neg]
        simp only [List.length_cons]
        omega
      · rw [if_neg full, ih behind _ _ (by simp only [List.length_append, List.length_singleton]; omega)]
        simp only [List.length_append, List.length_cons, List.length_nil, List.append_assoc,
          List.cons_append, List.nil_append]
        congr 1
        rw [eq_iff_iff]
        omega

theorem takeWhile_dotted (text : List Char) : ∀ c ∈ text.takeWhile isDotted, isDotted c = true :=
  fun _ member => List.mem_takeWhile_imp member

/-- The bit count that the scan ends with behind `count` numbers. -/
def endingBits (count : ℕ) : List Char → ℤ
  | [] => 0
  | c :: rest => if c = '*' then (count - 1) * 8 else toInt (strtoul rest).1

/-- The bit count that the parser returns. -/
def writtenBits (text : List Char) : ℤ :=
  if text.dropWhile isDotted = [] then (numbers text).length * 8
  else endingBits (numbers text).length (text.dropWhile isDotted)

theorem stops_nil : Stops [] := fun _ first => by simp at first

theorem stops_ending {c : Char} (ending : c = '*' ∨ c = '/') (rest : List Char) : Stops (c :: rest) := by
  intro d first
  have same : c = d := by simpa using first
  rw [← same]
  rcases ending with rfl | rfl <;> decide

/-- What follows the numbers neither is a number nor has one in front of it. -/
theorem Taken.stops {text : List Char} (taken : Taken text) : Stops (text.dropWhile isDotted) := by
  have ending := taken.2
  cases h : text.dropWhile isDotted with
  | nil => exact stops_nil
  | cons c rest =>
    rw [h] at ending
    exact stops_ending (ending.imp (fun star => star.1) fun slash => slash.1) rest

theorem scanV4_text (text : List Char) :
    scanV4 text none [text] =
      if (numbers text).length ≤ 4 then
        scanV4 (text.dropWhile isDotted) (text.takeWhile isDotted).getLast?
          (text :: starts (text.takeWhile isDotted) (text.dropWhile isDotted))
      else none := by
  have dotted := takeWhile_dotted text
  have scanned := @scanV4_front _ (text.dropWhile isDotted) dotted none [text] (by simp)
  rw [List.takeWhile_append_dropWhile, Option.or_none, List.singleton_append] at scanned
  have count := starts_length (text.takeWhile isDotted) (text.dropWhile isDotted)
  rw [scanned, List.length_singleton, numbers, ← count, Nat.add_comm]

/-- Behind the numbers there is at most a star or a slash. -/
theorem scanV4_ending {text dotted : List Char} {digits : List (List Char)}
    (first : ∀ c, text.head? = some c → isDotted c = false) :
    (EndingTaken dotted digits.length text → scanV4 text dotted.getLast? digits =
      some (digits, endingBits digits.length text)) ∧
      (¬EndingTaken dotted digits.length text → scanV4 text dotted.getLast? digits = none) := by
  cases text with
  | nil => exact ⟨fun _ => rfl, fun refused => absurd trivial refused⟩
  | cons c rest =>
    have plain := first c rfl
    have digit : c.isDigit = false := by
      by_contra digit
      simp [isDotted, digit] at plain
    have dot : c ≠ '.' := by
      rintro rfl
      exact absurd plain (by decide)
    rw [scanV4, if_neg (by simp [digit]), if_neg dot]
    by_cases star : c = '*'
    · subst star
      by_cases taken : rest = [] ∧ dotted.getLast? = some '.'
      · simp [EndingTaken, endingBits, taken.1, taken.2]
      · have refused : rest ≠ [] ∨ dotted.getLast? ≠ some '.' := not_and_or.mp taken
        simp only [if_true, if_pos refused, EndingTaken, true_and]
        exact ⟨fun ending => absurd (ending.resolve_right (by simp)) taken, fun _ => trivial⟩
    · by_cases slash : c = '/'
      · subst slash
        rw [if_neg star, if_pos rfl]
        by_cases taken : (strtoul rest).2 = [] ∧ toInt (strtoul rest).1 ≠ 0 ∧
            toInt (strtoul rest).1 ≤ digits.length * 8
        · obtain ⟨whole, some_, most⟩ := taken
          simp [EndingTaken, endingBits, whole, some_, most, not_lt.mpr most]
        · have refused : ¬EndingTaken dotted digits.length ('/' :: rest) := by
            simpa [EndingTaken] using taken
          refine ⟨fun ending => absurd ending refused, fun _ => ?_⟩
          dsimp only
          split
          · rfl
          · next kept =>
            rw [if_pos]
            by_contra most
            rw [not_or, not_not] at kept
            exact taken ⟨kept.2, kept.1, not_lt.mp most⟩
      · rw [if_neg star, if_neg slash]
        have refused : ¬EndingTaken dotted digits.length (c :: rest) := by
          simp [EndingTaken, star, slash]
        exact ⟨fun ending => absurd ending refused, fun _ => rfl⟩

/-- The octets that the parser stores. -/
def storedOctets (text : List Char) : List UInt8 :=
  ((numbers text).map reading ++ List.replicate (4 - (numbers text).length) 0).map Nat.toUInt8

theorem dropWhile_head {text : List Char} (c : Char)
    (first : (text.dropWhile isDotted).head? = some c) : isDotted c = false := by
  have refused := List.head?_dropWhile_not isDotted text
  rw [first] at refused
  simpa using refused

theorem numbers_ne_nil (text : List Char) : numbers text ≠ [] := List.splitOn_ne_nil _ _

/-- A star ends the text behind a dot, and the number between them is empty. -/
theorem Taken.star {text rest : List Char} (taken : Taken text)
    (star : text.dropWhile isDotted = '*' :: rest) :
    ∃ dotted, text = dotted ++ ['.', '*'] ∧ numbers text = dotted.splitOn '.' ++ [[]] := by
  have ending := taken.2
  rw [star] at ending
  obtain ⟨-, rfl, last⟩ | ⟨slash, -⟩ := ending
  · obtain ⟨dotted, front⟩ := List.getLast?_eq_some_iff.mp last
    refine ⟨dotted, ?_, ?_⟩
    · rw [← List.takeWhile_append_dropWhile (p := isDotted) (l := text), front, star]
      simp
    · rw [numbers, front, List.splitOn_append_cons_self, List.splitOn_nil]
  · exact absurd slash (by decide)

theorem Taken.two_le {text rest : List Char} (taken : Taken text)
    (star : text.dropWhile isDotted = '*' :: rest) : 2 ≤ (numbers text).length := by
  obtain ⟨dotted, -, split_⟩ := taken.star star
  have some_ := List.length_pos_iff.mpr (List.splitOn_ne_nil '.' dotted)
  rw [split_, List.length_append, List.length_singleton]
  omega

/-- Without a bit count in the text there are eight for each octet, and all of them for four. -/
theorem final_bits {text : List Char} (taken : Taken text) (bits : ℤ)
    (scanned : bits = endingBits (numbers text).length (text.dropWhile isDotted)) :
    (if (if (numbers text).length < 4 ∧ bits = 0 then ((numbers text).length * 8 : ℤ) else bits) = 0 then 32
      else if (numbers text).length < 4 ∧ bits = 0 then ((numbers text).length * 8 : ℤ) else bits) =
        writtenBits text := by
  have positive := List.length_pos_iff.mpr (numbers_ne_nil text)
  have most := taken.1
  have ending := taken.2
  unfold writtenBits
  cases h : text.dropWhile isDotted with
  | nil =>
    rw [h, endingBits] at scanned
    rw [if_pos rfl, scanned]
    split_ifs <;> omega
  | cons c rest =>
    rw [h] at ending scanned
    have some_ : bits ≠ 0 := by
      rw [scanned, endingBits]
      rcases ending with ⟨rfl, -, -⟩ | ⟨rfl, -, some_, -⟩
      · have two := taken.two_le h
        rw [if_pos rfl]
        omega
      · rw [if_neg (by decide)]
        exact some_
    rw [if_neg (List.cons_ne_nil c rest), ← scanned]
    simp only [some_, and_false, if_false]

/-- What the parser makes of a text that the scan gets through. -/
theorem tryParse_taken {text : List Char} (taken : Taken text) :
    tryParseV4Netmask text =
      .ipv4 ((clearUnused (storedOctets text) (writtenBits text)).foldl packOctet 0) (writtenBits text) := by
  have count : (text :: starts (text.takeWhile isDotted) (text.dropWhile isDotted)).length =
      (numbers text).length := starts_length _ _
  have ending := taken.2
  rw [← count] at ending
  have scanned := (scanV4_ending dropWhile_head).1 ending
  have read := starts_read (takeWhile_dotted text) taken.stops
  rw [List.takeWhile_append_dropWhile] at read
  have octets : ((text :: starts (text.takeWhile isDotted) (text.dropWhile isDotted)) ++
      List.replicate (4 - (numbers text).length) ['0']).map (fun number => (strtoul number).1.toUInt8) =
        storedOctets text := by
    have mapped := congrArg (List.map Nat.toUInt8) read
    rw [List.map_map] at mapped
    rw [storedOctets, List.map_append, List.map_append, List.map_replicate, List.map_replicate]
    exact congrArg₂ (· ++ ·) mapped rfl
  unfold tryParseV4Netmask
  rw [scanV4_text, if_pos taken.1, scanned]
  dsimp only
  rw [count, octets, final_bits taken _ rfl]

theorem tryParse_not_taken {text : List Char} (refused : ¬Taken text) :
    tryParseV4Netmask text = .host := by
  have count : (text :: starts (text.takeWhile isDotted) (text.dropWhile isDotted)).length =
      (numbers text).length := starts_length _ _
  have scanned : scanV4 text none [text] = none := by
    rw [scanV4_text]
    by_cases most : (numbers text).length ≤ 4
    · rw [if_pos most]
      apply (scanV4_ending dropWhile_head).2
      rw [count]
      exact fun ending => refused ⟨most, ending⟩
    · rw [if_neg most]
  unfold tryParseV4Netmask
  rw [scanned]

/-! ### The address -/

theorem packOctet_testBit (addr : UInt32) (octet : UInt8) {j : ℕ} (inside : j < 32) :
    (packOctet addr octet).toNat.testBit j =
      if j < 8 then octet.toNat.testBit j else addr.toNat.testBit (j - 8) := by
  rw [packOctet, UInt32.toNat_or, Nat.testBit_or, UInt32.toNat_shiftLeft, UInt8.toNat_toUInt32]
  have shifted : (addr.toNat <<< ((8 : UInt32).toNat % 32) % 2 ^ 32).testBit j =
      (decide (8 ≤ j) && addr.toNat.testBit (j - 8)) := by
    rw [Nat.testBit_mod_two_pow, Nat.testBit_shiftLeft]
    simp [inside]
  rw [shifted]
  by_cases low : j < 8
  · rw [if_pos low]
    simp [show ¬8 ≤ j by omega]
  · have high : octet.toNat.testBit j = false :=
      Nat.testBit_lt_two_pow (lt_of_lt_of_le octet.toNat_lt (Nat.pow_le_pow_right (by omega) (by omega)))
    rw [if_neg low, high, Bool.or_false]
    simp [show 8 ≤ j by omega]

/-- Bit `i` of the address from the front is bit `i % 8` of octet `i / 8`. -/
theorem pack_testBit {octets : List UInt8} (four : octets.length = 4) {i : ℕ} (inside : i < 32) :
    (octets.foldl packOctet 0).toNat.testBit (31 - i) =
      (octets.getD (i / 8) 0).toNat.testBit (7 - i % 8) := by
  match octets, four with
  | [a, b, c, d], _ =>
    simp only [List.foldl_cons, List.foldl_nil]
    have place : i / 8 = 0 ∨ i / 8 = 1 ∨ i / 8 = 2 ∨ i / 8 = 3 := by omega
    rw [packOctet_testBit _ _ (by omega), packOctet_testBit _ _ (by omega),
      packOctet_testBit _ _ (by omega), packOctet_testBit _ _ (by omega)]
    rcases place with place | place | place | place
    · rw [if_neg (by omega), if_neg (by omega), if_neg (by omega), if_pos (by omega), place]
      exact congrArg _ (by omega)
    · rw [if_neg (by omega), if_neg (by omega), if_pos (by omega), place]
      exact congrArg _ (by omega)
    · rw [if_neg (by omega), if_pos (by omega), place]
      exact congrArg _ (by omega)
    · rw [if_pos (by omega), place]
      exact congrArg _ (by omega)

/-- The bits of an octet behind the bit count are cut. -/
theorem cutOctet_testBit (octet : UInt8) {used k : ℕ} (some_ : 0 < used) (most : used < 8) (inside : k < 8) :
    (octet.toUInt32 &&& ~~~((1 <<< UInt32.ofInt (8 - (used : ℤ))) - 1)).toUInt8.toNat.testBit k =
      (decide (8 - used ≤ k) && octet.toNat.testBit k) := by
  have mask : (~~~((1 <<< UInt32.ofInt (8 - (used : ℤ))) - 1) : UInt32).toNat.testBit k = decide (8 - used ≤ k) := by
    interval_cases used <;> interval_cases k <;> decide
  rw [UInt32.toNat_toUInt8, Nat.testBit_mod_two_pow, UInt32.toNat_and, Nat.testBit_and, mask,
    UInt8.toNat_toUInt32]
  simp [inside, Bool.and_comm]

theorem clearUnused_testBit {addb : List UInt8} {bits n k : ℕ} (inside : n < addb.length) (some_ : 1 ≤ bits)
    (most : bits ≤ 32) (low : k < 8) :
    ((clearUnused addb bits).getD n 0).toNat.testBit k =
      (decide (8 * n + (7 - k) < bits) && (addb.getD n 0).toNat.testBit k) := by
  have whole : (bits : ℤ).tdiv 8 = (bits / 8 : ℕ) := rfl
  have left : (bits : ℤ).tmod 8 = (bits % 8 : ℕ) := rfl
  have entry : (clearUnused addb bits).getD n 0 =
      if (n : ℤ) ≥ (bits / 8 : ℕ) + (if ((bits % 8 : ℕ) : ℤ) ≠ 0 then 1 else 0) then (0 : UInt8)
      else if (bits : ℤ) < 32 ∧ ((bits % 8 : ℕ) : ℤ) ≠ 0 ∧ (n : ℤ) = (bits / 8 : ℕ) then
        ((addb.getD n 0).toUInt32 &&& ~~~((1 <<< UInt32.ofInt (8 - ((bits % 8 : ℕ) : ℤ))) - 1)).toUInt8
      else addb.getD n 0 := by
    rw [← whole, ← left, clearUnused]
    simp [List.getD, inside]
  rw [entry]
  by_cases behind : (n : ℤ) ≥ (bits / 8 : ℕ) + (if ((bits % 8 : ℕ) : ℤ) ≠ 0 then 1 else 0)
  · have cut : ¬8 * n + (7 - k) < bits := by
      split at behind <;> omega
    rw [if_pos behind]
    simp [cut]
  · rw [if_neg behind]
    by_cases last : (bits : ℤ) < 32 ∧ ((bits % 8 : ℕ) : ℤ) ≠ 0 ∧ (n : ℤ) = (bits / 8 : ℕ)
    · rw [if_pos last, cutOctet_testBit _ (by omega) (by omega) low]
      congr 2
      rw [eq_iff_iff]
      omega
    · have kept : 8 * n + (7 - k) < bits := by
        split at behind <;> omega
      rw [if_neg last]
      simp [kept]

/-! ### The written mask of a text -/

theorem splitOn_digits {dotted : List Char} (front : ∀ c ∈ dotted, isDotted c = true) :
    ∀ field ∈ dotted.splitOn '.', ∀ c ∈ field, c.isDigit = true := by
  induction dotted with
  | nil => simp
  | cons c dotted ih =>
    have fields := ih fun d member => front d (by simp [member])
    rw [List.splitOn_cons_eq_if_modifyHead]
    by_cases dot : c = '.'
    · simpa [dot] using fields
    · have digit : c.isDigit = true := by
        have := front c (by simp)
        simpa [isDotted, dot] using this
      obtain ⟨head, tail, split_⟩ := List.exists_cons_of_ne_nil (List.splitOn_ne_nil '.' dotted)
      rw [split_] at fields ⊢
      simpa [dot, digit] using fields

theorem exists_decimals {parts : List (List Char)}
    (decimal : ∀ part ∈ parts, AllDigits part ∧ Nat.ofDigitChars 10 part 0 ≤ 255) :
    ∃ octets : List (Decimal 0 255), octets.map Decimal.digits = parts := by
  induction parts with
  | nil => exact ⟨[], rfl⟩
  | cons part parts ih =>
    obtain ⟨octets, same⟩ := ih fun other member => decimal other (by simp [member])
    obtain ⟨digits, most⟩ := decimal part (by simp)
    exact ⟨⟨part, digits, Nat.zero_le _, most⟩ :: octets, by rw [List.map_cons, same]⟩

theorem reading_of_le {part : List Char} (most : Nat.ofDigitChars 10 part 0 ≤ 255) :
    reading part = Nat.ofDigitChars 10 part 0 := by
  unfold reading
  by_cases empty : part = []
  · rw [if_pos empty, empty]
    rfl
  · rw [if_neg empty]
    omega

/-- Octets up to 255 are stored as they are, with zeros behind them. -/
theorem stored_getD {values : List ℕ} (most : ∀ value ∈ values, value ≤ 255) (zeros n : ℕ) :
    (((values ++ List.replicate zeros 0).map Nat.toUInt8).getD n 0).toNat = values.getD n 0 := by
  by_cases inside : n < values.length
  · have fits := most _ (List.getElem_mem inside)
    simp [List.getD, List.getElem?_append_left, inside]
    omega
  · simp only [List.getD, List.getElem?_map, List.getElem?_append_right (not_lt.mp inside),
      List.getElem?_replicate, List.getElem?_eq_none (not_lt.mp inside), Option.getD_none]
    split <;> rfl

theorem storedOctets_eq {text : List Char} (taken : Taken text) (inRange : PartsInRange text) :
    storedOctets text = (((octetTexts text).map fun part => Nat.ofDigitChars 10 part 0) ++
      List.replicate (4 - (octetTexts text).length) 0).map Nat.toUInt8 := by
  have read : (octetTexts text).map reading = (octetTexts text).map fun part => Nat.ofDigitChars 10 part 0 :=
    List.map_congr_left fun part member => reading_of_le (inRange.1 part member).2
  rw [storedOctets, ← read]
  congr 1
  by_cases star : text.dropWhile isDotted = ['*']
  · obtain ⟨dotted, -, split_⟩ := taken.star star
    have most := taken.1
    rw [octetTexts, if_pos star, split_, List.dropLast_concat, List.map_append, List.append_assoc]
    rw [split_, List.length_append, List.length_singleton] at most
    congr 1
    rw [List.length_append, List.length_singleton,
      show 4 - (dotted.splitOn '.').length = 4 - ((dotted.splitOn '.').length + 1) + 1 by omega]
    rfl
  · rw [octetTexts, if_neg star]

theorem V4Mask.octet_eq (m : V4Mask) {parts : List (List Char)} (same : m.octets.map Decimal.digits = parts)
    (n : ℕ) : m.octet n = (parts.map fun part => Nat.ofDigitChars 10 part 0).getD n 0 := by
  rw [V4Mask.octet, ← same, List.map_map]
  rfl

/-- The stored address is that of the mask, where the octets and the bit count are. -/
theorem V4Mask.holds {m : V4Mask} {text : List Char} (taken : Taken text) (inRange : PartsInRange text)
    (same : m.octets.map Decimal.digits = octetTexts text) (bits : (m.bits : ℤ) = writtenBits text)
    (some_ : 1 ≤ m.bits) (most : m.bits ≤ 32) :
    m.Holds ((clearUnused (storedOctets text) (writtenBits text)).foldl packOctet 0) := by
  have small : ∀ value ∈ (octetTexts text).map (fun part => Nat.ofDigitChars 10 part 0), value ≤ 255 := by
    intro value member
    obtain ⟨part, inside, rfl⟩ := List.mem_map.mp member
    exact (inRange.1 part inside).2
  have four : (storedOctets text).length = 4 := by
    have := taken.1
    simp only [storedOctets, List.length_map, List.length_append, List.length_replicate]
    omega
  intro i inside
  rw [← bits, pack_testBit (by simpa [clearUnused] using four) inside,
    clearUnused_testBit (by omega) some_ most (by omega), storedOctets_eq taken inRange, stored_getD small,
    m.octet_eq same]
  congr 2
  rw [eq_iff_iff]
  omega

theorem allDigits_octets {text : List Char} (inRange : PartsInRange text) :
    ∀ part ∈ octetTexts text, AllDigits part ∧ Nat.ofDigitChars 10 part 0 ≤ 255 := by
  intro part member
  have field : part ∈ numbers text := by
    unfold octetTexts at member
    split at member
    · exact List.dropLast_subset _ member
    · exact member
  exact ⟨⟨(inRange.1 part member).1, splitOn_digits (takeWhile_dotted text) part field⟩,
    (inRange.1 part member).2⟩

/-- A text that the scan gets through, with its parts in range, writes the mask that is stored. -/
theorem exists_v4Mask {text : List Char} (taken : Taken text) (inRange : PartsInRange text) :
    ∃ m : V4Mask, m.text = text ∧ (m.bits : ℤ) = writtenBits text ∧
      m.octets.map Decimal.digits = octetTexts text := by
  obtain ⟨octets, same⟩ := exists_decimals (allDigits_octets inRange)
  have length : octets.length = (octetTexts text).length := by rw [← same, List.length_map]
  have whole := List.takeWhile_append_dropWhile (p := isDotted) (l := text)
  have most := taken.1
  have positive := List.length_pos_iff.mpr (numbers_ne_nil text)
  have ending := taken.2
  -- the whole address, or a star, or a slash and a number of bits
  cases h : text.dropWhile isDotted with
  | nil =>
    have parts : octetTexts text = numbers text := if_neg (by rw [h]; simp)
    rw [parts] at same length
    refine ⟨⟨octets, List.length_pos_iff.mp (by omega), by omega, .whole⟩, ?_, ?_, same.trans parts.symm⟩
    · rw [h, List.append_nil] at whole
      rw [V4Mask.text, same, numbers, List.intercalate_splitOn, whole]
      exact List.append_nil text
    · rw [writtenBits, if_pos h]
      simp only [V4Mask.bits]
      omega
  | cons c rest =>
    rw [h] at ending
    obtain ⟨rfl, rfl, -⟩ | ⟨rfl, read, some_, fits⟩ := ending
    · obtain ⟨dotted, cut, split_⟩ := taken.star h
      have parts : octetTexts text = dotted.splitOn '.' := by
        rw [octetTexts, if_pos h, split_, List.dropLast_concat]
      have more := List.length_pos_iff.mpr (List.splitOn_ne_nil '.' dotted)
      rw [split_, List.length_append, List.length_singleton] at most
      rw [parts] at same length
      refine ⟨⟨octets, List.length_pos_iff.mp (by omega), by omega, .star⟩, ?_, ?_, same.trans parts.symm⟩
      · rw [V4Mask.text, same, List.intercalate_splitOn, cut]
        rfl
      · rw [writtenBits, if_neg (by rw [h]; simp), h, endingBits, if_pos rfl, split_]
        simp only [V4Mask.bits, List.length_append, List.length_singleton]
        omega
    · have parts : octetTexts text = numbers text := if_neg (by rw [h]; simp)
      obtain ⟨digits, below⟩ := inRange.2 rest h
      have nonempty : rest ≠ [] := by
        rintro rfl
        exact some_ (by decide)
      have value : (strtoul rest).1 = Nat.ofDigitChars 10 rest 0 := by
        have := strtoul_field digits stops_nil
        rw [List.append_nil] at this
        rw [this]
        exact reading_of_le (by omega)
      have stored : toInt (strtoul rest).1 = Nat.ofDigitChars 10 rest 0 := by
        rw [value, toInt]
        apply Int.bmod_eq_of_le <;> omega
      rw [parts] at same length
      refine ⟨⟨octets, List.length_pos_iff.mp (by omega), by omega,
        .bits ⟨rest, ⟨nonempty, digits⟩, by omega, below⟩⟩, ?_, ?_, same.trans parts.symm⟩
      · rw [V4Mask.text, same, numbers, List.intercalate_splitOn]
        rw [h] at whole
        exact whole
      · rw [writtenBits, if_neg (by rw [h]; simp), h, endingBits, if_neg (by decide), stored]
        rfl

theorem V4Mask.bits_range (m : V4Mask) : 1 ≤ m.bits ∧ m.bits ≤ 32 := by
  have positive := List.length_pos_iff.mpr m.nonempty
  have most := m.most
  unfold V4Mask.bits
  cases m.ending with
  | bits count => exact ⟨count.low_le, count.le_high⟩
  | whole => dsimp only; omega
  | star => dsimp only; omega

theorem mem_intercalate {c d : Char} {parts : List (List Char)} (member : c ∈ [d].intercalate parts) :
    (∃ part ∈ parts, c ∈ part) ∨ c = d := by
  induction parts with
  | nil => simp at member
  | cons part parts ih =>
    cases parts with
    | nil =>
      rw [List.intercalate_singleton] at member
      exact .inl ⟨part, by simp, member⟩
    | cons next parts =>
      rw [List.intercalate_cons_cons, List.mem_append, List.mem_append, List.mem_singleton] at member
      obtain (here | dot) | behind := member
      · exact .inl ⟨part, by simp, here⟩
      · exact .inr dot
      · exact (ih behind).imp_left fun ⟨other, inside, here⟩ => ⟨other, by simp [inside], here⟩

section

variable (m : V4Mask)

def V4Mask.octetDigits : List (List Char) := m.octets.map Decimal.digits

theorem V4Mask.octetDigits_dotted : ∀ c ∈ ['.'].intercalate m.octetDigits, isDotted c = true := by
  intro c member
  obtain ⟨part, inside, here⟩ | dot := mem_intercalate member
  · obtain ⟨octet, -, rfl⟩ := List.mem_map.mp inside
    simp [isDotted, octet.written.2 c here]
  · rw [dot]
    decide

theorem V4Mask.splitOn_octetDigits : (['.'].intercalate m.octetDigits).splitOn '.' = m.octetDigits := by
  apply List.splitOn_intercalate
  · intro part inside dot
    obtain ⟨octet, -, rfl⟩ := List.mem_map.mp inside
    exact absurd (octet.written.2 '.' dot) (by decide)
  · exact fun empty => m.nonempty (List.map_eq_nil_iff.mp empty)

/-- The numbers of a written mask are its octets, and what stands behind them is its ending. -/
theorem V4Mask.octetTexts_text : octetTexts m.text = m.octetDigits ∧
    ∀ rest, m.text.dropWhile isDotted = '/' :: rest → ∃ count, m.ending = .bits count ∧ rest = count.digits := by
  have dotted := m.octetDigits_dotted
  have split_ := m.splitOn_octetDigits
  have front : m.text = ['.'].intercalate m.octetDigits ++ m.ending.text := rfl
  rw [front]
  cases m.ending with
  | whole =>
    rw [Ending.text, List.append_nil]
    have none_ : (['.'].intercalate m.octetDigits).dropWhile isDotted = [] := List.dropWhile_eq_nil_iff.mpr dotted
    have all : (['.'].intercalate m.octetDigits).takeWhile isDotted = ['.'].intercalate m.octetDigits :=
      List.takeWhile_eq_self_iff.mpr dotted
    rw [octetTexts, none_, if_neg (by simp), numbers, all, split_]
    exact ⟨rfl, fun rest here => by cases here⟩
  | star =>
    have behind : (['.'].intercalate m.octetDigits ++ ['.', '*']).dropWhile isDotted = ['*'] := by
      rw [List.dropWhile_append_of_pos dotted]
      decide
    have all : (['.'].intercalate m.octetDigits ++ ['.', '*']).takeWhile isDotted =
        ['.'].intercalate m.octetDigits ++ '.' :: [] := by
      rw [List.takeWhile_append_of_pos dotted]
      exact congrArg _ (by decide)
    rw [Ending.text, octetTexts, behind, if_pos rfl, numbers, all, List.splitOn_append_cons_self, split_,
      List.splitOn_nil, List.dropLast_concat]
    exact ⟨rfl, fun rest here => by cases here⟩
  | bits count =>
    have behind : (['.'].intercalate m.octetDigits ++ '/' :: count.digits).dropWhile isDotted =
        '/' :: count.digits := by
      rw [List.dropWhile_append_of_pos dotted, List.dropWhile_cons_of_neg (by decide)]
    have all : (['.'].intercalate m.octetDigits ++ '/' :: count.digits).takeWhile isDotted =
        ['.'].intercalate m.octetDigits := by
      rw [List.takeWhile_append_of_pos dotted, List.takeWhile_cons_of_neg (by decide), List.append_nil]
    rw [Ending.text, octetTexts, behind, if_neg (by simp), numbers, all, split_]
    refine ⟨rfl, fun rest here => ⟨count, rfl, ?_⟩⟩
    injection here with _ same
    exact same.symm

end

/-- The parts of a written mask are in range. -/
theorem V4Mask.inRange (m : V4Mask) : PartsInRange m.text := by
  obtain ⟨octets, ending⟩ := m.octetTexts_text
  constructor
  · intro part member
    rw [octets] at member
    obtain ⟨octet, -, rfl⟩ := List.mem_map.mp member
    exact ⟨octet.written.1, octet.le_high⟩
  · intro rest here
    obtain ⟨count, -, rfl⟩ := ending rest here
    exact ⟨count.written.2, count.le_high⟩

/-- The parser says what a text writes, and takes no text that writes nothing, if and only if the parts of a text that
the scan gets through are in range. -/
theorem readAsWritten_iff (text : List Char) : ReadAsWritten text ↔ (Taken text → PartsInRange text) := by
  constructor
  · intro faithful taken
    obtain ⟨-, -, m, same, -⟩ := faithful.ipv4 _ _ (tryParse_taken taken)
    rw [← same]
    exact m.inRange
  · intro sound
    refine ⟨fun addr bits parsed => ?_, fun unwritten => ?_⟩
    · by_cases taken : Taken text
      · obtain ⟨m, same, count, octets⟩ := exists_v4Mask taken (sound taken)
        obtain ⟨low, high⟩ := m.bits_range
        have address := m.holds taken (sound taken) octets count low high
        rw [tryParse_taken taken] at parsed
        injection parsed with storedAddr storedBits
        rw [storedAddr] at address
        rw [← storedBits, ← count]
        exact ⟨by omega, by omega, m, same, rfl, address⟩
      · rw [tryParse_not_taken taken] at parsed
        cases parsed
    · by_contra parsed
      have taken : Taken text := by
        by_contra refused
        exact parsed (tryParse_not_taken refused)
      obtain ⟨m, same, -⟩ := exists_v4Mask taken (sound taken)
      exact unwritten ⟨m, same⟩

/-- `256.1.1.1` is taken for `0.1.1.1`. -/
theorem octet_wraps : ¬ReadAsWritten "256.1.1.1".toList := by
  intro faithful
  have parsed : tryParseV4Netmask "256.1.1.1".toList = .ipv4 0x00010101 32 := by decide +kernel
  obtain ⟨-, -, m, same, -⟩ := faithful.ipv4 _ _ parsed
  have inRange := m.inRange
  rw [same] at inRange
  have small := (inRange.1 ['2', '5', '6'] (by decide)).2
  exact absurd small (by decide)

end Ircd.Hostmask
