import Ircd.Channel.Mode
import Mathlib.Data.List.TakeWhile

/-!
# Keys

A key is relayed as a middle parameter of MODE and SJOIN lines. What `fix_key` and `fix_key_old` leave of a
parameter, and which parameters they make fit for that.
-/
namespace Ircd.Chan

/-- `iscntrl`. -/
def isControl (c : Char) : Bool := decide (c.toNat < 0x20) || c == '\x7f'

/-- What `chm_key` makes of its parameter. -/
def normalKey (mine : Bool) (key : List Char) : List Char := if mine then fixKey key else fixKeyOld key

/-- The text arrives as it is when it is sent as a middle parameter. -/
structure FitsMiddle (key : List Char) : Prop where
  start : key.head? ≠ some ':'
  noSeparator : ∀ c ∈ key, c ≠ ' ' ∧ c ≠ ','
  noControl : ∀ c ∈ key, isControl c = false
  sevenBits : ∀ c ∈ key, c.toNat < 128

/-- The key is fit to be sent, the assertion of `chm_key` holds, and there is nothing left to normalise. -/
structure KeyRight (mine : Bool) (key : List Char) : Prop where
  middle : FitsMiddle (normalKey mine key)
  asserted : ∀ (x : ModeContext) (c : Char) (r : ModeRun), x.mine = mine → x.param r = some key →
    (chmKey x .add c r).isSome = true
  again : normalKey mine (normalKey mine key) = normalKey mine key

/-- A character that no filter takes away and that must not stay. -/
def staysBad (mine : Bool) (c : Char) : Bool :=
  c == ',' || c == '\x7f' || !mine && (decide (c.toNat ≤ 0x20) && c != '\n' && c != '\r')

/-- No byte of the key becomes one of those. For a server the key ends at the first byte that becomes NUL. -/
def KeyClean (mine : Bool) (key : List Char) : Prop :=
  ∀ c ∈ (key.map sevenBits).takeWhile (fun c => mine || c != '\x00'), staysBad mine c = false

instance (mine : Bool) (key : List Char) : Decidable (KeyClean mine key) := List.decidableBAll _ _

/-! ### Seven bits -/

theorem sevenBits_toNat (c : Char) : (sevenBits c).toNat = c.toNat % 128 := by
  have ofNat : ∀ n < 128, (Char.ofNat n).toNat = n := by decide
  exact ofNat _ (Nat.mod_lt _ (by decide))

theorem sevenBits_of_lt {c : Char} (small : c.toNat < 128) : sevenBits c = c := by
  unfold sevenBits
  rw [Nat.mod_eq_of_lt small, Char.ofNat_toNat]

theorem map_sevenBits {text : List Char} (small : ∀ c ∈ text, c.toNat < 128) : text.map sevenBits = text := by
  conv_rhs => rw [← List.map_id text]
  exact List.map_congr_left fun c member => sevenBits_of_lt (small c member)

/-- The filters may change places. -/
theorem takeWhile_filter {α : Type*} {p q : α → Bool} {text : List α} (kept : ∀ c ∈ text, q c = false → p c = true) :
    (text.filter p).takeWhile q = (text.takeWhile q).filter p := by
  induction text with
  | nil => rfl
  | cons c text ih =>
    have rest := ih fun d member => kept d (List.mem_cons_of_mem c member)
    by_cases keep : p c = true
    · by_cases go : q c = true
      · simp [keep, go, rest]
      · simp [keep, go]
    · have go : q c = true := by
        by_contra stop
        exact keep (kept c List.mem_cons_self (by simpa using stop))
      simp [keep, go, rest]

theorem space_lt {c : Char} : ' ' < c ↔ 0x20 < c.toNat := Iff.rfl

theorem toNat_eq_space {c : Char} : c.toNat = 0x20 ↔ c = ' ' := Char.toNat_inj (d := ' ')

/-! ### What stays -/

theorem mem_fixKey {key : List Char} {c : Char} : c ∈ fixKey key ↔ c ∈ key.map sevenBits ∧ c ≠ ':' ∧ ' ' < c := by
  unfold fixKey
  rw [List.mem_filter, decide_eq_true_iff]

theorem mem_fixKeyOld {key : List Char} {c : Char} : c ∈ fixKeyOld key ↔
    c ∈ (key.map sevenBits).takeWhile (· != '\x00') ∧ c ≠ '\n' ∧ c ≠ ':' ∧ c ≠ '\r' := by
  unfold fixKeyOld
  rw [takeWhile_filter, List.mem_filter, decide_eq_true_iff]
  intro d _ stop
  obtain rfl : d = '\x00' := by simpa using stop
  decide

theorem mem_normalKey {mine : Bool} {key : List Char} {c : Char} (stays : c ∈ normalKey mine key) :
    c ∈ (key.map sevenBits).takeWhile (fun c => mine || c != '\x00') ∧ c ≠ ':' := by
  unfold normalKey at stays
  cases mine with
  | false =>
    obtain ⟨member, -, noColon, -⟩ := mem_fixKeyOld.mp stays
    exact ⟨member, noColon⟩
  | true =>
    obtain ⟨member, noColon, -⟩ := mem_fixKey.mp stays
    refine ⟨?_, noColon⟩
    rwa [List.takeWhile_eq_self_iff.mpr fun _ _ => Bool.true_or _]

theorem normalKey_lt {mine : Bool} {key : List Char} {c : Char} (stays : c ∈ normalKey mine key) : c.toNat < 128 := by
  obtain ⟨d, -, rfl⟩ := List.mem_map.mp (List.takeWhile_subset _ (mem_normalKey stays).1)
  rw [sevenBits_toNat]
  exact Nat.mod_lt _ (by decide)

/-- There is nothing left to normalise, whatever the parameter is. -/
theorem normalKey_again (mine : Bool) (key : List Char) :
    normalKey mine (normalKey mine key) = normalKey mine key := by
  have small : ∀ c ∈ normalKey mine key, c.toNat < 128 := fun c => normalKey_lt
  cases mine with
  | false =>
    change fixKeyOld (fixKeyOld key) = fixKeyOld key
    change ∀ c ∈ fixKeyOld key, c.toNat < 128 at small
    rw [fixKeyOld, map_sevenBits small, List.filter_eq_self.mpr, List.takeWhile_eq_self_iff]
    · exact fun c stays => List.mem_takeWhile_imp (p := (· != '\x00')) (mem_fixKeyOld.mp stays).1
    · exact fun c stays => decide_eq_true (mem_fixKeyOld.mp stays).2
  | true =>
    change fixKey (fixKey key) = fixKey key
    change ∀ c ∈ fixKey key, c.toNat < 128 at small
    rw [fixKey, map_sevenBits small, List.filter_eq_self.mpr]
    exact fun c stays => decide_eq_true (mem_fixKey.mp stays).2

/-! ### Keys that are fit -/

/-- What stays is bad if and only if it is one of the characters that no filter takes away. -/
theorem stays_bad {mine : Bool} {key : List Char} {c : Char} (stays : c ∈ normalKey mine key) :
    staysBad mine c = true ↔ c = ' ' ∨ c = ',' ∨ isControl c = true := by
  unfold staysBad isControl
  cases mine with
  | false =>
    obtain ⟨-, noLf, -, noCr⟩ := mem_fixKeyOld.mp stays
    simp only [Bool.or_eq_true, Bool.and_eq_true, Bool.not_false, beq_iff_eq, bne_iff_ne, decide_eq_true_eq,
      le_iff_eq_or_lt, toNat_eq_space]
    tauto
  | true =>
    have visible := space_lt.mp (mem_fixKey.mp stays).2.2
    have noSpace : c ≠ ' ' := fun space => visible.ne' (toNat_eq_space.mpr space)
    simp only [Bool.or_eq_true, beq_iff_eq, decide_eq_true_eq, Bool.not_true, Bool.false_and, Bool.false_eq_true,
      or_false, noSpace, visible.not_gt, false_or]

/-- Every bad character stays. -/
theorem bad_stays {mine : Bool} {key : List Char} {c : Char}
    (member : c ∈ (key.map sevenBits).takeWhile (fun c => mine || c != '\x00')) (bad : staysBad mine c = true) :
    c ∈ normalKey mine key := by
  unfold staysBad at bad
  unfold normalKey
  simp only [Bool.or_eq_true, Bool.and_eq_true, beq_iff_eq, bne_iff_ne, decide_eq_true_eq] at bad
  cases mine with
  | false =>
    refine mem_fixKeyOld.mpr ⟨member, ?_⟩
    rcases bad with (rfl | rfl) | ⟨-, ⟨low, noLf⟩, noCr⟩
    · decide
    · decide
    · refine ⟨noLf, ?_, noCr⟩
      rintro rfl
      exact absurd low (by decide)
  | true =>
    refine mem_fixKey.mpr ⟨List.takeWhile_subset _ member, ?_⟩
    rcases bad with (rfl | rfl) | ⟨never, -⟩
    · decide
    · decide
    · cases never

theorem keyClean_iff (mine : Bool) (key : List Char) :
    KeyClean mine key ↔ ∀ c ∈ normalKey mine key, c ≠ ' ' ∧ c ≠ ',' ∧ isControl c = false := by
  constructor
  · intro clean c stays
    have good := clean c (mem_normalKey stays).1
    rw [← Bool.not_eq_true, stays_bad stays] at good
    simpa [not_or] using good
  · intro fit c member
    by_contra bad
    rw [Bool.not_eq_false] at bad
    have stays := bad_stays member bad
    obtain ⟨noSpace, noComma, noControl⟩ := fit c stays
    rcases (stays_bad stays).mp bad with space | comma | control
    · exact noSpace space
    · exact noComma comma
    · rw [noControl] at control
      cases control

theorem chmKey_isSome {x : ModeContext} {c : Char} {r : ModeRun} {key : List Char} (given : x.param r = some key)
    (visible : (normalKey x.mine key).head? ≠ some ' ') : (chmKey x .add c r).isSome = true := by
  unfold chmKey
  split
  · rfl
  · rw [given]
    dsimp only
    exact (congrArg Option.isSome (if_neg visible)).trans rfl

/-- A key comes out right if and only if no byte of the parameter becomes a character that must not stay. -/
theorem keyRight_iff (mine : Bool) (key : List Char) : KeyRight mine key ↔ KeyClean mine key := by
  rw [keyClean_iff]
  constructor
  · intro right c stays
    obtain ⟨noSpace, noComma⟩ := right.middle.noSeparator c stays
    exact ⟨noSpace, noComma, right.middle.noControl c stays⟩
  · intro fit
    refine ⟨⟨?_, fun c stays => ⟨(fit c stays).1, (fit c stays).2.1⟩, fun c stays => (fit c stays).2.2,
      fun c => normalKey_lt⟩, ?_, normalKey_again mine key⟩
    · intro first
      exact (mem_normalKey (List.mem_of_mem_head? first)).2 rfl
    · rintro x c r rfl given
      exact chmKey_isSome given fun first => (fit ' ' (List.mem_of_mem_head? first)).1 rfl

/-- A blank with the eighth bit set becomes a blank. -/
theorem key_gets_blank : ¬ ∀ (mine : Bool) (key : List Char), KeyRight mine key := by
  intro all
  have right := all false ['a', '\xa0', 'b']
  exact (right.middle.noSeparator ' ' (by decide)).1 rfl

end Ircd.Chan
