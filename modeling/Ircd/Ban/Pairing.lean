import Ircd.Ban.State
import Mathlib.Data.List.Infix
import Mathlib.Data.List.Nodup

/-!
# The list and the table

A temporary K-line is in the address table exactly as long as it is in `temporary_klines`. A G-line is in
no list, so nothing but a rehash ends it.
-/
namespace Ircd.Ban

open Hostmask

/-- Nothing has ended the ban so far. -/
def TimedBan.Standing (b : TimedBan) (s : State) : Prop :=
  if b.gline then b.rehashes = s.rehashes
  else b.aconf ∉ s.removed ∧ ∀ t ∈ s.expiries.drop b.expiries, t < b.hold

/-- A `ConfItem` has a record in the table. -/
def InTable (t : Table) (aconf : ℕ) : Prop := ∃ arec, t.Holds arec ∧ arec.aconf = aconf

/-- The list and the table are in step with each other, and with what has happened. -/
structure State.Sound (s : State) : Prop where
  numbered : s.table.Numbered s.made
  known : ∀ b ∈ s.timedBans, b.aconf < s.made ∧ b.rehashes ≤ s.rehashes ∧ b.expiries ≤ s.expiries.length
  apart : ∀ b ∈ s.timedBans, ∀ b' ∈ s.timedBans, b.aconf = b'.aconf → b = b'
  address : ∀ b ∈ s.timedBans, ∀ arec, s.table.Holds arec → arec.aconf = b.aconf →
    arec.mask = maskOf b.host
  inTable : ∀ b ∈ s.timedBans, InTable s.table b.aconf ↔ b.Standing s
  flagged : ∀ b ∈ s.timedBans, b.Standing s →
    ((s.table.confs b.aconf).flags &&& banFlagsTemporary ≠ 0 ↔ b.gline = false)
  mem_iff : ∀ conf, conf ∈ s.temporaryKlines ↔
    ∃ b ∈ s.timedBans, b.toConf = conf ∧ b.gline = false ∧ b.Standing s
  once : (s.temporaryKlines.map (·.aconf)).Nodup
  commanded : ∀ aconf ∈ s.removed, ∃ b ∈ s.timedBans, b.aconf = aconf ∧ b.gline = false
  noGlines : s.glines = []

theorem start_sound : start.Sound where
  numbered := initHostHash_numbered _
  known b member := absurd member List.not_mem_nil
  apart b member := absurd member List.not_mem_nil
  address b member := absurd member List.not_mem_nil
  inTable b member := absurd member List.not_mem_nil
  flagged b member := absurd member List.not_mem_nil
  mem_iff conf := by simp [start]
  once := List.nodup_nil
  commanded aconf member := absurd member List.not_mem_nil
  noGlines := rfl

/-! ### Adding -/

section Adding

variable {s : State}

@[simp] theorem inTable_enter (e : Entry) (aconf : ℕ) :
    InTable (s.enter e).table aconf ↔ aconf = s.made ∨ InTable s.table aconf := by
  simp only [InTable, State.enter, holds_add]
  constructor
  · rintro ⟨arec, rfl | holds, rfl⟩
    · exact Or.inl rfl
    · exact Or.inr ⟨arec, holds, rfl⟩
  · rintro (rfl | ⟨arec, holds, rfl⟩)
    · exact ⟨_, Or.inl rfl, rfl⟩
    · exact ⟨arec, Or.inr holds, rfl⟩

private theorem State.Sound.numbered_enter (sound : s.Sound) (few : s.made < 0xFFFFFFFF) (e : Entry) :
    (s.enter e).table.Numbered (s.enter e).made := by
  refine Table.Numbered.add ?_ few e.address e.type e.user
  have numbered := sound.numbered
  exact ⟨numbered.counter, numbered.bucket, numbered.below, numbered.precedence, numbered.once,
    numbered.unique⟩

private theorem State.Sound.address_enter (sound : s.Sound) (e : Entry) {b : TimedBan}
    (member : b ∈ s.timedBans) (arec : AddressRec) (holds : (s.enter e).table.Holds arec)
    (same : arec.aconf = b.aconf) : arec.mask = maskOf b.host := by
  rcases (holds_add ..).mp holds with rfl | holds
  · exact absurd same.symm (sound.known b member).1.ne
  · exact sound.address b member arec holds same

private theorem State.Sound.confs_enter (sound : s.Sound) (e : Entry) {b : TimedBan}
    (member : b ∈ s.timedBans) : (s.enter e).table.confs b.aconf = s.table.confs b.aconf :=
  Function.update_of_ne (sound.known b member).1.ne _ _

/-- An entry of a file, or a permanent K-line. -/
theorem State.Sound.enter (sound : s.Sound) (few : s.made < 0xFFFFFFFF) (e : Entry) :
    (s.enter e).Sound where
  numbered := sound.numbered_enter few e
  known b member := (sound.known b member).imp_left Nat.lt_succ_of_lt
  apart := sound.apart
  address b member := sound.address_enter e member
  inTable b member := by
    rw [inTable_enter]
    constructor
    · rintro (same | held)
      · exact absurd same (sound.known b member).1.ne
      · exact (sound.inTable b member).mp held
    · exact fun standing => Or.inr ((sound.inTable b member).mpr standing)
  flagged b member standing := by
    rw [sound.confs_enter e member]
    exact sound.flagged b member standing
  mem_iff := sound.mem_iff
  once := sound.once
  commanded := sound.commanded
  noGlines := sound.noGlines

private theorem State.Sound.nextBan_standing (sound : s.Sound) (user host : List Char) (hold : ℤ)
    (gline : Bool) : (s.nextBan user host hold gline).Standing s := by
  cases gline with
  | true => rfl
  | false =>
    refine ⟨fun removed => ?_, fun t member => ?_⟩
    · obtain ⟨b, member, same, -⟩ := sound.commanded _ removed
      exact absurd same (sound.known b member).1.ne
    · rw [State.nextBan, List.drop_length] at member
      cases member

/-- A new timed ban: a temporary K-line goes into the list, a G-line does not. -/
private theorem State.Sound.addBan (sound : s.Sound) (few : s.made < 0xFFFFFFFF)
    (user host : List Char) (hold : ℤ) (gline : Bool) :
    State.Sound
      { s.enter ⟨some host, confKill, some user, if gline then 0 else banFlagsTemporary⟩ with
        temporaryKlines :=
          if gline then s.temporaryKlines
          else (s.nextBan user host hold gline).toConf :: s.temporaryKlines
        timedBans := s.nextBan user host hold gline :: s.timedBans } := by
  have standing := sound.nextBan_standing user host hold gline
  have older : ∀ b ∈ s.timedBans, b.aconf ≠ s.made := fun b member => (sound.known b member).1.ne
  constructor
  · exact sound.numbered_enter few _
  · -- the new ban has the number of the new conf, which is nobody else's
    intro b member
    rcases List.mem_cons.mp member with rfl | member
    · exact ⟨Nat.lt_succ_self _, Nat.le_refl _, Nat.le_refl _⟩
    · exact (sound.known b member).imp_left Nat.lt_succ_of_lt
  · intro b member b' member' same
    rcases List.mem_cons.mp member with rfl | member <;> rcases List.mem_cons.mp member' with rfl | member'
    · rfl
    · exact absurd same.symm (older b' member')
    · exact absurd same (older b member)
    · exact sound.apart b member b' member' same
  · intro b member arec holds same
    rcases List.mem_cons.mp member with rfl | member
    · rcases (holds_add ..).mp holds with rfl | holds
      · rfl
      · exact absurd same (sound.numbered.below arec holds).ne
    · exact sound.address_enter _ member arec holds same
  · intro b member
    rw [inTable_enter]
    rcases List.mem_cons.mp member with rfl | member
    · exact ⟨fun _ => standing, fun _ => Or.inl rfl⟩
    · constructor
      · rintro (same | held)
        · exact absurd same (older b member)
        · exact (sound.inTable b member).mp held
      · exact fun stands => Or.inr ((sound.inTable b member).mpr stands)
  · intro b member stands
    rcases List.mem_cons.mp member with rfl | member
    · cases gline <;> simp [State.enter, addConfByAddress, State.nextBan, banFlagsTemporary]
    · rw [sound.confs_enter _ member]
      exact sound.flagged b member stands
  · intro conf
    have before := sound.mem_iff conf
    constructor
    · intro member
      cases gline with
      | true =>
        obtain ⟨b, known, rest⟩ := before.mp member
        exact ⟨b, List.mem_cons_of_mem _ known, rest⟩
      | false =>
        rcases List.mem_cons.mp member with rfl | member
        · exact ⟨_, List.mem_cons_self, rfl, rfl, standing⟩
        · obtain ⟨b, known, rest⟩ := before.mp member
          exact ⟨b, List.mem_cons_of_mem _ known, rest⟩
    · rintro ⟨b, member, rfl, kline, stands⟩
      rcases List.mem_cons.mp member with rfl | member
      · obtain rfl : gline = false := kline
        exact List.mem_cons_self
      · have listed := before.mpr ⟨b, member, rfl, kline, stands⟩
        cases gline with
        | true => exact listed
        | false => exact List.mem_cons_of_mem _ listed
  · cases gline with
    | true => exact sound.once
    | false =>
      simp only [Bool.false_eq_true, if_false, List.map_cons, List.nodup_cons, List.mem_map, not_exists,
        not_and]
      refine ⟨fun conf member same => ?_, sound.once⟩
      obtain ⟨b, known, rfl, -⟩ := (sound.mem_iff conf).mp member
      exact older b known same
  · intro aconf removed
    obtain ⟨b, member, rest⟩ := sound.commanded aconf removed
    exact ⟨b, List.mem_cons_of_mem _ member, rest⟩
  · exact sound.noGlines

theorem State.Sound.kline (sound : s.Sound) (wildMatch : List Char → List Char → Bool) (now : ℤ)
    (user host : List Char) (tklineTime : ℤ)
    (few : (kline wildMatch s now user host tklineTime).made < 2 ^ 32) :
    (kline wildMatch s now user host tklineTime).Sound := by
  unfold Ban.kline at few ⊢
  split_ifs at few ⊢ with placed timed
  · exact sound
  · exact sound.addBan (Nat.lt_of_succ_lt_succ few) user host (now + tklineTime) false
  · exact sound.enter (Nat.lt_of_succ_lt_succ few) _

theorem State.Sound.setLocalGline (sound : s.Sound) (few : s.made < 0xFFFFFFFF) (now : ℤ)
    (user host : List Char) : (setLocalGline s now user host).Sound :=
  sound.addBan few user host (now + s.glineTime) true

end Adding

/-! ### Removing -/

section Removing

variable {s : State}

/-- The table without some of the bans in the list. -/
private theorem deleteAll_spec {t : Table} {n : ℕ} (numbered : t.Numbered n) (due : List Conf)
    (own : ∀ conf ∈ due, ∀ arec, t.Holds arec → arec.aconf = conf.aconf → arec.mask = maskOf conf.host) :
    (deleteAll t due).Numbered n ∧
      (∀ arec, (deleteAll t due).Holds arec ↔ t.Holds arec ∧ arec.aconf ∉ due.map (·.aconf)) ∧
      ∀ aconf, aconf ∉ due.map (·.aconf) → (deleteAll t due).confs aconf = t.confs aconf := by
  induction due generalizing t with
  | nil => exact ⟨numbered, by simp [deleteAll], fun _ _ => rfl⟩
  | cons conf due ih =>
    have holds := numbered.holds_delete (own conf List.mem_cons_self)
    have others : ∀ aconf, aconf ≠ conf.aconf →
        (deleteOneAddressConf t conf.host conf.aconf).confs aconf = t.confs aconf := by
      intro aconf other
      simp only [deleteOneAddressConf]
      split
      · exact Function.update_of_ne other _ _
      · rfl
    obtain ⟨numbered', holds', confs'⟩ := ih (numbered.delete conf.host conf.aconf)
      fun conf' member arec held => own conf' (List.mem_cons_of_mem _ member) arec ((holds arec).mp held).1
    refine ⟨numbered', fun arec => ?_, fun aconf absent => ?_⟩
    · rw [List.map_cons, List.mem_cons, not_or, ← and_assoc, ← holds arec]
      exact holds' arec
    · rw [List.map_cons, List.mem_cons, not_or] at absent
      exact (confs' aconf absent.2).trans (others aconf absent.1)

/-- Some bans leave the list and the table together. -/
private theorem State.Sound.drop (sound : s.Sound) (due left : List Conf) (removed : List ℕ)
    (expiries : List ℤ) (split : ∀ conf ∈ s.temporaryKlines, conf ∈ due ∨ conf ∈ left)
    (due_sub : due ⊆ s.temporaryKlines) (left_sub : left.Sublist s.temporaryKlines)
    (disjoint : ∀ conf ∈ left, conf ∉ due)
    (further : s.expiries.length ≤ expiries.length)
    (commanded : ∀ aconf ∈ removed, aconf ∈ s.removed ∨ aconf ∈ due.map (·.aconf))
    (standing : ∀ b ∈ s.timedBans, b.gline = false →
      (b.Standing { s with removed := removed, expiries := expiries } ↔ b.Standing s ∧ b.toConf ∉ due)) :
    State.Sound
      { s with
        table := deleteAll s.table due
        temporaryKlines := left
        removed := removed
        expiries := expiries } := by
  -- every ban that leaves is a K-line that was standing
  have listed : ∀ conf ∈ due, ∃ b ∈ s.timedBans, b.toConf = conf ∧ b.gline = false ∧ b.Standing s :=
    fun conf member => (sound.mem_iff conf).mp (due_sub member)
  have due_iff : ∀ b ∈ s.timedBans, b.aconf ∈ due.map (·.aconf) ↔ b.toConf ∈ due := by
    intro b member
    constructor
    · intro inside
      obtain ⟨conf, among, same⟩ := List.mem_map.mp inside
      obtain ⟨b', member', rfl, -⟩ := listed conf among
      obtain rfl := sound.apart b' member' b member same
      exact among
    · exact fun among => List.mem_map.mpr ⟨_, among, rfl⟩
  have standing' : ∀ b ∈ s.timedBans,
      b.Standing { s with removed := removed, expiries := expiries } ↔ b.Standing s ∧ b.toConf ∉ due := by
    intro b member
    cases kind : b.gline with
    | false => exact standing b member kind
    | true =>
      have spared : b.toConf ∉ due := by
        intro among
        obtain ⟨b', member', same, kline, -⟩ := listed _ among
        obtain rfl := sound.apart b' member' b member (congrArg Conf.aconf same)
        simp [kind] at kline
      simp [TimedBan.Standing, kind, spared]
  obtain ⟨numbered, holds, confs⟩ := deleteAll_spec sound.numbered due (by
    intro conf member arec held same
    obtain ⟨b, known, rfl, -⟩ := listed conf member
    exact sound.address b known arec held same)
  constructor
  · exact numbered
  · exact fun b member => (sound.known b member).imp_right fun upto => upto.imp_right further.trans'
  · exact sound.apart
  · exact fun b member arec held => sound.address b member arec ((holds arec).mp held).1
  · intro b member
    refine Iff.trans ?_ (standing' b member).symm
    rw [← sound.inTable b member]
    constructor
    · rintro ⟨arec, held, same⟩
      obtain ⟨before, absent⟩ := (holds arec).mp held
      exact ⟨⟨arec, before, same⟩, fun among => absent (same ▸ (due_iff b member).mpr among)⟩
    · rintro ⟨⟨arec, before, same⟩, spared⟩
      exact ⟨arec, (holds arec).mpr ⟨before, fun among => spared ((due_iff b member).mp (same ▸ among))⟩,
        same⟩
  · intro b member stands
    obtain ⟨before, spared⟩ := (standing' b member).mp stands
    rw [confs b.aconf fun among => spared ((due_iff b member).mp among)]
    exact sound.flagged b member before
  · intro conf
    constructor
    · intro member
      obtain ⟨b, known, rfl, kline, before⟩ := (sound.mem_iff conf).mp (left_sub.subset member)
      exact ⟨b, known, rfl, kline, (standing' b known).mpr ⟨before, disjoint _ member⟩⟩
    · rintro ⟨b, known, rfl, kline, stands⟩
      obtain ⟨before, spared⟩ := (standing' b known).mp stands
      exact (split _ ((sound.mem_iff _).mpr ⟨b, known, rfl, kline, before⟩)).resolve_left spared
  · exact (left_sub.map _).nodup sound.once
  · intro aconf member
    rcases commanded aconf member with old | new
    · exact sound.commanded aconf old
    · obtain ⟨conf, among, rfl⟩ := List.mem_map.mp new
      obtain ⟨b, known, rfl, kline, -⟩ := listed conf among
      exact ⟨b, known, rfl, kline⟩
  · exact sound.noGlines

/-- `expire_tklines` takes those whose time has come. -/
theorem State.Sound.expireTklines (sound : s.Sound) (now : ℤ) : (expireTklines s now).Sound := by
  apply sound.drop
  · intro conf member
    by_cases ended : conf.hold ≤ now
    · exact Or.inl (List.mem_filter.mpr ⟨member, by simpa using ended⟩)
    · exact Or.inr (List.mem_filter.mpr ⟨member, by simpa using ended⟩)
  · exact List.filter_subset_self _
  · exact List.filter_sublist
  · intro conf member among
    have later := (List.mem_filter.mp member).2
    have ended := (List.mem_filter.mp among).2
    simp only [decide_eq_true_eq] at later ended
    exact later ended
  · rw [List.length_append]
    exact Nat.le_add_right _ _
  · exact fun aconf member => Or.inl member
  · intro b member kline
    have counted := (sound.known b member).2.2
    have before : b.Standing s → b.toConf ∈ s.temporaryKlines := fun stands =>
      (sound.mem_iff _).mpr ⟨b, member, rfl, kline, stands⟩
    simp only [TimedBan.Standing, kline, Bool.false_eq_true, if_false] at before ⊢
    rw [List.drop_append_of_le_length counted]
    simp only [List.mem_append, List.mem_singleton, List.mem_filter, decide_eq_true_eq]
    constructor
    · rintro ⟨kept, within⟩
      have now_lt := within now (Or.inr rfl)
      exact ⟨⟨kept, fun t among => within t (Or.inl among)⟩, fun due => absurd due.2 (not_le.mpr now_lt)⟩
    · rintro ⟨⟨kept, within⟩, spared⟩
      refine ⟨kept, fun t among => ?_⟩
      rcases among with among | rfl
      · exact within t among
      · exact not_le.mp fun ended => spared ⟨before ⟨kept, within⟩, ended⟩

/-- `remove_tkline_match` takes the first that matches. -/
theorem State.Sound.removeTklineMatch (sound : s.Sound) {host user : List Char} {s' : State}
    (found : removeTklineMatch s host user = some s') : s'.Sound := by
  obtain ⟨conf, first, rfl⟩ := Option.map_eq_some_iff.mp found
  have member := List.mem_of_find?_eq_some first
  have left : s.temporaryKlines.eraseP (tklineMatches host user) = s.temporaryKlines.erase conf := by
    -- the first that matches is the first that is equal to it
    clear found member sound
    generalize s.temporaryKlines = list at first
    induction list with
    | nil => cases first
    | cons head list ih =>
      by_cases matched : tklineMatches host user head = true
      · rw [List.find?_cons_of_pos matched, Option.some.injEq] at first
        rw [List.eraseP_cons_of_pos matched, first, List.erase_cons_head]
      · rw [List.find?_cons_of_neg matched] at first
        have other : head ≠ conf := by
          rintro rfl
          exact matched (List.find?_some first)
        rw [List.eraseP_cons_of_neg matched, List.erase_cons_tail (by simpa using other), ih first]
  rw [left]
  have nodup : s.temporaryKlines.Nodup := List.Nodup.of_map _ sound.once
  apply sound.drop
  · intro conf' among
    by_cases same : conf' = conf
    · exact Or.inl (List.mem_singleton.mpr same)
    · exact Or.inr ((List.mem_erase_of_ne same).mpr among)
  · exact List.cons_subset.mpr ⟨member, List.nil_subset _⟩
  · exact List.erase_sublist
  · intro conf' among same
    obtain rfl := List.mem_singleton.mp same
    exact nodup.not_mem_erase among
  · exact Nat.le_refl _
  · intro aconf among
    rcases List.mem_cons.mp among with rfl | among
    · exact Or.inr (List.mem_singleton.mpr rfl)
    · exact Or.inl among
  · intro b known kline
    obtain ⟨b', known', same, -⟩ := (sound.mem_iff conf).mp member
    simp only [TimedBan.Standing, kline, Bool.false_eq_true, if_false, List.mem_cons, not_or,
      List.not_mem_nil, not_false_eq_true, and_true]
    constructor
    · rintro ⟨⟨other, kept⟩, within⟩
      exact ⟨⟨kept, within⟩, fun equal => other (congrArg Conf.aconf equal)⟩
    · rintro ⟨⟨kept, within⟩, other⟩
      refine ⟨⟨fun equal => other ?_, kept⟩, within⟩
      obtain rfl := sound.apart b known b' known' (by rw [equal, same])
      exact same

/-- No G-line is ever in the list. -/
theorem State.Sound.expireGlines (sound : s.Sound) (now : ℤ) : expireGlines s now = s := by
  have noGlines := sound.noGlines
  cases s
  subst noGlines
  rfl

theorem State.Sound.moUngline (sound : s.Sound) (user host : List Char) : moUngline s user host = s := by
  simp [Ban.moUngline, removeGlineMatch, sound.noGlines]

/-- What is left of the table: the temporary K-lines. -/
private theorem State.Sound.clear (sound : s.Sound) (nonRedundantKlines : Bool) (glineTime : ℤ) :
    State.Sound
      { s with
        nonRedundantKlines := nonRedundantKlines
        glineTime := glineTime
        table := clearOutAddressConf s.table
        rehashes := s.rehashes + 1 } := by
  have standing : ∀ b ∈ s.timedBans,
      b.Standing { s with rehashes := s.rehashes + 1 } ↔ b.Standing s ∧ b.gline = false := by
    intro b member
    have earlier := (sound.known b member).2.1
    cases kind : b.gline with
    | false => simp [TimedBan.Standing, kind]
    | true => simpa [TimedBan.Standing, kind] using (Nat.lt_succ_of_le earlier).ne
  have flags : ∀ aconf, ((clearOutAddressConf s.table).confs aconf).flags = (s.table.confs aconf).flags := by
    intro aconf
    simp only [clearOutAddressConf]
    split <;> rfl
  constructor
  · exact sound.numbered.clear
  · exact fun b member => (sound.known b member).imp_right fun upto => upto.imp_left Nat.le_succ_of_le
  · exact sound.apart
  · exact fun b member arec held => sound.address b member arec ((holds_clear arec).mp held).1
  · intro b member
    refine Iff.trans ?_ (standing b member).symm
    constructor
    · rintro ⟨arec, held, same⟩
      obtain ⟨before, kept⟩ := (holds_clear arec).mp held
      have stands := (sound.inTable b member).mp ⟨arec, before, same⟩
      refine ⟨stands, (sound.flagged b member stands).mp ?_⟩
      simpa [Table.keeps, same] using kept
    · rintro ⟨stands, kline⟩
      obtain ⟨arec, before, same⟩ := (sound.inTable b member).mpr stands
      have flag := (sound.flagged b member stands).mpr kline
      exact ⟨arec, (holds_clear arec).mpr ⟨before, by simpa [Table.keeps, same] using flag⟩, same⟩
  · intro b member stands
    simp only [flags]
    exact sound.flagged b member ((standing b member).mp stands).1
  · intro conf
    rw [sound.mem_iff conf]
    constructor
    · rintro ⟨b, member, same, kline, stands⟩
      exact ⟨b, member, same, kline, (standing b member).mpr ⟨stands, kline⟩⟩
    · rintro ⟨b, member, same, kline, stands⟩
      exact ⟨b, member, same, kline, ((standing b member).mp stands).1⟩
  · exact sound.once
  · exact sound.commanded
  · exact sound.noGlines

end Removing

/-! ### Runs -/

section Runs

variable {wildMatch : List Char → List Char → Bool} {s : State}

private theorem foldl_enter_made (entries : List Entry) (s : State) :
    (entries.foldl State.enter s).made = s.made + entries.length := by
  induction entries generalizing s with
  | nil => rfl
  | cons e entries ih =>
    have next : (s.enter e).made = s.made + 1 := rfl
    rw [List.foldl_cons, ih, List.length_cons, next]
    omega

private theorem State.Sound.foldl_enter (sound : s.Sound) (entries : List Entry)
    (few : s.made + entries.length < 2 ^ 32) : (entries.foldl State.enter s).Sound := by
  induction entries generalizing s with
  | nil => exact sound
  | cons e entries ih =>
    rw [List.length_cons] at few
    have next : (s.enter e).made = s.made + 1 := rfl
    exact ih (sound.enter (by omega) e) (by omega)

theorem State.Sound.rehash (sound : s.Sound) (files : Files) (few : (rehash s files).made < 2 ^ 32) :
    (rehash s files).Sound := by
  apply (sound.clear files.nonRedundantKlines files.glineTime).foldl_enter
  rwa [Ban.rehash, foldl_enter_made] at few

/-- One event keeps the list and the table in step. -/
theorem State.Sound.step (sound : s.Sound) (now : ℤ) (event : Event)
    (few : (step wildMatch s now event).made < 2 ^ 32) : (step wildMatch s now event).Sound := by
  cases event with
  | kline user host tklineTime => exact sound.kline wildMatch now user host tklineTime few
  | gline user host =>
    have set := sound.setLocalGline (Nat.lt_of_succ_lt_succ few) now user host
    simp only [Ban.step]
    rwa [set.expireGlines]
  | unkline user host files =>
    simp only [Ban.step, moUnkline] at few ⊢
    cases found : Ban.removeTklineMatch s host user with
    | some s' => exact sound.removeTklineMatch found
    | none =>
      simp only [found] at few ⊢
      cases files with
      | none => exact sound
      | some files => exact sound.rehash files few
  | ungline user host =>
    simp only [Ban.step]
    rwa [sound.moUngline]
  | rehash files => exact sound.rehash files few
  | cleanupTklines => exact sound.expireTklines now
  | cleanupGlines =>
    simp only [Ban.step]
    rwa [sound.expireGlines]

end Runs

end Ircd.Ban
