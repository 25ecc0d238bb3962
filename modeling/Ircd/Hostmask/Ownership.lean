import Ircd.Hostmask.Rehash
import Mathlib.Data.List.Count

/-!
# No `ConfItem` is freed too early, or twice

`Owned` says where the memory of each `ConfItem` belongs: to its record in the table, to the clients that
are attached to it, or to nobody. Every event keeps it. The loop of `clear_out_address_conf` is first
shown to do what `clearOutAddressConf` says.
-/
namespace Ircd.Hostmask

/-! ### Clearing is a sweep -/

/-- Some record of the buckets `hvs` has this `ConfItem` and goes. -/
def Table.drops (t : Table) (hvs : List ℕ) (aconf : ℕ) : Bool :=
  hvs.any fun hv => (t.atable hv).any fun arec => arec.aconf = aconf && !t.keeps arec

theorem Table.mem_drops {t : Table} {hvs : List ℕ} {aconf : ℕ} :
    t.drops hvs aconf = true ↔
      ∃ hv ∈ hvs, ∃ arec ∈ t.atable hv, arec.aconf = aconf ∧ t.keeps arec = false := by
  simp [Table.drops, List.any_eq_true]

/-- Every `ConfItem` of a set is marked, and freed when it has no clients. -/
def Access.dropAll (s : Access) (drops : ℕ → Bool) : Access :=
  { s with
    table :=
      { s.table with
        confs := fun aconf =>
          if drops aconf then
            { s.table.confs aconf with status := (s.table.confs aconf).status ||| confIllegal }
          else s.table.confs aconf
        freed := fun aconf =>
          s.table.freed aconf || (drops aconf && (s.table.confs aconf).clients = 0) }
    frees := fun aconf =>
      s.frees aconf + if drops aconf ∧ (s.table.confs aconf).clients = 0 then 1 else 0 }

theorem dropRecord_eq (s : Access) (aconf : ℕ) : s.dropRecord aconf = s.dropAll (· = aconf) := by
  have other : ∀ a, a ≠ aconf → decide (a = aconf) = false := fun a different => by simp [different]
  simp only [Access.dropRecord, Access.dropAll, Access.freeConf, Access.setConf]
  split
  · rename_i idle
    congr 1
    · congr 1
      · funext a
        by_cases same : a = aconf
        · subst same
          simp
        · simp [same]
      · funext a
        by_cases same : a = aconf
        · subst same
          simp [idle]
        · simp [same]
    · funext a
      by_cases same : a = aconf
      · subst same
        simp [idle]
      · simp [same]
  · rename_i busy
    congr 1
    · congr 1
      · funext a
        by_cases same : a = aconf
        · subst same
          simp
        · simp [same]
      · funext a
        by_cases same : a = aconf
        · subst same
          simp [busy]
        · simp [same]
    · funext a
      by_cases same : a = aconf
      · subst same
        simp [busy]
      · simp [same]

@[simp] theorem keeps_dropAll (s : Access) (drops : ℕ → Bool) :
    (s.dropAll drops).table.keeps = s.table.keeps := by
  funext arec
  simp only [Table.keeps, Access.dropAll]
  split <;> rfl

/-- Two sets with nothing in common, one after the other. -/
theorem dropAll_dropAll (s : Access) (drops drops' : ℕ → Bool)
    (apart : ∀ aconf, drops aconf = true → drops' aconf = false) :
    (s.dropAll drops).dropAll drops' = s.dropAll fun aconf => drops aconf || drops' aconf := by
  simp only [Access.dropAll]
  congr 1
  · congr 1
    · funext a
      by_cases first : drops a = true
      · simp [first, apart a first]
      · simp [first]
    · funext a
      by_cases first : drops a = true
      · simp [first, apart a first]
      · simp [first]
  · funext a
    by_cases first : drops a = true
    · simp [first, apart a first]
    · simp [first]

/-- The loop over one bucket, where each `ConfItem` stands once. -/
theorem clearBucket_eq (bucket : List AddressRec) (s : Access)
    (once : (bucket.map (·.aconf)).Nodup) :
    s.clearBucket bucket =
      (s.dropAll fun aconf => bucket.any fun arec => arec.aconf = aconf && !s.table.keeps arec,
        bucket.filter s.table.keeps) := by
  induction bucket generalizing s with
  | nil => simp [Access.clearBucket, Access.dropAll]
  | cons arec bucket ih =>
    simp only [List.map_cons, List.nodup_cons, List.mem_map, not_exists, not_and] at once
    simp only [Access.clearBucket]
    split
    · rename_i kept
      rw [ih s once.2]
      simp [kept]
    · rename_i gone
      have gone : s.table.keeps arec = false := by simpa using gone
      rw [ih _ once.2, dropRecord_eq]
      simp only [keeps_dropAll, List.filter_cons, gone, Bool.false_eq_true, if_false]
      rw [dropAll_dropAll]
      · simp [gone, eq_comm]
      · -- the `ConfItem` of this record is in no other record of the bucket
        intro aconf same
        have same : aconf = arec.aconf := by simpa using same
        subst same
        rw [Bool.eq_false_iff, ne_eq, List.any_eq_true]
        rintro ⟨other, member, found⟩
        simp only [Bool.and_eq_true, decide_eq_true_eq] at found
        exact once.1 other member found.1

def Access.setBuckets (s : Access) (atable : ℕ → List AddressRec) : Access :=
  { s with table := { s.table with atable := atable } }

theorem dropAll_setBuckets (s : Access) (atable : ℕ → List AddressRec) (drops : ℕ → Bool) :
    (s.setBuckets atable).dropAll drops = (s.dropAll drops).setBuckets atable := rfl

theorem setBuckets_setBuckets (s : Access) (atable atable' : ℕ → List AddressRec) :
    (s.setBuckets atable).setBuckets atable' = s.setBuckets atable' := rfl

/-- What clearing the buckets `hvs` does. -/
def Access.sweep (s : Access) (hvs : List ℕ) : Access :=
  (s.dropAll (s.table.drops hvs)).setBuckets fun hv =>
    if hv ∈ hvs then (s.table.atable hv).filter s.table.keeps else s.table.atable hv

@[simp] theorem sweep_atable (s : Access) (hvs : List ℕ) (hv : ℕ) :
    (s.sweep hvs).table.atable hv =
      if hv ∈ hvs then (s.table.atable hv).filter s.table.keeps else s.table.atable hv := rfl

/-- Records of the table that share a `ConfItem` are in one bucket, and there it stands once. -/
structure Table.Single (t : Table) : Prop where
  once : ∀ hv, ((t.atable hv).map (·.aconf)).Nodup
  bucket : ∀ hv hv', ∀ arec ∈ t.atable hv, ∀ arec' ∈ t.atable hv', arec.aconf = arec'.aconf → hv = hv'

theorem sweep_single {s : Access} (single : s.table.Single) (hvs : List ℕ) :
    (s.sweep hvs).table.Single := by
  have sublist : ∀ hv, ((s.sweep hvs).table.atable hv).Sublist (s.table.atable hv) := by
    intro hv
    rw [sweep_atable]
    split
    · exact List.filter_sublist
    · exact List.Sublist.refl _
  constructor
  · exact fun hv => ((sublist hv).map _).nodup (single.once hv)
  · exact fun hv hv' arec member arec' member' =>
      single.bucket hv hv' arec ((sublist hv).subset member) arec' ((sublist hv').subset member')

/-- One bucket and then others. -/
theorem sweep_cons {s : Access} (single : s.table.Single) {i : ℕ} {hvs : List ℕ} (new : i ∉ hvs) :
    (s.sweep [i]).sweep hvs = s.sweep (i :: hvs) := by
  have keeps : (s.sweep [i]).table.keeps = s.table.keeps := keeps_dropAll s (s.table.drops [i])
  have buckets : ∀ hv ∈ hvs, (s.sweep [i]).table.atable hv = s.table.atable hv := by
    intro hv member
    have different : hv ≠ i := by
      rintro rfl
      exact new member
    simp [different]
  have drops : (s.sweep [i]).table.drops hvs = s.table.drops hvs := by
    funext aconf
    rw [Bool.eq_iff_iff, Table.mem_drops, Table.mem_drops]
    constructor
    · rintro ⟨hv, member, arec, inside, same, gone⟩
      rw [buckets hv member] at inside
      exact ⟨hv, member, arec, inside, same, by rwa [← keeps]⟩
    · rintro ⟨hv, member, arec, inside, same, gone⟩
      refine ⟨hv, member, arec, ?_, same, by rwa [keeps]⟩
      rwa [buckets hv member]
  -- an entry is in one bucket only, so nothing is dropped twice
  have apart : ∀ aconf, s.table.drops [i] aconf = true → s.table.drops hvs aconf = false := by
    intro aconf here
    rw [Bool.eq_false_iff, ne_eq]
    intro there
    obtain ⟨hv, member, arec, inside, same, -⟩ := Table.mem_drops.mp here
    obtain ⟨hv', member', arec', inside', same', -⟩ := Table.mem_drops.mp there
    have bucket := single.bucket hv hv' arec inside arec' inside' (same.trans same'.symm)
    obtain rfl : hv = i := by simpa using member
    exact new (bucket ▸ member')
  have together : s.table.drops (i :: hvs) = fun aconf => s.table.drops [i] aconf || s.table.drops hvs aconf := by
    funext aconf
    simp [Table.drops]
  have memory := dropAll_dropAll s (s.table.drops [i]) (s.table.drops hvs) apart
  rw [← together] at memory
  calc (s.sweep [i]).sweep hvs
      = ((s.sweep [i]).dropAll (s.table.drops hvs)).setBuckets fun hv =>
          if hv ∈ hvs then ((s.sweep [i]).table.atable hv).filter s.table.keeps
          else (s.sweep [i]).table.atable hv := by
        rw [Access.sweep, drops, keeps]
    _ = (s.dropAll (s.table.drops (i :: hvs))).setBuckets fun hv =>
          if hv ∈ hvs then ((s.sweep [i]).table.atable hv).filter s.table.keeps
          else (s.sweep [i]).table.atable hv := by
        rw [Access.sweep, dropAll_setBuckets, memory, setBuckets_setBuckets]
    _ = s.sweep (i :: hvs) := by
        refine congrArg (Access.setBuckets _) (funext fun hv => ?_)
        by_cases here : hv = i
        · subst here
          simp [new]
        · by_cases member : hv ∈ hvs
          · rw [buckets hv member]
            simp [member]
          · simp [member, here]

theorem clearFrom_eq {s : Access} (single : s.table.Single) (i n : ℕ) :
    s.clearFrom i n = s.sweep (List.range' i n) := by
  induction n generalizing s i with
  | zero =>
    have nothing : s.table.drops [] = fun _ => false := by
      funext aconf
      simp [Table.drops]
    simp [Access.clearFrom, Access.sweep, Access.setBuckets, Access.dropAll, nothing]
  | succ n ih =>
    have one : s.sweep [i] = (s.clearBucket (s.table.atable i)).1.setBuckets
        (Function.update (s.clearBucket (s.table.atable i)).1.table.atable i
          (s.clearBucket (s.table.atable i)).2) := by
      have here : s.table.drops [i] =
          fun aconf => (s.table.atable i).any fun arec => arec.aconf = aconf && !s.table.keeps arec := by
        funext aconf
        simp [Table.drops]
      rw [clearBucket_eq _ s (single.once i), Access.sweep, here]
      congr 1
      funext hv
      by_cases same : hv = i
      · subst same
        simp
      · simp [same, Access.dropAll]
    calc s.clearFrom i (n + 1)
        = (s.sweep [i]).clearFrom (i + 1) n := by rw [one]; rfl
      _ = (s.sweep [i]).sweep (List.range' (i + 1) n) := ih (sweep_single single [i]) (i + 1)
      _ = s.sweep (i :: List.range' (i + 1) n) := sweep_cons single (by simp)
      _ = s.sweep (List.range' i (n + 1)) := by rw [List.range'_succ]

/-! ### Who owns what -/

/-- A record of the table has this `ConfItem`. -/
def Access.InTable (s : Access) (aconf : ℕ) : Prop := ∃ hv, ∃ arec ∈ s.table.atable hv, arec.aconf = aconf

def Access.HasClient (s : Access) (aconf : ℕ) : Prop := ∃ client, (client, aconf) ∈ s.attached

/-- `IsIllegal`. -/
def Access.Illegal (s : Access) (aconf : ℕ) : Prop := (s.table.confs aconf).status &&& confIllegal ≠ 0

instance (s : Access) (aconf : ℕ) : Decidable (s.Illegal aconf) := inferInstanceAs (Decidable (_ ≠ _))

/-- Each `ConfItem` in the table has one record, in the bucket of its host. -/
structure Access.Listed (s : Access) : Prop where
  once : ∀ hv, ((s.table.atable hv).map (·.aconf)).Nodup
  placed : ∀ hv, ∀ arec ∈ s.table.atable hv, hv = bucketOf (maskOf (s.hosts arec.aconf))
  tableMade : ∀ aconf, s.InTable aconf → aconf < s.made
  temporaryOnce : s.temporaryKlines.Nodup

/-- Nothing in the table or with a client has been freed. What is neither in the table nor with a client,
but marked, has been freed. -/
structure Access.Owned (s : Access) : Prop extends s.Listed where
  temporaryInside : ∀ aconf ∈ s.temporaryKlines, s.InTable aconf
  temporary : ∀ aconf, s.InTable aconf →
    ((s.table.confs aconf).flags &&& banFlagsTemporary ≠ 0 ↔ aconf ∈ s.temporaryKlines)
  attachedMade : ∀ aconf, s.HasClient aconf → aconf < s.made
  clients : ∀ aconf < s.made, (s.table.confs aconf).clients = s.attached.countP (·.2 = aconf)
  unmade : ∀ aconf, s.made ≤ aconf → s.frees aconf = 0
  tableLive : ∀ aconf, s.InTable aconf → s.frees aconf = 0 ∧ ¬s.Illegal aconf
  attachedLive : ∀ aconf, s.HasClient aconf → s.frees aconf = 0
  freedOnce : ∀ aconf, s.frees aconf ≤ 1
  dropped : ∀ aconf < s.made, s.Illegal aconf → ¬s.HasClient aconf → s.frees aconf = 1

section Owned

variable {s : Access}

theorem Access.Listed.single (listed : s.Listed) : s.table.Single := by
  constructor
  · exact listed.once
  · intro hv hv' arec member arec' member' same
    rw [listed.placed hv arec member, listed.placed hv' arec' member', same]

/-- Records may go. -/
theorem Access.Listed.shrink {s' : Access} (listed : s.Listed) (made : s'.made = s.made)
    (hosts : s'.hosts = s.hosts)
    (records : ∀ hv, (s'.table.atable hv).Sublist (s.table.atable hv))
    (temporary : s'.temporaryKlines.Sublist s.temporaryKlines) : s'.Listed := by
  constructor
  · exact fun hv => ((records hv).map _).nodup (listed.once hv)
  · intro hv arec member
    rw [hosts]
    exact listed.placed hv arec ((records hv).subset member)
  · rintro aconf ⟨hv, arec, member, same⟩
    rw [made]
    exact listed.tableMade aconf ⟨hv, arec, (records hv).subset member, same⟩
  · exact temporary.nodup listed.temporaryOnce

theorem countP_attached {aconf : ℕ} : s.attached.countP (·.2 = aconf) = 0 ↔ ¬s.HasClient aconf := by
  rw [List.countP_eq_zero]
  constructor
  · rintro nobody ⟨client, member⟩
    exact nobody (client, aconf) member (by simp)
  · rintro nobody ⟨client, other⟩ member same
    obtain rfl : other = aconf := by simpa using same
    exact nobody ⟨client, member⟩

instance (s : Access) (aconf : ℕ) : Decidable (s.HasClient aconf) :=
  decidable_of_iff (¬s.attached.countP (·.2 = aconf) = 0) (by rw [countP_attached, not_not])

/-- A `ConfItem` without clients has the count zero. -/
theorem Access.Owned.clients_eq_zero (owned : s.Owned) {aconf : ℕ} (made : aconf < s.made) :
    (s.table.confs aconf).clients = 0 ↔ ¬s.HasClient aconf := by
  rw [owned.clients aconf made, Int.natCast_eq_zero, countP_attached]

/-! ### New records -/

theorem inTable_enter {host : List Char} {type flags : UInt32} {user : Option (List Char)} {aconf : ℕ} :
    (s.enter host type user flags).InTable aconf ↔ aconf = s.made ∨ s.InTable aconf := by
  have holds : ∀ arec, (∃ hv, arec ∈ (s.enter host type user flags).table.atable hv) ↔ _ :=
    fun arec => holds_add (t := (s.setConf s.made ⟨type, flags, 0⟩).table) (some host) type user s.made arec
  constructor
  · rintro ⟨hv, arec, member, rfl⟩
    rcases (holds arec).mp ⟨hv, member⟩ with rfl | ⟨hv, member⟩
    · exact Or.inl rfl
    · exact Or.inr ⟨hv, arec, member, rfl⟩
  · rintro (rfl | ⟨hv, arec, member, rfl⟩)
    · obtain ⟨hv, member⟩ := (holds _).mpr (Or.inl rfl)
      exact ⟨hv, _, member, rfl⟩
    · obtain ⟨hv, member⟩ := (holds arec).mpr (Or.inr ⟨hv, member⟩)
      exact ⟨hv, arec, member, rfl⟩

/-- A new `ConfItem` goes into the table. Only one of a temporary K-line goes into the list. -/
theorem Access.Owned.enter (owned : s.Owned) (host : List Char) {type : UInt32} (user : Option (List Char))
    {flags : UInt32} (legal : type &&& confIllegal = 0) (list : List ℕ)
    (listed : list = if flags &&& banFlagsTemporary ≠ 0 then s.made :: s.temporaryKlines
      else s.temporaryKlines) :
    ({ s.enter host type user flags with temporaryKlines := list } : Access).Owned := by
  have other : ∀ aconf, aconf < s.made →
      (s.enter host type user flags).table.confs aconf = s.table.confs aconf := by
    intro aconf below
    exact Function.update_of_ne below.ne _ _
  have self : (s.enter host type user flags).table.confs s.made = ⟨type, flags, 0⟩ :=
    Function.update_self ..
  have hosts : ∀ aconf, aconf < s.made →
      (s.enter host type user flags).hosts aconf = s.hosts aconf := by
    intro aconf below
    exact Function.update_of_ne below.ne _ _
  have selfHost : (s.enter host type user flags).hosts s.made = host := Function.update_self ..
  have bucket : ∀ hv, (s.enter host type user flags).table.atable hv =
      if hv = bucketOf (maskOf host) then
        ⟨maskOf host, type, s.table.precValue, user, s.made⟩ :: s.table.atable hv
      else s.table.atable hv := by
    intro hv
    simp only [Access.enter, addConfByAddress, Option.getD_some, Access.setConf]
    by_cases here : hv = bucketOf (maskOf host)
    · subst here
      simp
    · simp [here]
  -- the number is new: no client has the conf, and it is on no list
  have nobody : ¬s.HasClient s.made := fun attached => Nat.lt_irrefl _ (owned.attachedMade _ attached)
  have notListed : s.made ∉ s.temporaryKlines := fun member =>
    Nat.lt_irrefl _ (owned.tableMade _ (owned.temporaryInside _ member))
  constructor
  case toListed =>
    constructor
    case once =>
      intro hv
      show (((s.enter host type user flags).table.atable hv).map _).Nodup
      rw [bucket]
      split
      · rw [List.map_cons, List.nodup_cons]
        refine ⟨fun member => ?_, owned.once hv⟩
        obtain ⟨arec, member, same⟩ := List.mem_map.mp member
        exact Nat.lt_irrefl _ (owned.tableMade s.made ⟨hv, arec, member, same⟩)
      · exact owned.once hv
    case placed =>
      intro hv arec (member : arec ∈ (s.enter host type user flags).table.atable hv)
      show hv = bucketOf (maskOf ((s.enter host type user flags).hosts arec.aconf))
      rw [bucket] at member
      have old : arec ∈ s.table.atable hv → hv = bucketOf (maskOf ((s.enter host type user flags).hosts arec.aconf)) := by
        intro member
        rw [hosts _ (owned.tableMade _ ⟨hv, arec, member, rfl⟩)]
        exact owned.placed hv arec member
      split at member
      · rename_i here
        rcases List.mem_cons.mp member with rfl | member
        · rw [selfHost]
          exact here
        · exact old member
      · exact old member
    case tableMade =>
      intro aconf inside
      rcases inTable_enter.mp inside with rfl | inside
      · exact Nat.lt_succ_self _
      · exact Nat.lt_succ_of_lt (owned.tableMade aconf inside)
    case temporaryOnce =>
      show list.Nodup
      subst listed
      split
      · exact List.nodup_cons.mpr ⟨notListed, owned.temporaryOnce⟩
      · exact owned.temporaryOnce
  case temporaryInside =>
    intro aconf (member : aconf ∈ list)
    apply inTable_enter.mpr
    subst listed
    split at member
    · exact (List.mem_cons.mp member).imp_right (owned.temporaryInside aconf)
    · exact Or.inr (owned.temporaryInside aconf member)
  case temporary =>
    intro aconf inside
    show ((s.enter host type user flags).table.confs aconf).flags &&& _ ≠ 0 ↔ aconf ∈ list
    rcases inTable_enter.mp inside with rfl | inside
    -- the flag of the new conf decides whether it is put on the list
    · rw [self, listed]
      split
      · rename_i flagged
        simpa using flagged
      · rename_i plain
        simpa [notListed] using plain
    · have below := owned.tableMade aconf inside
      rw [other aconf below, owned.temporary aconf inside, listed]
      split
      · simp [below.ne]
      · rfl
  case attachedMade =>
    exact fun aconf attached => Nat.lt_succ_of_lt (owned.attachedMade aconf attached)
  case clients =>
    intro aconf below
    show ((s.enter host type user flags).table.confs aconf).clients = s.attached.countP _
    rcases Nat.lt_succ_iff_lt_or_eq.mp below with below | rfl
    · rw [other aconf below]
      exact owned.clients aconf below
    · rw [self, eq_comm, Int.natCast_eq_zero]
      exact countP_attached.mpr nobody
  case unmade =>
    exact fun aconf above => owned.unmade aconf (Nat.le_of_succ_le above)
  case tableLive =>
    intro aconf inside
    show s.frees aconf = 0 ∧ ¬(((s.enter host type user flags).table.confs aconf).status &&& confIllegal ≠ 0)
    rcases inTable_enter.mp inside with rfl | inside
    · rw [self]
      exact ⟨owned.unmade _ (Nat.le_refl _), by simpa using legal⟩
    · rw [other aconf (owned.tableMade aconf inside)]
      exact owned.tableLive aconf inside
  case attachedLive => exact owned.attachedLive
  case freedOnce => exact owned.freedOnce
  case dropped =>
    intro aconf below (illegal : ((s.enter host type user flags).table.confs aconf).status &&& confIllegal ≠ 0)
    rcases Nat.lt_succ_iff_lt_or_eq.mp below with below | rfl
    · rw [other aconf below] at illegal
      exact owned.dropped aconf below illegal
    · rw [self] at illegal
      exact absurd legal illegal

/-- A `ConfItem` that is not temporary. -/
theorem Access.Owned.enter_plain (owned : s.Owned) (host : List Char) {type : UInt32}
    (user : Option (List Char)) {flags : UInt32} (legal : type &&& confIllegal = 0)
    (plain : flags &&& banFlagsTemporary = 0) : (s.enter host type user flags).Owned :=
  owned.enter host user legal s.temporaryKlines (by simp [plain])

theorem Access.Owned.addTempKline (owned : s.Owned) (host : List Char) (user : Option (List Char)) :
    (addTempKline s host user).Owned :=
  owned.enter host user (by decide) _ (by simp [banFlagsTemporary])

/-! ### The flags of an auth block -/

/-- No line of an auth block sets the bit that marks a temporary K-line. -/
theorem AuthBlock.item_flags {block : AuthBlock} (plain : block.flags &&& banFlagsTemporary = 0)
    (item : AuthItem) : (block.item item).flags &&& banFlagsTemporary = 0 := by
  have set : ∀ flag yes, flag &&& banFlagsTemporary = 0 →
      (block.setFlag flag yes).flags &&& banFlagsTemporary = 0 := by
    intro flag yes other
    cases yes with
    | true =>
      rw [← UInt32.toBitVec_inj] at plain other ⊢
      simp only [setFlag, if_true, UInt32.toBitVec_and, UInt32.toBitVec_or, BitVec.and_or_distrib_right]
        at plain other ⊢
      rw [plain, other]
      rfl
    | false =>
      simp only [setFlag, Bool.false_eq_true, if_false]
      rw [UInt32.and_assoc, UInt32.and_comm (~~~flag), ← UInt32.and_assoc, plain, UInt32.zero_and]
  cases item with
  | user text => exact plain
  | passwd => exact plain
  | className => exact plain
  | spoof name =>
    simp only [AuthBlock.item]
    split
    · exact set _ _ (by decide)
    · exact plain
  | klineExempt yes => exact set _ _ (by decide)
  | haveIdent yes => exact set _ _ (by decide)
  | isRestricted yes => exact set _ _ (by decide)
  | exceedLimit yes => exact set _ _ (by decide)
  | noTilde yes => exact set _ _ (by decide)
  | glineExempt yes => exact set _ _ (by decide)
  | spoofNotice yes => exact set _ _ (by decide)
  | redirServ => exact set _ _ (by decide)
  | redirPort => exact set _ _ (by decide)
  | persistant yes => exact set _ _ (by decide)

theorem foldl_item_flags (items : List AuthItem) {block : AuthBlock}
    (plain : block.flags &&& banFlagsTemporary = 0) :
    (items.foldl AuthBlock.item block).flags &&& banFlagsTemporary = 0 := by
  induction items generalizing block with
  | nil => exact plain
  | cons item items ih => exact ih (block.item_flags plain item)

private theorem Access.Owned.foldl_enterAuth (owned : s.Owned) {flags : UInt32}
    (plain : flags &&& banFlagsTemporary = 0) (confs : List AuthConf) :
    (confs.foldl (Access.enterAuth flags) s).Owned := by
  induction confs generalizing s with
  | nil => exact owned
  | cons conf confs ih =>
    apply ih
    simp only [Access.enterAuth]
    split
    · exact owned
    · exact owned.enter_plain _ _ (by decide) plain

theorem Access.Owned.authEntry (owned : s.Owned) (acount : ℕ) (items : List AuthItem) :
    (authEntry s acount items).Owned :=
  owned.foldl_enterAuth (foldl_item_flags items UInt32.zero_and) _

/-! ### Attaching and detaching -/

/-- Changing the number of clients changes nothing else. -/
theorem setConf_clients (s : Access) (aconf : ℕ) (n : ℤ) (a : ℕ) :
    (s.setConf aconf { s.table.confs aconf with clients := n }).table.confs a =
      { s.table.confs a with clients := if a = aconf then n else (s.table.confs a).clients } := by
  by_cases here : a = aconf
  · subst here
    simp [Access.setConf]
  · simp [Access.setConf, here]

theorem Access.Owned.attachConf (owned : s.Owned) {aconf : ℕ} (inside : s.InTable aconf) (client : ℕ)
    (full : Bool) : (attachConf s client aconf full).Owned := by
  simp only [Hostmask.attachConf]
  split_ifs with again illegal
  -- attached already, not legal, or full: nothing changes
  · exact owned
  · exact owned
  · exact owned
  have confs := setConf_clients s aconf ((s.table.confs aconf).clients + 1)
  have made := owned.tableMade aconf inside
  have attached : ∀ a, (∃ c, (c, a) ∈ (client, aconf) :: s.attached) ↔ a = aconf ∨ s.HasClient a := by
    intro a
    simp only [List.mem_cons, Prod.mk.injEq, Access.HasClient]
    constructor
    · rintro ⟨c, ⟨-, same⟩ | member⟩
      · exact Or.inl same
      · exact Or.inr ⟨c, member⟩
    · rintro (same | ⟨c, member⟩)
      · exact ⟨client, Or.inl ⟨rfl, same⟩⟩
      · exact ⟨c, Or.inr member⟩
  constructor
  case toListed => exact owned.shrink rfl rfl (fun _ => List.Sublist.refl _) (List.Sublist.refl _)
  case temporaryInside => exact owned.temporaryInside
  case unmade => exact owned.unmade
  case freedOnce => exact owned.freedOnce
  case temporary =>
    intro a (inside : s.InTable a)
    rw [confs]
    exact owned.temporary a inside
  case attachedMade =>
    intro a has
    rcases (attached a).mp has with rfl | has
    · exact made
    · exact owned.attachedMade a has
  case clients =>
    intro a below
    rw [confs]
    show (if a = aconf then _ else _) = (((client, aconf) :: s.attached).countP (·.2 = a) : ℤ)
    rw [List.countP_cons]
    by_cases here : a = aconf
    · subst here
      rw [if_pos rfl, owned.clients a below]
      simp
    · rw [if_neg here, owned.clients a below]
      simp [Ne.symm here]
  case tableLive =>
    intro a (inside : s.InTable a)
    rw [Access.Illegal, confs]
    exact owned.tableLive a inside
  case attachedLive =>
    intro a has
    rcases (attached a).mp has with rfl | has
    · exact (owned.tableLive a inside).1
    · exact owned.attachedLive a has
  case dropped =>
    intro a below illegal nobody
    rw [Access.Illegal, confs] at illegal
    exact owned.dropped a below illegal fun has => nobody ((attached a).mpr (Or.inr has))

/-- What `detach_conf` changes. The `ConfItem` is freed when the last client goes and it is marked. -/
theorem detachConf_fields {client aconf : ℕ} (member : (client, aconf) ∈ s.attached) :
    (detachConf s client aconf).table.atable = s.table.atable ∧
      (detachConf s client aconf).made = s.made ∧
      (detachConf s client aconf).hosts = s.hosts ∧
      (detachConf s client aconf).temporaryKlines = s.temporaryKlines ∧
      (detachConf s client aconf).attached = s.attached.erase (client, aconf) ∧
      (∀ a, (detachConf s client aconf).table.confs a =
        { s.table.confs a with
          clients := if a = aconf then (s.table.confs aconf).clients - 1 else (s.table.confs a).clients }) ∧
      ∀ a, (detachConf s client aconf).frees a = s.frees a +
        if a = aconf ∧ (s.table.confs aconf).clients - 1 = 0 ∧ s.Illegal aconf then 1 else 0 := by
  have confs := setConf_clients s aconf ((s.table.confs aconf).clients - 1)
  rw [detachConf, if_pos member]
  dsimp only
  split_ifs with last
  · refine ⟨rfl, rfl, rfl, rfl, rfl, confs, fun a => ?_⟩
    have marked : s.Illegal aconf := bne_iff_ne.mp last.2
    by_cases here : a = aconf
    · subst here
      rw [if_pos ⟨rfl, last.1, marked⟩]
      exact Function.update_self ..
    · simp [Access.freeConf, Access.setConf, here]
  · refine ⟨rfl, rfl, rfl, rfl, rfl, confs, fun a => ?_⟩
    rw [if_neg fun freed => last ⟨freed.2.1, bne_iff_ne.mpr freed.2.2⟩]
    rfl

theorem Access.Owned.detachConf (owned : s.Owned) (client aconf : ℕ) :
    (detachConf s client aconf).Owned := by
  by_cases member : (client, aconf) ∈ s.attached
  swap
  · rw [Hostmask.detachConf, if_neg member]
    exact owned
  obtain ⟨atable, sameMade, hosts, list, attached, confs, frees⟩ := detachConf_fields member
  generalize Hostmask.detachConf s client aconf = s' at *
  have has : s.HasClient aconf := ⟨client, member⟩
  have made : aconf < s.made := owned.attachedMade aconf has
  have fewer : ∀ a, s'.HasClient a → s.HasClient a := by
    rintro a ⟨c, still⟩
    rw [attached] at still
    exact ⟨c, List.mem_of_mem_erase still⟩
  have others : ∀ a, a ≠ aconf → s.HasClient a → s'.HasClient a := by
    rintro a different ⟨c, before⟩
    refine ⟨c, ?_⟩
    rw [attached, List.mem_erase_of_ne]
    · exact before
    · exact fun same => different (Prod.mk.inj same).2
  have inside : ∀ a, s'.InTable a ↔ s.InTable a := by
    intro a
    rw [Access.InTable, atable]
    rfl
  have illegal : ∀ a, s'.Illegal a ↔ s.Illegal a := by
    intro a
    rw [Access.Illegal, confs]
    rfl
  have count : ∀ a < s.made, (s'.table.confs a).clients = s'.attached.countP (·.2 = a) := by
    intro a below
    rw [confs, attached, List.countP_erase]
    by_cases here : a = aconf
    · subst here
      have positive : 0 < s.attached.countP (·.2 = a) := List.countP_pos_iff.mpr ⟨_, member, by simp⟩
      rw [if_pos rfl, owned.clients a below, if_pos ⟨member, by simp⟩, Nat.cast_sub positive]
      rfl
    · rw [if_neg here, owned.clients a below, if_neg]
      · simp
      · rintro ⟨-, same⟩
        exact here (by simpa using same : aconf = a).symm
  -- a conf that is marked is freed with its last client
  have last : (s.table.confs aconf).clients - 1 = 0 ↔ ¬s'.HasClient aconf := by
    rw [← countP_attached]
    have after : (s.table.confs aconf).clients - 1 = s'.attached.countP (·.2 = aconf) := by
      simpa [confs] using count aconf made
    rw [after, Int.natCast_eq_zero]
  constructor
  case toListed =>
    refine owned.shrink sameMade hosts (fun hv => ?_) (list ▸ List.Sublist.refl _)
    rw [atable]
  case temporaryInside =>
    intro a member
    rw [list] at member
    exact (inside a).mpr (owned.temporaryInside a member)
  case temporary =>
    intro a within
    rw [confs, list]
    exact owned.temporary a ((inside a).mp within)
  case attachedMade =>
    intro a still
    rw [sameMade]
    exact owned.attachedMade a (fewer a still)
  case clients =>
    rw [sameMade]
    exact count
  case unmade =>
    intro a above
    rw [sameMade] at above
    rw [frees, owned.unmade a above, if_neg]
    exact fun freed => Nat.lt_irrefl a (lt_of_lt_of_le (freed.1 ▸ made) above)
  case tableLive =>
    intro a within
    obtain ⟨live, legal⟩ := owned.tableLive a ((inside a).mp within)
    rw [illegal, frees, live, if_neg]
    · exact ⟨rfl, legal⟩
    · rintro ⟨rfl, -, marked⟩
      exact legal marked
  case attachedLive =>
    intro a still
    rw [frees, owned.attachedLive a (fewer a still), if_neg]
    rintro ⟨rfl, zero, -⟩
    exact last.mp zero still
  case freedOnce =>
    intro a
    rw [frees]
    split_ifs with freed
    · rw [freed.1, owned.attachedLive aconf has]
    · exact owned.freedOnce a
  case dropped =>
    intro a below marked nobody
    rw [sameMade] at below
    rw [illegal] at marked
    rw [frees]
    by_cases here : a = aconf
    · subst here
      rw [if_pos ⟨rfl, last.mpr nobody, marked⟩, owned.attachedLive a has]
    · rw [if_neg fun freed => here freed.1]
      exact owned.dropped a below marked fun before => nobody (others a here before)

/-! ### The end of a temporary K-line -/

/-- What `delete_one_address_conf` changes, when it finds the record. -/
theorem deleteOne_fields (owned : s.Owned) {aconf : ℕ} (within : s.InTable aconf) :
    (∀ hv, ((s.deleteOne (s.hosts aconf) aconf).table.atable hv).Sublist (s.table.atable hv)) ∧
      (∀ a, (s.deleteOne (s.hosts aconf) aconf).InTable a ↔ s.InTable a ∧ a ≠ aconf) ∧
      (∀ a, (s.deleteOne (s.hosts aconf) aconf).table.confs a =
        { s.table.confs a with
          flags := if a = aconf then (s.table.confs aconf).flags ||| confIllegal
            else (s.table.confs a).flags }) ∧
      ∀ a, (s.deleteOne (s.hosts aconf) aconf).frees a = s.frees a +
        if a = aconf ∧ (s.table.confs aconf).clients = 0 then 1 else 0 := by
  obtain ⟨hv, arec, member, rfl⟩ := within
  obtain rfl := owned.placed hv arec member
  have found : ((s.table.atable (bucketOf (maskOf (s.hosts arec.aconf)))).any (·.aconf = arec.aconf)) = true :=
    List.any_eq_true.mpr ⟨arec, member, by simp⟩
  have table : (s.deleteOne (s.hosts arec.aconf) arec.aconf).table.atable =
      Function.update s.table.atable (bucketOf (maskOf (s.hosts arec.aconf)))
        ((s.table.atable (bucketOf (maskOf (s.hosts arec.aconf)))).eraseP (·.aconf = arec.aconf)) ∧
      (s.deleteOne (s.hosts arec.aconf) arec.aconf).table.confs = Function.update s.table.confs
        arec.aconf { s.table.confs arec.aconf with
          flags := (s.table.confs arec.aconf).flags ||| confIllegal } := by
    simp only [Access.deleteOne, deleteOneAddressConf, found, if_true]
    split <;> exact ⟨rfl, rfl⟩
  obtain ⟨atable, confs⟩ := table
  have records : ∀ hv other, other ∈ (s.deleteOne (s.hosts arec.aconf) arec.aconf).table.atable hv ↔
      other ∈ s.table.atable hv ∧ other.aconf ≠ arec.aconf := by
    intro hv other
    rw [atable]
    by_cases here : hv = bucketOf (maskOf (s.hosts arec.aconf))
    · subst here
      rw [Function.update_self, mem_eraseP_aconf (owned.once _)]
    · rw [Function.update_of_ne here, iff_self_and]
      intro elsewhere same
      exact here (by rw [owned.placed hv other elsewhere, same])
  refine ⟨fun hv => ?_, fun a => ?_, fun a => ?_, fun a => ?_⟩
  · rw [atable]
    by_cases here : hv = bucketOf (maskOf (s.hosts arec.aconf))
    · subst here
      rw [Function.update_self]
      exact List.eraseP_sublist
    · rw [Function.update_of_ne here]
  · constructor
    · rintro ⟨hv, other, still, rfl⟩
      obtain ⟨before, different⟩ := (records hv other).mp still
      exact ⟨⟨hv, other, before, rfl⟩, different⟩
    · rintro ⟨⟨hv, other, before, rfl⟩, different⟩
      exact ⟨hv, other, (records hv other).mpr ⟨before, different⟩, rfl⟩
  · rw [confs]
    by_cases here : a = arec.aconf
    · rw [here]
      simp
    · simp [here]
  · rw [Access.deleteOne, found]
    by_cases idle : (s.table.confs arec.aconf).clients = 0
    · by_cases here : a = arec.aconf
      · rw [here]
        simp [idle]
      · simp [idle, here]
    · simp [idle]

theorem Access.Owned.dropTempKline (owned : s.Owned) (aconf : ℕ) : (dropTempKline s aconf).Owned := by
  rw [Hostmask.dropTempKline]
  split
  swap
  · exact owned
  rename_i listed
  have within := owned.temporaryInside aconf listed
  have list : ∀ a, a ≠ aconf → (a ∈ s.temporaryKlines.erase aconf ↔ a ∈ s.temporaryKlines) :=
    fun a different => List.mem_erase_of_ne different
  have same : (s.deleteOne (s.hosts aconf) aconf).made = s.made ∧
      (s.deleteOne (s.hosts aconf) aconf).hosts = s.hosts ∧
      (s.deleteOne (s.hosts aconf) aconf).attached = s.attached := by
    rw [Access.deleteOne]
    split <;> exact ⟨rfl, rfl, rfl⟩
  obtain ⟨made, hosts, attached⟩ := same
  obtain ⟨sublist, inside, confs, frees⟩ := deleteOne_fields owned within
  -- a conf that a client still has is marked, and freed later
  have notLast : s.HasClient aconf → ¬(s.table.confs aconf).clients = 0 :=
    fun has zero => (owned.clients_eq_zero (owned.tableMade aconf within)).mp zero has
  generalize s.deleteOne (s.hosts aconf) aconf = s' at *
  have has : ∀ a, s'.HasClient a ↔ s.HasClient a := fun a => by rw [Access.HasClient, attached]; rfl
  have illegal : ∀ a, s'.Illegal a ↔ s.Illegal a := fun a => by rw [Access.Illegal, confs]; rfl
  constructor
  case toListed => exact owned.shrink made hosts sublist List.erase_sublist
  case temporaryInside =>
    intro a member
    have different : a ≠ aconf := by
      rintro rfl
      exact owned.temporaryOnce.not_mem_erase member
    exact (inside a).mpr ⟨owned.temporaryInside a ((list a different).mp member), different⟩
  case temporary =>
    intro a (still : s'.InTable a)
    obtain ⟨before, different⟩ := (inside a).mp still
    show (s'.table.confs a).flags &&& _ ≠ 0 ↔ a ∈ s.temporaryKlines.erase aconf
    rw [list a different, confs, if_neg different]
    exact owned.temporary a before
  case attachedMade =>
    intro a (still : s'.HasClient a)
    show a < s'.made
    rw [made]
    exact owned.attachedMade a ((has a).mp still)
  case clients =>
    intro a (below : a < s'.made)
    show (s'.table.confs a).clients = s'.attached.countP _
    rw [made] at below
    rw [confs, attached]
    exact owned.clients a below
  case unmade =>
    intro a (above : s'.made ≤ a)
    show s'.frees a = 0
    rw [made] at above
    rw [frees, owned.unmade a above, if_neg]
    exact fun freed => absurd (owned.tableMade aconf within) (Nat.not_lt.mpr (freed.1 ▸ above))
  case tableLive =>
    intro a (still : s'.InTable a)
    obtain ⟨before, different⟩ := (inside a).mp still
    show s'.frees a = 0 ∧ ¬s'.Illegal a
    rw [illegal, frees, if_neg fun freed => different freed.1]
    exact owned.tableLive a before
  case attachedLive =>
    intro a (still : s'.HasClient a)
    show s'.frees a = 0
    rw [has] at still
    rw [frees, owned.attachedLive a still, if_neg]
    rintro ⟨rfl, zero⟩
    exact notLast still zero
  case freedOnce =>
    intro a
    show s'.frees a ≤ 1
    rw [frees]
    split_ifs with freed
    · rw [freed.1, (owned.tableLive aconf within).1]
    · exact owned.freedOnce a
  case dropped =>
    intro a (below : a < s'.made) (marked : s'.Illegal a) (nobody : ¬s'.HasClient a)
    show s'.frees a = 1
    rw [made] at below
    rw [illegal] at marked
    rw [has] at nobody
    rw [frees, owned.dropped a below marked nobody, if_neg]
    rintro ⟨rfl, -⟩
    exact (owned.tableLive a within).2 marked

/-! ### A rehash -/

theorem clearOutAddressConf_eq (owned : s.Owned) :
    s.clearOutAddressConf = s.sweep (List.range' 0 atableSize) :=
  clearFrom_eq owned.single 0 atableSize

attribute [local irreducible] Access.clearOutAddressConf

@[simp] theorem clear_made (owned : s.Owned) : s.clearOutAddressConf.made = s.made := by
  rw [clearOutAddressConf_eq owned]
  rfl

@[simp] theorem clear_attached (owned : s.Owned) : s.clearOutAddressConf.attached = s.attached := by
  rw [clearOutAddressConf_eq owned]
  rfl

theorem bucketOf_lt (mask : Mask) : bucketOf mask < atableSize := by
  cases mask with
  | ipv4 addr bits => exact Nat.mod_lt _ (by decide)
  | host hostname => exact Nat.mod_lt _ (by decide)

/-- The loop does to the table what `clearOutAddressConf` says. -/
theorem clear_table (owned : s.Owned) :
    s.clearOutAddressConf.table = Hostmask.clearOutAddressConf s.table := by
  rw [clearOutAddressConf_eq owned, Hostmask.clearOutAddressConf, List.range_eq_range']
  simp only [Access.sweep, Access.setBuckets]
  congr 1
  funext hv
  split
  · rfl
  · -- such a bucket is empty
    rename_i outside
    cases records : s.table.atable hv with
    | nil => rfl
    | cons arec bucket =>
      have placed := owned.placed hv arec (by simp [records])
      have below : hv < atableSize := placed ▸ bucketOf_lt _
      exact absurd (List.mem_range'_1.mpr ⟨Nat.zero_le _, by simpa using below⟩) outside

/-- What a rehash leaves in a bucket. -/
theorem clear_atable (owned : s.Owned) (hv : ℕ) :
    s.clearOutAddressConf.table.atable hv = (s.table.atable hv).filter (·.aconf ∈ s.temporaryKlines) := by
  have keeps : ∀ arec ∈ s.table.atable hv,
      s.table.keeps arec = decide (arec.aconf ∈ s.temporaryKlines) := by
    intro arec member
    rw [Bool.eq_iff_iff, decide_eq_true_eq, ← owned.temporary arec.aconf ⟨hv, arec, member, rfl⟩]
    exact bne_iff_ne
  rw [clear_table owned]
  exact List.filter_congr keeps

theorem inTable_clear (owned : s.Owned) (aconf : ℕ) :
    s.clearOutAddressConf.InTable aconf ↔ s.InTable aconf ∧ aconf ∈ s.temporaryKlines := by
  simp only [Access.InTable, clear_atable owned, List.mem_filter, decide_eq_true_eq]
  constructor
  · rintro ⟨hv, arec, ⟨member, kept⟩, rfl⟩
    exact ⟨⟨hv, arec, member, rfl⟩, kept⟩
  · rintro ⟨⟨hv, arec, member, rfl⟩, kept⟩
    exact ⟨hv, arec, ⟨member, kept⟩, rfl⟩

/-- Which `ConfItem`s a rehash marks. -/
theorem drops_clear (owned : s.Owned) (aconf : ℕ) :
    s.table.drops (List.range' 0 atableSize) aconf = true ↔
      s.InTable aconf ∧ aconf ∉ s.temporaryKlines := by
  rw [Table.mem_drops]
  have keeps : ∀ hv, ∀ arec ∈ s.table.atable hv,
      (s.table.keeps arec = false ↔ arec.aconf ∉ s.temporaryKlines) := by
    intro hv arec member
    rw [← owned.temporary arec.aconf ⟨hv, arec, member, rfl⟩, Table.keeps, bne_eq_false_iff_eq, not_not]
  constructor
  · rintro ⟨hv, -, arec, member, rfl, gone⟩
    exact ⟨⟨hv, arec, member, rfl⟩, (keeps hv arec member).mp gone⟩
  · rintro ⟨⟨hv, arec, member, rfl⟩, gone⟩
    have below : hv < atableSize := owned.placed hv arec member ▸ bucketOf_lt _
    exact ⟨hv, List.mem_range'_1.mpr ⟨Nat.zero_le _, by simpa using below⟩, arec, member, rfl,
      (keeps hv arec member).mpr gone⟩

theorem illegal_clear (owned : s.Owned) (aconf : ℕ) :
    s.clearOutAddressConf.Illegal aconf ↔
      (s.InTable aconf ∧ aconf ∉ s.temporaryKlines) ∨ s.Illegal aconf := by
  have marked : ∀ status : UInt32, (status ||| confIllegal) &&& confIllegal ≠ 0 := by
    intro status zero
    -- the highest bit is set
    have bit := congrArg (fun word : UInt32 => word.toBitVec.getLsbD 31) zero
    simp [confIllegal] at bit
  rw [Access.Illegal, clearOutAddressConf_eq owned, ← drops_clear owned]
  simp only [Access.sweep, Access.setBuckets, Access.dropAll]
  split
  · rename_i gone
    simp [gone, marked]
  · rename_i stays
    simp [stays, Access.Illegal]

theorem frees_clear (owned : s.Owned) (aconf : ℕ) :
    s.clearOutAddressConf.frees aconf = s.frees aconf +
      if s.table.drops (List.range' 0 atableSize) aconf = true ∧ (s.table.confs aconf).clients = 0 then 1
      else 0 := by
  rw [clearOutAddressConf_eq owned]
  rfl

theorem Access.Owned.clearOutAddressConf (owned : s.Owned) : s.clearOutAddressConf.Owned := by
  have inside := inTable_clear owned
  have illegal := illegal_clear owned
  have frees := frees_clear owned
  have drops := drops_clear owned
  have same : s.clearOutAddressConf = s.sweep (List.range' 0 atableSize) := clearOutAddressConf_eq owned
  have made : s.clearOutAddressConf.made = s.made := clear_made owned
  have hosts : s.clearOutAddressConf.hosts = s.hosts := by rw [same]; rfl
  have list : s.clearOutAddressConf.temporaryKlines = s.temporaryKlines := by rw [same]; rfl
  have attached : s.clearOutAddressConf.attached = s.attached := clear_attached owned
  have memory : ∀ a, (s.clearOutAddressConf.table.confs a).clients = (s.table.confs a).clients ∧
      (s.clearOutAddressConf.table.confs a).flags = (s.table.confs a).flags := by
    intro a
    rw [same]
    simp only [Access.sweep, Access.setBuckets, Access.dropAll]
    split <;> exact ⟨rfl, rfl⟩
  have sublist : ∀ hv, (s.clearOutAddressConf.table.atable hv).Sublist (s.table.atable hv) := by
    intro hv
    rw [clear_atable owned]
    exact List.filter_sublist
  generalize s.clearOutAddressConf = s' at *
  have has : ∀ a, s'.HasClient a ↔ s.HasClient a := fun a => by rw [Access.HasClient, attached]; rfl
  -- a `ConfItem` that is freed was in the table and has no client
  have freed : ∀ a, s.table.drops (List.range' 0 atableSize) a = true ∧ (s.table.confs a).clients = 0 →
      s.InTable a ∧ a ∉ s.temporaryKlines ∧ ¬s.HasClient a := by
    rintro a ⟨gone, zero⟩
    obtain ⟨within, unlisted⟩ := (drops a).mp gone
    exact ⟨within, unlisted, (owned.clients_eq_zero (owned.tableMade a within)).mp zero⟩
  constructor
  case toListed => exact owned.shrink made hosts sublist (list ▸ List.Sublist.refl _)
  case temporaryInside =>
    intro a member
    rw [list] at member
    exact (inside a).mpr ⟨owned.temporaryInside a member, member⟩
  case temporary =>
    intro a still
    rw [(memory a).2, list]
    exact owned.temporary a ((inside a).mp still).1
  case attachedMade =>
    intro a still
    rw [made]
    exact owned.attachedMade a ((has a).mp still)
  case clients =>
    intro a below
    rw [made] at below
    rw [(memory a).1, attached]
    exact owned.clients a below
  case unmade =>
    intro a above
    rw [made] at above
    rw [frees, owned.unmade a above, if_neg]
    exact fun both => absurd (owned.tableMade a (freed a both).1) (Nat.not_lt.mpr above)
  case tableLive =>
    intro a still
    obtain ⟨before, listed⟩ := (inside a).mp still
    obtain ⟨live, legal⟩ := owned.tableLive a before
    rw [frees, live, if_neg fun both => (freed a both).2.1 listed, illegal]
    exact ⟨rfl, fun marked => marked.elim (fun gone => gone.2 listed) legal⟩
  case attachedLive =>
    intro a still
    rw [has] at still
    rw [frees, owned.attachedLive a still, if_neg fun both => (freed a both).2.2 still]
  case freedOnce =>
    intro a
    rw [frees]
    split_ifs with both
    · rw [(owned.tableLive a (freed a both).1).1]
    · exact owned.freedOnce a
  case dropped =>
    intro a below marked nobody
    rw [made] at below
    rw [has] at nobody
    rw [frees]
    rcases (illegal a).mp marked with gone | before
    · rw [if_pos ⟨(drops a).mpr gone, (owned.clients_eq_zero below).mpr nobody⟩,
        (owned.tableLive a gone.1).1]
    · rw [owned.dropped a below before nobody, if_neg]
      exact fun both => (owned.tableLive a (freed a both).1).2 before

/-! ### Runs -/

variable {wildMatch : List Char → List Char → Bool}

/-- The search finds only what is in the table. -/
theorem inTable_of_find {q : Query} {aconf : ℕ}
    (found : findConfByAddress wildMatch s.table q = some aconf) : s.InTable aconf := by
  rw [findConfByAddress_eq] at found
  rcases foldl_keepBest (candidates wildMatch s.table q) ⟨0, none⟩ with
    ⟨same, -⟩ | ⟨best, member, same, -, -⟩
  · rw [same] at found
    cases found
  · rw [same, Option.some.injEq] at found
    obtain ⟨probe, -, member⟩ := List.mem_flatMap.mp member
    exact ⟨probe.1, best, List.mem_of_mem_filter member, found⟩

theorem Access.Owned.step (owned : s.Owned) (event : AccessEvent) : (s.step wildMatch event).Owned := by
  cases event with
  | auth acount items => exact owned.authEntry acount items
  | kline host user => exact owned.enter_plain host _ (by decide) (by decide)
  | dline host => exact owned.enter_plain host _ (by decide) (by decide)
  | exempt host => exact owned.enter_plain host _ (by decide) (by decide)
  | tkline host user => exact owned.addTempKline host user
  | dropTkline aconf => exact owned.dropTempKline aconf
  | attach client q full =>
    simp only [Access.step]
    split
    · rename_i found
      exact owned.attachConf (inTable_of_find found) client full
    · exact owned
  | detach client aconf => exact owned.detachConf client aconf
  | clear => exact owned.clearOutAddressConf

theorem Access.Owned.run (owned : s.Owned) (events : List AccessEvent) :
    (s.run wildMatch events).Owned := by
  induction events generalizing s with
  | nil => exact owned
  | cons event events ih => exact ih (owned.step event)

/-! ### A mark stays -/

/-- The `ConfItem` has been made, and is marked. -/
def Access.Marked (s : Access) (aconf : ℕ) : Prop := aconf < s.made ∧ s.Illegal aconf

theorem Access.Marked.enter {aconf : ℕ} (marked : s.Marked aconf) (host : List Char) (type : UInt32)
    (user : Option (List Char)) (flags : UInt32) : (s.enter host type user flags).Marked aconf := by
  refine ⟨Nat.lt_succ_of_lt marked.1, ?_⟩
  have other : (s.enter host type user flags).table.confs aconf = s.table.confs aconf :=
    Function.update_of_ne marked.1.ne _ _
  rw [Access.Illegal, other]
  exact marked.2

private theorem Access.Marked.foldl_enterAuth {aconf : ℕ} {flags : UInt32} (confs : List AuthConf)
    (marked : s.Marked aconf) : (confs.foldl (Access.enterAuth flags) s).Marked aconf := by
  induction confs generalizing s with
  | nil => exact marked
  | cons conf confs ih =>
    apply ih
    simp only [Access.enterAuth]
    split
    · exact marked
    · exact marked.enter ..

theorem Access.Marked.step {aconf : ℕ} (owned : s.Owned) (marked : s.Marked aconf) (event : AccessEvent) :
    (s.step wildMatch event).Marked aconf := by
  cases event with
  | auth acount items => exact marked.foldl_enterAuth _
  | kline host user => exact marked.enter ..
  | dline host => exact marked.enter ..
  | exempt host => exact marked.enter ..
  | tkline host user => exact marked.enter ..
  | dropTkline other =>
    simp only [Access.step, Hostmask.dropTempKline]
    split
    · rename_i listed
      obtain ⟨-, -, confs, -⟩ := deleteOne_fields owned (owned.temporaryInside other listed)
      have made : (s.deleteOne (s.hosts other) other).made = s.made := by
        rw [Access.deleteOne]
        split <;> rfl
      constructor
      · show aconf < (s.deleteOne (s.hosts other) other).made
        rw [made]
        exact marked.1
      · show ((s.deleteOne (s.hosts other) other).table.confs aconf).status &&& _ ≠ 0
        rw [confs]
        exact marked.2
    · exact marked
  | attach client q full =>
    simp only [Access.step]
    split
    · rename_i found
      simp only [Hostmask.attachConf]
      split_ifs
      · exact marked
      · exact marked
      · exact marked
      · refine ⟨marked.1, ?_⟩
        show ((s.setConf _ _).table.confs aconf).status &&& _ ≠ 0
        rw [setConf_clients]
        exact marked.2
    · exact marked
  | detach client other =>
    by_cases member : (client, other) ∈ s.attached
    · obtain ⟨-, made, -, -, -, confs, -⟩ := detachConf_fields member
      constructor
      · show aconf < (Hostmask.detachConf s client other).made
        rw [made]
        exact marked.1
      · show ((Hostmask.detachConf s client other).table.confs aconf).status &&& _ ≠ 0
        rw [confs]
        exact marked.2
    · simp only [Access.step, Hostmask.detachConf, if_neg member]
      exact marked
  | clear =>
    refine ⟨?_, (illegal_clear owned aconf).mpr (Or.inr marked.2)⟩
    exact (clear_made owned).symm ▸ marked.1

theorem Access.Marked.run {aconf : ℕ} (owned : s.Owned) (marked : s.Marked aconf)
    (events : List AccessEvent) : (s.run wildMatch events).Marked aconf := by
  induction events generalizing s with
  | nil => exact marked
  | cons event events ih => exact ih (owned.step event) (marked.step owned event)

/-- A marked `ConfItem` has been freed if and only if no client is attached. -/
theorem Access.Owned.frees_of_marked (owned : s.Owned) {aconf : ℕ} (marked : s.Marked aconf) :
    s.frees aconf = if s.HasClient aconf then 0 else 1 := by
  split
  · rename_i has
    exact owned.attachedLive aconf has
  · rename_i nobody
    exact owned.dropped aconf marked.1 marked.2 nobody

/-- What a rehash does to a `ConfItem` that is not of a temporary K-line. -/
theorem Access.Owned.rehash (owned : s.Owned) {aconf : ℕ} (within : s.InTable aconf)
    (unlisted : aconf ∉ s.temporaryKlines) :
    s.clearOutAddressConf.Marked aconf ∧
      s.clearOutAddressConf.frees aconf = if s.HasClient aconf then 0 else 1 := by
  have marked : s.clearOutAddressConf.Marked aconf :=
    ⟨(clear_made owned).symm ▸ owned.tableMade aconf within,
      (illegal_clear owned aconf).mpr (Or.inl ⟨within, unlisted⟩)⟩
  refine ⟨marked, ?_⟩
  have has : s.clearOutAddressConf.HasClient aconf ↔ s.HasClient aconf := by
    rw [Access.HasClient, clear_attached owned]
    rfl
  rw [owned.clearOutAddressConf.frees_of_marked marked]
  exact if_congr has rfl rfl

end Owned

end Ircd.Hostmask
