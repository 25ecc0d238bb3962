import Mathlib.Data.Int.Notation
import Mathlib.Data.List.Basic
import Mathlib.Logic.Function.Basic
import Mathlib.Algebra.Order.Group.Int
import Mathlib.Tactic.Common

/-!
# The IP table

The table of `src/s_conf.c` with the number of clients on each address and the time of the
last attempt to connect from it, in the build without IPv6 and with `PACE_CONNECT`. Entries come from a list
of free blocks and go back to it with what they hold.
-/
namespace Ircd.Conf

/-- `IP_ENTRY`, less the chain pointer. -/
structure IpEntry where
  ip : UInt32
  count : ℤ
  lastAttempt : ℕ
deriving DecidableEq

/-- `ip_hash_table` and `free_ip_entries`. -/
structure IpTable where
  ipHashTable : ℕ → List IpEntry
  freeIpEntries : List IpEntry

/-- `IP_HASH_SIZE`. -/
def ipHashSize : ℕ := 0x1000

/-- `hash_ip`. -/
def hashIp (ip : UInt32) : ℕ := ((ip >>> 12) + ip).toNat % ipHashSize

/-- `clear_ip_hash_table`: the blocks come from `calloc`. -/
def clearIpHashTable (maxConnections : ℕ) : IpTable :=
  ⟨fun _ => [], List.replicate maxConnections ⟨0, 0, 0⟩⟩

/-- The first entry for the address. -/
def IpTable.entryOf (t : IpTable) (ip : UInt32) : Option IpEntry :=
  (t.ipHashTable (hashIp ip)).find? (·.ip = ip)

/-- `find_or_add_ip`; the entry it points to is then the first one for the address.
Without a free block the server stops. -/
def findOrAddIp (t : IpTable) (ip : UInt32) : Option IpTable :=
  let chain := t.ipHashTable (hashIp ip)
  if (t.entryOf ip).isSome then some t
  else match t.freeIpEntries with
    | [] => none
    | block :: free =>
      let new :=
        if chain ≠ [] then { block with ip := ip, count := 0, lastAttempt := 0 }
        -- an empty chain: the time of the last attempt stays what the block holds
        else { block with ip := ip, count := 0 }
      some ⟨Function.update t.ipHashTable (hashIp ip) (new :: chain), free⟩

/-- Writing through the pointer to an entry of a chain. -/
def writeChain (f : IpEntry → IpEntry) (ip : UInt32) : List IpEntry → List IpEntry
  | [] => []
  | e :: chain => if e.ip = ip then f e :: chain else e :: writeChain f ip chain

def IpTable.write (t : IpTable) (ip : UInt32) (f : IpEntry → IpEntry) : IpTable :=
  { t with ipHashTable :=
      Function.update t.ipHashTable (hashIp ip) (writeChain f ip (t.ipHashTable (hashIp ip))) }

/-- An entry after `remove_one_ip` has counted down. -/
def IpEntry.less (e : IpEntry) : IpEntry :=
  { e with count := if e.count ≠ 0 then e.count - 1 else e.count }

/-- The loop of `remove_one_ip`: the chain that stays and the entry that goes. -/
def removeFromChain (throttleTime : ℤ) (now : ℕ) (ip : UInt32) :
    List IpEntry → List IpEntry × Option IpEntry
  | [] => ([], none)
  | e :: chain =>
    if e.ip ≠ ip then
      let rest := removeFromChain throttleTime now ip chain
      (e :: rest.1, rest.2)
    else
      if e.less.count ≠ 0 ∨ (now : ℤ) - e.less.lastAttempt ≤ throttleTime then
        let rest := removeFromChain throttleTime now ip chain
        (e.less :: rest.1, rest.2)
      else (chain, some e.less)

/-- `remove_one_ip`. -/
def removeOneIp (throttleTime : ℤ) (t : IpTable) (now : ℕ) (ip : UInt32) : IpTable :=
  let rest := removeFromChain throttleTime now ip (t.ipHashTable (hashIp ip))
  ⟨Function.update t.ipHashTable (hashIp ip) rest.1, rest.2.toList ++ t.freeIpEntries⟩

/-- What `flush_expired_ips` takes out. -/
def IpEntry.expired (throttleTime : ℤ) (now : ℕ) (e : IpEntry) : Bool :=
  e.count = 0 ∧ (e.lastAttempt : ℤ) ≤ now - throttleTime

/-- The loop of `flush_expired_ips` over one chain. -/
def flushChain (throttleTime : ℤ) (now : ℕ) (t : IpTable) (i : ℕ) : IpTable :=
  let chain := t.ipHashTable i
  ⟨Function.update t.ipHashTable i (chain.filter fun e => !e.expired throttleTime now),
    (chain.filter (·.expired throttleTime now)).reverse ++ t.freeIpEntries⟩

/-- `flush_expired_ips`. -/
def flushExpiredIps (throttleTime : ℤ) (t : IpTable) (now : ℕ) : IpTable :=
  (List.range ipHashSize).foldl (flushChain throttleTime now) t

/-! ### Who calls it -/

/-- What `find_dline` finds. -/
inductive Dline where
  | banned
  | exempt
deriving DecidableEq

/-- What `conf_connect_allowed` answers. -/
inductive Allowed where
  | allowed
  | bannedClient
  | tooFast
deriving DecidableEq

/-- `conf_connect_allowed`. -/
def confConnectAllowed (throttleTime : ℤ) (t : IpTable) (now : ℕ) (addr : UInt32)
    (aconf : Option Dline) : Option (Allowed × IpTable) :=
  match aconf with
  | some .exempt => some (.allowed, t)
  | some .banned => some (.bannedClient, t)
  | none => do
    let t ← findOrAddIp t addr
    let ipFound ← t.entryOf addr
    if (now : ℤ) - ipFound.lastAttempt < throttleTime then
      some (.tooFast, t.write addr fun e => { e with lastAttempt := now, count := e.count - 1 })
    else some (.allowed, t.write addr fun e => { e with lastAttempt := now })

/-- What `attach_conf` answers; it looks at other tables. -/
inductive Attached where
  | attached
  | alreadyAttached
  | notAuthorized
  | iLineFull
deriving DecidableEq

/-- What `attach_iline` answers. -/
inductive Iline where
  | tooMany
  | attachConf (answer : Attached)
deriving DecidableEq

/-- The `ConfItem` of an I-line, as far as the IP table is concerned: `ConfConFreq` of the class,
if there is a class, and `IsConfExemptLimits`. -/
structure IlineConf where
  conFreq : Option ℤ
  exemptLimits : Bool
deriving DecidableEq

/-- The I-line has a limit, it counts, and this number is over it. -/
def IlineConf.full (aconf : IlineConf) (number : ℤ) : Bool :=
  aconf.conFreq.any (fun freq => freq ≠ 0 ∧ number > freq) && !aconf.exemptLimits

/-- `attach_iline`. -/
def attachIline (t : IpTable) (ip : UInt32) (aconf : IlineConf) (attachConf : Attached) :
    Option (Iline × IpTable) := do
  let t ← findOrAddIp t ip
  let t := t.write ip fun e => { e with count := e.count + 1 }
  let ipFound ← t.entryOf ip
  some (if aconf.full ipFound.count then .tooMany else .attachConf attachConf, t)

/-! ### The entry for an address -/

/-- Every entry is on the chain of its address, and is the only one for it. -/
def IpTable.Sound (t : IpTable) : Prop :=
  ∀ i, (∀ e ∈ t.ipHashTable i, hashIp e.ip = i) ∧ ((t.ipHashTable i).map (·.ip)).Nodup

variable {t t' : IpTable} {ip other : UInt32} {e : IpEntry} {chain : List IpEntry}
variable {throttleTime : ℤ} {now : ℕ}

theorem clearIpHashTable_sound (maxConnections : ℕ) : (clearIpHashTable maxConnections).Sound := by
  intro i
  simp [clearIpHashTable]

@[simp]
theorem clearIpHashTable_entryOf (maxConnections : ℕ) (ip : UInt32) :
    (clearIpHashTable maxConnections).entryOf ip = none := rfl

theorem IpTable.entryOf_ip (found : t.entryOf ip = some e) : e.ip = ip := by
  simpa using List.find?_some found

/-- On another chain, or on the same chain under another address, nothing has changed. -/
theorem IpTable.entryOf_update (t : IpTable) (free : List IpEntry) (ip : UInt32) (chain : List IpEntry)
    (other : UInt32) :
    (IpTable.mk (Function.update t.ipHashTable (hashIp ip) chain) free).entryOf other =
      if hashIp other = hashIp ip then chain.find? (·.ip = other) else t.entryOf other := by
  unfold IpTable.entryOf
  split <;> rename_i same <;> simp [same]

theorem findOrAddIp_cases (added : findOrAddIp t ip = some t') :
    (t' = t ∧ ∃ e, t.entryOf ip = some e) ∨
    (t.entryOf ip = none ∧ ∃ block free new, t.freeIpEntries = block :: free ∧
      new.ip = ip ∧ new.count = 0 ∧
      new.lastAttempt = (if t.ipHashTable (hashIp ip) ≠ [] then 0 else block.lastAttempt) ∧
      t' = ⟨Function.update t.ipHashTable (hashIp ip) (new :: t.ipHashTable (hashIp ip)), free⟩) := by
  unfold findOrAddIp at added
  split at added
  case isTrue found => exact Or.inl ⟨by simpa using added.symm, Option.isSome_iff_exists.mp found⟩
  case isFalse absent =>
    right
    refine ⟨by simpa using absent, ?_⟩
    split at added
    · contradiction
    · rename_i block free blocks
      refine ⟨block, free, _, blocks, ?_, ?_, ?_, (Option.some.inj added).symm⟩ <;> split <;> simp

/-- The entry is there afterwards, and those of other addresses are as they were. -/
theorem findOrAddIp_entryOf (added : findOrAddIp t ip = some t') (other : UInt32) (apart : other ≠ ip) :
    t'.entryOf other = t.entryOf other := by
  obtain ⟨rfl, -⟩ | ⟨-, block, free, new, -, ofIp, -, -, rfl⟩ := findOrAddIp_cases added
  · rfl
  · rw [IpTable.entryOf_update]
    split
    · rename_i same
      rw [List.find?_cons_of_neg (by simp [ofIp, apart.symm]), ← same]
      rfl
    · rfl

theorem IpTable.Sound.findOrAddIp (sound : t.Sound) (added : findOrAddIp t ip = some t') :
    t'.Sound := by
  obtain ⟨rfl, -⟩ | ⟨absent, block, free, new, -, ofIp, -, -, rfl⟩ := findOrAddIp_cases added
  · exact sound
  · intro i
    by_cases same : i = hashIp ip
    · subst same
      have old := sound (hashIp ip)
      have missing : ip ∉ (t.ipHashTable (hashIp ip)).map (·.ip) := by
        simpa [IpTable.entryOf] using absent
      simp only [Function.update_self, List.mem_cons, List.map_cons, List.nodup_cons, ofIp]
      refine ⟨?_, missing, old.2⟩
      rintro e (rfl | member)
      · rw [ofIp]
      · exact old.1 e member
    · simpa [same] using sound i

theorem writeChain_ips (f : IpEntry → IpEntry) (keeps : ∀ e, (f e).ip = e.ip) (ip : UInt32)
    (chain : List IpEntry) : (writeChain f ip chain).map (·.ip) = chain.map (·.ip) := by
  induction chain with
  | nil => rfl
  | cons e chain ih =>
    unfold writeChain
    split <;> simp [keeps, ih]

theorem writeChain_find? (f : IpEntry → IpEntry) (keeps : ∀ e, (f e).ip = e.ip) (ip other : UInt32)
    (chain : List IpEntry) :
    (writeChain f ip chain).find? (·.ip = other) =
      if other = ip then (chain.find? (·.ip = ip)).map f else chain.find? (·.ip = other) := by
  induction chain with
  | nil => simp [writeChain]
  | cons e chain ih =>
    unfold writeChain
    by_cases ofIp : e.ip = ip
    · subst ofIp
      by_cases same : other = e.ip
      · simp [same, keeps]
      · have apart : ¬e.ip = other := fun equal => same equal.symm
        simp [same, keeps, apart]
    · by_cases same : e.ip = other
      · subst same
        simp [ofIp]
      · simp [ofIp, same, ih]

/-- Writing to the entry of an address. -/
theorem IpTable.write_entryOf (t : IpTable) (f : IpEntry → IpEntry) (keeps : ∀ e, (f e).ip = e.ip)
    (ip other : UInt32) :
    (t.write ip f).entryOf other = if other = ip then (t.entryOf ip).map f else t.entryOf other := by
  unfold IpTable.write
  rw [IpTable.entryOf_update, writeChain_find? f keeps]
  by_cases same : other = ip
  · subst same
    simp [IpTable.entryOf]
  · simp only [same, if_false]
    split
    · rename_i hash
      rw [← hash]
      rfl
    · rfl

/-- A chain whose addresses are among those there were. -/
theorem IpTable.Sound.update (sound : t.Sound) (free : List IpEntry) (i : ℕ)
    (sublist : (chain.map (·.ip)).Sublist ((t.ipHashTable i).map (·.ip))) :
    (IpTable.mk (Function.update t.ipHashTable i chain) free).Sound := by
  intro j
  by_cases same : j = i
  · subst same
    have old := sound j
    simp only [Function.update_self]
    refine ⟨?_, sublist.nodup old.2⟩
    intro e member
    have among := sublist.subset (List.mem_map_of_mem member)
    obtain ⟨e', member', equal⟩ := List.mem_map.mp among
    rw [← equal]
    exact old.1 e' member'
  · simpa [same] using sound j

theorem IpTable.Sound.write (sound : t.Sound) (f : IpEntry → IpEntry) (keeps : ∀ e, (f e).ip = e.ip)
    (ip : UInt32) : (t.write ip f).Sound := by
  apply sound.update
  rw [writeChain_ips f keeps]

@[simp]
theorem IpEntry.less_ip (e : IpEntry) : e.less.ip = e.ip := rfl

@[simp]
theorem IpEntry.less_lastAttempt (e : IpEntry) : e.less.lastAttempt = e.lastAttempt := rfl

/-- What `remove_one_ip` gives back to the free list. -/
def IpEntry.done (throttleTime : ℤ) (now : ℕ) (e : IpEntry) : Bool :=
  e.count = 0 ∧ throttleTime < now - e.lastAttempt

/-- An address that is not on the chain. -/
theorem removeFromChain_absent (throttleTime : ℤ) (now : ℕ) (absent : ip ∉ chain.map (·.ip)) :
    removeFromChain throttleTime now ip chain = (chain, none) := by
  induction chain with
  | nil => rfl
  | cons e chain ih =>
    simp only [List.map_cons, List.mem_cons, not_or] at absent
    simp [removeFromChain, Ne.symm absent.1, ih absent.2]

/-- The one entry of the address is counted down and then stays or goes. -/
theorem removeFromChain_present (throttleTime : ℤ) (now : ℕ) (front : ip ∉ chain.map (·.ip))
    (behind : List IpEntry) (only : ip ∉ behind.map (·.ip)) (ofIp : e.ip = ip) :
    removeFromChain throttleTime now ip (chain ++ e :: behind) =
      if e.less.done throttleTime now then (chain ++ behind, some e.less)
      else (chain ++ e.less :: behind, none) := by
  induction chain with
  | nil =>
    by_cases goes : e.less.done throttleTime now
    · have old := goes
      simp only [IpEntry.done, decide_eq_true_eq] at old
      have gone : ¬(e.less.count ≠ 0 ∨ (now : ℤ) - e.less.lastAttempt ≤ throttleTime) := by
        rintro (more | recent)
        · exact more old.1
        · exact absurd old.2 (not_lt.mpr recent)
      simp only [List.nil_append, removeFromChain, ofIp, ne_eq, not_true_eq_false, if_false, goes]
      rw [if_neg gone]
      rfl
    · have stays := goes
      simp only [IpEntry.done, decide_eq_true_eq, not_and, not_lt] at stays
      have kept : e.less.count ≠ 0 ∨ (now : ℤ) - e.less.lastAttempt ≤ throttleTime := by
        by_cases zero : e.less.count = 0
        · exact Or.inr (stays zero)
        · exact Or.inl zero
      simp only [List.nil_append, removeFromChain, ofIp, ne_eq, not_true_eq_false, if_false, goes]
      rw [if_pos kept, removeFromChain_absent throttleTime now only]
      rfl
  | cons first chain ih =>
    simp only [List.map_cons, List.mem_cons, not_or] at front
    simp only [List.cons_append, removeFromChain, ne_eq, Ne.symm front.1, not_false_eq_true, if_true,
      ih front.2]
    split <;> rfl

/-- A chain of a sound table, cut at the entry of an address. -/
theorem IpTable.Sound.cut (sound : t.Sound) (found : t.entryOf ip = some e) :
    ∃ front behind, t.ipHashTable (hashIp ip) = front ++ e :: behind ∧
      ip ∉ front.map (·.ip) ∧ ip ∉ behind.map (·.ip) := by
  have ofIp := IpTable.entryOf_ip found
  obtain ⟨front, behind, split⟩ := List.append_of_mem (List.mem_of_find?_eq_some found)
  have once := (sound (hashIp ip)).2
  rw [split, List.map_append, List.map_cons, ofIp, List.perm_middle.nodup_iff, List.nodup_cons]
    at once
  simp only [List.mem_append, not_or] at once
  exact ⟨front, behind, split, once.1.1, once.1.2⟩

/-- Looking for another address, one entry more or less makes no difference. -/
theorem find?_skip (front behind : List IpEntry) (ofIp : e.ip = ip) (apart : other ≠ ip) :
    (front ++ e :: behind).find? (·.ip = other) = (front ++ behind).find? (·.ip = other) := by
  have skipped : ¬e.ip = other := fun equal => apart (equal ▸ ofIp)
  simp [List.find?_append, skipped]

theorem find?_absent (absent : ip ∉ chain.map (·.ip)) : chain.find? (·.ip = ip) = none := by
  simpa using absent

theorem IpTable.entryOf_none (missing : t.entryOf ip = none) :
    ip ∉ (t.ipHashTable (hashIp ip)).map (·.ip) := by
  simpa [IpTable.entryOf] using missing

/-- `remove_one_ip` as a change of the entries, and what it puts on the free list. -/
theorem removeOneIp_spec (sound : t.Sound) (throttleTime : ℤ) (now : ℕ) (ip : UInt32) :
    let left := (t.entryOf ip).map (·.less)
    let after := removeOneIp throttleTime t now ip
    after.Sound ∧
    (∀ other, after.entryOf other =
      if other = ip then left.filter (fun e => !e.done throttleTime now) else t.entryOf other) ∧
    after.freeIpEntries = (left.filter (·.done throttleTime now)).toList ++ t.freeIpEntries := by
  intro left after
  cases found : t.entryOf ip with
  | none =>
    have absent := removeFromChain_absent throttleTime now (IpTable.entryOf_none found)
    have same : after = t := by
      simp [after, removeOneIp, absent]
    simp only [same, left, found, Option.map_none, Option.filter_none, Option.toList_none,
      List.nil_append, and_true]
    refine ⟨sound, ?_⟩
    intro other
    split
    · rename_i equal
      rw [equal, found]
    · rfl
  | some e =>
    have ofIp := IpTable.entryOf_ip found
    obtain ⟨front, behind, cut, before, only⟩ := sound.cut found
    have removed := removeFromChain_present throttleTime now before behind only ofIp
    simp only [after, left, removeOneIp, cut, removed, found, Option.map_some]
    -- the entry is freed when its last client has left and it is old enough
    by_cases goes : e.less.done throttleTime now
    · simp only [goes, if_true]
      refine ⟨?_, ?_, ?_⟩
      · apply sound.update
        rw [cut]
        simp
      · intro other
        rw [IpTable.entryOf_update]
        by_cases same : other = ip
        · subst same
          simp [List.find?_append, find?_absent before, find?_absent only, goes, Option.filter]
        · simp only [same, if_false]
          split
          · rename_i hash
            rw [← find?_skip front behind ofIp same, ← cut, ← hash]
            rfl
          · rfl
      · simp [Option.filter, goes]
    · simp only [goes, Bool.false_eq_true, if_false]
      refine ⟨?_, ?_, ?_⟩
      · apply sound.update
        rw [cut]
        simp
      · intro other
        rw [IpTable.entryOf_update]
        by_cases same : other = ip
        · subst same
          simp [List.find?_append, find?_absent before, ofIp, goes, Option.filter]
        · simp only [same, if_false]
          split
          · rename_i hash
            have less : e.less.ip = ip := ofIp
            rw [find?_skip front behind less same, ← find?_skip front behind ofIp same, ← cut, ← hash]
            rfl
          · rfl
      · simp [Option.filter, goes]

/-- With one entry for each address, filtering a chain filters what is found on it. -/
theorem find?_filter (keeps : IpEntry → Bool) (once : (chain.map (·.ip)).Nodup) (ip : UInt32) :
    (chain.filter keeps).find? (·.ip = ip) = (chain.find? (·.ip = ip)).filter keeps := by
  induction chain with
  | nil => rfl
  | cons e chain ih =>
    simp only [List.map_cons, List.nodup_cons] at once
    by_cases ofIp : e.ip = ip
    · cases kept : keeps e with
      | true => simp [kept, ofIp, Option.filter]
      | false =>
        have absent : chain.find? (·.ip = ip) = none := find?_absent (ofIp ▸ once.1)
        simp [kept, ofIp, ih once.2, absent, Option.filter]
    · cases kept : keeps e <;> simp [kept, ofIp, ih once.2]

/-- One chain of `flush_expired_ips`. -/
theorem flushChain_spec (sound : t.Sound) (throttleTime : ℤ) (now i : ℕ) :
    let after := flushChain throttleTime now t i
    after.Sound ∧
    (∀ ip, after.entryOf ip =
      if hashIp ip = i then (t.entryOf ip).filter (fun e => !e.expired throttleTime now)
      else t.entryOf ip) ∧
    ∀ e ∈ after.freeIpEntries, e ∈ t.freeIpEntries ∨ e.expired throttleTime now := by
  intro after
  refine ⟨?_, ?_, ?_⟩
  · apply sound.update
    exact List.filter_sublist.map _
  · intro ip
    unfold IpTable.entryOf
    split
    · rename_i hash
      subst hash
      simpa [after, flushChain] using
        find?_filter (fun e => !e.expired throttleTime now) (sound (hashIp ip)).2 ip
    · rename_i apart
      simp [after, flushChain, apart]
  · intro e member
    simp only [after, flushChain, List.mem_append, List.mem_reverse, List.mem_filter] at member
    exact member.symm.imp id And.right

/-- `flush_expired_ips` takes the expired entries out and puts no others on the free list. -/
theorem flushExpiredIps_spec (sound : t.Sound) (throttleTime : ℤ) (now : ℕ) :
    (flushExpiredIps throttleTime t now).Sound ∧
    (∀ ip, (flushExpiredIps throttleTime t now).entryOf ip =
      (t.entryOf ip).filter (fun e => !e.expired throttleTime now)) ∧
    ∀ e ∈ (flushExpiredIps throttleTime t now).freeIpEntries,
      e ∈ t.freeIpEntries ∨ e.expired throttleTime now := by
  have loop : ∀ n, let after := (List.range n).foldl (flushChain throttleTime now) t
      after.Sound ∧
      (∀ ip, after.entryOf ip =
        if hashIp ip < n then (t.entryOf ip).filter (fun e => !e.expired throttleTime now)
        else t.entryOf ip) ∧
      ∀ e ∈ after.freeIpEntries, e ∈ t.freeIpEntries ∨ e.expired throttleTime now := by
    intro n
    induction n with
    | zero => exact ⟨sound, fun ip => rfl, fun e member => Or.inl member⟩
    | succ n ih =>
      obtain ⟨soundN, entryN, freeN⟩ := ih
      simp only [List.range_succ, List.foldl_append, List.foldl_cons, List.foldl_nil]
      obtain ⟨soundS, entryS, freeS⟩ := flushChain_spec soundN throttleTime now n
      refine ⟨soundS, ?_, ?_⟩
      · intro ip
        rw [entryS, entryN]
        grind
      · intro e member
        rcases freeS e member with old | gone
        · exact freeN e old
        · exact Or.inr gone
  obtain ⟨soundAll, entryAll, freeAll⟩ := loop ipHashSize
  refine ⟨soundAll, ?_, freeAll⟩
  intro ip
  have small : hashIp ip < ipHashSize := Nat.mod_lt _ (by decide)
  exact (entryAll ip).trans (if_pos small)

-- the loop over all the chains is not to be run by a proof
attribute [irreducible] flushExpiredIps

end Ircd.Conf
