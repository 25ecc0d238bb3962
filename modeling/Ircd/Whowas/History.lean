import Ircd.Whowas.Ring
import Mathlib.Data.List.Induction

/-!
# The ring and its links

Every run keeps the slots of the ring in the chains of `WHOWASHASH` and in the lists of the clients that are online.
The chain is that of the whole name of the client, so it is that of the slot's name as long as nothing is cut off.
-/
namespace Ircd.Whowas

open Chan (ClientId nickLen)

/-! ### Lists of slots -/

/-- The slots whose records meet a condition. -/
def slotsWhere (entries : List (ℕ × Record)) (p : Record → Bool) : List ℕ :=
  (entries.filter (fun entry => p entry.2)).map Prod.fst

def inChain (k : ℕ) (r : Record) : Bool := decide (hashWhowasName r.client.name = k)

def inClist (c : ClientId) (r : Record) : Bool := decide (r.live = some c)

theorem mem_slotsWhere {entries : List (ℕ × Record)} {p : Record → Bool} {i : ℕ} :
    i ∈ slotsWhere entries p ↔ ∃ r, (i, r) ∈ entries ∧ p r = true := by
  simp [slotsWhere]

theorem slotsWhere_nodup {entries : List (ℕ × Record)} (nodup : (entries.map Prod.fst).Nodup) (p : Record → Bool) :
    (slotsWhere entries p).Nodup :=
  nodup.sublist (List.filter_sublist.map _)

theorem slotsWhere_cons (i : ℕ) (r : Record) (entries : List (ℕ × Record)) (p : Record → Bool) :
    slotsWhere ((i, r) :: entries) p = if p r then i :: slotsWhere entries p else slotsWhere entries p := by
  unfold slotsWhere
  cases holds : p r <;> simp [holds]

/-- A slot is forgotten. -/
theorem slotsWhere_forget (entries : List (ℕ × Record)) (who : ℕ) (p : Record → Bool) :
    slotsWhere (entries.filter (fun entry => entry.1 ≠ who)) p = (slotsWhere entries p).filter (fun i => i ≠ who) := by
  simp only [slotsWhere, List.filter_map, List.filter_filter]
  congr 2
  funext entry
  simp [Bool.and_comm]

theorem unique_record {entries : List (ℕ × Record)} (nodup : (entries.map Prod.fst).Nodup) {i : ℕ} {r r' : Record}
    (member : (i, r) ∈ entries) (member' : (i, r') ∈ entries) : r = r' := by
  have := List.inj_on_of_nodup_map nodup member member' rfl
  simpa using this

/-- A table that links every slot under the key of its record: a slot is unlinked under its key. -/
theorem holds_unlink {κ : Type} [DecidableEq κ] {t : LinkTable ℕ κ} {entries : List (ℕ × Record)}
    (nodup : (entries.map Prod.fst).Nodup) {p : κ → Record → Bool} {who : ℕ} {r : Record}
    (member : (who, r) ∈ entries) {k : κ} (key : ∀ k', p k' r = true ↔ k' = k)
    (holds : t.Holds (fun k => slotsWhere entries (p k))) :
    (t.unlink k who).Holds (fun k => slotsWhere (entries.filter (fun entry => entry.1 ≠ who)) (p k)) := by
  have unlinked := holds.unlink (k := k) (a := who) (mem_slotsWhere.mpr ⟨r, member, (key k).mpr rfl⟩)
  suffices same : Function.update (fun k => slotsWhere entries (p k)) k ((slotsWhere entries (p k)).erase who) =
      fun k => slotsWhere (entries.filter (fun entry => entry.1 ≠ who)) (p k) by
    rwa [same] at unlinked
  funext k'
  rw [slotsWhere_forget]
  by_cases here : k' = k
  · subst here
    rw [Function.update_self, (slotsWhere_nodup nodup _).erase_eq_filter]
    congr 1
    funext i
    simp [bne, beq_eq_decide]
  · rw [Function.update_of_ne here, eq_comm, List.filter_eq_self]
    intro i inside
    obtain ⟨r', member', holds'⟩ := mem_slotsWhere.mp inside
    simp only [ne_eq, decide_eq_true_eq]
    rintro rfl
    obtain rfl := unique_record nodup member member'
    exact here ((key k').mp holds')

/-- A slot that no list has is not missed. -/
theorem holds_forget {κ : Type} {t : LinkTable ℕ κ} {entries : List (ℕ × Record)} {p : κ → Record → Bool} {who : ℕ}
    (absent : ∀ k, who ∉ slotsWhere entries (p k)) (holds : t.Holds (fun k => slotsWhere entries (p k))) :
    t.Holds (fun k => slotsWhere (entries.filter (fun entry => entry.1 ≠ who)) (p k)) := by
  suffices same : (fun k => slotsWhere (entries.filter (fun entry => entry.1 ≠ who)) (p k)) =
      fun k => slotsWhere entries (p k) by
    rwa [same]
  funext k
  rw [slotsWhere_forget, List.filter_eq_self]
  intro i inside
  simp only [ne_eq, decide_eq_true_eq]
  rintro rfl
  exact absent k inside

/-- A slot that no list has is linked in under the key of its new record. -/
theorem holds_push {κ : Type} [DecidableEq κ] {t : LinkTable ℕ κ} {entries : List (ℕ × Record)}
    {p : κ → Record → Bool} {who : ℕ} {r : Record} {k : κ} (key : ∀ k', p k' r = true ↔ k' = k)
    (absent : ∀ k, who ∉ slotsWhere entries (p k)) (holds : t.Holds (fun k => slotsWhere entries (p k))) :
    (t.push k who).Holds (fun k => slotsWhere ((who, r) :: entries) (p k)) := by
  have pushed := holds.push k absent
  suffices same : Function.update (fun k => slotsWhere entries (p k)) k (who :: slotsWhere entries (p k)) =
      fun k => slotsWhere ((who, r) :: entries) (p k) by
    rwa [same] at pushed
  funext k'
  rw [slotsWhere_cons]
  by_cases here : k' = k
  · subst here
    rw [Function.update_self, if_pos ((key k').mpr rfl)]
  · rw [Function.update_of_ne here, if_neg (fun holds' => here ((key k').mp holds'))]

/-! ### What the state says about the past -/

structure Represents (s : State) (h : Past) : Prop where
  time : s.currentTime = h.currentTime
  next : s.whowasNext = h.records.length % nicknameHistoryLength
  filled : ∀ {i r}, (i, r) ∈ ring h.records → s.slots i = r.client.slot r.logoff r.live
  unused : ∀ i, (∀ r, (i, r) ∉ ring h.records) → (s.slots i).hashv = none
  hash : s.hash.Holds (fun k => slotsWhere (ring h.records) (inChain k))
  clists : s.clists.Holds (fun c => slotsWhere (ring h.records) (inClist c))

theorem represents_start (now : ℤ) : Represents (State.start now) ⟨[], now⟩ where
  time := rfl
  next := rfl
  filled := by simp [ring]
  unused := by simp [State.start]
  hash := ⟨fun _ => rfl, fun _ => List.nodup_nil, by simp [ring, slotsWhere]⟩
  clists := ⟨fun _ => rfl, fun _ => List.nodup_nil, by simp [ring, slotsWhere]⟩

/-- The state after `release`: the slot is in no list. -/
theorem Represents.release {s : State} {h : Past} (rep : Represents s h) (who : ℕ) :
    ((s.release who).hash.Holds fun k =>
        slotsWhere ((ring h.records).filter (fun entry => entry.1 ≠ who)) (inChain k)) ∧
      ((s.release who).clists.Holds fun c =>
        slotsWhere ((ring h.records).filter (fun entry => entry.1 ≠ who)) (inClist c)) ∧
      (s.release who).slots = s.slots ∧ (s.release who).whowasNext = s.whowasNext ∧
      (s.release who).currentTime = s.currentTime := by
  have nodup := ring_nodup h.records
  by_cases used : ∃ r, (who, r) ∈ ring h.records
  · obtain ⟨r, member⟩ := used
    have slot := rep.filled member
    have hashv : (s.slots who).hashv = some (hashWhowasName r.client.name) := by rw [slot]; rfl
    have online : (s.slots who).online = r.live := by rw [slot]; rfl
    simp only [State.release, hashv, online, and_self, and_true]
    constructor
    · exact holds_unlink nodup member (by simp [inChain, eq_comm]) rep.hash
    · cases live : r.live with
      | none =>
        apply holds_forget _ rep.clists
        intro c inside
        obtain ⟨r', member', isLive⟩ := mem_slotsWhere.mp inside
        obtain rfl := unique_record nodup member member'
        simp [inClist, live] at isLive
      | some c => exact holds_unlink nodup member (by simp [inClist, live, eq_comm]) rep.clists
  · have unused : ∀ r, (who, r) ∉ ring h.records := fun r member => used ⟨r, member⟩
    have absent : ∀ p : Record → Bool, who ∉ slotsWhere (ring h.records) p := fun p inside => by
      obtain ⟨r, member, _⟩ := mem_slotsWhere.mp inside
      exact unused r member
    simp only [State.release, rep.unused who unused, and_self, and_true]
    exact ⟨holds_forget (fun k => absent _) rep.hash, holds_forget (fun c => absent _) rep.clists⟩

theorem Represents.addHistory {s : State} {h : Past} (rep : Represents s h) (c : Client) (online : Bool) :
    Represents (s.addHistory c online) (h.step (.add c online)) := by
  have added : s.addHistory c online = (s.release (h.records.length % nicknameHistoryLength)).record c online := by
    rw [State.addHistory, rep.next]
  obtain ⟨hash, clists, slots, next, time⟩ := rep.release (h.records.length % nicknameHistoryLength)
  rw [rep.next] at next
  rw [rep.time] at time
  -- the slot has been released, and is on no list
  have absent : ∀ p : Record → Bool, h.records.length % nicknameHistoryLength ∉ slotsWhere
      ((ring h.records).filter (fun entry => entry.1 ≠ h.records.length % nicknameHistoryLength)) p := by
    intro p inside
    rw [slotsWhere_forget] at inside
    simp at inside
  have live : (⟨c, h.currentTime, online, true⟩ : Record).live = if online then some c.id else none := by
    simp [Record.live]
  rw [added]
  constructor
  · exact time
  · -- the number of the next slot
    simp only [State.record, Past.step, List.length_cons, next]
    unfold nicknameHistoryLength
    split <;> omega
  · intro i r member
    simp only [Past.step, ring, List.mem_cons] at member
    simp only [State.record, slots, next, time]
    rcases member with equal | member
    · cases equal
      rw [Function.update_self, live]
    · obtain ⟨old, other⟩ := List.mem_filter.mp member
      rw [Function.update_of_ne (by simpa using other)]
      exact rep.filled old
  · intro i unused
    simp only [Past.step, ring, List.mem_cons, not_or] at unused
    simp only [State.record, slots, next]
    have other : i ≠ h.records.length % nicknameHistoryLength := by
      rintro rfl
      exact (unused ⟨c, h.currentTime, online, true⟩).1 rfl
    rw [Function.update_of_ne other]
    apply rep.unused
    intro r member
    exact (unused r).2 (List.mem_filter.mpr ⟨member, by simpa using other⟩)
  · simp only [State.record, next, Past.step, ring]
    exact holds_push (by simp [inChain, eq_comm]) (fun k => absent _) hash
  · simp only [State.record, next, Past.step, ring]
    cases online with
    | true => exact holds_push (by simp [inClist, live, eq_comm]) (fun k => absent _) clists
    | false =>
      have same : (fun c' => slotsWhere ((h.records.length % nicknameHistoryLength,
            ⟨c, h.currentTime, false, true⟩) :: (ring h.records).filter
              (fun entry => entry.1 ≠ h.records.length % nicknameHistoryLength)) (inClist c')) =
          fun c' => slotsWhere ((ring h.records).filter
            (fun entry => entry.1 ≠ h.records.length % nicknameHistoryLength)) (inClist c') := by
        funext c'
        rw [slotsWhere_cons, if_neg (by simp [inClist, Record.live])]
      rw [same]
      exact clists

/-! ### A client leaves -/

/-- The loop of `off_history` empties the list of the client. -/
theorem offFrom_spec {c : ClientId} {lists : ClientId → List ℕ} {n : ℕ} {s : State}
    (holds : s.clists.Holds lists) (long : (lists c).length ≤ n) :
    let s' := offFrom c n (s.clists.heads c) s
    s'.clists.Holds (Function.update lists c []) ∧
      (∀ i, s'.slots i = if i ∈ lists c then { s.slots i with online := none } else s.slots i) ∧
      s'.hash = s.hash ∧ s'.whowasNext = s.whowasNext ∧ s'.currentTime = s.currentTime := by
  generalize listed : lists c = l at long
  induction l generalizing lists n s with
  | nil =>
    have empty : s.clists.heads c = none := by
      rw [(holds.linked c).head_eq, listed]
      rfl
    have done : offFrom c n none s = s := by cases n <;> rfl
    rw [empty]
    simp only [done, List.not_mem_nil, if_false, implies_true, and_self, and_true]
    rwa [← listed, Function.update_eq_self]
  | cons temp l ih =>
    obtain ⟨n, rfl⟩ : ∃ m, n = m + 1 := ⟨n - 1, by simp at long; omega⟩
    have linked := holds.linked c
    have nodup := holds.nodup c
    rw [listed] at linked nodup
    obtain ⟨first, back, -⟩ := linked
    have unlinked := holds.unlink (k := c) (a := temp) (by rw [listed]; exact List.mem_cons_self)
    rw [listed, List.erase_cons_head] at unlinked
    -- the entry behind the first one is the first one now
    have head : (s.clists.unlink c temp).heads c = s.clists.next temp := by
      simp [LinkTable.unlink, back]
    rw [first, offFrom, ← head]
    have rest := ih (n := n)
      (s := { s with
        slots := Function.update s.slots temp { s.slots temp with online := none }
        clists := s.clists.unlink c temp }) unlinked (Function.update_self ..) (by simpa using long)
    rw [Function.update_idem] at rest
    obtain ⟨holds', slots, others⟩ := rest
    refine ⟨holds', fun i => ?_, others⟩
    rw [slots i]
    by_cases here : i = temp
    · subst here
      rw [if_neg (List.nodup_cons.mp nodup).1, if_pos List.mem_cons_self]
      exact Function.update_self ..
    · simp only [List.mem_cons, here, false_or, Function.update_of_ne here]

theorem ring_map (f : Record → Record) (records : List Record) :
    ring (records.map f) = (ring records).map (fun entry => (entry.1, f entry.2)) := by
  induction records with
  | nil => rfl
  | cons r records ih => simp [ring, ih, List.filter_map, Function.comp_def]

theorem slotsWhere_map (f : Record → Record) (entries : List (ℕ × Record)) (p : Record → Bool) :
    slotsWhere (entries.map fun entry => (entry.1, f entry.2)) p = slotsWhere entries (fun r => p (f r)) := by
  simp [slotsWhere, List.filter_map, Function.comp_def]

theorem Record.left_client (c : ClientId) (r : Record) : (r.left c).client = r.client := by
  unfold Record.left
  split <;> rfl

theorem Record.left_logoff (c : ClientId) (r : Record) : (r.left c).logoff = r.logoff := by
  unfold Record.left
  split <;> rfl

theorem Record.left_live (c : ClientId) (r : Record) : (r.left c).live = if r.live = some c then none else r.live := by
  by_cases isIts : r.client.id = c
  · simp only [Record.left, isIts, if_true, Record.live, Bool.and_false]
    split <;> simp_all
  · have other : r.live ≠ some c := by
      simp only [Record.live]
      split
      · simpa using isIts
      · simp
    rw [Record.left, if_neg isIts, if_neg other]

theorem ring_length (records : List Record) : (ring records).length ≤ nicknameHistoryLength := by
  rw [← List.length_map Prod.snd, (ring_slots records).1, List.length_take]
  exact Nat.min_le_left _ _

theorem slotsWhere_length (records : List Record) (p : Record → Bool) :
    (slotsWhere (ring records) p).length ≤ nicknameHistoryLength := by
  unfold slotsWhere
  rw [List.length_map]
  exact (List.length_filter_le _ _).trans (ring_length records)

theorem Represents.offHistory {s : State} {h : Past} (rep : Represents s h) (c : ClientId) :
    Represents (s.offHistory c) (h.step (.off c)) := by
  obtain ⟨clists, slots, hash, next, time⟩ := offFrom_spec rep.clists (slotsWhere_length h.records (inClist c))
  -- a slot is on the list of the client as long as its record is live
  have inList : ∀ {i r}, (i, r) ∈ ring h.records →
      (i ∈ slotsWhere (ring h.records) (inClist c) ↔ r.live = some c) := by
    intro i r member
    rw [mem_slotsWhere]
    constructor
    · rintro ⟨r', member', isLive⟩
      obtain rfl := unique_record (ring_nodup _) member member'
      simpa [inClist] using isLive
    · intro isLive
      exact ⟨r, member, by simpa [inClist] using isLive⟩
  constructor
  · exact time.trans rep.time
  · simpa [State.offHistory, Past.step] using next.trans rep.next
  · intro i r member
    simp only [Past.step, ring_map, List.mem_map, Prod.mk.injEq] at member
    obtain ⟨⟨_, r'⟩, member, rfl, rfl⟩ := member
    rw [State.offHistory, slots, rep.filled member, Record.left_client, Record.left_logoff, Record.left_live]
    simp only [inList member]
    split <;> rfl
  · intro i unused
    have old : (s.slots i).hashv = none := by
      apply rep.unused
      intro r member
      apply unused (r.left c)
      simp only [Past.step, ring_map, List.mem_map]
      exact ⟨(i, r), member, rfl⟩
    rw [State.offHistory, slots]
    split
    · exact old
    · exact old
  · rw [State.offHistory, hash]
    have same : ∀ k r, inChain k (Record.left c r) = inChain k r := fun k r => by
      simp only [inChain, Record.left_client]
    simpa only [Past.step, ring_map, slotsWhere_map, same] using rep.hash
  · rw [State.offHistory]
    suffices same : Function.update (fun c' => slotsWhere (ring h.records) (inClist c')) c [] =
        fun c' => slotsWhere (ring (h.step (.off c)).records) (inClist c') by
      rwa [same] at clists
    funext c'
    simp only [Past.step, ring_map, slotsWhere_map, inClist, Record.left_live]
    by_cases here : c' = c
    · subst here
      rw [Function.update_self, eq_comm, List.eq_nil_iff_forall_not_mem]
      intro i inside
      obtain ⟨r, _, isLive⟩ := mem_slotsWhere.mp inside
      simp only [decide_eq_true_eq] at isLive
      split at isLive
      · cases isLive
      · next other => exact other isLive
    · rw [Function.update_of_ne here]
      congr 1
      funext r
      by_cases isLive : r.live = some c
      · simp [inClist, isLive, Ne.symm here]
      · simp [inClist, isLive]

theorem Represents.step {s : State} {h : Past} (rep : Represents s h) (op : Op) :
    Represents (s.step op) (h.step op) := by
  cases op with
  | add c online => exact rep.addHistory c online
  | off c => exact rep.offHistory c
  | clock now => exact ⟨rfl, rep.next, rep.filled, rep.unused, rep.hash, rep.clists⟩

theorem run_represents (now : ℤ) (ops : List Op) : Represents (State.run now ops) (Past.run now ops) := by
  induction ops using List.reverseRecOn with
  | nil => exact represents_start now
  | append_singleton ops op ih =>
    simp only [State.run, Past.run, List.foldl_append, List.foldl_cons, List.foldl_nil] at ih ⊢
    exact ih.step op

/-! ### What is kept -/

/-- The client of the record held the nick within the limit. -/
def Record.Held (r : Record) (nick : List Char) (timelimit now : ℤ) : Prop :=
  IrcEq nick r.client.name ∧ now - timelimit ≤ r.logoff

/-- The history is linked as it should be, and `get_history` finds the right client. -/
structure Kept (s : State) (h : Past) : Prop where
  unused : ∀ i, (∀ r, (i, r) ∉ ring h.records) →
    (s.slots i).hashv = none ∧ (∀ k, i ∉ s.chain k) ∧ ∀ c, i ∉ s.clist c
  chain : ∀ i r, (i, r) ∈ ring h.records → (s.slots i).name = r.client.name ∧ (s.slots i).hashv.isSome ∧
    ∀ k, (s.chain k).count i = if k = hashWhowasName (s.slots i).name then 1 else 0
  clist : ∀ i r, (i, r) ∈ ring h.records → ∀ c, (s.clist c).count i = if r.live = some c then 1 else 0
  recent : ∀ nick timelimit c, s.getHistory nick timelimit = some c →
    ∃ newer r older, h.records = newer ++ r :: older ∧ r.live = some c ∧ r.Held nick timelimit h.currentTime ∧
      ∀ r' ∈ newer, ¬r'.Held nick timelimit h.currentTime

section

variable {s : State} {h : Past}

theorem Represents.chain_eq (rep : Represents s h) (k : ℕ) :
    s.chain k = slotsWhere (ring h.records) (inChain k) :=
  (rep.hash.linked k).follow_eq (slotsWhere_length _ _)

theorem Represents.clist_eq (rep : Represents s h) (c : ClientId) :
    s.clist c = slotsWhere (ring h.records) (inClist c) :=
  (rep.clists.linked c).follow_eq (slotsWhere_length _ _)

theorem count_slotsWhere {records : List Record} {i : ℕ} {r : Record} (member : (i, r) ∈ ring records)
    (p : Record → Bool) : (slotsWhere (ring records) p).count i = if p r then 1 else 0 := by
  rw [(slotsWhere_nodup (ring_nodup records) p).count]
  congr 1
  rw [mem_slotsWhere, eq_iff_iff]
  constructor
  · rintro ⟨r', member', holds⟩
    rwa [unique_record (ring_nodup _) member member']
  · exact fun holds => ⟨r, member, holds⟩

theorem hashWhowasName_congr {name other : List Char} (equal : IrcEq name other) :
    hashWhowasName name = hashWhowasName other := by
  have folded : ∀ text : List Char, hashWhowasName text = (text.map toLower).foldl
      (fun h c => (15 * h + (2 ^ 32 - c.toNat)) % 2 ^ 32) 0 % 65536 := by
    intro text
    rw [List.foldl_map]
    rfl
  rw [folded, folded, equal.map_toLower]

/-- The slot that `get_history` stops at has the newest record of the nick within the limit. -/
theorem Represents.recentSlot (rep : Represents s h)
    (short : ∀ r ∈ h.records, r.client.name.length ≤ nickLen) {nick : List Char} {timelimit : ℤ} {i : ℕ}
    (found : s.recentSlot nick timelimit = some i) :
    ∃ newer r older, h.records = newer ++ r :: older ∧ (i, r) ∈ ring h.records ∧
      r.Held nick timelimit h.currentTime ∧ ∀ r' ∈ newer, ¬r'.Held nick timelimit h.currentTime := by
  have slot : ∀ {i r}, (i, r) ∈ ring h.records → (s.slots i).name = r.client.name ∧ (s.slots i).logoff = r.logoff := by
    intro i r member
    have inRecords : r ∈ h.records := by
      have : r ∈ (ring h.records).map Prod.snd := List.mem_map_of_mem member
      rw [(ring_slots h.records).1] at this
      exact List.mem_of_mem_take this
    rw [rep.filled member]
    exact ⟨List.take_of_length_le (short r inRecords), rfl⟩
  have chain := (rep.hash.linked (hashWhowasName nick)).isChain
  rw [State.recentSlot, findFrom_eq _ chain (slotsWhere_length _ _)] at found
  simp only [Option.join_some, slotsWhere, List.find?_map, List.find?_filter, Option.map_eq_some_iff] at found
  obtain ⟨⟨i, r⟩, found, rfl⟩ := found
  obtain ⟨holds, newer, older, split, before⟩ := List.find?_eq_some_iff_append.mp found
  have member : (i, r) ∈ ring h.records := by simp [split]
  have records := (ring_slots h.records).1
  simp only [split, List.map_append, List.map_cons] at records
  refine ⟨newer.map Prod.snd, r, older.map Prod.snd ++ h.records.drop nicknameHistoryLength, ?_, member, ?_, ?_⟩
  · have whole := List.take_append_drop nicknameHistoryLength h.records
    rw [← records] at whole
    simpa using whole.symm
  · obtain ⟨_, equal, within⟩ : _ ∧ _ ∧ _ := by simpa using holds
    rw [(slot member).1] at equal
    rw [(slot member).2, rep.time] at within
    exact ⟨equal, by omega⟩
  · intro r' member' held
    obtain ⟨⟨j, r'⟩, ahead, rfl⟩ := List.mem_map.mp member'
    have inRing : (j, r') ∈ ring h.records := by
      rw [split]
      exact List.mem_append_left _ ahead
    have skipped := before (j, r') ahead
    have sameHash := (hashWhowasName_congr held.1).symm
    obtain ⟨equal, within⟩ := held
    have late : h.currentTime ≤ r'.logoff + timelimit := by
      dsimp only at within
      omega
    simp [inChain, sameHash, (slot inRing).1, (slot inRing).2, equal, rep.time, late] at skipped

theorem Represents.kept (rep : Represents s h) (short : ∀ r ∈ h.records, r.client.name.length ≤ nickLen) :
    Kept s h := by
  have absent : ∀ i, (∀ r, (i, r) ∉ ring h.records) → ∀ p, i ∉ slotsWhere (ring h.records) p := by
    intro i unused p inside
    obtain ⟨r, member, _⟩ := mem_slotsWhere.mp inside
    exact unused r member
  constructor
  · intro i unused
    refine ⟨rep.unused i unused, fun k => ?_, fun c => ?_⟩
    · rw [rep.chain_eq]
      exact absent i unused _
    · rw [rep.clist_eq]
      exact absent i unused _
  · intro i r member
    have inRecords : r ∈ h.records := by
      have : r ∈ (ring h.records).map Prod.snd := List.mem_map_of_mem member
      rw [(ring_slots h.records).1] at this
      exact List.mem_of_mem_take this
    have name : (s.slots i).name = r.client.name := by
      rw [rep.filled member]
      exact List.take_of_length_le (short r inRecords)
    have used : (s.slots i).hashv.isSome := by
      rw [rep.filled member]
      rfl
    refine ⟨name, used, fun k => ?_⟩
    rw [rep.chain_eq, count_slotsWhere member, name]
    simp [inChain, eq_comm]
  · intro i r member c
    rw [rep.clist_eq, count_slotsWhere member]
    simp [inClist]
  · intro nick timelimit c found
    obtain ⟨i, isRecent, online⟩ := Option.bind_eq_some_iff.mp found
    obtain ⟨newer, r, older, split, member, held, before⟩ := rep.recentSlot short isRecent
    refine ⟨newer, r, older, split, ?_, held, before⟩
    rw [rep.filled member] at online
    exact online

end

/-! ### Runs -/

/-- The name that is recorded fits into a slot. -/
def Op.Short : Op → Prop
  | .add c _ => c.name.length ≤ nickLen
  | _ => True

theorem records_short (now : ℤ) {ops : List Op} (short : ∀ op ∈ ops, op.Short) :
    ∀ r ∈ (Past.run now ops).records, r.client.name.length ≤ nickLen := by
  induction ops using List.reverseRecOn with
  | nil => simp [Past.run]
  | append_singleton ops op ih =>
    have before := ih (fun op member => short op (List.mem_append_left _ member))
    have last := short op (by simp)
    simp only [Past.run, List.foldl_append, List.foldl_cons, List.foldl_nil] at before ⊢
    cases op with
    | add c online =>
      intro r member
      rcases List.mem_cons.mp member with rfl | member
      · exact last
      · exact before r member
    | off c =>
      intro r member
      obtain ⟨r, old, rfl⟩ := List.mem_map.mp member
      rw [Record.left_client]
      exact before r old
    | clock now => exact before

/-- Every run that records only names that fit into a slot keeps the history. -/
theorem whowas_kept (now : ℤ) (ops : List Op) (short : ∀ op ∈ ops, op.Short) :
    Kept (State.run now ops) (Past.run now ops) :=
  (run_represents now ops).kept (records_short now short)

/-- A client changes its nick, and leaves. -/
theorem whowas_kept_exit :
    let ops : List Op := [.add ⟨7, "Diane".toList, [], [], [], []⟩ true, .clock 20,
      .add ⟨7, "Anna".toList, [], [], [], []⟩ false, .off 7]
    (∀ op ∈ ops, op.Short) ∧ Kept (State.run 10 ops) (Past.run 10 ops) := by
  have short : ∀ op ∈ ([.add ⟨7, "Diane".toList, [], [], [], []⟩ true, .clock 20,
      .add ⟨7, "Anna".toList, [], [], [], []⟩ false, .off 7] : List Op), op.Short := by
    simp only [List.forall_mem_cons, List.not_mem_nil, false_implies, implies_true, and_true, Op.Short]
    decide
  exact ⟨short, whowas_kept 10 _ short⟩

/-- A server introduces a client with a nick of one character more than fit into a slot. Its slot is not in the
chain of the name that the slot has, and `get_history` does not find the client by its nick. -/
theorem long_nick_lost :
    let s := State.run 10 [.add ⟨7, "abcdefghijk".toList, [], [], [], []⟩ true]
    (s.slots 0).name = "abcdefghij".toList ∧ (s.slots 0).hashv.isSome ∧
      (s.chain (hashWhowasName (s.slots 0).name)).count 0 = 0 ∧
      s.getHistory "abcdefghijk".toList 90 = none := by
  decide

end Ircd.Whowas
