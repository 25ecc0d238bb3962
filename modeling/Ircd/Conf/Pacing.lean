import Ircd.Conf.Connections

/-!
# Pacing

The table knows the last attempt from every address for as long as it matters. What a block
from the free list still holds is too old to count, and a time of zero, which stands for no
attempt, counts as an attempt in the first second of the clock.
-/
namespace Ircd.Conf

/-- Someone tried to connect from the address at this time, and no D-line had a say. -/
def Attempted (past : List (ℕ × Event)) (addr : UInt32) (time : ℕ) : Prop :=
  ∃ fd, (time, Event.connect fd addr none) ∈ past

/-- An attempt from the address is less than `throttleTime` seconds old. -/
def Recent (throttleTime : ℤ) (past : List (ℕ × Event)) (now : ℕ) (addr : UInt32) : Prop :=
  ∃ time, Attempted past addr time ∧ (now : ℤ) - time < throttleTime

/-- Too long ago to count, or the zero of a fresh entry. -/
def Stale (throttleTime : ℤ) (now lastAttempt : ℕ) : Prop :=
  lastAttempt = 0 ∨ throttleTime ≤ (now : ℤ) - lastAttempt

/-- What the table and the free list say about the attempts so far. -/
structure Remembers (throttleTime : ℤ) (past : List (ℕ × Event)) (now : ℕ) (t : IpTable) : Prop where
  sound : t.Sound
  recent : ∀ addr time, Attempted past addr time → (now : ℤ) - time < throttleTime →
    ∃ e, t.entryOf addr = some e ∧ time ≤ e.lastAttempt
  entry : ∀ addr e, t.entryOf addr = some e →
    Stale throttleTime now e.lastAttempt ∨ Attempted past addr e.lastAttempt
  free : ∀ e ∈ t.freeIpEntries, Stale throttleTime now e.lastAttempt

variable {throttleTime : ℤ} {past : List (ℕ × Event)} {now later : ℕ} {t t' : IpTable}
variable {addr : UInt32} {e : IpEntry}

theorem Stale.mono {last : ℕ} (stale : Stale throttleTime now last) (after : now ≤ later) :
    Stale throttleTime later last := by
  rcases stale with zero | old
  · exact Or.inl zero
  · right
    have : (now : ℤ) ≤ later := by exact_mod_cast after
    omega

theorem Remembers.mono (known : Remembers throttleTime past now t) (after : now ≤ later) :
    Remembers throttleTime past later t where
  sound := known.sound
  recent addr time attempted soon := by
    apply known.recent addr time attempted
    have : (now : ℤ) ≤ later := by exact_mod_cast after
    omega
  entry addr e found := (known.entry addr e found).imp (fun stale => stale.mono after) id
  free e member := (known.free e member).mono after

/-- An event that is no attempt. -/
theorem Remembers.idle (known : Remembers throttleTime past now t) (event : Event)
    (other : ∀ fd addr, event ≠ .connect fd addr none) :
    Remembers throttleTime (past ++ [(now, event)]) now t where
  sound := known.sound
  recent addr time attempted soon := by
    obtain ⟨fd, member⟩ := attempted
    simp only [List.mem_append, List.mem_singleton, Prod.mk.injEq] at member
    rcases member with old | ⟨-, new⟩
    · exact known.recent addr time ⟨fd, old⟩ soon
    · exact absurd new.symm (other fd addr)
  entry addr e found := by
    rcases known.entry addr e found with stale | ⟨fd, member⟩
    · exact Or.inl stale
    · exact Or.inr ⟨fd, List.mem_append_left _ member⟩
  free := known.free

/-- A fresh entry holds zero or what its block held. -/
theorem Remembers.findOrAddIp (known : Remembers throttleTime past now t)
    (added : findOrAddIp t addr = some t') : Remembers throttleTime past now t' := by
  have sound := known.sound.findOrAddIp added
  obtain ⟨rfl, -⟩ | ⟨absent, block, free, new, blocks, ofIp, -, time, rfl⟩ := findOrAddIp_cases added
  · exact known
  have staleBlock := known.free block (by simp [blocks])
  have staleNew : Stale throttleTime now new.lastAttempt := by
    rw [time]
    split
    · exact Or.inl rfl
    · exact staleBlock
  have others := findOrAddIp_entryOf added
  constructor
  case sound => exact sound
  case recent =>
    intro other time attempted soon
    obtain ⟨e, found, behind⟩ := known.recent other time attempted soon
    have apart : other ≠ addr := by
      rintro rfl
      simp [absent] at found
    exact ⟨e, (others other apart).trans found, behind⟩
  case entry =>
    intro other e found
    by_cases same : other = addr
    · subst same
      have here : e = new := by
        rw [IpTable.entryOf_update, if_pos rfl, List.find?_cons_of_pos (by simp [ofIp])] at found
        exact (Option.some.inj found).symm
      exact Or.inl (here ▸ staleNew)
    · exact known.entry other e ((others other same).symm.trans found)
  case free =>
    intro e member
    exact known.free e (by simp [blocks, member])

/-- Writing anything but the time of the last attempt. -/
theorem Remembers.write (known : Remembers throttleTime past now t) (f : IpEntry → IpEntry)
    (keeps : ∀ e, (f e).ip = e.ip) (time : ∀ e, (f e).lastAttempt = e.lastAttempt) (ip : UInt32) :
    Remembers throttleTime past now (t.write ip f) where
  sound := known.sound.write f keeps ip
  recent addr at' attempted soon := by
    obtain ⟨e, found, behind⟩ := known.recent addr at' attempted soon
    rw [IpTable.write_entryOf t f keeps]
    split
    · rename_i same
      subst same
      exact ⟨f e, by simp [found], by simpa [time] using behind⟩
    · exact ⟨e, found, behind⟩
  entry addr e found := by
    rw [IpTable.write_entryOf t f keeps] at found
    split at found
    · rename_i same
      subst same
      obtain ⟨old, before, rfl⟩ := Option.map_eq_some_iff.mp found
      rw [time]
      exact known.entry addr old before
    · exact known.entry addr e found
  free := known.free

/-- What `remove_one_ip` takes out is too old to count. -/
theorem Remembers.removeOneIp (known : Remembers throttleTime past now t) (ip : UInt32) :
    Remembers throttleTime past now (removeOneIp throttleTime t now ip) := by
  obtain ⟨sound, entries, free⟩ := removeOneIp_spec known.sound throttleTime now ip
  constructor
  case sound => exact sound
  case recent =>
    intro addr time attempted soon
    obtain ⟨e, found, behind⟩ := known.recent addr time attempted soon
    by_cases same : addr = ip
    · subst same
      have young : e.less.done throttleTime now = false := by
        apply decide_eq_false
        rintro ⟨-, old⟩
        rw [IpEntry.less_lastAttempt] at old
        have : (time : ℤ) ≤ e.lastAttempt := by exact_mod_cast behind
        omega
      exact ⟨e.less, by simp [entries, found, Option.filter, young], behind⟩
    · exact ⟨e, by simp [entries, same, found], behind⟩
  case entry =>
    intro addr e found
    by_cases same : addr = ip
    · subst same
      simp only [entries, if_true, Option.filter_eq_some_iff, Option.map_eq_some_iff] at found
      obtain ⟨⟨old, before, rfl⟩, -⟩ := found
      exact known.entry addr old before
    · exact known.entry addr e (by simpa [entries, same] using found)
  case free =>
    intro e member
    simp only [free, List.mem_append, Option.mem_toList, Option.filter_eq_some_iff,
      IpEntry.done, decide_eq_true_eq] at member
    rcases member with ⟨-, -, old⟩ | member
    · exact Or.inr old.le
    · exact known.free e member

/-- What `flush_expired_ips` takes out is too old to count. -/
theorem Remembers.flushExpiredIps (known : Remembers throttleTime past now t) :
    Remembers throttleTime past now (flushExpiredIps throttleTime t now) := by
  obtain ⟨sound, entries, free⟩ := flushExpiredIps_spec known.sound throttleTime now
  constructor
  case sound => exact sound
  case recent =>
    intro addr time attempted soon
    obtain ⟨e, found, behind⟩ := known.recent addr time attempted soon
    have young : e.expired throttleTime now = false := by
      simp only [IpEntry.expired, decide_eq_false_iff_not, not_and, not_le]
      intro _
      have : (time : ℤ) ≤ e.lastAttempt := by exact_mod_cast behind
      omega
    exact ⟨e, by simp [entries, found, Option.filter, young], behind⟩
  case entry =>
    intro addr e found
    simp only [entries, Option.filter_eq_some_iff] at found
    exact known.entry addr e found.1
  case free =>
    intro e member
    rcases free e member with old | gone
    · exact known.free e old
    · simp only [IpEntry.expired, decide_eq_true_eq] at gone
      right
      omega

/-- An attempt leaves its time behind. -/
theorem Remembers.connect (known : Remembers throttleTime past now t) (fd : ℕ)
    (before : ∀ addr time, Attempted past addr time → time ≤ now) (f : IpEntry → IpEntry)
    (keeps : ∀ e, (f e).ip = e.ip) (time : ∀ e, (f e).lastAttempt = now)
    (found : t.entryOf addr = some e) :
    Remembers throttleTime (past ++ [(now, .connect fd addr none)]) now (t.write addr f) where
  sound := known.sound.write f keeps addr
  recent other at' attempted soon := by
    rw [IpTable.write_entryOf t f keeps]
    obtain ⟨fd', member⟩ := attempted
    simp only [List.mem_append, List.mem_singleton, Prod.mk.injEq, Event.connect.injEq] at member
    split
    · refine ⟨f e, by simp [found], ?_⟩
      rw [time]
      rcases member with old | ⟨rfl, -⟩
      · exact before other at' ⟨fd', old⟩
      · exact le_rfl
    · rename_i apart
      rcases member with old | ⟨-, -, same, -⟩
      · exact known.recent other at' ⟨fd', old⟩ soon
      · exact absurd same apart
  entry other e' found' := by
    rw [IpTable.write_entryOf t f keeps] at found'
    split at found'
    · rename_i same
      obtain ⟨old, -, rfl⟩ := Option.map_eq_some_iff.mp found'
      rw [time]
      exact Or.inr ⟨fd, by simp [same]⟩
    · rcases known.entry other e' found' with stale | ⟨fd', member⟩
      · exact Or.inl stale
      · exact Or.inr ⟨fd', List.mem_append_left _ member⟩
  free := known.free

/-- One step keeps what the table knows. -/
theorem step_remembers {s s' : State} {event : Event}
    (known : Remembers throttleTime past now s.table)
    (before : ∀ addr time, Attempted past addr time → time ≤ now)
    (stepped : step throttleTime s now event = some s') :
    Remembers throttleTime (past ++ [(now, event)]) now s'.table := by
  cases event with
  | connect fd addr aconf =>
    simp only [step, Option.bind_eq_bind, Option.bind_eq_some_iff, Option.some.injEq,
      Prod.exists] at stepped
    obtain ⟨answer, table, asked, rfl⟩ := stepped
    cases aconf with
    | some line =>
      obtain ⟨rfl, -⟩ := confConnectAllowed_dline asked
      exact known.idle _ (by simp)
    | none =>
      obtain ⟨u, e, added, found, ⟨-, -, rfl⟩ | ⟨-, -, rfl⟩⟩ := confConnectAllowed_cases asked
      all_goals
        apply (known.findOrAddIp added).connect fd before _ _ _ found
        · intro e
          rfl
        · intro e
          rfl
  | register client aconf attachConf =>
    simp only [step, Option.bind_eq_bind, Option.ite_none_right_eq_some, Option.bind_eq_some_iff,
      Option.some.injEq, Prod.exists] at stepped
    obtain ⟨-, answer, table, attached, rfl⟩ := stepped
    obtain ⟨u, added, rfl, -⟩ := attachIline_cases attached
    apply Remembers.idle
    · apply (known.findOrAddIp added).write
      · intro e
        rfl
      · intro e
        rfl
    · simp
  | exit client =>
    simp only [step, Option.ite_none_right_eq_some, Option.some.injEq] at stepped
    obtain ⟨-, rfl⟩ := stepped
    apply Remembers.idle
    · dsimp only
      split
      · exact known.removeOneIp client.ip
      · exact known
    · simp
  | flush =>
    simp only [step, Option.some.injEq] at stepped
    subst stepped
    exact known.flushExpiredIps.idle .flush (by simp)

/-- At the start there is nothing to remember. -/
theorem start_remembers (throttleTime : ℤ) (now maxConnections : ℕ) :
    Remembers throttleTime [] now (start maxConnections).table where
  sound := clearIpHashTable_sound maxConnections
  recent addr time attempted := by
    obtain ⟨fd, member⟩ := attempted
    contradiction
  entry addr e found := by simp [start] at found
  free e member := by
    left
    rw [List.eq_of_mem_replicate member]

/-- Every table of a run whose clock does not go back. -/
theorem run_remembers {maxConnections : ℕ} {s : State}
    (ran : run throttleTime (start maxConnections) past = some s) :
    ∀ now, (past.map Prod.fst ++ [now]).Pairwise (· ≤ ·) →
      Remembers throttleTime past now s.table := by
  apply run_induction (fun past s => ∀ now, (past.map Prod.fst ++ [now]).Pairwise (· ≤ ·) →
    Remembers throttleTime past now s.table) _ _ past ran
  · intro now _
    exact start_remembers throttleTime now maxConnections
  · intro past t ⟨time, event⟩ t' holds _ stepped now chronological
    rw [List.pairwise_append, List.map_append] at chronological
    obtain ⟨upTo, -, behind⟩ := chronological
    have known := holds time (by simpa using upTo)
    have before : ∀ addr at', Attempted past addr at' → at' ≤ time := by
      rintro addr at' ⟨fd, member⟩
      rw [List.pairwise_append] at upTo
      exact upTo.2.2 at' (List.mem_map_of_mem member) time (by simp)
    have after : time ≤ now := behind time (by simp) now (by simp)
    exact (step_remembers known before stepped).mono after

/-- An attempt is too fast when another was made shortly before, or when the clock itself has not
run for long enough. -/
theorem Remembers.tooFast_iff {answer : Allowed} (known : Remembers throttleTime past now t)
    (asked : confConnectAllowed throttleTime t now addr none = some (answer, t')) :
    answer = .tooFast ↔ Recent throttleTime past now addr ∨ (now : ℤ) < throttleTime := by
  obtain ⟨u, e, added, found, outcome⟩ := confConnectAllowed_cases asked
  have after := known.findOrAddIp added
  have verdict : answer = .tooFast ↔ (now : ℤ) - e.lastAttempt < throttleTime := by
    rcases outcome with ⟨soon, rfl, -⟩ | ⟨late, rfl, -⟩
    · simp [soon]
    · simp [late]
  rw [verdict]
  constructor
  · intro soon
    rcases after.entry addr e found with (zero | old) | attempted
    · right
      simpa [zero] using soon
    · exact absurd soon (not_lt.mpr old)
    · exact Or.inl ⟨e.lastAttempt, attempted, soon⟩
  · rintro (⟨time, attempted, soon⟩ | young)
    · obtain ⟨e', found', behind⟩ := after.recent addr time attempted soon
      obtain rfl : e' = e := Option.some.inj (found'.symm.trans found)
      have : (time : ℤ) ≤ e'.lastAttempt := by exact_mod_cast behind
      omega
    · omega

/-- `conf_connect_allowed` paces the attempts from an address unless the clock shows less than
`throttleTime` seconds: no attempt is then taken for one at time zero. -/
theorem connect_paced_iff (throttleTime : ℤ) (maxConnections : ℕ) (past : List (ℕ × Event))
    (s : State) (now : ℕ) (addr : UInt32) (answer : Allowed) (table : IpTable)
    (chronological : (past.map Prod.fst ++ [now]).Pairwise (· ≤ ·))
    (ran : run throttleTime (start maxConnections) past = some s)
    (asked : confConnectAllowed throttleTime s.table now addr none = some (answer, table)) :
    (answer = .tooFast ↔ Recent throttleTime past now addr) ↔
      throttleTime ≤ now ∨ Recent throttleTime past now addr := by
  rw [(run_remembers ran now chronological).tooFast_iff asked, ← not_lt]
  tauto

/-- Two attempts from one address, four seconds apart, with ten seconds between attempts. -/
theorem connect_paced_iff_secondAttempt :
    ∃ s answer table, run 10 (start 2) [(1000, .connect 7 0x7f000001 none)] = some s ∧
      confConnectAllowed 10 s.table 1004 0x7f000001 none = some (answer, table) ∧
      ((answer = .tooFast ↔ Recent 10 [(1000, .connect 7 0x7f000001 none)] 1004 0x7f000001) ↔
        (10 : ℤ) ≤ (1004 : ℕ) ∨ Recent 10 [(1000, .connect 7 0x7f000001 none)] 1004 0x7f000001) := by
  refine ⟨_, _, _, rfl, rfl, ?_⟩
  exact connect_paced_iff 10 2 [(1000, .connect 7 0x7f000001 none)] _ 1004 0x7f000001 _ _ (by decide)
    rfl rfl

/-- The first attempt of all, three seconds after the clock's zero. -/
theorem first_attempt_tooFast :
    ∃ answer table, confConnectAllowed 10 (start 1).table 3 0x7f000001 none = some (answer, table) ∧
      ¬(answer = .tooFast ↔ Recent 10 [] 3 0x7f000001) := by
  refine ⟨_, _, rfl, ?_⟩
  simp [Recent, Attempted]

end Ircd.Conf
