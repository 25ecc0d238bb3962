import Ircd.Conf.Connections

/-!
# The number of clients on an address

The count of an entry goes up when a client registers and down when it exits, but also when an attempt is refused
because it comes too soon after another, although nothing was counted for it.
-/
namespace Ircd.Conf

/-- The count for an address, zero when it has no entry. -/
def IpTable.count (t : IpTable) (ip : UInt32) : ℤ := ((t.entryOf ip).map (·.count)).getD 0

/-- The live clients on an address that have `FLAGS_IPHASH` set. -/
def State.number (s : State) (ip : UInt32) : ℕ :=
  s.clients.countP fun client => client.ip = ip ∧ client.ipHash = true

/-- The counts are what they should be. -/
def State.Counted (s : State) : Prop := ∀ ip, s.table.count ip = s.number ip

/-- Whoever registers now is refused exactly when this makes too many. -/
def State.RefusesRightly (s : State) : Prop :=
  ∀ client ∈ s.clients, client.ipHash = false → ∀ aconf attachConf answer table,
    attachIline s.table client.ip aconf attachConf = some (answer, table) →
      (answer = .tooMany ↔ aconf.full (s.number client.ip + 1))

/-- The time that the entry for an address holds, or the block that would become its entry. -/
def IpTable.lastAttempt? (t : IpTable) (addr : UInt32) : Option ℕ :=
  match t.entryOf addr with
  | some e => some e.lastAttempt
  | none => t.freeIpEntries.head?.map fun block =>
      if t.ipHashTable (hashIp addr) ≠ [] then 0 else block.lastAttempt

/-- The event is an attempt from an address that is not on a D-line, and the time held for this
address is less than `throttleTime` seconds ago. -/
def State.TooSoon (throttleTime : ℤ) (s : State) (now : ℕ) (event : Event) : Prop :=
  ∃ fd addr last, event = .connect fd addr none ∧ s.table.lastAttempt? addr = some last ∧
    (now : ℤ) - last < throttleTime

variable {throttleTime : ℤ} {s s' : State} {now : ℕ} {t t' : IpTable} {ip other : UInt32}
variable {e : IpEntry} {event : Event}

theorem IpTable.count_of_entryOf (found : t.entryOf ip = some e) : t.count ip = e.count := by
  simp [IpTable.count, found]

/-- `find_or_add_ip` counts nobody. -/
theorem findOrAddIp_count (added : findOrAddIp t ip = some t') (other : UInt32) :
    t'.count other = t.count other := by
  by_cases same : other = ip
  · subst same
    obtain ⟨rfl, -⟩ | ⟨absent, block, free, new, -, ofIp, zero, -, rfl⟩ := findOrAddIp_cases added
    · rfl
    · simp [IpTable.count, absent, IpTable.entryOf_update, ofIp, zero]
  · simp [IpTable.count, findOrAddIp_entryOf added other same]

/-- The entry `find_or_add_ip` gives. -/
theorem findOrAddIp_lastAttempt (added : findOrAddIp t ip = some t') (found : t'.entryOf ip = some e) :
    t.lastAttempt? ip = some e.lastAttempt := by
  obtain ⟨rfl, -⟩ | ⟨absent, block, free, new, blocks, ofIp, -, time, rfl⟩ := findOrAddIp_cases added
  · simp [IpTable.lastAttempt?, found]
  · rw [IpTable.entryOf_update, if_pos rfl, List.find?_cons_of_pos (by simp [ofIp])] at found
    obtain rfl := Option.some.inj found
    simp [IpTable.lastAttempt?, absent, blocks, time]

theorem write_count (found : t.entryOf ip = some e) (f : IpEntry → IpEntry)
    (keeps : ∀ e, (f e).ip = e.ip) (other : UInt32) :
    (t.write ip f).count other = if other = ip then (f e).count else t.count other := by
  unfold IpTable.count
  rw [IpTable.write_entryOf t f keeps]
  split <;> simp [found]

/-- Entries that count nobody make no difference. -/
theorem count_filter (gone : IpEntry → Bool) (empty : ∀ e, gone e → e.count = 0) (found : Option IpEntry) :
    ((found.filter (fun e => !gone e)).map (·.count)).getD 0 = (found.map (·.count)).getD 0 := by
  cases found with
  | none => rfl
  | some e =>
    by_cases goes : gone e
    · simp [Option.filter, goes, empty e goes]
    · simp [Option.filter, goes]

/-- `remove_one_ip` counts one down, and a count of zero needs no entry. -/
theorem removeOneIp_count (sound : t.Sound) (ip other : UInt32) :
    (removeOneIp throttleTime t now ip).count other =
      if other = ip ∧ t.count ip ≠ 0 then t.count ip - 1 else t.count other := by
  obtain ⟨-, entries, -⟩ := removeOneIp_spec sound throttleTime now ip
  have empty : ∀ e : IpEntry, e.done throttleTime now → e.count = 0 := by
    intro e goes
    simp only [IpEntry.done, decide_eq_true_eq] at goes
    exact goes.1
  unfold IpTable.count
  rw [entries]
  by_cases same : other = ip
  · subst same
    rw [if_pos rfl, count_filter _ empty]
    cases t.entryOf other with
    | none => simp
    | some e => simp [IpEntry.less]
  · simp [same]

theorem flushExpiredIps_count (sound : t.Sound) (ip : UInt32) :
    (flushExpiredIps throttleTime t now).count ip = t.count ip := by
  obtain ⟨-, entries, -⟩ := flushExpiredIps_spec sound throttleTime now
  unfold IpTable.count
  rw [entries, count_filter]
  intro e gone
  simp only [IpEntry.expired, decide_eq_true_eq] at gone
  exact gone.1

/-- Registering counts one up, and the answer goes by the new count. -/
theorem attachIline_count {aconf : IlineConf} {attachConf : Attached} {answer : Iline}
    (attached : attachIline t ip aconf attachConf = some (answer, t')) :
    (∀ other, t'.count other = if other = ip then t.count ip + 1 else t.count other) ∧
    (answer = .tooMany ↔ aconf.full (t.count ip + 1)) := by
  obtain ⟨u, added, rfl, e, found, rfl⟩ := attachIline_cases attached
  have keeps : ∀ e : IpEntry, ({ e with count := e.count + 1 } : IpEntry).ip = e.ip := by
    intro e
    rfl
  rw [IpTable.write_entryOf _ _ keeps, if_pos rfl] at found
  obtain ⟨old, before, rfl⟩ := Option.map_eq_some_iff.mp found
  have same := findOrAddIp_count added
  have counted : old.count = t.count ip := by
    rw [← same ip, IpTable.count_of_entryOf before]
  constructor
  · intro other
    rw [write_count before _ keeps]
    split <;> simp [counted, same]
  · by_cases tooMany : aconf.full (t.count ip + 1) = true
    · simp [counted, tooMany]
    · simp [counted, tooMany]

/-- A client at the head of the list, among those on an address. -/
theorem State.number_cons (table : IpTable) (client : LocalClient) (clients : List LocalClient)
    (ip : UInt32) :
    State.number ⟨table, client :: clients⟩ ip =
      State.number ⟨table, clients⟩ ip + if client.ip = ip ∧ client.ipHash = true then 1 else 0 := by
  simp [State.number, List.countP_cons]

/-- Taking a client off the list. -/
theorem State.number_erase (s : State) (table : IpTable) (client : LocalClient)
    (member : client ∈ s.clients) (ip : UInt32) :
    s.number ip = State.number ⟨table, s.clients.erase client⟩ ip +
      if client.ip = ip ∧ client.ipHash = true then 1 else 0 := by
  rw [← State.number_cons]
  exact (List.perm_cons_erase member).countP_eq _

/-- An attempt that is not refused as too fast counts nobody, and one that is counts one down. -/
theorem confConnectAllowed_count {addr : UInt32} {answer : Allowed}
    (asked : confConnectAllowed throttleTime t now addr none = some (answer, t')) :
    ∃ last, t.lastAttempt? addr = some last ∧
      ((now : ℤ) - last < throttleTime → t'.count addr = t.count addr - 1 ∧ answer = .tooFast) ∧
      (throttleTime ≤ (now : ℤ) - last → ∀ other, t'.count other = t.count other) := by
  obtain ⟨u, e, added, found, outcome⟩ := confConnectAllowed_cases asked
  have same := findOrAddIp_count added
  refine ⟨e.lastAttempt, findOrAddIp_lastAttempt added found, ?_, ?_⟩
  · intro soon
    rcases outcome with ⟨-, answered, rfl⟩ | ⟨late, -, -⟩
    · refine ⟨?_, answered⟩
      rw [write_count found, if_pos rfl, ← same addr, IpTable.count_of_entryOf found]
      intro e
      rfl
    · exact absurd soon (not_lt.mpr late)
  · intro late other
    rcases outcome with ⟨soon, -, -⟩ | ⟨-, -, rfl⟩
    · exact absurd soon (not_lt.mpr late)
    · rw [write_count found, ← same other]
      · split
        · rename_i equal
          rw [equal, IpTable.count_of_entryOf found]
        · rfl
      · intro e
        rfl

/-- A step keeps the counts right unless it is an attempt that comes too soon. -/
theorem step_counted (sound : s.table.Sound) (counted : s.Counted) (event : Event)
    (paced : ¬s.TooSoon throttleTime now event)
    (stepped : step throttleTime s now event = some s') : s'.Counted := by
  intro ip
  cases event with
  | connect fd addr aconf =>
    simp only [step, Option.bind_eq_bind, Option.bind_eq_some_iff, Option.some.injEq,
      Prod.exists] at stepped
    obtain ⟨answer, table, asked, rfl⟩ := stepped
    have same : State.number ⟨table, if answer = .allowed then ⟨fd, addr, false⟩ :: s.clients
        else s.clients⟩ ip = s.number ip := by
      split
      · simp [State.number]
      · rfl
    rw [same, ← counted ip]
    cases aconf with
    | some line => rw [(confConnectAllowed_dline asked).1]
    | none =>
      obtain ⟨last, held, -, late⟩ := confConnectAllowed_count asked
      apply late
      by_contra soon
      exact paced ⟨fd, addr, last, rfl, held, not_le.mp soon⟩
  | register client aconf attachConf =>
    simp only [step, Option.bind_eq_bind, Option.ite_none_right_eq_some, Option.bind_eq_some_iff,
      Option.some.injEq, Prod.exists] at stepped
    obtain ⟨⟨member, fresh⟩, answer, table, attached, rfl⟩ := stepped
    have before : s.number ip = State.number ⟨table, s.clients.erase client⟩ ip := by
      simpa [fresh] using s.number_erase table client member ip
    rw [State.number_cons, (attachIline_count attached).1 ip, counted client.ip, counted ip]
    by_cases same : ip = client.ip
    · subst same
      simp [before]
    · simp [before, same, Ne.symm same]
  | exit client =>
    simp only [step, Option.ite_none_right_eq_some, Option.some.injEq] at stepped
    obtain ⟨member, rfl⟩ := stepped
    cases hashed : client.ipHash with
    | false =>
      have before : s.number ip = State.number ⟨s.table, s.clients.erase client⟩ ip := by
        simpa [hashed] using s.number_erase s.table client member ip
      simp only [Bool.false_eq_true, if_false]
      rw [counted ip, before]
    | true =>
      have before := s.number_erase (removeOneIp throttleTime s.table now client.ip) client member
      simp only [if_true]
      rw [removeOneIp_count sound, counted client.ip, counted ip, before client.ip, before ip]
      by_cases same : ip = client.ip
      · subst same
        simp only [hashed, and_self, if_true]
        have more : ((State.number ⟨removeOneIp throttleTime s.table now client.ip,
          s.clients.erase client⟩ client.ip + 1 : ℕ) : ℤ) ≠ 0 := by omega
        rw [if_pos ⟨trivial, more⟩]
        omega
      · simp [same, Ne.symm same]
  | flush =>
    simp only [step, Option.some.injEq] at stepped
    subst stepped
    exact (flushExpiredIps_count sound ip).trans (counted ip)

/-- An entry is there, or a block to make it of. -/
theorem findOrAddIp_of_lastAttempt? {last : ℕ} (held : t.lastAttempt? ip = some last) :
    ∃ u e, findOrAddIp t ip = some u ∧ u.entryOf ip = some e := by
  cases found : t.entryOf ip with
  | some e => exact ⟨t, e, by simp [findOrAddIp, found], found⟩
  | none =>
    cases blocks : t.freeIpEntries with
    | nil => simp [IpTable.lastAttempt?, found, blocks] at held
    | cons block free =>
      have added : (findOrAddIp t ip).isSome := by
        simp [findOrAddIp, found, blocks]
      obtain ⟨u, added⟩ := Option.isSome_iff_exists.mp added
      obtain ⟨-, e, present⟩ | ⟨-, block', free', new, -, ofIp, -, -, rfl⟩ := findOrAddIp_cases added
      · simp [found] at present
      · refine ⟨_, new, added, ?_⟩
        rw [IpTable.entryOf_update, if_pos rfl, List.find?_cons_of_pos (by simp [ofIp])]

/-- An attempt that comes too soon makes a right count wrong. -/
theorem State.TooSoon.miscounts (soon : s.TooSoon throttleTime now event) (counted : s.Counted) :
    ∃ s', step throttleTime s now event = some s' ∧ ¬s'.Counted := by
  obtain ⟨fd, addr, last, rfl, held, recent⟩ := soon
  have answered : ∃ answer table,
      confConnectAllowed throttleTime s.table now addr none = some (answer, table) := by
    obtain ⟨u, e, added, found⟩ := findOrAddIp_of_lastAttempt? held
    simp only [confConnectAllowed, added, found, Option.bind_eq_bind, Option.bind_some]
    split <;> exact ⟨_, _, rfl⟩
  obtain ⟨answer, table, asked⟩ := answered
  obtain ⟨last', held', down, -⟩ := confConnectAllowed_count asked
  obtain rfl : last' = last := Option.some.inj (held'.symm.trans held)
  obtain ⟨count, rfl⟩ := down recent
  refine ⟨⟨table, s.clients⟩, by simp [step, asked], ?_⟩
  intro still
  have wrong := still addr
  have right := counted addr
  simp only [count, State.number] at wrong right
  omega

/-- Registering with right counts. -/
theorem State.Counted.refusesRightly (counted : s.Counted) : s.RefusesRightly := by
  intro client _ _ aconf attachConf answer table attached
  rw [(attachIline_count attached).2, counted client.ip]

/-- The counts are right all through a run, and every refusal too, exactly when no attempt comes
too soon. -/
theorem counted_iff (throttleTime : ℤ) (maxConnections : ℕ) (events : List (ℕ × Event)) :
    (∀ past s, past <+: events → run throttleTime (start maxConnections) past = some s →
      s.Counted ∧ s.RefusesRightly) ↔
    ∀ past event s, past ++ [event] <+: events →
      run throttleTime (start maxConnections) past = some s →
      ¬s.TooSoon throttleTime event.1 event.2 := by
  constructor
  · intro right past event s within ran soon
    have before := right past s ((List.prefix_append past [event]).trans within) ran
    obtain ⟨s', stepped, wrong⟩ := soon.miscounts before.1
    apply wrong
    refine (right (past ++ [event]) s' within ?_).1
    rw [run_concat, ran]
    exact stepped
  · intro paced past s within ran
    have counted : past <+: events → s.Counted := by
      apply run_induction (fun past s => past <+: events → s.Counted) _ _ past ran
      · intro _ ip
        rfl
      · intro past t event t' holds before stepped within
        have sound := run_sound (clearIpHashTable_sound maxConnections) past before
        have upTo := holds ((List.prefix_append past [event]).trans within)
        exact step_counted sound upTo event.2 (paced past event t within before) stepped
    exact ⟨counted within, (counted within).refusesRightly⟩

/-- One client registers, the next attempt from its address comes at once, and so a second client
gets past a limit of one. -/
theorem refused_attempt_uncounts :
    ∃ s answer table, run 10 (start 2) [(1000, .connect 7 0x7f000001 none),
        (1001, .register ⟨7, 0x7f000001, false⟩ ⟨some 1, false⟩ .attached),
        (1002, .connect 8 0x7f000001 none), (1020, .connect 9 0x7f000001 none)] = some s ∧
      s.number 0x7f000001 = 1 ∧ ¬s.Counted ∧ ⟨9, 0x7f000001, false⟩ ∈ s.clients ∧
      attachIline s.table 0x7f000001 ⟨some 1, false⟩ .attached = some (answer, table) ∧
      ¬(answer = .tooMany ↔ IlineConf.full ⟨some 1, false⟩ (s.number 0x7f000001 + 1)) := by
  refine ⟨_, _, _, rfl, by decide, ?_, by decide, rfl, by decide⟩
  intro counted
  exact absurd (counted 0x7f000001) (by decide)

end Ircd.Conf
