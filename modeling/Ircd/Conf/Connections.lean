import Ircd.Conf.IpTable
import Mathlib.Data.List.Induction

/-!
# Local connections

What happens to a local connection between `accept` and `exit_client`, as far as the IP table
is concerned. A step has the time at which it is taken; it fails when the server runs out of blocks.
-/
namespace Ircd.Conf

/-- A live local client. -/
structure LocalClient where
  fd : ℕ
  ip : UInt32
  -- `FLAGS_IPHASH`
  ipHash : Bool
deriving DecidableEq

structure State where
  table : IpTable
  clients : List LocalClient

inductive Event where
  /-- `accept_connection`, with what `find_dline` finds for the address. -/
  | connect (fd : ℕ) (addr : UInt32) (aconf : Option Dline)
  /-- `attach_iline` on a client that registers. -/
  | register (client : LocalClient) (aconf : IlineConf) (attachConf : Attached)
  /-- `exit_client`. -/
  | exit (client : LocalClient)
  /-- `flush_expired_ips`. -/
  | flush
deriving DecidableEq

/-- The state at the start. -/
def start (maxConnections : ℕ) : State := ⟨clearIpHashTable maxConnections, []⟩

/-- One event at a time `now`. -/
def step (throttleTime : ℤ) (s : State) (now : ℕ) : Event → Option State
  | .connect fd addr aconf => do
    let (answer, table) ← confConnectAllowed throttleTime s.table now addr aconf
    -- a connection that is not allowed is closed, and never becomes a client
    some ⟨table, if answer = .allowed then ⟨fd, addr, false⟩ :: s.clients else s.clients⟩
  | .register client aconf attachConf =>
    if client ∈ s.clients ∧ client.ipHash = false then do
      let (_, table) ← attachIline s.table client.ip aconf attachConf
      some ⟨table, { client with ipHash := true } :: s.clients.erase client⟩
    else none
  | .exit client =>
    if client ∈ s.clients then
      some ⟨if client.ipHash then removeOneIp throttleTime s.table now client.ip else s.table,
        s.clients.erase client⟩
    else none
  | .flush => some { s with table := flushExpiredIps throttleTime s.table now }

/-- A run, each event with its time. -/
def run (throttleTime : ℤ) (s : State) (events : List (ℕ × Event)) : Option State :=
  events.foldlM (fun s event => step throttleTime s event.1 event.2) s

variable {throttleTime : ℤ} {s s' : State} {now : ℕ}

theorem run_concat (events : List (ℕ × Event)) (event : ℕ × Event) :
    run throttleTime s (events ++ [event]) =
      (run throttleTime s events).bind fun s => step throttleTime s event.1 event.2 := by
  simp [run]

/-- Whatever holds at the start and is kept by every step of a run holds at its end; the steps
may use what came before them. -/
theorem run_induction (holds : List (ℕ × Event) → State → Prop) (first : holds [] s)
    (next : ∀ past t event t', holds past t → run throttleTime s past = some t →
      step throttleTime t event.1 event.2 = some t' → holds (past ++ [event]) t')
    (events : List (ℕ × Event)) (ran : run throttleTime s events = some s') : holds events s' := by
  induction events using List.reverseRecOn generalizing s' with
  | nil =>
    cases ran
    exact first
  | append_singleton past event ih =>
    rw [run_concat] at ran
    obtain ⟨t, before, stepped⟩ := Option.bind_eq_some_iff.mp ran
    exact next past t event s' (ih before) before stepped

/-- What `attach_iline` does to the table. -/
theorem attachIline_cases {t t' : IpTable} {ip : UInt32} {aconf : IlineConf} {attachConf : Attached}
    {answer : Iline} (attached : attachIline t ip aconf attachConf = some (answer, t')) :
    ∃ u, findOrAddIp t ip = some u ∧ t' = u.write ip (fun e => { e with count := e.count + 1 }) ∧
      ∃ e, t'.entryOf ip = some e ∧
        answer = if aconf.full e.count then .tooMany else .attachConf attachConf := by
  simp only [attachIline, Option.bind_eq_bind, Option.bind_eq_some_iff, Option.some.injEq,
    Prod.mk.injEq] at attached
  obtain ⟨u, added, e, found, said, rfl⟩ := attached
  exact ⟨u, added, rfl, e, found, said.symm⟩

/-- What `conf_connect_allowed` does to the table for an address without a D-line. -/
theorem confConnectAllowed_cases {t t' : IpTable} {addr : UInt32} {answer : Allowed}
    (asked : confConnectAllowed throttleTime t now addr none = some (answer, t')) :
    ∃ u e, findOrAddIp t addr = some u ∧ u.entryOf addr = some e ∧
      (((now : ℤ) - e.lastAttempt < throttleTime ∧ answer = .tooFast ∧
          t' = u.write addr fun e => { e with lastAttempt := now, count := e.count - 1 }) ∨
        (throttleTime ≤ (now : ℤ) - e.lastAttempt ∧ answer = .allowed ∧
          t' = u.write addr fun e => { e with lastAttempt := now })) := by
  simp only [confConnectAllowed, Option.bind_eq_bind, Option.bind_eq_some_iff] at asked
  obtain ⟨u, added, e, found, asked⟩ := asked
  refine ⟨u, e, added, found, ?_⟩
  split at asked
  case isTrue soon =>
    cases asked
    exact Or.inl ⟨soon, rfl, rfl⟩
  case isFalse late =>
    cases asked
    exact Or.inr ⟨not_lt.mp late, rfl, rfl⟩

theorem confConnectAllowed_dline {t t' : IpTable} {addr : UInt32} {answer : Allowed} {dline : Dline}
    (asked : confConnectAllowed throttleTime t now addr (some dline) = some (answer, t')) :
    t' = t ∧ answer ≠ .tooFast := by
  cases dline <;> cases asked <;> exact ⟨rfl, by decide⟩

/-- Every table of a run is sound. -/
theorem step_sound (sound : s.table.Sound) (event : Event)
    (stepped : step throttleTime s now event = some s') : s'.table.Sound := by
  cases event with
  | connect fd addr aconf =>
    simp only [step, Option.bind_eq_bind, Option.bind_eq_some_iff, Option.some.injEq,
      Prod.exists] at stepped
    obtain ⟨answer, table, asked, rfl⟩ := stepped
    cases aconf with
    | some dline => exact (confConnectAllowed_dline asked).1 ▸ sound
    | none =>
      obtain ⟨u, e, added, -, ⟨-, -, rfl⟩ | ⟨-, -, rfl⟩⟩ := confConnectAllowed_cases asked
      all_goals
        apply IpTable.Sound.write (sound.findOrAddIp added)
        intro e
        rfl
  | register client aconf attachConf =>
    simp only [step, Option.bind_eq_bind, Option.ite_none_right_eq_some, Option.bind_eq_some_iff,
      Option.some.injEq, Prod.exists] at stepped
    obtain ⟨-, answer, table, attached, rfl⟩ := stepped
    obtain ⟨u, added, rfl, -⟩ := attachIline_cases attached
    apply IpTable.Sound.write (sound.findOrAddIp added)
    intro e
    rfl
  | exit client =>
    simp only [step, Option.ite_none_right_eq_some, Option.some.injEq] at stepped
    obtain ⟨-, rfl⟩ := stepped
    dsimp only
    split
    · exact (removeOneIp_spec sound throttleTime now client.ip).1
    · exact sound
  | flush =>
    simp only [step, Option.some.injEq] at stepped
    subst stepped
    exact (flushExpiredIps_spec sound throttleTime now).1

theorem run_sound (sound : s.table.Sound) (events : List (ℕ × Event))
    (ran : run throttleTime s events = some s') : s'.table.Sound := by
  apply run_induction (fun _ t => t.table.Sound) sound _ events ran
  intro past t event t' holds _ stepped
  exact step_sound holds event.2 stepped

end Ircd.Conf
