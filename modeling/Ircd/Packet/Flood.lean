import Ircd.Packet.Stranded

/-!
# The flood limit

`flood_recalc` keeps `allow_read` within its bounds, but `parse_client_queued` never looks at it: `checkflood`
is 0 in the branch for clients. The limit holds as long as the input of a client does not exceed it.
-/
namespace Ircd.Packet

open Linebuf

/-! ### Between two runs of the timer -/

/-- A client, and how many of its lines had been dispatched when `flood_recalc` ran last. -/
structure Watched where
  client : Client
  mark : ℕ

def Watched.step (react : ℕ → Effect) (conf : FloodConf) (w : Watched) (event : Event) : Watched :=
  ⟨w.client.step react conf event,
    match event with
    | .recalc => w.client.dispatched.length
    | _ => w.mark⟩

def Watched.run (react : ℕ → Effect) (conf : FloodConf) (events : List Event) : Watched :=
  events.foldl (Watched.step react conf) ⟨Client.start, 0⟩

/-- The lines dispatched since `flood_recalc` ran last are at most `allow_read + 1`, which is within its
bounds. -/
structure Watched.Limited (w : Watched) : Prop where
  lines : ((w.client.dispatched.length - w.mark : ℕ) : ℤ) ≤ w.client.allowRead + 1
  floor : 0 ≤ w.client.allowRead
  ceiling : w.client.allowRead ≤ max maxFloodPerSec maxFloodPerSecI

/-- How many lines the loop finds before it stops. -/
def readyLines : List BufLine → ℕ
  | [] => 0
  | line :: lines => if line.terminated = false ∨ handed line = [] then 0 else readyLines lines + 1

/-- The client when `parse_client_queued` is called. -/
def Client.atCall (s : Client) : Event → Client
  | .read data past => s.receive data past
  | .recalc => s.recalc
  | .exit => s

/-- The lines that are there when `parse_client_queued` is called, with those dispatched since `flood_recalc`
ran last, are at most `allow_read + 1`. -/
def Modest (s : Client) (event : Event) : Prop :=
  s.dead = false →
    (s.atCall event).sentParsed + readyLines (s.offered event) ≤ (s.atCall event).allowRead + 1

/-! ### One call -/

/-- What dispatching lines does to the counters of a client. -/
structure Counted (most : ℕ) (s s' : Client) : Prop where
  server : s'.server = false
  oper : s'.oper = false
  lines : s'.sentParsed - s.sentParsed = s'.dispatched.length - s.dispatched.length
  most : s'.sentParsed ≤ s.sentParsed + most
  more : s.dispatched.length ≤ s'.dispatched.length
  allowed : s'.allowRead = s.allowRead ∨ s'.allowRead = maxFloodPerSecI

section

variable {react : ℕ → Effect}

theorem dopacket_counted (quiet : ∀ n, (react n).server = false ∧ (react n).oper = false) {s : Client}
    (server : s.server = false) (oper : s.oper = false) (line : List UInt8) :
    let s' := s.dopacket react line
    s'.server = false ∧ s'.oper = false ∧ s'.sentParsed = s.sentParsed ∧
      s'.dispatched = s.dispatched ++ [line] ∧ (s'.allowRead = s.allowRead ∨ s'.allowRead = maxFloodPerSecI) := by
  obtain ⟨noServer, noOper⟩ := quiet s.dispatched.length
  have allowed : (if (react s.dispatched.length).grace then maxFloodPerSecI else s.allowRead) = s.allowRead ∨
      (if (react s.dispatched.length).grace then maxFloodPerSecI else s.allowRead) = maxFloodPerSecI := by
    split
    · exact Or.inr rfl
    · exact Or.inl rfl
  simp only [Client.dopacket, server, oper, noServer, noOper, Bool.or_self]
  split <;> exact ⟨rfl, rfl, rfl, rfl, allowed⟩

theorem clientLoop_counted (quiet : ∀ n, (react n).server = false ∧ (react n).oper = false) (rounds : ℕ)
    {s : Client} (server : s.server = false) (oper : s.oper = false) :
    Counted (readyLines s.recvq.list) s (clientLoop react false rounds s) := by
  have still : ∀ most, Counted most s s := fun most =>
    ⟨server, oper, by omega, by omega, Nat.le_refl _, Or.inl rfl⟩
  induction rounds generalizing s with
  | zero => exact still _
  | succ rounds ih =>
    by_cases dead : s.dead = true
    · rw [clientLoop_dead dead]
      exact still _
    have checked : ¬(false = true ∧ s.sentParsed > s.allowRead) := fun both => Bool.false_ne_true both.1
    simp only [clientLoop, if_neg dead, if_neg checked]
    obtain ⟨none, -, -⟩ | ⟨line, rest, bufhead, shape, ended, get, list⟩ := linebufGet_complete s.recvq
    · rw [none]
      exact still _
    · rw [get]
      dsimp only
      split
      · exact ⟨server, oper, by simp, by dsimp only; omega, Nat.le_refl _, Or.inl rfl⟩
      · rename_i some
        have some' : handed line ≠ [] := fun none => some (List.length_eq_zero_iff.mpr none)
        have ready : readyLines s.recvq.list = readyLines rest + 1 := by
          simp [shape, readyLines, ended, some']
        obtain ⟨server', oper', sent, dispatched, allowed⟩ :=
          dopacket_counted quiet (s := { s with recvq := bufhead }) server oper (handed line)
        have recvq := dopacket_recvq react { s with recvq := bufhead } (handed line)
        generalize Client.dopacket react { s with recvq := bufhead } (handed line) = s' at *
        have fewer : readyLines s'.recvq.list ≤ readyLines rest := by
          obtain ⟨same, -⟩ | ⟨flushed, -⟩ := recvq
          · rw [same, list]
          · simp [flushed, linebufNewbuf, readyLines]
        have after := ih (s := { s' with sentParsed := s'.sentParsed + 1 }) server' oper'
          (fun most => ⟨server', oper', by omega, by omega, Nat.le_refl _, Or.inl rfl⟩)
        generalize clientLoop react false rounds { s' with sentParsed := s'.sentParsed + 1 } = r at *
        obtain ⟨rServer, rOper, lines, most, more, allowed'⟩ := after
        have length : s'.dispatched.length = s.dispatched.length + 1 := by simp [dispatched]
        simp only at lines most more allowed' sent allowed
        refine ⟨rServer, rOper, by omega, by rw [ready]; push_cast; omega, by omega, ?_⟩
        rcases allowed' with same | raised
        · rcases allowed with same' | raised
          · exact Or.inl (same.trans same')
          · exact Or.inr (same.trans raised)
        · exact Or.inr raised

theorem parseClientQueued_counted (quiet : ∀ n, (react n).server = false ∧ (react n).oper = false)
    (conf : FloodConf) {s : Client} (server : s.server = false) (oper : s.oper = false) :
    Counted (readyLines s.recvq.list) s (parseClientQueued react conf s) := by
  have unchecked : (if conf.noOperFlood && s.oper then false else false) = false := ite_self false
  simp only [parseClientQueued, unchecked, server]
  split
  · exact ⟨server, oper, by omega, by omega, Nat.le_refl _, Or.inl rfl⟩
  · exact clientLoop_counted quiet _ server oper

/-! ### Every arrival pattern -/

/-- `flood_recalc` keeps `allow_read` within its bounds. -/
theorem recalcAllowRead_bounds {s : Client} (server : s.server = false) (oper : s.oper = false) :
    0 ≤ recalcAllowRead s ∧ recalcAllowRead s ≤ maxFloodPerSecI := by
  have ceiling : ∀ allowRead maxFlood : ℤ, 1 ≤ maxFlood → maxFlood ≤ 24 →
      0 ≤ (if allowRead < 1 then 1 else if allowRead > maxFlood then maxFlood else allowRead) ∧
        (if allowRead < 1 then 1 else if allowRead > maxFlood then maxFlood else allowRead) ≤ 24 := by
    intro allowRead maxFlood least most
    split
    · omega
    · split <;> omega
  simp only [recalcAllowRead, server, oper, Bool.or_self, maxFloodPerSecI, maxFloodPerSec]
  rw [if_neg Bool.false_ne_true]
  apply ceiling <;> split <;> omega

/-- What holds of a client in every run that meets the condition. -/
structure Watched.Keeps (w : Watched) : Prop where
  server : w.client.server = false
  oper : w.client.oper = false
  mark : w.mark ≤ w.client.dispatched.length
  sent : w.client.sentParsed = w.client.dispatched.length - w.mark
  limit : w.client.sentParsed ≤ w.client.allowRead + 1
  floor : 0 ≤ w.client.allowRead
  ceiling : w.client.allowRead ≤ maxFloodPerSecI

theorem Watched.Keeps.limited {w : Watched} (keeps : w.Keeps) : w.Limited := by
  have sent := keeps.sent
  have limit := keeps.limit
  have mark := keeps.mark
  have ceiling := keeps.ceiling
  exact ⟨by omega, keeps.floor, by omega⟩

/-- From a call that keeps to the limit, everything holds again. -/
theorem Counted.keeps {most mark : ℕ} {s s' : Client} (counted : Counted most s s')
    (before : Watched.Keeps ⟨s, mark⟩) (modest : s.sentParsed + most ≤ s.allowRead + 1) :
    Watched.Keeps ⟨s', mark⟩ := by
  obtain ⟨-, -, marked, sent, -, floor, ceiling⟩ := before
  obtain ⟨server, oper, lines, most, more, allowed⟩ := counted
  simp only at marked sent floor ceiling
  have raised : s.allowRead ≤ s'.allowRead ∧ 0 ≤ s'.allowRead ∧ s'.allowRead ≤ maxFloodPerSecI := by
    rcases allowed with same | grace
    · omega
    · rw [grace]
      exact ⟨ceiling, by decide, Int.le_refl _⟩
  exact ⟨server, oper, by dsimp only; omega, by dsimp only; omega, by dsimp only; omega, raised.2.1, raised.2.2⟩

theorem parseClientQueued_dead (conf : FloodConf) {s : Client} (dead : s.dead = true) :
    parseClientQueued react conf s = s := by
  simp [parseClientQueued, dead]

theorem Watched.Keeps.step (quiet : ∀ n, (react n).server = false ∧ (react n).oper = false)
    (conf : FloodConf) {w : Watched} (keeps : w.Keeps) (event : Event) (modest : Modest w.client event) :
    (w.step react conf event).Keeps := by
  obtain ⟨s, mark⟩ := w
  cases event with
  | read data past =>
    simp only [Watched.step, Client.step, readPacket]
    split
    · exact keeps
    · rename_i alive
      have received : Watched.Keeps ⟨s.receive data past, mark⟩ :=
        ⟨keeps.server, keeps.oper, keeps.mark, keeps.sent, keeps.limit, keeps.floor, keeps.ceiling⟩
      split
      · exact ⟨keeps.server, keeps.oper, keeps.mark, keeps.sent, keeps.limit, keeps.floor, keeps.ceiling⟩
      · exact (parseClientQueued_counted quiet conf received.server received.oper).keeps received
          (modest (by simpa using alive))
  | recalc =>
    obtain ⟨floor, ceiling⟩ := recalcAllowRead_bounds keeps.server keeps.oper
    have recalced : Watched.Keeps ⟨s.recalc, s.dispatched.length⟩ := by
      refine ⟨keeps.server, keeps.oper, Nat.le_refl _, (Int.sub_self _).symm, ?_, floor, ceiling⟩
      show (0 : ℤ) ≤ recalcAllowRead s + 1
      simp only at floor
      omega
    simp only [Watched.step, Client.step, floodRecalc]
    by_cases dead : s.dead = true
    · rw [parseClientQueued_dead conf (show s.recalc.dead = true from dead)]
      exact recalced
    · exact (parseClientQueued_counted quiet conf recalced.server recalced.oper).keeps recalced
        (modest (by simpa using dead))
  | exit =>
    simp only [Watched.step, Client.step]
    split
    · exact keeps
    · exact ⟨keeps.server, keeps.oper, keeps.mark, keeps.sent, keeps.limit, keeps.floor, keeps.ceiling⟩

end

theorem Watched.run_take_succ (react : ℕ → Effect) (conf : FloodConf) (events : List Event) (k : ℕ)
    {event : Event} (next : events[k]? = some event) :
    Watched.run react conf (events.take (k + 1)) = (Watched.run react conf (events.take k)).step react conf event := by
  rw [Watched.run, List.take_add_one, next, Option.toList_some, List.foldl_append]
  rfl

/-- For every client that is neither a server nor an operator and every arrival pattern, the flood limit holds
at every point, if its input never offers more than the limit. -/
theorem flood_limited (react : ℕ → Effect) (quiet : ∀ n, (react n).server = false ∧ (react n).oper = false)
    (conf : FloodConf) (events : List Event)
    (modest : ∀ k event, events[k]? = some event →
      Modest (Watched.run react conf (events.take k)).client event) :
    ∀ k, (Watched.run react conf (events.take k)).Limited := by
  have keeps : ∀ k, (Watched.run react conf (events.take k)).Keeps := by
    intro k
    induction k with
    | zero =>
      have start : Watched.Keeps ⟨Client.start, 0⟩ :=
        ⟨rfl, rfl, Nat.le_refl _, rfl, by decide, by decide, by decide⟩
      exact start
    | succ k ih =>
      cases next : events[k]? with
      | none =>
        rw [List.take_add_one, next, Option.toList_none, List.append_nil]
        exact ih
      | some event =>
        rw [Watched.run_take_succ react conf events k next]
        exact ih.step quiet conf event (modest k event next)
  exact fun k => (keeps k).limited

/-- One line. -/
theorem flood_limited_line :
    (Watched.run (fun _ => ⟨false, false, false, false, false, false, false⟩) ⟨false, 20⟩
      ([.read [97, 10] 0].take 1)).Limited := by
  apply flood_limited _ (fun _ => ⟨rfl, rfl⟩) _ [.read [97, 10] 0]
  intro k event next
  cases k with
  | zero =>
    obtain rfl := Option.some.inj next
    intro _
    decide
  | succ k => cases next

/-- Ten lines in one read are all dispatched, with `allow_read` at 8. -/
theorem ten_lines_dispatched :
    ¬ ∀ (react : ℕ → Effect), (∀ n, (react n).server = false ∧ (react n).oper = false) →
      ∀ (conf : FloodConf) (events : List Event) (k : ℕ),
        (Watched.run react conf (events.take k)).Limited := by
  intro claim
  have limited := claim (fun _ => ⟨false, false, false, false, false, false, false⟩) (fun _ => ⟨rfl, rfl⟩)
    ⟨false, 20⟩ [.read [97, 10, 97, 10, 97, 10, 97, 10, 97, 10, 97, 10, 97, 10, 97, 10, 97, 10, 97, 10] 0] 1
  have lines := limited.lines
  revert lines
  decide

end Ircd.Packet
