import Ircd.Linebuf.Shape
import Ircd.Packet.Client

/-!
# Stranded lines

`linebuf_get` returns the length of a line, and 0 when there is none. The loops of `parse_client_queued` stop at
an empty line as if there were none, and what is behind it waits for the next read.
-/
namespace Ircd.Packet

open Linebuf

/-! ### One queue -/

/-- A line as `linebuf_get` hands it out. -/
def handed (line : BufLine) : List UInt8 := if line.raw then stripEol line.buf else line.buf

/-- A terminated line that is not empty. -/
def Waiting (line : BufLine) : Prop := line.terminated = true ∧ handed line ≠ []

/-- An empty line is in front of a terminated line that is not empty. -/
def Blocked (lines : List BufLine) : Prop :=
  ∃ front empty behind, lines = front ++ empty :: behind ∧ (∀ line ∈ front, line.terminated = true) ∧
    empty.terminated = true ∧ handed empty = [] ∧ ∃ line ∈ behind, Waiting line

/-- What the loops leave in the queue. -/
def leftover : List BufLine → List BufLine
  | [] => []
  | line :: lines =>
    if line.terminated = false then line :: lines
    else if handed line = [] then lines
    else leftover lines

/-- A line that is waiting is left exactly if it is behind an empty one. -/
theorem leftover_waiting {lines : List BufLine} (ended : ∀ line ∈ lines.dropLast, line.terminated = true) :
    (∃ line ∈ leftover lines, Waiting line) ↔ Blocked lines := by
  induction lines with
  | nil => simp [leftover, Blocked]
  | cons line lines ih =>
    by_cases waits : line.terminated = false
    · -- such a line is the last
      have last : lines = [] := by
        cases lines with
        | nil => rfl
        | cons second rest =>
          have := ended line (by simp)
          rw [waits] at this
          cases this
      subst last
      have open_ : leftover [line] = [line] := by simp [leftover, waits]
      rw [open_]
      constructor
      · rintro ⟨other, member, terminated, -⟩
        rw [List.mem_singleton.mp member, waits] at terminated
        cases terminated
      · rintro ⟨front, empty, behind, split, -, terminated, -, other, member, -⟩
        have length := congrArg List.length split
        simp only [List.length_append, List.length_cons, List.length_nil] at length
        have := List.length_pos_of_mem member
        omega
    · have terminated : line.terminated = true := by simpa using waits
      have ended' : ∀ line ∈ lines.dropLast, line.terminated = true := by
        intro other member
        cases lines with
        | nil => cases member
        | cons second rest =>
          exact ended other (by rw [List.dropLast_cons_cons]; exact List.mem_cons_of_mem line member)
      -- an empty line ends the loop, whatever is behind it
      by_cases nothing : handed line = []
      · have rest : leftover (line :: lines) = lines := by simp [leftover, terminated, nothing]
        rw [rest]
        constructor
        · rintro ⟨other, member, waiting⟩
          exact ⟨[], line, lines, rfl, fun _ none => absurd none List.not_mem_nil, terminated, nothing,
            other, member, waiting⟩
        · rintro ⟨front, empty, behind, split, -, -, -, other, member, waiting⟩
          refine ⟨other, ?_, waiting⟩
          cases front with
          | nil =>
            obtain ⟨-, rfl⟩ := List.cons.inj split
            exact member
          | cons first front =>
            obtain ⟨-, rfl⟩ := List.cons.inj split
            exact List.mem_append_right front (List.mem_cons_of_mem empty member)
      · have rest : leftover (line :: lines) = leftover lines := by simp [leftover, terminated, nothing]
        rw [rest, ih ended']
        constructor
        · rintro ⟨front, empty, behind, split, before, others⟩
          refine ⟨line :: front, empty, behind, by rw [split, List.cons_append], ?_, others⟩
          intro other member
          rcases List.mem_cons.mp member with rfl | member
          · exact terminated
          · exact before other member
        · rintro ⟨front, empty, behind, split, before, terminated, none, others⟩
          cases front with
          | nil =>
            obtain ⟨rfl, -⟩ := List.cons.inj split
            exact absurd none nothing
          | cons first front =>
            obtain ⟨-, rfl⟩ := List.cons.inj split
            exact ⟨front, empty, behind, rfl, fun other member => before other (List.mem_cons_of_mem _ member),
              terminated, none, others⟩

/-- What `linebuf_get` does when it waits for whole lines and does not hand them out raw. -/
theorem linebufGet_complete (bufhead : BufHead) :
    (linebufGet bufhead false false = none ∧ leftover bufhead.list = bufhead.list ∧
        ∀ line ∈ bufhead.list.head?, line.terminated = false) ∨
      ∃ line rest bufhead', bufhead.list = line :: rest ∧ line.terminated = true ∧
        linebufGet bufhead false false = some ({ line with buf := handed line }, bufhead') ∧
        bufhead'.list = rest := by
  cases shape : bufhead.list with
  | nil => simp [linebufGet, shape, leftover]
  | cons line rest =>
    by_cases ended : line.terminated = true
    · refine Or.inr ⟨line, rest, ⟨rest, bufhead.len - line.buf.length, bufhead.alloclen - 1,
        bufhead.numlines - 1⟩, rfl, ended, ?_, rfl⟩
      simp [linebufGet, shape, ended, handed]
    · have waits : line.terminated = false := by simpa using ended
      simp [linebufGet, shape, waits, leftover]

/-! ### The loops -/

/-- What a loop makes of the queue of a client that it does not exit. -/
structure Parsed (lines : List BufLine) (s : Client) : Prop where
  orderly : s.recvq.Orderly
  left : s.dead = false → s.recvq.list = leftover lines

variable {react : ℕ → Effect}

/-- A handler leaves the queue alone, or flushes it when it exits the client. -/
theorem dopacket_recvq (react : ℕ → Effect) (s : Client) (line : List UInt8) :
    (s.dopacket react line).recvq = s.recvq ∧ (s.dopacket react line).dead = s.dead ∨
      (s.dopacket react line).recvq = linebufNewbuf ∧ (s.dopacket react line).dead = true := by
  simp only [Client.dopacket]
  split
  · exact Or.inr ⟨rfl, rfl⟩
  · exact Or.inl ⟨rfl, rfl⟩

/-- The line that is taken, and what is left behind it. -/
theorem leftover_cons {line : BufLine} (lines : List BufLine) (ended : line.terminated = true) :
    leftover (line :: lines) = if handed line = [] then lines else leftover lines := by
  simp [leftover, ended]

theorem clientLoop_dead {s : Client} (dead : s.dead = true) (rounds : ℕ) :
    clientLoop react false rounds s = s := by
  cases rounds with
  | zero => rfl
  | succ rounds => simp [clientLoop, dead]

theorem clientLoop_parsed (rounds : ℕ) {s : Client} (orderly : s.recvq.Orderly)
    (enough : s.recvq.list.length < rounds) :
    Parsed s.recvq.list (clientLoop react false rounds s) := by
  induction rounds generalizing s with
  | zero => exact absurd enough (Nat.not_lt_zero _)
  | succ rounds ih =>
    by_cases dead : s.dead = true
    · rw [clientLoop_dead dead]
      exact ⟨orderly, fun alive => absurd dead (by simp [alive])⟩
    have checked : ¬(false = true ∧ s.sentParsed > s.allowRead) := fun both => Bool.false_ne_true both.1
    simp only [clientLoop, if_neg dead, if_neg checked]
    obtain ⟨none, same, -⟩ | ⟨line, rest, bufhead, shape, ended, get, list⟩ := linebufGet_complete s.recvq
    · rw [none]
      exact ⟨orderly, fun _ => same.symm⟩
    · rw [get]
      have orderly' : bufhead.Orderly := orderly.tail (by rw [list, shape, List.tail_cons])
      have left : leftover s.recvq.list = if handed line = [] then rest else leftover rest := by
        rw [shape, leftover_cons rest ended]
      rw [shape, List.length_cons] at enough
      dsimp only
      split
      · -- the loop takes an empty line for the end
        rename_i nothing
        refine ⟨orderly', fun _ => ?_⟩
        rw [left, if_pos (List.length_eq_zero_iff.mp nothing)]
        exact list
      · rename_i some
        rw [if_neg (fun none => some (List.length_eq_zero_iff.mpr none))] at left
        obtain ⟨recvq, alive⟩ | ⟨flushed, exited⟩ := dopacket_recvq react { s with recvq := bufhead } (handed line)
        · generalize Client.dopacket react { s with recvq := bufhead } (handed line) = s' at *
          have parsed := ih (s := { s' with sentParsed := s'.sentParsed + 1 }) (recvq ▸ orderly')
            (by simp only [recvq, list]; omega)
          refine ⟨parsed.orderly, fun alive => ?_⟩
          rw [parsed.left alive, left]
          simp only [recvq, list]
        · generalize Client.dopacket react { s with recvq := bufhead } (handed line) = s' at *
          rw [clientLoop_dead (s := { s' with sentParsed := s'.sentParsed + 1 }) exited]
          exact ⟨flushed ▸ linebufNewbuf_orderly, fun alive => absurd (exited.symm.trans alive) (by simp)⟩

theorem serverLoop_parsed (rounds : ℕ) {s : Client} (orderly : s.recvq.Orderly) (alive : s.dead = false)
    (enough : s.recvq.list.length < rounds) : Parsed s.recvq.list (serverLoop react rounds s) := by
  induction rounds generalizing s with
  | zero => exact absurd enough (Nat.not_lt_zero _)
  | succ rounds ih =>
    simp only [serverLoop]
    obtain ⟨none, same, -⟩ | ⟨line, rest, bufhead, shape, ended, get, list⟩ := linebufGet_complete s.recvq
    · rw [none]
      exact ⟨orderly, fun _ => same.symm⟩
    · rw [get]
      have orderly' : bufhead.Orderly := orderly.tail (by rw [list, shape, List.tail_cons])
      have left : leftover s.recvq.list = if handed line = [] then rest else leftover rest := by
        rw [shape, leftover_cons rest ended]
      rw [shape, List.length_cons] at enough
      simp only [alive, Bool.false_eq_true, if_false]
      split
      · -- the loop takes an empty line for the end
        rename_i nothing
        refine ⟨orderly', fun _ => ?_⟩
        rw [left, if_pos (List.length_eq_zero_iff.mp nothing)]
        exact list
      · rename_i some
        rw [if_neg (fun none => some (List.length_eq_zero_iff.mpr none))] at left
        obtain ⟨recvq, alive'⟩ | ⟨flushed, exited⟩ :=
          dopacket_recvq react { s with recvq := bufhead, dead := false } (handed line)
        · generalize Client.dopacket react { s with recvq := bufhead, dead := false } (handed line) = s' at *
          have alive' : s'.dead = false := alive'
          simp only [alive', Bool.false_eq_true, if_false]
          have parsed := ih (s := s') (recvq ▸ orderly') alive' (by simp only [recvq, list]; omega)
          refine ⟨parsed.orderly, fun alive => ?_⟩
          rw [parsed.left alive, left]
          simp only [recvq, list]
        · generalize Client.dopacket react { s with recvq := bufhead, dead := false } (handed line) = s' at *
          simp only [exited, if_true]
          exact ⟨linebufNewbuf_orderly, fun alive => absurd alive (by simp)⟩

/-- What `parse_client_queued` leaves. -/
theorem parseClientQueued_parsed (conf : FloodConf) {s : Client} (orderly : s.recvq.Orderly) :
    Parsed s.recvq.list (parseClientQueued react conf s) := by
  have unchecked : (if conf.noOperFlood && s.oper then false else false) = false := ite_self false
  simp only [parseClientQueued, unchecked]
  split
  · rename_i dead
    exact ⟨orderly, fun alive => absurd dead (by simp [alive])⟩
  split
  · rename_i alive _
    exact serverLoop_parsed _ orderly (by simpa using alive) (Nat.lt_succ_self _)
  · exact clientLoop_parsed _ orderly (Nat.lt_succ_self _)

/-! ### Runs -/

/-- No terminated line that is not empty is left. -/
def Served (s : Client) : Prop := s.dead = false → ∀ line ∈ s.recvq.list, ¬ Waiting line

/-- The queue that `parse_client_queued` is called with when this happens. -/
def Client.offered (s : Client) : Event → List BufLine
  | .read data past => (s.receive data past).recvq.list
  | .recalc => s.recvq.list
  | .exit => []

/-- What one event leaves. -/
theorem step_parsed (conf : FloodConf) {s : Client} (orderly : s.recvq.Orderly) (event : Event) :
    Parsed (s.offered event) (s.step react conf event) := by
  cases event with
  | read data past =>
    have received : (s.receive data past).recvq.Orderly := linebufParse_orderly s.unknown past data orderly
    simp only [Client.step, readPacket, Client.offered]
    split
    · rename_i dead
      exact ⟨orderly, fun alive => absurd dead (by simp [alive])⟩
    split
    · exact ⟨linebufNewbuf_orderly, fun alive => absurd alive (by simp [Client.exit])⟩
    · exact parseClientQueued_parsed conf received
  | recalc => exact parseClientQueued_parsed (s := s.recalc) conf orderly
  | exit =>
    simp only [Client.step]
    split
    · rename_i dead
      exact ⟨orderly, fun alive => absurd dead (by simp [alive])⟩
    · exact ⟨linebufNewbuf_orderly, fun alive => absurd alive (by simp [Client.exit])⟩

/-- After one event nothing is stranded, exactly if the queue that it found was not blocked. -/
theorem step_served_iff (conf : FloodConf) {s : Client} (orderly : s.recvq.Orderly) (event : Event)
    (alive : (s.step react conf event).dead = false) :
    (∀ line ∈ (s.step react conf event).recvq.list, ¬ Waiting line) ↔ ¬ Blocked (s.offered event) := by
  have ended : ∀ line ∈ (s.offered event).dropLast, line.terminated = true := by
    cases event with
    | read data past => exact (linebufParse_orderly s.unknown past data orderly).ended
    | recalc => exact orderly.ended
    | exit => exact fun _ none => absurd none List.not_mem_nil
  rw [(step_parsed conf orderly event).left alive, ← leftover_waiting ended]
  simp only [not_exists, not_and]

theorem run_take_succ (conf : FloodConf) (events : List Event) (k : ℕ) {event : Event}
    (next : events[k]? = some event) :
    Client.run react conf (events.take (k + 1)) = (Client.run react conf (events.take k)).step react conf event := by
  rw [Client.run, List.take_add_one, next, Option.toList_some, List.foldl_append]
  rfl

theorem run_orderly (conf : FloodConf) (events : List Event) : (Client.run react conf events).recvq.Orderly := by
  have from_orderly : ∀ s : Client, s.recvq.Orderly →
      (events.foldl (Client.step react conf) s).recvq.Orderly := by
    induction events with
    | nil => exact fun s orderly => orderly
    | cons event events ih => exact fun s orderly => ih _ (step_parsed conf orderly event).orderly
  exact from_orderly _ linebufNewbuf_orderly

/-- However the input comes and whatever its lines do, nothing is stranded, exactly if
`parse_client_queued` is never called with a queue that an empty line blocks. -/
theorem served_iff (react : ℕ → Effect) (conf : FloodConf) (events : List Event) :
    (∀ k, Served (Client.run react conf (events.take k))) ↔
      ∀ k event, events[k]? = some event → (Client.run react conf (events.take (k + 1))).dead = false →
        ¬ Blocked ((Client.run react conf (events.take k)).offered event) := by
  constructor
  · intro served k event next alive
    have after := served (k + 1) alive
    rw [run_take_succ conf events k next] at alive after
    exact (step_served_iff conf (run_orderly conf _) event alive).mp after
  · intro open_ k
    induction k with
    | zero =>
      intro _ line member
      exact absurd member List.not_mem_nil
    | succ k ih =>
      cases next : events[k]? with
      | none =>
        rw [List.take_add_one, next, Option.toList_none, List.append_nil]
        exact ih
      | some event =>
        intro alive
        have open_ := open_ k event next alive
        rw [run_take_succ conf events k next] at alive ⊢
        exact (step_served_iff conf (run_orderly conf _) event alive).mpr open_

/-- `NICK a` and `QUIT`, with the first line end cut in two: `QUIT` waits. -/
theorem quit_stranded :
    ¬ ∀ (react : ℕ → Effect) (conf : FloodConf) (events : List Event) (k : ℕ),
      Served (Client.run react conf (events.take k)) := by
  intro claim
  have served := claim (fun _ => ⟨false, false, false, false, false, false, false⟩) ⟨false, 20⟩
    [.read [78, 73, 67, 75, 32, 97, 13] 0, .read [10, 81, 85, 73, 84, 13, 10] 0] 2 (by decide)
    ⟨[81, 85, 73, 84, 13, 10], true, true, [81, 85, 73, 84, 13, 10]⟩ (by decide)
  exact served ⟨rfl, by decide⟩

end Ircd.Packet
