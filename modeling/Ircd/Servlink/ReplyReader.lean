import Ircd.Servlink.Control

/-!
# Reading the replies of servlink

`read_ctrl_packet` of `packet.c`. It loses nothing, but the event loop forgets the handler of a descriptor
when it calls it, and two of the returns that wait for more do not register it again.
-/
namespace Ircd.Servlink

open Frames

def slinkrplError : UInt8 := 1
def slinkrplZipstats : UInt8 := 2

/-- `slinkrpltab`: the replies, and whether they have `SLINKRPL_FLAG_DATA`. -/
def slinkrpltab : List (UInt8 × Bool) := [(slinkrplError, true), (slinkrplZipstats, true)]

/-- The server at the other end of a control pipe: whether it has been exited, whether the assertion that
its replies are known has failed, and whether `read_ctrl_packet` is registered for the pipe. -/
structure Server where
  ctrl : Control
  dead : Bool
  aborted : Bool
  armed : Bool

/-- The server when `fork_server` has registered the handler. -/
def Server.start (input : List UInt8) : Server := ⟨⟨noCommand, input, []⟩, false, false, true⟩

/-- The label at the end of `read_ctrl_packet`. -/
def Server.nodata (s : Server) : Server := { s with armed := true }

/-- The command byte. The old length stays. -/
def Server.readCommand (s : Server) (n : ℕ) : Except Server Server :=
  if s.ctrl.cmd.command = 0 then
    let ctrl := { s.ctrl with cmd := { s.ctrl.cmd with gotdatalen := 0, readdata := 0, data := none } }
    match ctrl.takeCommand n with
    | none => .error { s with ctrl := ctrl }.nodata
    | some ctrl => .ok { s with ctrl := ctrl }
  else .ok s

/-- The search in `slinkrpltab`: whether the reply has data. -/
def Server.lookup (s : Server) : Except Server Bool :=
  match slinkrpltab.lookup s.ctrl.cmd.command with
  | none => .error { s with aborted := true }
  | some hasData => .ok hasData

/-- The length. With one byte of two, the call returns. -/
def Server.readLength (s : Server) (hasData : Bool) (n : ℕ) : Except Server Server :=
  if hasData ∧ s.ctrl.cmd.gotdatalen < 2 then
    match s.ctrl.takeLength n with
    | none => .error s.nodata
    | some ctrl =>
      if ctrl.cmd.gotdatalen < 2 then .error { s with ctrl := ctrl }
      else .ok { s with ctrl := ctrl }
  else .ok s

/-- The data. With a part of it, the call returns. -/
def Server.readData (s : Server) (n : ℕ) : Except Server Server :=
  if s.ctrl.cmd.readdata < s.ctrl.cmd.datalen then
    match s.ctrl.takeData n with
    | none => .error s.nodata
    | some ctrl =>
      if s.ctrl.cmd.data = none then .error { s with dead := true }
      else if ctrl.cmd.readdata < ctrl.cmd.datalen then .error { s with ctrl := ctrl }
      else .ok { s with ctrl := ctrl }
  else .ok s

/-- The call of the handler. `slink_error` exits the server, and `slink_zipstats` only keeps statistics. -/
def Server.callHandler (s : Server) : Server :=
  { s with
    ctrl := s.ctrl.passOn
    dead := s.dead || s.ctrl.cmd.command == slinkrplError }

/-- What `read_ctrl_packet` does with a reply that it knows. -/
def Server.finish (s : Server) (hasData : Bool) (g : Grants) : Except Server Server := do
  let s ← s.readLength hasData g.len
  let s ← s.readData g.data
  let s := s.callHandler
  if s.dead then return s else return s.nodata

/-- The state after a function that returns early, or not. -/
def Server.returned (result : Except Server Server) : Server :=
  match result with
  | .error s => s
  | .ok s => s

/-- `read_ctrl_packet`. -/
def readCtrlPacket (s : Server) (g : Grants) : Server :=
  if s.dead || s.aborted then s
  else
    Server.returned do
      let s ← s.readCommand g.command
      let hasData ← s.lookup
      s.finish hasData g

/-- The event loop finds the pipe readable: it forgets the handler, and calls it. -/
def Server.event (s : Server) (g : Grants) : Server :=
  if s.armed then readCtrlPacket { s with armed := false } g else s

def Server.run (s : Server) (calls : List Grants) : Server := calls.foldl Server.event s

/-- What `fork_server` does: the handler is registered and called, and then the event loop runs. -/
def Server.forked (input : List UInt8) (first : Grants) (calls : List Grants) : Server :=
  (readCtrlPacket (Server.start input) first).run calls

/-! ### The reads after which the pipe is forgotten -/

/-- The call finds the first byte of a length without the second, or a part of the data. -/
def Short (s : Server) (g : Grants) : Prop :=
  s.dead = false ∧
    ((∃ tag high bytes, s.ctrl.atLength g = some (tag, high :: bytes) ∧ g.len = 1) ∨
      ∃ wanted, s.ctrl.dataWanted g = some wanted ∧ 0 < g.data ∧ g.data < wanted)

/-- The handlers have been called with exactly the replies that are whole among the bytes read, and the
handler of the pipe is registered. -/
def Upheld (frames : List Frame) (s : Server) : Prop :=
  s.aborted = false ∧
    s.ctrl.handled = (completed frames ((encodeAll frames).length - s.ctrl.input.length)).map callOf ∧
    (s.dead = false → s.armed = true)

/-- The server has passed on the frames that are done, and reads on. -/
structure Server.Good (s : Server) (frames done : List Frame) : Prop where
  ctrl : s.ctrl.Good frames done
  running : s.aborted = false
  armed : s.dead = false → s.armed = true

theorem Server.Good.upheld {s : Server} {frames done : List Frame} (good : s.Good frames done) :
    Upheld frames s :=
  ⟨good.running, by rw [good.ctrl.standing.completed, good.ctrl.handled], good.armed⟩

/-- Where the record has a command, a short read is a read of its length or of its data. -/
theorem short_of_begun {s : Server} {frames done rest : List Frame} {tag : UInt8}
    {payload more : List UInt8} (begun : s.ctrl.Begun frames done ⟨tag, some payload⟩ rest more)
    (alive : s.dead = false) (known : tag ≠ 0) (bounds : 0 < payload.length ∧ payload.length < 65536)
    (g : Grants) :
    Short s g ↔
      (s.ctrl.cmd.gotdatalen = 0 ∧ (g.len = 1 ∨ 2 ≤ g.len ∧ 0 < g.data ∧ g.data < payload.length)) ∨
      (s.ctrl.cmd.gotdatalen = 1 ∧ 1 ≤ g.len ∧ 0 < g.data ∧ g.data < payload.length) ∨
      (2 ≤ s.ctrl.cmd.gotdatalen ∧ 0 < g.data ∧ g.data < more.length) := by
  obtain ⟨⟨cmd, input, calls⟩, dead, aborted, armed⟩ := s
  obtain ⟨split, within, input, handled⟩ := begun
  simp only at within input alive
  subst input alive
  have length : (highByte payload).toNat <<< 8 ||| (lowByte payload).toNat = payload.length :=
    length_of_bytes bounds.2
  generalize whole : (⟨tag, some payload⟩ : Frame) = frame at within
  cases within with
  | tag _ datalen reset =>
    subst whole
    have next : (⟨tag, some payload⟩ : Frame).encode.tail = highByte payload :: lowByte payload :: payload := rfl
    simp only [next]
    by_cases both : 2 ≤ g.len
    · simp [Short, Control.dataWanted, Control.atLength, known, length, both]
    · simp [Short, Control.dataWanted, Control.atLength, known, both]
  | high _ payload' =>
    obtain ⟨rfl, same⟩ := Frame.mk.inj whole
    obtain rfl := Option.some.inj same
    by_cases one : 1 ≤ g.len
    · simp [Short, Control.dataWanted, Control.atLength, known, length, one]
    · simp [Short, Control.dataWanted, Control.atLength, known, one]
  | data _ got more =>
    obtain ⟨rfl, same⟩ := Frame.mk.inj whole
    simp [Short, Control.dataWanted, Control.atLength, known]

/-- A short read can come at the command byte's call too: it does not touch what is behind the byte. -/
theorem short_of_takeCommand {s : Server} {tag : UInt8} {input : List UInt8} {g : Grants} (datalen : ℕ)
    (idle : s.ctrl.cmd.command = 0) (next : s.ctrl.input = tag :: input) (some : 0 < g.command)
    (known : tag ≠ 0) (calls : List (UInt8 × List UInt8)) :
    Short s g ↔ Short { s with ctrl := ⟨⟨tag, datalen, 0, 0, none⟩, input, calls⟩ } g := by
  have here : s.ctrl.atLength g = Option.some (tag, input) := by
    simp [Control.atLength, idle, next, some]
  have there : Control.atLength ⟨⟨tag, datalen, 0, 0, none⟩, input, calls⟩ g = Option.some (tag, input) := by
    simp [Control.atLength, known]
  simp only [Short, Control.dataWanted, here, there]
  obtain _ | ⟨high, _ | ⟨low, rest⟩⟩ := input <;> simp

/-! ### One call -/

/-- Every reply has data. -/
theorem payload_of_fits {frame : Frame} (fits : Fits slinkrpltab frame) :
    ∃ payload, frame = ⟨frame.tag, some payload⟩ := by
  obtain ⟨tag, _ | payload⟩ := frame
  · have known := fits.known
    simp only [slinkrpltab, List.lookup_cons, List.lookup_nil] at known
    split at known <;> simp at known
    split at known <;> simp at known
  · exact ⟨payload, rfl⟩

/-- The reader keeps its place, and a call that is not short registers the handler. -/
structure Outcome (frames : List Frame) (short : Prop) (s s' : Server) : Prop where
  kept : ∃ done, s'.ctrl.Good frames done
  running : s'.aborted = false
  forgotten : short → s'.dead = false ∧ s'.armed = s.armed
  armed : ¬ short → s'.dead = false → s'.armed = true

section

variable {s : Server} {frames done rest : List Frame} {tag : UInt8} {payload got more : List UInt8}

/-- Nothing is there to read, and the call registers the handler. -/
theorem Outcome.nodata {short : Prop} (good : s.ctrl.Good frames done) (running : s.aborted = false)
    (none : ¬ short) : Outcome frames short s s.nodata :=
  ⟨⟨done, good⟩, running, fun some => absurd some none, fun _ _ => rfl⟩

/-- The call waits for more without registering the handler. -/
theorem Outcome.waits {short : Prop} {ctrl : Control} (good : ctrl.Good frames done)
    (running : s.aborted = false) (alive : s.dead = false) (some : short) :
    Outcome frames short s { s with ctrl := ctrl } :=
  ⟨⟨done, good⟩, running, fun _ => ⟨alive, rfl⟩, fun none => absurd some none⟩

/-- The reply is whole. -/
theorem Outcome.callHandler {short : Prop} {ctrl : Control} (full : ctrl.Filling frames done tag rest got [])
    (running : s.aborted = false) (none : ¬ short) :
    Outcome frames short s (Server.returned
      (let s := Server.callHandler { s with ctrl := ctrl }
      if s.dead then .ok s else .ok s.nodata)) := by
  have kept := full.passOn
  by_cases dead : (Server.callHandler { s with ctrl := ctrl }).dead = true
  · simp only [dead, if_true, Server.returned]
    exact ⟨⟨_, kept⟩, running, fun some => absurd some none, fun _ alive => absurd dead (by simp [alive])⟩
  · simp only [dead, Server.returned]
    exact ⟨⟨_, kept⟩, running, fun some => absurd some none, fun _ _ => rfl⟩

/-- From a whole length, the data is read. -/
theorem Server.readData_spec (filling : s.ctrl.Filling frames done tag rest got more) (left : more ≠ [])
    (alive : s.dead = false) (running : s.aborted = false) (n : ℕ) :
    Outcome frames (0 < n ∧ n < more.length) s (Server.returned do
      let s ← s.readData n
      let s := s.callHandler
      if s.dead then return s else return s.nodata) := by
  have unfinished := filling.unfinished_iff.mpr left
  have buffer : s.ctrl.cmd.data ≠ none := by
    rw [filling.cmd]
    exact Option.some_ne_none got
  obtain ⟨waits, rfl⟩ | ⟨s', got', takes, some, whole, after⟩ := filling.takeData left n
  · have reads : s.readData 0 = .error s.nodata := by
      simp only [Server.readData, unfinished, if_true, waits]
    simp only [reads, bind, Except.bind, Server.returned]
    exact Outcome.nodata (filling.begun.good left) running fun some => Nat.lt_irrefl 0 some.1
  · by_cases last : more.drop n = []
    · have finished : ¬ s'.cmd.readdata < s'.cmd.datalen := fun less => after.unfinished_iff.mp less last
      have reads : s.readData n = .ok { s with ctrl := s' } := by
        simp only [Server.readData, unfinished, if_true, takes, buffer, if_false, finished]
      simp only [reads, bind, Except.bind]
      rw [last] at after
      apply Outcome.callHandler after running
      rintro ⟨-, less⟩
      exact absurd (List.drop_eq_nil_iff.mp last) (Nat.not_le.mpr less)
    · have waits := after.unfinished_iff.mpr last
      have reads : s.readData n = .error { s with ctrl := s' } := by
        simp only [Server.readData, unfinished, if_true, takes, buffer, if_false, waits]
      simp only [reads, bind, Except.bind, Server.returned]
      apply Outcome.waits (after.begun.good last) running alive
      exact ⟨some, Nat.not_le.mp fun all => last (List.drop_eq_nil_iff.mpr all)⟩

theorem Outcome.congr {short short' : Prop} {s' : Server} (outcome : Outcome frames short s s')
    (same : short' ↔ short) : Outcome frames short' s s' := by
  rwa [propext same]

/-- What a call does with a reply that it knows. -/
theorem Server.finish_spec (begun : s.ctrl.Begun frames done ⟨tag, some payload⟩ rest more)
    (alive : s.dead = false) (running : s.aborted = false) (fits : Fits slinkrpltab ⟨tag, some payload⟩)
    (left : more ≠ []) (g : Grants) :
    Outcome frames (Short s g) s (Server.returned (s.finish true g)) := by
  have bounds := fits.length payload rfl
  have short := short_of_begun begun alive fits.tag bounds g
  by_cases unread : s.ctrl.cmd.gotdatalen < 2
  · obtain ⟨waits, none⟩ | ⟨s', takes, both, some, filling⟩ | ⟨first, one, s', takes, halfway⟩ :=
      begun.takeLength unread bounds g.len
    · have reads : s.finish true g = .error s.nodata := by
        simp [Server.finish, Server.readLength, unread, waits, bind, Except.bind]
      rw [reads]
      exact Outcome.nodata (begun.good left) running (by rw [short]; omega)
    · -- the length is whole, and its data is all that can be short
      have whole : ¬ s'.cmd.gotdatalen < 2 := by
        rw [filling.cmd]
        exact Nat.lt_irrefl 2
      have reads : s.readLength true g.len = .ok { s with ctrl := s' } := by
        simp only [Server.readLength, unread, and_self, if_true, takes, whole, if_false]
      simp only [Server.finish, reads, bind, Except.bind]
      have outcome := Server.readData_spec (s := { s with ctrl := s' }) filling
        (List.length_pos_iff.mp bounds.1) alive running g.data
      refine Outcome.congr (s := s) ?_ (short.trans (by omega : _ ↔ 0 < g.data ∧ g.data < payload.length))
      exact ⟨outcome.kept, outcome.running, outcome.forgotten, outcome.armed⟩
    · have half : s'.cmd.gotdatalen < 2 := by
        rw [halfway.cmd]
        exact Nat.lt_succ_self 1
      have reads : s.finish true g = .error { s with ctrl := s' } := by
        simp [Server.finish, Server.readLength, unread, takes, half, bind, Except.bind]
      rw [reads]
      exact Outcome.waits (halfway.begun.good (List.cons_ne_nil _ _)) running alive (short.mpr (by omega))
  · obtain ⟨got, whole, filling⟩ := begun.filling unread
    have reads : s.readLength true g.len = .ok s := by
      simp only [Server.readLength, unread, and_false, if_false]
    simp only [Server.finish, reads, bind, Except.bind]
    exact (Server.readData_spec filling left alive running g.data).congr (short.trans (by omega))

/-- Without a command byte, no read is short. -/
theorem not_short_of_takeCommand {datalen : ℕ} {g : Grants} (idle : s.ctrl.cmd.command = 0)
    (waits : Control.takeCommand { s.ctrl with cmd := ⟨0, datalen, 0, 0, none⟩ } g.command = none) :
    ¬ Short s g := by
  have nothing : s.ctrl.atLength g = none := by
    cases input : s.ctrl.input with
    | nil => simp [Control.atLength, idle, input]
    | cons first others =>
      obtain ⟨command | command, len, data⟩ := g
      · simp [Control.atLength, idle, input]
      · simp [Control.takeCommand, input] at waits
  simp [Short, Control.dataWanted, nothing, idle]

/-- What a call does, with the server alive. -/
theorem readCtrlPacket_spec (good : s.ctrl.Good frames done) (alive : s.dead = false)
    (running : s.aborted = false) (fits : ∀ frame ∈ frames, Fits slinkrpltab frame) (g : Grants) :
    Outcome frames (Short s g) s (readCtrlPacket s g) := by
  -- with a command, the rest of the call is left
  have finish : ∀ {ctrl : Control} {frame : Frame} {rest : List Frame} {more : List UInt8},
      s.readCommand g.command = .ok { s with ctrl := ctrl } → ctrl.Begun frames done frame rest more →
      (frame.payload ≠ none → more ≠ []) → (Short s g ↔ Short { s with ctrl := ctrl } g) →
      Outcome frames (Short s g) s (readCtrlPacket s g) := by
    intro ctrl frame rest more begins begun left same
    have known := fits frame (by simp [begun.split])
    obtain ⟨payload, whole⟩ := payload_of_fits known
    have found : slinkrpltab.lookup ctrl.cmd.command = some true := by
      rw [begun.within.command, known.known, whole]
      rfl
    have call : readCtrlPacket s g = Server.returned (Server.finish { s with ctrl := ctrl } true g) := by
      simp [readCtrlPacket, alive, running, begins, Server.lookup, found, bind, Except.bind]
    rw [whole] at begun known
    have outcome := Server.finish_spec (s := { s with ctrl := ctrl }) begun alive running known
      (left (by rw [whole]; simp)) g
    rw [call]
    exact (Outcome.congr (s := s) ⟨outcome.kept, outcome.running, outcome.forgotten, outcome.armed⟩ same)
  by_cases idle : s.ctrl.cmd.command = 0
  · have reset := good.reset fits idle (rfl : (⟨0, s.ctrl.cmd.datalen, 0, 0, none⟩ : CtrlCommand).command = 0)
    have dataless : ∀ frame ∈ frames, frame.payload = none → s.ctrl.cmd.datalen = 0 := by
      intro frame member none
      obtain ⟨payload, whole⟩ := payload_of_fits (fits frame member)
      rw [whole] at none
      cases none
    obtain waits | ⟨s', frame, rest, more, takes, some, next, cmd, left, begun⟩ :=
      reset.takeCommand rfl fits dataless g.command
    · have call : readCtrlPacket s g =
          Server.nodata { s with ctrl := { s.ctrl with cmd := ⟨0, s.ctrl.cmd.datalen, 0, 0, none⟩ } } := by
        simp [readCtrlPacket, alive, running, Server.readCommand, idle, waits, bind, Except.bind,
          Server.returned]
      rw [call]
      have outcome := Outcome.nodata (s := { s with ctrl := _ }) reset running (not_short_of_takeCommand idle waits)
      exact ⟨outcome.kept, outcome.running, outcome.forgotten, outcome.armed⟩
    · refine finish ?_ begun left ?_
      · simp only [Server.readCommand, idle, if_true, takes]
      · have same := short_of_takeCommand s.ctrl.cmd.datalen idle next some
          (fits frame (by simp [begun.split])).tag s'.handled
        rwa [← cmd] at same
  · obtain ⟨frame, rest, more, left, begun⟩ := good.begun idle
    exact finish (if_neg idle) begun (fun _ => left) Iff.rfl

end

/-! ### Every way of cutting the replies -/

/-- An event keeps the pipe readable, exactly if its read is not short. -/
theorem Server.Good.event {s : Server} {frames done : List Frame} (good : s.Good frames done)
    (fits : ∀ frame ∈ frames, Fits slinkrpltab frame) (g : Grants) :
    (¬ Short s g ∧ ∃ done', (s.event g).Good frames done') ∨ (Short s g ∧ ¬ Upheld frames (s.event g)) := by
  by_cases dead : s.dead = true
  · -- the call returns at once
    refine Or.inl ⟨fun short => absurd dead (by simp [short.1]), done, ?_⟩
    by_cases armed : s.armed = true
    · rw [Server.event, if_pos armed]
      simp only [readCtrlPacket, dead, Bool.true_or, if_true]
      exact ⟨good.ctrl, good.running, fun alive => absurd alive (by simp)⟩
    · rw [Server.event, if_neg armed]
      exact good
  · have alive : s.dead = false := Bool.eq_false_iff.mpr dead
    rw [Server.event, if_pos (good.armed alive)]
    have outcome := readCtrlPacket_spec (s := { s with armed := false }) good.ctrl alive good.running fits g
    by_cases short : Short s g
    · obtain ⟨alive', armed⟩ := outcome.forgotten short
      refine Or.inr ⟨short, fun upheld => ?_⟩
      have armed' := upheld.2.2 alive'
      rw [armed] at armed'
      cases armed'
    · obtain ⟨done', kept⟩ := outcome.kept
      exact Or.inl ⟨short, done', kept, outcome.running, outcome.armed short⟩

theorem Server.run_take_succ (s : Server) (calls : List Grants) (k : ℕ) {g : Grants} (call : calls[k]? = some g) :
    s.run (calls.take (k + 1)) = (s.run (calls.take k)).event g := by
  rw [Server.run, List.take_add_one, call, Option.toList_some, List.foldl_append]
  rfl

/-- Up to any event, the pipe is readable as long as no read is short. -/
theorem Server.Good.run {s : Server} {frames done : List Frame} (good : s.Good frames done)
    (fits : ∀ frame ∈ frames, Fits slinkrpltab frame) (calls : List Grants) (k : ℕ)
    (whole : ∀ j < k, ∀ g, calls[j]? = some g → ¬ Short (s.run (calls.take j)) g) :
    ∃ done', (s.run (calls.take k)).Good frames done' := by
  induction k with
  | zero => exact ⟨done, good⟩
  | succ k ih =>
    obtain ⟨done', before⟩ := ih fun j earlier => whole j (Nat.lt_succ_of_lt earlier)
    cases call : calls[k]? with
    | none =>
      rw [List.take_add_one, call, Option.toList_none, List.append_nil]
      exact ⟨done', before⟩
    | some g =>
      rw [s.run_take_succ calls k call]
      obtain ⟨-, after⟩ | ⟨short, -⟩ := before.event fits g
      · exact after
      · exact absurd short (whole k (Nat.lt_succ_self k) g call)

/-- The first call keeps the handler that `fork_server` has registered. -/
theorem Server.start_good {frames : List Frame} (fits : ∀ frame ∈ frames, Fits slinkrpltab frame)
    (first : Grants) : ∃ done, (readCtrlPacket (Server.start (encodeAll frames)) first).Good frames done := by
  have start : (Server.start (encodeAll frames)).ctrl.Good frames [] := ⟨Standing.between rfl rfl, rfl⟩
  have outcome := readCtrlPacket_spec (s := Server.start (encodeAll frames)) start rfl rfl fits first
  obtain ⟨done, kept⟩ := outcome.kept
  refine ⟨done, kept, outcome.running, fun alive => ?_⟩
  by_cases short : Short (Server.start (encodeAll frames)) first
  · exact (outcome.forgotten short).2
  · exact outcome.armed short alive

/-- For every sequence of replies and every way of cutting it, the handlers are called with the replies and
their whole data, and the handler of the pipe is registered as long as the server lives, exactly if no read
that the event loop causes is short. -/
theorem readCtrlPacket_upheld_iff (frames : List Frame) (fits : ∀ frame ∈ frames, Fits slinkrpltab frame)
    (first : Grants) (calls : List Grants) :
    (∀ k, Upheld frames (Server.forked (encodeAll frames) first (calls.take k))) ↔
      ∀ k g, calls[k]? = some g → ¬ Short (Server.forked (encodeAll frames) first (calls.take k)) g := by
  obtain ⟨done, start⟩ := Server.start_good fits first
  constructor
  · intro upheld k
    -- by strong induction, the pipe is readable when the event comes
    induction k using Nat.strongRecOn with
    | ind k ih =>
      intro g call short
      obtain ⟨done', good⟩ := start.run fits calls k ih
      obtain ⟨kept, -⟩ | ⟨-, lost⟩ := good.event fits g
      · exact kept short
      · exact lost ((Server.run_take_succ _ calls k call) ▸ upheld (k + 1))
  · intro whole k
    obtain ⟨done', good⟩ := start.run fits calls k fun j _ => whole j
    exact good.upheld

/-- An error, of which the length and the text come in two reads. -/
theorem readCtrlPacket_upheld_iff_error :
    (∀ k, Upheld [⟨slinkrplError, some [79, 0]⟩] (Server.forked
        (encodeAll [⟨slinkrplError, some [79, 0]⟩]) ⟨1, 2, 0⟩ ([⟨0, 0, 2⟩].take k))) ↔
      ∀ k g, [(⟨0, 0, 2⟩ : Grants)][k]? = some g → ¬ Short (Server.forked
        (encodeAll [⟨slinkrplError, some [79, 0]⟩]) ⟨1, 2, 0⟩ ([⟨0, 0, 2⟩].take k)) g := by
  apply readCtrlPacket_upheld_iff
  intro frame member
  rw [List.mem_singleton] at member
  subst member
  refine ⟨by decide, by decide, fun payload same => ?_⟩
  obtain rfl := Option.some.inj same
  decide

/-- An error of which the event loop finds only the first of two bytes of the length: the rest is never
read. -/
theorem readCtrlPacket_forgotten :
    ¬ ∀ frames : List Frame, (∀ frame ∈ frames, Fits slinkrpltab frame) → ∀ first : Grants,
      ∀ calls : List Grants, ∀ k, Upheld frames (Server.forked (encodeAll frames) first (calls.take k)) := by
  intro claim
  have fits : ∀ frame ∈ [(⟨slinkrplError, some [79, 0]⟩ : Frame)], Fits slinkrpltab frame := by
    intro frame member
    rw [List.mem_singleton] at member
    subst member
    refine ⟨by decide, by decide, fun payload same => ?_⟩
    obtain rfl := Option.some.inj same
    decide
  obtain ⟨-, -, armed⟩ := claim _ fits ⟨0, 0, 0⟩ [⟨1, 1, 0⟩] 1
  revert armed
  decide

end Ircd.Servlink
