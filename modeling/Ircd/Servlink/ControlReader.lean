import Ircd.Servlink.Control

/-!
# Reading commands in servlink

`read_ctrl` of `servlink/io.c`. The handlers of the commands are called with the commands that were sent,
unless one of its calls finds half of a length.
-/
namespace Ircd.Servlink

open Frames

/-- The control side of `servlink`. It stops when `send_error` ends the program. -/
structure Reader where
  ctrl : Control
  exited : Bool

/-- The reader before the first byte. -/
def Reader.start (input : List UInt8) : Reader := ⟨⟨noCommand, input, []⟩, false⟩

/-- The command byte. An error is a return from `read_ctrl`. -/
def Reader.readCommand (s : Reader) (n : ℕ) : Except Reader Reader :=
  if s.ctrl.cmd.command = 0 then
    let ctrl := { s.ctrl with cmd := noCommand }
    match ctrl.takeCommand n with
    | none => .error { s with ctrl := ctrl }
    | some ctrl => .ok { s with ctrl := ctrl }
  else .ok s

/-- The search in `command_table`: whether the command has data. -/
def Reader.lookup (s : Reader) : Except Reader Bool :=
  match commandTable.lookup s.ctrl.cmd.command with
  | none => .error { s with exited := true }
  | some hasData => .ok hasData

/-- The length. A read that finds one byte of two goes on to the data. -/
def Reader.readLength (s : Reader) (hasData : Bool) (n : ℕ) : Except Reader Reader :=
  if hasData ∧ s.ctrl.cmd.gotdatalen < 2 then
    match s.ctrl.takeLength n with
    | none => .error s
    | some ctrl => .ok { s with ctrl := ctrl }
  else .ok s

/-- The data. Nothing can be read to a null pointer. -/
def Reader.readData (s : Reader) (n : ℕ) : Except Reader Reader :=
  if s.ctrl.cmd.readdata < s.ctrl.cmd.datalen then
    match s.ctrl.takeData n with
    | none => .error s
    | some ctrl =>
      if s.ctrl.cmd.data = none then .error { s with exited := true }
      else if ctrl.cmd.readdata < ctrl.cmd.datalen then .error { s with ctrl := ctrl }
      else .ok { s with ctrl := ctrl }
  else .ok s

/-- The state after a function that returns early, or not. -/
def returned (result : Except Reader Reader) : Reader :=
  match result with
  | .error s => s
  | .ok s => s

/-- What `read_ctrl` does with a command that it knows. -/
def Reader.finish (s : Reader) (hasData : Bool) (g : Grants) : Except Reader Reader := do
  let s ← s.readLength hasData g.len
  let s ← s.readData g.data
  return { s with ctrl := s.ctrl.passOn }

/-- `read_ctrl`. -/
def readCtrl (s : Reader) (g : Grants) : Reader :=
  if s.exited then s
  else
    returned do
      let s ← s.readCommand g.command
      let hasData ← s.lookup
      s.finish hasData g

def Reader.run (s : Reader) (calls : List Grants) : Reader := calls.foldl readCtrl s

/-! ### The cut that is not handled -/

/-- The read of the length finds only the first of two bytes, and that byte is zero, or more bytes are there
at once when the data is read. -/
def Torn (s : Reader) (g : Grants) : Prop :=
  ∃ tag high bytes, s.ctrl.atLength g = some (tag, high :: bytes) ∧ commandTable.lookup tag = some true ∧
    g.len = 1 ∧ (high = 0 ∨ 0 < g.data)

/-- The handlers have been called with exactly the frames that are whole among the bytes read. -/
def Faithful (frames : List Frame) (s : Reader) : Prop :=
  s.exited = false ∧
    s.ctrl.handled = (completed frames ((encodeAll frames).length - s.ctrl.input.length)).map callOf

/-- The reader still runs, and has passed on the frames that are done. -/
structure Reader.Good (s : Reader) (frames done : List Frame) : Prop where
  ctrl : s.ctrl.Good frames done
  running : s.exited = false

theorem Reader.Good.faithful {s : Reader} {frames done : List Frame} (good : s.Good frames done) :
    Faithful frames s :=
  ⟨good.running, by rw [good.ctrl.standing.completed, good.ctrl.handled]⟩

theorem atLength_eq_some {s : Reader} {g : Grants} {tag : UInt8} {bytes : List UInt8} :
    s.ctrl.atLength g = some (tag, bytes) ↔
      ∃ s', s.readCommand g.command = .ok s' ∧ s'.ctrl.cmd.gotdatalen = 0 ∧ s'.ctrl.cmd.command = tag ∧
        s'.ctrl.input = bytes := by
  obtain ⟨⟨cmd, input, handled⟩, exited⟩ := s
  by_cases idle : cmd.command = 0
  · cases input with
    | nil => simp [Control.atLength, Reader.readCommand, Control.takeCommand, idle]
    | cons first others =>
      obtain ⟨command | command, len, data⟩ := g
      · simp [Control.atLength, Reader.readCommand, Control.takeCommand, idle]
      · simp [Control.atLength, Reader.readCommand, Control.takeCommand, idle, noCommand]
  · simp only [Control.atLength, Reader.readCommand, idle, if_false, Except.ok.injEq, exists_eq_left']
    by_cases unread : cmd.gotdatalen = 0 <;> simp [unread]

/-! ### One call -/

/-- Before the command byte is there, nothing is lost; with it, a frame has begun. -/
theorem Reader.Good.readCommand {s : Reader} {frames done : List Frame} (good : s.Good frames done)
    (fits : ∀ frame ∈ frames, Fits commandTable frame) (n : ℕ) :
    (∃ s', s.readCommand n = .error s' ∧ s'.Good frames done) ∨
      ∃ s' frame rest more, s.readCommand n = .ok s' ∧ s'.exited = false ∧
        (frame.payload ≠ none → more ≠ []) ∧ s'.ctrl.Begun frames done frame rest more := by
  obtain ⟨ctrl, running⟩ := good
  by_cases idle : s.ctrl.cmd.command = 0
  · have reset := ctrl.reset fits idle (rfl : noCommand.command = 0)
    obtain waits | ⟨s', frame, rest, more, takes, -, -, -, left, begun⟩ :=
      reset.takeCommand rfl fits (fun _ _ _ => rfl) n
    · refine Or.inl ⟨⟨_, s.exited⟩, ?_, reset, running⟩
      simp only [Reader.readCommand, idle, if_true, waits]
    · refine Or.inr ⟨⟨s', s.exited⟩, frame, rest, more, ?_, running, left, begun⟩
      simp only [Reader.readCommand, idle, if_true, takes]
  · obtain ⟨frame, rest, more, left, begun⟩ := ctrl.begun idle
    exact Or.inr ⟨s, frame, rest, more, if_neg idle, running, fun _ => left, begun⟩

theorem readCtrl_waits {s s' : Reader} {g : Grants} (running : s.exited = false)
    (waits : s.readCommand g.command = .error s') : readCtrl s g = s' := by
  simp [readCtrl, running, waits, returned, bind, Except.bind]

theorem readCtrl_begins {s s' : Reader} {g : Grants} {hasData : Bool} (running : s.exited = false)
    (begins : s.readCommand g.command = .ok s')
    (known : commandTable.lookup s'.ctrl.cmd.command = some hasData) :
    readCtrl s g = returned (s'.finish hasData g) := by
  simp [readCtrl, running, begins, Reader.lookup, known, bind, Except.bind]

/-- A command without data is passed on at once. -/
theorem Reader.finish_dataless {s : Reader} {frames done rest : List Frame} {tag : UInt8} {more : List UInt8}
    (begun : s.ctrl.Begun frames done ⟨tag, none⟩ rest more) (running : s.exited = false) (g : Grants) :
    (returned (s.finish false g)).Good frames (done ++ [⟨tag, none⟩]) := by
  obtain ⟨⟨cmd, input, calls⟩, exited⟩ := s
  have within := begun.within
  simp only at within
  generalize whole : (⟨tag, none⟩ : Frame) = frame at within
  cases within with
  | tag _ datalen reset =>
    subst whole
    obtain rfl := reset rfl
    exact ⟨begun.passOn rfl, running⟩
  | high => cases whole
  | data => cases whole

/-- The data comes in parts, and is passed on with the last. -/
theorem Reader.readData_filling {s : Reader} {frames done rest : List Frame} {tag : UInt8}
    {got more : List UInt8} (filling : s.ctrl.Filling frames done tag rest got more) (left : more ≠ [])
    (running : s.exited = false) (n : ℕ) :
    (∃ s', s.readData n = .error s' ∧ s'.Good frames done) ∨
      ∃ s', s.readData n = .ok s' ∧ s'.exited = false ∧
        s'.ctrl.Filling frames done tag rest (got ++ more) [] := by
  have unfinished := filling.unfinished_iff.mpr left
  have buffer : s.ctrl.cmd.data ≠ none := by
    rw [filling.cmd]
    exact Option.some_ne_none got
  obtain ⟨waits, -⟩ | ⟨s', got', takes, -, whole, after⟩ := filling.takeData left n
  · refine Or.inl ⟨s, ?_, filling.begun.good left, running⟩
    simp only [Reader.readData, unfinished, if_true, waits]
  · by_cases last : more.drop n = []
    · have finished : ¬ s'.cmd.readdata < s'.cmd.datalen := fun less => after.unfinished_iff.mp less last
      rw [last, List.append_nil] at whole
      rw [last, whole] at after
      refine Or.inr ⟨⟨s', s.exited⟩, ?_, running, after⟩
      simp only [Reader.readData, unfinished, if_true, takes, buffer, if_false, finished]
    · have waits := after.unfinished_iff.mpr last
      refine Or.inl ⟨⟨s', s.exited⟩, ?_, after.begun.good last, running⟩
      simp only [Reader.readData, unfinished, if_true, takes, buffer, if_false, waits]

/-- With the high byte zero, the handler is called without data. -/
theorem Reader.finish_halfway_zero {s : Reader} {frames done rest : List Frame} {tag : UInt8}
    {payload : List UInt8} (halfway : s.ctrl.Halfway frames done tag payload rest)
    (zero : highByte payload = 0) (n : ℕ) :
    s.readData n = .ok s ∧ ¬ Faithful frames { s with ctrl := s.ctrl.passOn } := by
  obtain ⟨begun, cmd⟩ := halfway
  constructor
  · simp only [Reader.readData, cmd, zero, UInt8.toNat_zero, Nat.zero_shiftLeft, Nat.lt_irrefl, if_false]
  · rintro ⟨-, handled⟩
    -- the frame is not whole, so its call is one too many
    have here := (begun.good (List.cons_ne_nil _ _)).standing.completed
    simp only [Control.passOn, begun.handled, here] at handled
    have length := congrArg List.length handled
    rw [List.length_append, List.length_singleton] at length
    omega

/-- With another high byte, the read of the data goes to a null pointer. -/
theorem Reader.finish_halfway_nonzero {s : Reader} {frames done rest : List Frame} {tag : UInt8}
    {payload : List UInt8} (halfway : s.ctrl.Halfway frames done tag payload rest)
    (nonzero : highByte payload ≠ 0) (n : ℕ) :
    s.readData n = .error (if 0 < n then { s with exited := true } else s) := by
  obtain ⟨⟨cmd, input, calls⟩, exited⟩ := s
  obtain ⟨begun, whole⟩ := halfway
  have input := begun.input
  simp only at whole input
  subst whole input
  obtain ⟨length, same⟩ : ∃ length, (highByte payload).toNat <<< 8 = length + 1 := by
    have : (highByte payload).toNat ≠ 0 := fun zero => nonzero (UInt8.toNat_inj.mp zero)
    refine ⟨(highByte payload).toNat <<< 8 - 1, ?_⟩
    rw [Nat.shiftLeft_eq]
    omega
  rw [same]
  obtain _ | n := n <;> simp [Reader.readData, Control.takeData]

/-- A command with data keeps its place, or is passed on with all of its data, exactly if its length is not
torn. -/
theorem Reader.finish_withData {s : Reader} {frames done rest : List Frame} {tag : UInt8}
    {payload more : List UInt8} (begun : s.ctrl.Begun frames done ⟨tag, some payload⟩ rest more)
    (running : s.exited = false) (fits : Fits commandTable ⟨tag, some payload⟩) (left : more ≠ [])
    (g : Grants) :
    (¬ (s.ctrl.cmd.gotdatalen = 0 ∧ g.len = 1 ∧ (highByte payload = 0 ∨ 0 < g.data)) ∧
      ∃ done', (returned (s.finish true g)).Good frames done') ∨
      (s.ctrl.cmd.gotdatalen = 0 ∧ g.len = 1 ∧ (highByte payload = 0 ∨ 0 < g.data)) ∧
        ¬ Faithful frames (returned (s.finish true g)) := by
  -- from a whole length, the data is read
  have fill : ∀ {s' : Reader} {got more' : List UInt8}, s.readLength true g.len = .ok s' →
      s'.exited = false → more' ≠ [] → s'.ctrl.Filling frames done tag rest got more' →
      ∃ done', (returned (s.finish true g)).Good frames done' := by
    intro s' got more' reads running left filling
    simp only [Reader.finish, reads, bind, Except.bind]
    obtain ⟨s'', waits, good⟩ | ⟨s'', fills, running, full⟩ := s'.readData_filling filling left running g.data
    · exact ⟨done, by simpa only [waits, returned] using good⟩
    · refine ⟨done ++ [⟨tag, some (got ++ more')⟩], ?_⟩
      simp only [fills, returned, pure, Except.pure]
      exact ⟨full.passOn, running⟩
  have bounds := fits.length payload rfl
  by_cases unread : s.ctrl.cmd.gotdatalen < 2
  · obtain ⟨waits, none⟩ | ⟨s', takes, both, -, filling⟩ | ⟨first, one, s', takes, halfway⟩ :=
      begun.takeLength unread bounds g.len
    · refine Or.inl ⟨fun torn => absurd torn.2.1 (by omega), done, ?_⟩
      simpa [Reader.finish, Reader.readLength, unread, waits, bind, Except.bind, returned]
        using (⟨begun.good left, running⟩ : s.Good frames done)
    · refine Or.inl ⟨fun torn => both torn.1 torn.2.1, ?_⟩
      have reads : s.readLength true g.len = .ok { s with ctrl := s' } := by
        simp only [Reader.readLength, unread, and_self, if_true, takes]
      exact fill reads running (List.length_pos_iff.mp bounds.1) filling
    · have reads : s.readLength true g.len = .ok { s with ctrl := s' } := by
        simp only [Reader.readLength, unread, and_self, if_true, takes]
      simp only [Reader.finish, reads, bind, Except.bind]
      by_cases zero : highByte payload = 0
      · obtain ⟨fills, early⟩ := Reader.finish_halfway_zero (s := ⟨s', s.exited⟩) halfway zero g.data
        refine Or.inr ⟨⟨first, one, Or.inl zero⟩, ?_⟩
        simpa only [fills, returned, pure, Except.pure] using early
      · simp only [Reader.finish_halfway_nonzero (s := ⟨s', s.exited⟩) halfway zero g.data, returned]
        by_cases some : 0 < g.data
        · refine Or.inr ⟨⟨first, one, Or.inr some⟩, fun faithful => ?_⟩
          rw [if_pos some] at faithful
          exact absurd faithful.1 (by simp)
        · refine Or.inl ⟨fun torn => torn.2.2.elim zero some, done, ?_⟩
          rw [if_neg some]
          exact ⟨halfway.begun.good (List.cons_ne_nil _ _), running⟩
  · obtain ⟨got, whole, filling⟩ := begun.filling unread
    refine Or.inl ⟨fun torn => absurd torn.1 (by omega), ?_⟩
    have reads : s.readLength true g.len = .ok s := by
      simp only [Reader.readLength, unread, and_false, if_false]
    exact fill reads running left filling

/-- A call keeps up, exactly if it does not find the length torn. -/
theorem Reader.Good.readCtrl {s : Reader} {frames done : List Frame} (good : s.Good frames done)
    (fits : ∀ frame ∈ frames, Fits commandTable frame) (g : Grants) :
    (¬ Torn s g ∧ ∃ done', (readCtrl s g).Good frames done') ∨
      (Torn s g ∧ ¬ Faithful frames (readCtrl s g)) := by
  obtain ⟨s', waits, same⟩ | ⟨s', frame, rest, more, begins, running, left, begun⟩ :=
    good.readCommand fits g.command
  · rw [readCtrl_waits good.running waits]
    refine Or.inl ⟨?_, done, same⟩
    rintro ⟨tag, high, bytes, here, -⟩
    obtain ⟨_, begins, -⟩ := atLength_eq_some.mp here
    rw [waits] at begins
    cases begins
  · have known := fits frame (by simp [begun.split])
    have found : commandTable.lookup s'.ctrl.cmd.command = some frame.payload.isSome := by
      rw [begun.within.command, known.known]
    rw [readCtrl_begins good.running begins found]
    obtain ⟨tag, _ | payload⟩ := frame
    · refine Or.inl ⟨?_, _, Reader.finish_dataless begun running g⟩
      rintro ⟨tag', high, bytes, here, data, -⟩
      obtain ⟨_, begins', -, rfl, -⟩ := atLength_eq_some.mp here
      obtain rfl := Except.ok.inj (begins.symm.trans begins')
      rw [found] at data
      cases data
    · have torn : Torn s g ↔
          s'.ctrl.cmd.gotdatalen = 0 ∧ g.len = 1 ∧ (highByte payload = 0 ∨ 0 < g.data) := by
        constructor
        · rintro ⟨tag', high, bytes, here, data, one, cut⟩
          obtain ⟨_, begins', unread, -, input⟩ := atLength_eq_some.mp here
          obtain rfl := Except.ok.inj (begins.symm.trans begins')
          rw [begun.length_next unread] at input
          obtain ⟨rfl, -⟩ := List.cons.inj input
          exact ⟨unread, one, cut⟩
        · rintro ⟨unread, one, cut⟩
          exact ⟨tag, highByte payload, _, atLength_eq_some.mpr ⟨s', begins, unread, begun.within.command,
            begun.length_next unread⟩, known.known, one, cut⟩
      rw [torn]
      exact Reader.finish_withData begun running known (left (by simp)) g

/-! ### Every way of cutting the stream -/

theorem Reader.run_take_succ (s : Reader) (calls : List Grants) (k : ℕ) {g : Grants} (call : calls[k]? = some g) :
    s.run (calls.take (k + 1)) = Servlink.readCtrl (s.run (calls.take k)) g := by
  rw [Reader.run, List.take_add_one, call, Option.toList_some, List.foldl_append]
  rfl

/-- Up to any call, the reader keeps up as long as no call finds the length torn. -/
theorem Reader.Good.run {s : Reader} {frames done : List Frame} (good : s.Good frames done)
    (fits : ∀ frame ∈ frames, Fits commandTable frame) (calls : List Grants) (k : ℕ)
    (whole : ∀ j < k, ∀ g, calls[j]? = some g → ¬ Torn (s.run (calls.take j)) g) :
    ∃ done', (s.run (calls.take k)).Good frames done' := by
  induction k with
  | zero => exact ⟨done, good⟩
  | succ k ih =>
    obtain ⟨done', before⟩ := ih fun j earlier => whole j (Nat.lt_succ_of_lt earlier)
    cases call : calls[k]? with
    | none =>
      rw [List.take_add_one, call, Option.toList_none, List.append_nil]
      exact ⟨done', before⟩
    | some g =>
      rw [s.run_take_succ calls k call]
      obtain ⟨-, after⟩ | ⟨torn, -⟩ := before.readCtrl fits g
      · exact after
      · exact absurd torn (whole k (Nat.lt_succ_self k) g call)

/-- For every stream of commands and every way of cutting it, the handlers are called with the commands and
their whole data, each once and in order, exactly if no call finds the length of a command torn. -/
theorem readCtrl_faithful_iff (frames : List Frame) (fits : ∀ frame ∈ frames, Fits commandTable frame)
    (calls : List Grants) :
    (∀ k, Faithful frames ((Reader.start (encodeAll frames)).run (calls.take k))) ↔
      ∀ k g, calls[k]? = some g → ¬ Torn ((Reader.start (encodeAll frames)).run (calls.take k)) g := by
  have start : (Reader.start (encodeAll frames)).Good frames [] :=
    ⟨⟨Standing.between rfl rfl, rfl⟩, rfl⟩
  constructor
  · intro faithful k
    -- by strong induction, the reader is in order when the call comes
    induction k using Nat.strongRecOn with
    | ind k ih =>
      intro g call torn
      obtain ⟨done, good⟩ := start.run fits calls k ih
      obtain ⟨kept, -⟩ | ⟨-, lost⟩ := good.readCtrl fits g
      · exact kept torn
      · exact lost ((Reader.run_take_succ _ calls k call) ▸ faithful (k + 1))
  · intro whole k
    obtain ⟨done, good⟩ := start.run fits calls k fun j _ => whole j
    exact good.faithful

/-- A compression level, in one piece. -/
theorem readCtrl_faithful_iff_level :
    (∀ k, Faithful [⟨cmdSetZipOutLevel, some [6]⟩]
        ((Reader.start (encodeAll [⟨cmdSetZipOutLevel, some [6]⟩])).run ([⟨1, 2, 1⟩].take k))) ↔
      ∀ k g, [(⟨1, 2, 1⟩ : Grants)][k]? = some g →
        ¬ Torn ((Reader.start (encodeAll [⟨cmdSetZipOutLevel, some [6]⟩])).run ([⟨1, 2, 1⟩].take k)) g := by
  apply readCtrl_faithful_iff
  intro frame member
  rw [List.mem_singleton] at member
  subst member
  refine ⟨by decide, by decide, fun payload same => ?_⟩
  obtain rfl := Option.some.inj same
  decide

/-- A compression level, cut behind the first byte of its length: the level is read from a null pointer. -/
theorem readCtrl_torn :
    ¬ ∀ frames : List Frame, (∀ frame ∈ frames, Fits commandTable frame) → ∀ calls : List Grants, ∀ k,
      Faithful frames ((Reader.start (encodeAll frames)).run (calls.take k)) := by
  intro claim
  have fits : ∀ frame ∈ [(⟨cmdSetZipOutLevel, some [6]⟩ : Frame)], Fits commandTable frame := by
    intro frame member
    rw [List.mem_singleton] at member
    subst member
    refine ⟨by decide, by decide, fun payload same => ?_⟩
    obtain rfl := Option.some.inj same
    decide
  obtain ⟨-, handled⟩ := claim _ fits [⟨1, 1, 0⟩] 1
  revert handled
  decide

end Ircd.Servlink
