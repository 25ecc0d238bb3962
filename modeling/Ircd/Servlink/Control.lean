import Ircd.Lib.Frames

/-!
# The control pipe of servlink

Commands go from the server to `servlink`, and replies come back. `read_ctrl` of `servlink/io.c` takes the
commands apart, and `read_ctrl_packet` of `packet.c` the replies. Each goes on where the call before
stopped, with at most three reads: one for the command, one for the length and one for the data.
-/
namespace Ircd.Servlink

open Frames

/-- `struct ctrl_command` of `servlink/control.h`, and `struct SlinkRpl` of `include/s_serv.h`, which has
the same fields. `data` is `none` for a null pointer, and otherwise the bytes that have been read. -/
structure CtrlCommand where
  command : UInt8
  datalen : ℕ
  gotdatalen : ℕ
  readdata : ℕ
  data : Option (List UInt8)
deriving DecidableEq

def noCommand : CtrlCommand := ⟨0, 0, 0, 0, none⟩

def cmdSetZipOutLevel : UInt8 := 1
def cmdStartZipOut : UInt8 := 2
def cmdStartZipIn : UInt8 := 3
def cmdSetCryptInCipher : UInt8 := 4
def cmdSetCryptInKey : UInt8 := 5
def cmdStartCryptIn : UInt8 := 6
def cmdSetCryptOutCipher : UInt8 := 7
def cmdSetCryptOutKey : UInt8 := 8
def cmdStartCryptOut : UInt8 := 9
def cmdInjectRecvq : UInt8 := 10
def cmdInjectSendq : UInt8 := 11
def cmdInit : UInt8 := 12
def cmdZipstats : UInt8 := 13

/-- `command_table`: the commands, and whether they have `COMMAND_FLAG_DATA`. -/
def commandTable : List (UInt8 × Bool) :=
  [(cmdSetZipOutLevel, true), (cmdStartZipOut, false), (cmdStartZipIn, false),
    (cmdSetCryptInCipher, true), (cmdSetCryptInKey, true), (cmdStartCryptIn, false),
    (cmdSetCryptOutCipher, true), (cmdSetCryptOutKey, true), (cmdStartCryptOut, false),
    (cmdInjectRecvq, true), (cmdInjectSendq, true), (cmdInit, false), (cmdZipstats, false)]

/-- What a reader of the pipe has: the command that is being read, what the pipe will bring, and the calls of
the handlers with the data passed. -/
structure Control where
  cmd : CtrlCommand
  input : List UInt8
  handled : List (UInt8 × List UInt8)

/-- How many bytes the reads of one call find in the pipe. -/
structure Grants where
  command : ℕ
  len : ℕ
  data : ℕ

/-- The second byte of the length. -/
def CtrlCommand.gotLow (cmd : CtrlCommand) (low : UInt8) : CtrlCommand :=
  let datalen := cmd.datalen ||| low.toNat
  { cmd with
    datalen := datalen
    gotdatalen := cmd.gotdatalen + 1
    data := if datalen > 0 then some [] else cmd.data }

/-- What the bytes of one read add to the length. -/
def CtrlCommand.gotLength (cmd : CtrlCommand) (first : UInt8) (more : List UInt8) : CtrlCommand :=
  if cmd.gotdatalen = 0 then
    let cmd := { cmd with datalen := first.toNat <<< 8, gotdatalen := 1 }
    match more with
    | [] => cmd
    | second :: _ => cmd.gotLow second
  else cmd.gotLow first

/-- The read of the command. Each read is `none` if it finds nothing. -/
def Control.takeCommand (s : Control) (n : ℕ) : Option Control :=
  match s.input.take (min 1 n) with
  | [] => none
  | tag :: _ => some { s with cmd := { s.cmd with command := tag }, input := s.input.drop 1 }

/-- The read of the length. -/
def Control.takeLength (s : Control) (n : ℕ) : Option Control :=
  match s.input.take (min (2 - s.cmd.gotdatalen) n) with
  | [] => none
  | first :: more =>
    some { s with cmd := s.cmd.gotLength first more, input := s.input.drop (more.length + 1) }

/-- The read of the data. -/
def Control.takeData (s : Control) (n : ℕ) : Option Control :=
  match s.input.take (min (s.cmd.datalen - s.cmd.readdata) n) with
  | [] => none
  | first :: more =>
    some
      { s with
        cmd := { s.cmd with
          readdata := s.cmd.readdata + (more.length + 1)
          data := s.cmd.data.map (· ++ first :: more) }
        input := s.input.drop (more.length + 1) }

/-- The call of the handler, after which the record has no command. -/
def Control.passOn (s : Control) : Control :=
  { s with
    cmd := { s.cmd with command := 0 }
    handled := s.handled ++ [(s.cmd.command, s.cmd.data.getD [])] }

/-- The command and the bytes behind it, where the call reads the length and no byte of it has been read. -/
def Control.atLength (s : Control) (g : Grants) : Option (UInt8 × List UInt8) :=
  if s.cmd.command = 0 then
    match s.input with
    | [] => none
    | tag :: bytes => if 0 < g.command then some (tag, bytes) else none
  else if s.cmd.gotdatalen = 0 then some (s.cmd.command, s.input)
  else none

/-- How many bytes the call asks for when it reads the data, if it gets there. -/
def Control.dataWanted (s : Control) (g : Grants) : Option ℕ :=
  match s.atLength g with
  | some (_, high :: low :: _) => if 2 ≤ g.len then some (high.toNat <<< 8 ||| low.toNat) else none
  | some _ => none
  | none =>
    if s.cmd.command = 0 then none
    else if s.cmd.gotdatalen = 1 then
      match s.input with
      | [] => none
      | low :: _ => if 1 ≤ g.len then some (s.cmd.datalen ||| low.toNat) else none
    else some (s.cmd.datalen - s.cmd.readdata)

/-! ### Where a reader stands -/

/-- A frame that a table knows: its tag is in the table, and it has data as the table says, of a length
that is not zero and that two bytes can hold. -/
structure Fits (table : List (UInt8 × Bool)) (frame : Frame) : Prop where
  tag : frame.tag ≠ 0
  known : table.lookup frame.tag = some frame.payload.isSome
  length : ∀ payload, frame.payload = some payload → 0 < payload.length ∧ payload.length < 65536

/-- What a handler is called with. -/
def callOf (frame : Frame) : UInt8 × List UInt8 := (frame.tag, frame.payload.getD [])

/-- The two bytes in front of a payload. -/
def highByte (payload : List UInt8) : UInt8 := (payload.length >>> 8).toUInt8

def lowByte (payload : List UInt8) : UInt8 := (payload.length &&& 0xff).toUInt8

/-- The record within a frame, and what is left of the frame. -/
inductive Within : CtrlCommand → Frame → List UInt8 → Prop where
  | tag (frame : Frame) (datalen : ℕ) (reset : frame.payload = none → datalen = 0) :
    Within ⟨frame.tag, datalen, 0, 0, none⟩ frame frame.encode.tail
  | high (tag : UInt8) (payload : List UInt8) :
    Within ⟨tag, (highByte payload).toNat <<< 8, 1, 0, none⟩ ⟨tag, some payload⟩
      (lowByte payload :: payload)
  | data (tag : UInt8) (got more : List UInt8) :
    Within ⟨tag, (got ++ more).length, 2, got.length, some got⟩ ⟨tag, some (got ++ more)⟩ more

/-- The reader has done the frames `done`, and stands between two frames or within one. -/
inductive Standing (frames : List Frame) : CtrlCommand → List UInt8 → List Frame → Prop where
  | between {cmd : CtrlCommand} {done rest : List Frame} (split : frames = done ++ rest)
    (idle : cmd.command = 0) : Standing frames cmd (encodeAll rest) done
  | inside {cmd : CtrlCommand} {done rest : List Frame} {frame : Frame} {more : List UInt8}
    (split : frames = done ++ frame :: rest) (within : Within cmd frame more) (left : more ≠ []) :
    Standing frames cmd (more ++ encodeAll rest) done

theorem Within.command {cmd : CtrlCommand} {frame : Frame} {more : List UInt8}
    (within : Within cmd frame more) : cmd.command = frame.tag := by
  cases within <;> rfl

/-- What is left is the end of the frame. -/
theorem Within.suffix {cmd : CtrlCommand} {frame : Frame} {more : List UInt8}
    (within : Within cmd frame more) : ∃ taken, taken ++ more = frame.encode := by
  cases within with
  | tag frame datalen reset =>
    obtain ⟨tag, _ | payload⟩ := frame
    · exact ⟨[tag], rfl⟩
    · exact ⟨[tag], rfl⟩
  | high tag payload => exact ⟨[tag, highByte payload], rfl⟩
  | data tag got more =>
    refine ⟨tag :: highByte (got ++ more) :: lowByte (got ++ more) :: got, ?_⟩
    simp [Frame.encode, highByte, lowByte]

/-- The frames done are those that are whole among the bytes taken. -/
theorem Standing.completed {frames done : List Frame} {cmd : CtrlCommand} {left : List UInt8}
    (standing : Standing frames cmd left done) :
    completed frames ((encodeAll frames).length - left.length) = done := by
  cases standing with
  | between split idle =>
    rw [split]
    exact (At.between done _).completed
  | inside split within some =>
    obtain ⟨taken, whole⟩ := within.suffix
    rw [split]
    exact (At.inside done _ whole some).completed

/-! ### What a read brings -/

theorem gotLength_high (tag : UInt8) (datalen : ℕ) (payload : List UInt8) :
    (CtrlCommand.mk tag datalen 0 0 none).gotLength (highByte payload) [] =
      ⟨tag, (highByte payload).toNat <<< 8, 1, 0, none⟩ := rfl

theorem gotLow_eq (tag : UInt8) {payload : List UInt8} (some : 0 < payload.length)
    (short : payload.length < 65536) :
    (CtrlCommand.mk tag ((highByte payload).toNat <<< 8) 1 0 none).gotLow (lowByte payload) =
      ⟨tag, payload.length, 2, 0, Option.some []⟩ := by
  have length : (highByte payload).toNat <<< 8 ||| (lowByte payload).toNat = payload.length :=
    length_of_bytes short
  simp [CtrlCommand.gotLow, length, some]

theorem gotLength_both (tag : UInt8) (datalen : ℕ) {payload : List UInt8} (some : 0 < payload.length)
    (short : payload.length < 65536) :
    (CtrlCommand.mk tag datalen 0 0 none).gotLength (highByte payload) [lowByte payload] =
      ⟨tag, payload.length, 2, 0, Option.some []⟩ :=
  gotLow_eq tag some short

theorem gotLength_low (tag : UInt8) {payload : List UInt8} (some : 0 < payload.length)
    (short : payload.length < 65536) :
    (CtrlCommand.mk tag ((highByte payload).toNat <<< 8) 1 0 none).gotLength (lowByte payload) [] =
      ⟨tag, payload.length, 2, 0, Option.some []⟩ :=
  gotLow_eq tag some short

/-- The bytes of commands that a table knows say which commands they are. -/
theorem encodeAll_injective {table : List (UInt8 × Bool)} {frames frames' : List Frame}
    (fits : ∀ frame ∈ frames, Fits table frame) (fits' : ∀ frame ∈ frames', Fits table frame)
    (same : encodeAll frames = encodeAll frames') : frames = frames' := by
  induction frames generalizing frames' with
  | nil =>
    cases frames' with
    | nil => rfl
    | cons frame' rest' =>
      have none := congrArg List.length same
      rw [encodeAll_cons, List.length_append, encodeAll_nil, List.length_nil] at none
      have := frame'.encode_length_pos
      omega
  | cons frame rest ih =>
    cases frames' with
    | nil =>
      have none := congrArg List.length same
      rw [encodeAll_cons, List.length_append, encodeAll_nil, List.length_nil] at none
      have := frame.encode_length_pos
      omega
    | cons frame' rest' =>
      have known := fits frame (by simp)
      have known' := fits' frame' (by simp)
      have behind := fun eq => ih (fun other member => fits other (List.mem_cons_of_mem _ member))
        (fun other member => fits' other (List.mem_cons_of_mem _ member)) eq
      obtain ⟨tag, payload⟩ := frame
      obtain ⟨tag', payload'⟩ := frame'
      rw [encodeAll_cons, encodeAll_cons] at same
      cases payload with
      | none =>
        cases payload' with
        | none =>
          obtain ⟨rfl, left⟩ := List.cons.inj same
          rw [behind left]
        | some payload' =>
          obtain ⟨rfl, -⟩ := List.cons.inj same
          exact absurd (known.known.symm.trans known'.known) (by simp)
      | some payload =>
        cases payload' with
        | none =>
          obtain ⟨rfl, -⟩ := List.cons.inj same
          exact absurd (known.known.symm.trans known'.known) (by simp)
        | some payload' =>
          obtain ⟨rfl, left⟩ := List.cons.inj same
          obtain ⟨high, left⟩ := List.cons.inj left
          obtain ⟨low, left⟩ := List.cons.inj left
          -- the length bytes agree, so the payloads are cut at the same place
          have length : payload.length = payload'.length := by
            rw [← length_of_bytes (known.length payload rfl).2, high, low,
              length_of_bytes (known'.length payload' rfl).2]
          obtain ⟨rfl, tails⟩ := List.append_inj left length
          rw [behind tails]

/-- A read of the length finds nothing, the first of two bytes, or all that is needed. -/
theorem Within.readLength {cmd : CtrlCommand} {tag : UInt8} {payload more : List UInt8}
    (within : Within cmd ⟨tag, some payload⟩ more) (unread : cmd.gotdatalen < 2)
    (bounds : 0 < payload.length ∧ payload.length < 65536) (rest : List UInt8) (n : ℕ) :
    ((more ++ rest).take (min (2 - cmd.gotdatalen) n) = [] ∧ n = 0) ∨
      ((more ++ rest).take (min (2 - cmd.gotdatalen) n) = [highByte payload] ∧
        cmd.gotdatalen = 0 ∧ n = 1 ∧ more = highByte payload :: lowByte payload :: payload ∧
        cmd.gotLength (highByte payload) [] = ⟨tag, (highByte payload).toNat <<< 8, 1, 0, none⟩ ∧
        (more ++ rest).drop 1 = lowByte payload :: payload ++ rest) ∨
      ∃ first others, (more ++ rest).take (min (2 - cmd.gotdatalen) n) = first :: others ∧
        (cmd.gotdatalen = 0 → n ≠ 1) ∧
        cmd.gotLength first others = ⟨tag, payload.length, 2, 0, some []⟩ ∧
        (more ++ rest).drop (others.length + 1) = payload ++ rest := by
  obtain ⟨some, short⟩ := bounds
  generalize whole : (⟨tag, Option.some payload⟩ : Frame) = frame at within
  cases within with
  | tag _ datalen reset =>
    subst whole
    obtain _ | _ | n := n
    · exact Or.inl ⟨by simp, rfl⟩
    · exact Or.inr (Or.inl ⟨rfl, rfl, rfl, rfl, gotLength_high tag datalen payload, rfl⟩)
    · refine Or.inr (Or.inr ⟨highByte payload, [lowByte payload], ?_, fun _ => by simp,
        gotLength_both tag datalen some short, rfl⟩)
      simp [Frame.encode, highByte, lowByte]
  | high _ payload' =>
    obtain ⟨rfl, same⟩ := Frame.mk.inj whole
    obtain rfl := Option.some.inj same
    obtain _ | n := n
    · exact Or.inl ⟨by simp, rfl⟩
    · exact Or.inr (Or.inr ⟨lowByte payload, [], by simp, fun none => absurd none (by simp),
        gotLength_low tag some short, rfl⟩)
  | data _ got more => exact absurd unread (Nat.lt_irrefl 2)

/-- With both bytes of the length, the reader fills in the data. -/
theorem Within.filled {cmd : CtrlCommand} {tag : UInt8} {payload more : List UInt8}
    (within : Within cmd ⟨tag, some payload⟩ more) (read : ¬ cmd.gotdatalen < 2) :
    ∃ got, payload = got ++ more ∧ cmd = ⟨tag, (got ++ more).length, 2, got.length, some got⟩ := by
  generalize whole : (⟨tag, Option.some payload⟩ : Frame) = frame at within
  cases within with
  | tag _ datalen reset => exact absurd (Nat.zero_lt_succ 1) read
  | high _ payload' => exact absurd (Nat.lt_succ_self 1) read
  | data _ got more =>
    obtain ⟨rfl, same⟩ := Frame.mk.inj whole
    exact ⟨got, Option.some.inj same, rfl⟩

/-- A read of the data brings at most what is left of it. -/
theorem take_needed (got more rest : List UInt8) (n : ℕ) :
    (more ++ rest).take (min ((got ++ more).length - got.length) n) = more.take n := by
  rw [List.length_append, Nat.add_sub_cancel_left, List.take_append_of_le_length (Nat.min_le_left _ _),
    List.take_eq_take_iff]
  omega

theorem drop_needed (more rest : List UInt8) (n : ℕ) :
    (more ++ rest).drop (more.take n).length = more.drop n ++ rest := by
  conv_lhs => rw [← List.take_append_drop n more, List.append_assoc]
  rw [List.take_append_drop, List.drop_left]

/-! ### A reader at work -/

/-- The reader is within a frame, and has passed on the frames before it. -/
structure Control.Begun (s : Control) (frames done : List Frame) (frame : Frame) (rest : List Frame)
    (more : List UInt8) : Prop where
  split : frames = done ++ frame :: rest
  within : Within s.cmd frame more
  input : s.input = more ++ encodeAll rest
  handled : s.handled = done.map callOf

/-- The reader has passed on the frames that are done. -/
structure Control.Good (s : Control) (frames done : List Frame) : Prop where
  standing : Standing frames s.cmd s.input done
  handled : s.handled = done.map callOf

/-- The reader has the command and one byte of the length. -/
structure Control.Halfway (s : Control) (frames done : List Frame) (tag : UInt8) (payload : List UInt8)
    (rest : List Frame) : Prop where
  begun : s.Begun frames done ⟨tag, some payload⟩ rest (lowByte payload :: payload)
  cmd : s.cmd = ⟨tag, (highByte payload).toNat <<< 8, 1, 0, none⟩

/-- The reader has the command and the length, and `got` of the data. -/
structure Control.Filling (s : Control) (frames done : List Frame) (tag : UInt8) (rest : List Frame)
    (got more : List UInt8) : Prop where
  begun : s.Begun frames done ⟨tag, some (got ++ more)⟩ rest more
  cmd : s.cmd = ⟨tag, (got ++ more).length, 2, got.length, some got⟩

section

variable {table : List (UInt8 × Bool)} {s : Control} {frames done rest : List Frame} {tag : UInt8} {payload got more : List UInt8}

theorem Control.Begun.good {frame : Frame} (begun : s.Begun frames done frame rest more)
    (left : more ≠ []) : s.Good frames done := by
  refine ⟨?_, begun.handled⟩
  rw [begun.input]
  exact Standing.inside begun.split begun.within left

/-- With a command in the record, the reader is within a frame. -/
theorem Control.Good.begun (good : s.Good frames done) (busy : s.cmd.command ≠ 0) :
    ∃ frame rest more, more ≠ [] ∧ s.Begun frames done frame rest more := by
  obtain ⟨cmd, input, calls⟩ := s
  obtain ⟨standing, handled⟩ := good
  simp only at standing handled busy
  cases standing with
  | between split idle => exact absurd idle busy
  | @inside _ rest frame more split within left =>
    exact ⟨frame, rest, more, left, split, within, rfl, handled⟩

/-- Without a command in the record, its other fields are free. -/
theorem Control.Good.reset (good : s.Good frames done) (fits : ∀ frame ∈ frames, Fits table frame)
    (idle : s.cmd.command = 0) {cmd : CtrlCommand} (still : cmd.command = 0) :
    Control.Good { s with cmd := cmd } frames done := by
  obtain ⟨cmd', input, calls⟩ := s
  obtain ⟨standing, handled⟩ := good
  refine ⟨?_, handled⟩
  simp only at standing idle ⊢
  cases standing with
  | between split _ => exact Standing.between split still
  | inside split within left =>
    exact absurd (within.command.symm.trans idle) (fits _ (by simp [split])).tag

theorem encode_eq (frame : Frame) : frame.encode = frame.tag :: frame.encode.tail := by
  obtain ⟨tag, _ | payload⟩ := frame <;> rfl

/-- Before the command byte is there, nothing is lost. With it, a frame has begun. -/
theorem Control.Good.takeCommand {datalen : ℕ} (good : s.Good frames done)
    (idle : s.cmd = ⟨0, datalen, 0, 0, none⟩) (fits : ∀ frame ∈ frames, Fits table frame)
    (reset : ∀ frame ∈ frames, frame.payload = none → datalen = 0) (n : ℕ) :
    s.takeCommand n = none ∨
      ∃ s' frame rest more, s.takeCommand n = some s' ∧ 0 < n ∧ s.input = frame.tag :: s'.input ∧
        s'.cmd = ⟨frame.tag, datalen, 0, 0, none⟩ ∧
        (frame.payload ≠ none → more ≠ []) ∧ s'.Begun frames done frame rest more := by
  obtain ⟨cmd, input, calls⟩ := s
  obtain ⟨standing, handled⟩ := good
  simp only at standing handled idle
  subst handled idle
  generalize same : (⟨0, datalen, 0, 0, none⟩ : CtrlCommand) = cmd at standing
  cases standing with
  | @between _ rest split idle =>
    subst same
    cases rest with
    | nil => exact Or.inl (by simp [Control.takeCommand])
    | cons frame rest =>
      rw [encodeAll_cons, encode_eq, List.cons_append]
      obtain _ | n := n
      · exact Or.inl (by simp [Control.takeCommand])
      · refine Or.inr ⟨⟨⟨frame.tag, datalen, 0, 0, none⟩, frame.encode.tail ++ encodeAll rest, done.map callOf⟩,
          frame, rest, frame.encode.tail, ?_, Nat.succ_pos n, rfl, rfl, fun data => ?_,
          split, Within.tag frame datalen (reset frame (by simp [split])), rfl, rfl⟩
        · simp [Control.takeCommand]
        · obtain ⟨tag, _ | payload⟩ := frame
          · exact absurd rfl data
          · simp [Frame.encode]
  | inside split within left =>
    exact absurd (within.command.symm.trans (same ▸ rfl)) (fits _ (by simp [split])).tag

/-- The read of the length waits, brings all of it, or brings one byte of two. -/
theorem Control.Begun.takeLength {more : List UInt8}
    (begun : s.Begun frames done ⟨tag, some payload⟩ rest more) (unread : s.cmd.gotdatalen < 2)
    (bounds : 0 < payload.length ∧ payload.length < 65536) (n : ℕ) :
    (s.takeLength n = none ∧ n = 0) ∨
      (∃ s', s.takeLength n = some s' ∧ (s.cmd.gotdatalen = 0 → n ≠ 1) ∧ 0 < n ∧
        s'.Filling frames done tag rest [] payload) ∨
      (s.cmd.gotdatalen = 0 ∧ n = 1 ∧
        ∃ s', s.takeLength n = some s' ∧ s'.Halfway frames done tag payload rest) := by
  have outcome := begun.within.readLength unread bounds (encodeAll rest) n
  rw [← begun.input] at outcome
  obtain ⟨empty, rfl⟩ | ⟨one, first, rfl, whole, cmd, input⟩ | ⟨first, others, read, both, cmd, input⟩ := outcome
  · left
    refine ⟨?_, rfl⟩
    simp only [Control.takeLength, empty]
  · -- one byte of two
    right
    right
    refine ⟨first, rfl,
      ⟨⟨tag, (highByte payload).toNat <<< 8, 1, 0, none⟩, lowByte payload :: payload ++ encodeAll rest, s.handled⟩,
      ?_, ⟨begun.split, Within.high tag payload, rfl, begun.handled⟩, rfl⟩
    simp only [Control.takeLength, one, cmd, List.length_nil, Nat.zero_add, input]
  · right
    left
    refine ⟨⟨⟨tag, payload.length, 2, 0, some []⟩, payload ++ encodeAll rest, s.handled⟩, ?_, both, ?_,
      ⟨begun.split, Within.data tag [] payload, rfl, begun.handled⟩, rfl⟩
    · simp only [Control.takeLength, read, cmd, input]
    · by_contra none
      simp [Nat.eq_zero_of_not_pos none] at read

/-- Where no byte of the length has been read, it is the next to come. -/
theorem Control.Begun.length_next {more : List UInt8}
    (begun : s.Begun frames done ⟨tag, some payload⟩ rest more) (unread : s.cmd.gotdatalen = 0) :
    s.input = highByte payload :: lowByte payload :: payload ++ encodeAll rest := by
  have within := begun.within
  rw [begun.input]
  generalize whole : (⟨tag, some payload⟩ : Frame) = frame at within
  generalize s.cmd = cmd at within unread
  cases within with
  | tag _ datalen reset =>
    subst whole
    rfl
  | high => cases unread
  | data => cases unread

/-- With both bytes of the length, the reader fills in the data. -/
theorem Control.Begun.filling {more : List UInt8}
    (begun : s.Begun frames done ⟨tag, some payload⟩ rest more) (read : ¬ s.cmd.gotdatalen < 2) :
    ∃ got, payload = got ++ more ∧ s.Filling frames done tag rest got more := by
  obtain ⟨got, rfl, cmd⟩ := begun.within.filled read
  exact ⟨got, rfl, begun, cmd⟩

/-- Data is missing as long as the record says so. -/
theorem Control.Filling.unfinished_iff (filling : s.Filling frames done tag rest got more) :
    s.cmd.readdata < s.cmd.datalen ↔ more ≠ [] := by
  rw [filling.cmd, ← List.length_pos_iff]
  simp only [List.length_append]
  omega

/-- The read of the data waits, or adds to what is there. -/
theorem Control.Filling.takeData (filling : s.Filling frames done tag rest got more) (left : more ≠ [])
    (n : ℕ) :
    (s.takeData n = none ∧ n = 0) ∨
      ∃ s' got', s.takeData n = some s' ∧ 0 < n ∧ got' ++ more.drop n = got ++ more ∧
        s'.Filling frames done tag rest got' (more.drop n) := by
  obtain ⟨cmd, input, calls⟩ := s
  obtain ⟨begun, whole⟩ := filling
  obtain ⟨split, -, input, handled⟩ := begun
  simp only at whole input handled
  subst whole input handled
  have read := take_needed got more (encodeAll rest) n
  cases taken : more.take n with
  | nil =>
    left
    refine ⟨?_, ?_⟩
    · simp only [Control.takeData, read, taken]
    · exact (List.take_eq_nil_iff.mp taken).resolve_right left
  | cons first others =>
    -- the bytes taken go behind those that are there
    have whole : (got ++ first :: others) ++ more.drop n = got ++ more := by
      rw [List.append_assoc, ← taken, List.take_append_drop]
    have input : (more ++ encodeAll rest).drop (others.length + 1) = more.drop n ++ encodeAll rest := by
      rw [← drop_needed, taken, List.length_cons]
    have filled : (got ++ first :: others).length = got.length + (others.length + 1) := by
      rw [List.length_append, List.length_cons]
    right
    refine ⟨⟨⟨tag, (got ++ more).length, 2, got.length + (others.length + 1), some (got ++ first :: others)⟩,
      more.drop n ++ encodeAll rest, done.map callOf⟩, got ++ first :: others, ?_, ?_, whole, ?_⟩
    · simp only [Control.takeData, read, taken, input, Option.map_some]
    · by_contra none
      simp [Nat.eq_zero_of_not_pos none] at taken
    · rw [← whole, ← filled]
      exact ⟨⟨whole ▸ split, Within.data tag _ _, rfl, rfl⟩, rfl⟩

/-- The call of the handler ends the frame. -/
theorem Control.Begun.passOn {frame : Frame} (begun : s.Begun frames done frame rest [])
    (data : s.cmd.data.getD [] = frame.payload.getD []) : s.passOn.Good frames (done ++ [frame]) := by
  refine ⟨?_, ?_⟩
  · have split : frames = (done ++ [frame]) ++ rest := by
      rw [begun.split, List.append_assoc, List.singleton_append]
    have standing : Standing frames { s.cmd with command := 0 } (encodeAll rest) (done ++ [frame]) :=
      Standing.between split rfl
    simpa only [Control.passOn, begun.input, List.nil_append] using standing
  · simp only [Control.passOn, begun.handled, begun.within.command, data, List.map_append, List.map_cons,
      List.map_nil, callOf]

theorem Control.Filling.passOn (filling : s.Filling frames done tag rest got []) :
    s.passOn.Good frames (done ++ [⟨tag, some got⟩]) := by
  have begun := filling.begun
  rw [List.append_nil] at begun
  exact begun.passOn (by rw [filling.cmd])

end

end Ircd.Servlink
