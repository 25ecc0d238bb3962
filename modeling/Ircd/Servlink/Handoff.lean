import Ircd.Servlink.Control
import Ircd.Linebuf.RawLines
import Ircd.Linebuf.SharedLines

/-!
# Handing a link to servlink

`start_io` of `s_serv.c` makes the commands for a new `servlink`: the settings, then what is in the receive
queue and in the send queue, and then the command to start. It empties both queues with `linebuf_get`, which
does not look at how much of the first line has been written.
-/
namespace Ircd.Servlink

open Frames Linebuf

/-! ### The commands -/

/-- A cipher and its key. -/
structure Cipher where
  cipherid : UInt8
  key : List UInt8
  some_key : 0 < key.length
  short_key : key.length < 256

/-- The compression level with `CAP_ZIP`, and the ciphers for input and output with `CAP_ENC`. -/
structure Settings where
  zip : Option UInt8
  crypt : Option (Cipher × Cipher)

/-- The commands for `CAP_ZIP`. -/
def zipSettings (level : UInt8) : List UInt8 :=
  [cmdSetZipOutLevel, 0, 1, level, cmdStartZipIn, cmdStartZipOut]

/-- The commands for `CAP_ENC`. -/
def cryptSettings (input output : Cipher) : List UInt8 :=
  [cmdSetCryptInCipher, 0, 1, input.cipherid] ++
    [cmdSetCryptInKey, 0, input.key.length.toUInt8] ++ input.key ++
    [cmdSetCryptOutCipher, 0, 1, output.cipherid] ++
    [cmdSetCryptOutKey, 0, output.key.length.toUInt8] ++ output.key ++
    [cmdStartCryptIn, cmdStartCryptOut]

def Settings.bytes (settings : Settings) : List UInt8 :=
  (match settings.zip with
    | none => []
    | some level => zipSettings level) ++
  match settings.crypt with
  | none => []
  | some (input, output) => cryptSettings input output

/-- The two loops of `start_io`: what `get` takes from a queue is sent with this command, until there is no
more. -/
def inject {σ : Type} (get : σ → Option (List UInt8 × σ)) (cmd : UInt8) : ℕ → σ → List UInt8 × σ
  | 0, queue => ([], queue)
  | rounds + 1, queue =>
    match get queue with
    | none => ([], queue)
    | some (line, queue) =>
      if line.length = 0 then ([], queue)
      else
        let (more, queue) := inject get cmd rounds queue
        (cmd :: (line.length >>> 8).toUInt8 :: (line.length &&& 0xff).toUInt8 :: line ++ more, queue)

/-- `linebuf_get` at the receive queue, with partial lines and raw. -/
def getRecvq (recvq : BufHead) : Option (List UInt8 × BufHead) :=
  (linebufGet recvq true true).map fun (line, recvq) => (line.buf, recvq)

section

variable {ι : Type} [DecidableEq ι]

/-- `linebuf_get` at a send queue, with partial lines and parsed. Its lines are not raw. -/
def getSendq (h : ι) (s : Queues ι) : Option (List UInt8 × Queues ι) :=
  match (s.heads h).list with
  | [] => none
  | id :: _ => some ((s.lines id).buf, linebufDoneLine s h)

/-- `start_io`: the commands, and the queues behind it. A loop goes round once for each line, and once for
the end. -/
def startIo (settings : Settings) (recvq : BufHead) (s : Queues ι) (h : ι) :
    List UInt8 × BufHead × Queues ι :=
  let (received, recvq) := inject getRecvq cmdInjectRecvq (recvq.list.length + 1) recvq
  let (unsent, s) := inject (getSendq h) cmdInjectSendq ((s.heads h).list.length + 1) s
  (settings.bytes ++ received ++ unsent ++ [cmdInit], recvq, s)

/-! ### What the commands carry -/

/-- The data of the commands of one kind. -/
def injected (cmd : UInt8) (frames : List Frame) : List UInt8 :=
  frames.flatMap fun frame => if frame.tag = cmd then frame.payload.getD [] else []

/-- The bytes are commands with their true lengths, which carry what was received and not parsed, and with
what has been written everything that was queued. -/
def HandsOver (slinkq : List UInt8) (intake : Intake) (written queued : List UInt8) : Prop :=
  ∃ frames, slinkq = encodeAll frames ∧ (∀ frame ∈ frames, Fits commandTable frame) ∧
    intake.parsed ++ injected cmdInjectRecvq frames = intake.received ∧
    written ++ injected cmdInjectSendq frames = queued

/-- The commands for the settings. -/
def Settings.frames (settings : Settings) : List Frame :=
  (match settings.zip with
    | none => []
    | some level => [⟨cmdSetZipOutLevel, some [level]⟩, ⟨cmdStartZipIn, none⟩, ⟨cmdStartZipOut, none⟩]) ++
  match settings.crypt with
  | none => []
  | some (input, output) =>
    [⟨cmdSetCryptInCipher, some [input.cipherid]⟩, ⟨cmdSetCryptInKey, some input.key⟩,
      ⟨cmdSetCryptOutCipher, some [output.cipherid]⟩, ⟨cmdSetCryptOutKey, some output.key⟩,
      ⟨cmdStartCryptIn, none⟩, ⟨cmdStartCryptOut, none⟩]

/-- The length bytes of something short. -/
theorem short_length {n : ℕ} (short : n < 256) : (n >>> 8).toUInt8 = 0 ∧ (n &&& 0xff).toUInt8 = n.toUInt8 := by
  have high : n >>> 8 = 0 := by
    rw [Nat.shiftRight_eq_div_pow]
    omega
  have low : n &&& 0xff = n := by
    rw [Nat.and_two_pow_sub_one_eq_mod n 8]
    omega
  rw [high, low]
  exact ⟨rfl, rfl⟩

theorem Settings.bytes_eq (settings : Settings) : settings.bytes = encodeAll settings.frames := by
  obtain ⟨zip, crypt⟩ := settings
  have zipped : ∀ level, zipSettings level = encodeAll
      [⟨cmdSetZipOutLevel, some [level]⟩, ⟨cmdStartZipIn, none⟩, ⟨cmdStartZipOut, none⟩] := by
    intro level
    obtain ⟨high, low⟩ := short_length (by decide : 1 < 256)
    simp only [zipSettings, encodeAll_cons, encodeAll_nil, Frame.encode, List.length_singleton, high, low]
    rfl
  have crypted : ∀ input output : Cipher, cryptSettings input output = encodeAll
      [⟨cmdSetCryptInCipher, some [input.cipherid]⟩, ⟨cmdSetCryptInKey, some input.key⟩,
        ⟨cmdSetCryptOutCipher, some [output.cipherid]⟩, ⟨cmdSetCryptOutKey, some output.key⟩,
        ⟨cmdStartCryptIn, none⟩, ⟨cmdStartCryptOut, none⟩] := by
    intro input output
    obtain ⟨inHigh, inLow⟩ := short_length input.short_key
    obtain ⟨outHigh, outLow⟩ := short_length output.short_key
    simp only [cryptSettings, encodeAll_cons, encodeAll_nil, Frame.encode, inHigh, inLow, outHigh, outLow]
    simp
  cases zip <;> rcases crypt with _ | ⟨input, output⟩ <;>
    simp [Settings.bytes, Settings.frames, zipped, crypted]

theorem Settings.frames_fit (settings : Settings) : ∀ frame ∈ settings.frames, Fits commandTable frame := by
  have data : ∀ (tag : UInt8) (payload : List UInt8), tag ≠ 0 → commandTable.lookup tag = some true →
      0 < payload.length → payload.length < 65536 → Fits commandTable ⟨tag, some payload⟩ := by
    intro tag payload some known long short
    refine ⟨some, known, fun other same => ?_⟩
    obtain rfl := Option.some.inj same
    exact ⟨long, short⟩
  have dataless : ∀ tag : UInt8, tag ≠ 0 → commandTable.lookup tag = some false →
      Fits commandTable ⟨tag, none⟩ := by
    intro tag some known
    refine ⟨some, known, fun payload same => ?_⟩
    cases same
  intro frame member
  obtain ⟨zip, crypt⟩ := settings
  simp only [Settings.frames, List.mem_append] at member
  rcases member with member | member
  · cases zip with
    | none => cases member
    | some level =>
      simp only [List.mem_cons, List.not_mem_nil, or_false] at member
      rcases member with rfl | rfl | rfl
      · exact data _ _ (by decide) (by decide) (by simp) (by simp)
      · exact dataless _ (by decide) (by decide)
      · exact dataless _ (by decide) (by decide)
  · rcases crypt with _ | ⟨input, output⟩
    · cases member
    · have inKey := input.short_key
      have outKey := output.short_key
      simp only [List.mem_cons, List.not_mem_nil, or_false] at member
      rcases member with rfl | rfl | rfl | rfl | rfl | rfl
      · exact data _ _ (by decide) (by decide) (by simp) (by simp)
      · exact data _ _ (by decide) (by decide) input.some_key (by omega)
      · exact data _ _ (by decide) (by decide) (by simp) (by simp)
      · exact data _ _ (by decide) (by decide) output.some_key (by omega)
      · exact dataless _ (by decide) (by decide)
      · exact dataless _ (by decide) (by decide)

/-! ### The loops -/

/-- A queue whose lines `get` takes from the front. -/
structure Taken {σ : Type} (get : σ → Option (List UInt8 × σ)) (lines : σ → List (List UInt8)) : Prop where
  nil : ∀ queue, lines queue = [] → get queue = none
  cons : ∀ queue line rest, lines queue = line :: rest →
    ∃ queue', get queue = some (line, queue') ∧ lines queue' = rest

/-- A loop sends every line. -/
theorem inject_eq {σ : Type} {get : σ → Option (List UInt8 × σ)} {lines : σ → List (List UInt8)}
    (taken : Taken get lines) (cmd : UInt8) (rounds : ℕ) (queue : σ) (some : ∀ line ∈ lines queue, line ≠ [])
    (enough : (lines queue).length < rounds) :
    (inject get cmd rounds queue).1 = encodeAll ((lines queue).map fun line => ⟨cmd, Option.some line⟩) ∧
      lines (inject get cmd rounds queue).2 = [] := by
  induction rounds generalizing queue with
  | zero => exact absurd enough (Nat.not_lt_zero _)
  | succ rounds ih =>
    cases shape : lines queue with
    | nil =>
      rw [inject, taken.nil queue shape]
      exact ⟨rfl, shape⟩
    | cons line rest =>
      obtain ⟨queue', get, left⟩ := taken.cons queue line rest shape
      have long : line.length ≠ 0 := by
        rw [ne_eq, List.length_eq_zero_iff]
        exact some line (by simp [shape])
      rw [shape, List.length_cons] at enough
      obtain ⟨more, empty⟩ := ih queue' (fun other member => some other (by rw [shape]; exact List.mem_cons_of_mem _ (left ▸ member)))
        (by rw [left]; omega)
      simp only [inject, get, if_neg long]
      rw [more, left]
      exact ⟨rfl, empty⟩

/-- The lines of a send queue. -/
def sendqLines (h : ι) (s : Queues ι) : List (List UInt8) := (s.heads h).list.map fun id => (s.lines id).buf

theorem getRecvq_taken : Taken getRecvq fun recvq => recvq.list.map BufLine.buf := by
  constructor
  · intro recvq none
    simp only [List.map_eq_nil_iff] at none
    simp [getRecvq, linebufGet, none]
  · intro recvq line rest shape
    obtain ⟨first, others, list, rfl, rfl⟩ := List.map_eq_cons_iff.mp shape
    simp [getRecvq, linebufGet, list]

theorem getSendq_taken (h : ι) : Taken (getSendq h) (sendqLines h) := by
  constructor
  · intro s none
    simp only [sendqLines, List.map_eq_nil_iff] at none
    simp only [getSendq, none]
  · intro s line rest shape
    obtain ⟨id, others, list, rfl, rfl⟩ := List.map_eq_cons_iff.mp shape
    refine ⟨linebufDoneLine s h, by simp only [getSendq, list], ?_⟩
    obtain ⟨emptied, left, -⟩ := doneLine_emptied s h
    rw [sendqLines, left, list, List.tail_cons]
    exact List.map_congr_left fun old _ => (emptied.lines old).1

/-- The commands that `start_io` makes. -/
def startFrames (settings : Settings) (received unsent : List (List UInt8)) : List Frame :=
  settings.frames ++ received.map (fun line => ⟨cmdInjectRecvq, some line⟩) ++
    unsent.map (fun line => ⟨cmdInjectSendq, some line⟩) ++ [⟨cmdInit, none⟩]

theorem startIo_eq (settings : Settings) {recvq : BufHead} {s : Queues ι} {h : ι} (raw : recvq.AllRaw)
    (some : ∀ line ∈ sendqLines h s, line ≠ []) :
    (startIo settings recvq s h).1 =
      encodeAll (startFrames settings (recvq.list.map BufLine.buf) (sendqLines h s)) := by
  have long : ∀ line ∈ recvq.list.map BufLine.buf, line ≠ [] := by
    intro line member
    obtain ⟨first, listed, rfl⟩ := List.mem_map.mp member
    exact (raw first listed).some
  have received := inject_eq getRecvq_taken cmdInjectRecvq (recvq.list.length + 1) recvq long (by simp)
  have unsent := inject_eq (getSendq_taken h) cmdInjectSendq ((s.heads h).list.length + 1) s some
    (by simp [sendqLines])
  simp only [startIo, startFrames, settings.bytes_eq, received.1, unsent.1, encodeAll_append]
  rfl

/-- Commands with lines as data. -/
theorem injects_fit {cmd : UInt8} (tag : cmd ≠ 0) (known : commandTable.lookup cmd = some true)
    {lines : List (List UInt8)} (fit : ∀ line ∈ lines, line ≠ [] ∧ line.length < 65536) :
    ∀ frame ∈ lines.map (fun line => (⟨cmd, some line⟩ : Frame)), Fits commandTable frame := by
  intro frame member
  obtain ⟨line, listed, rfl⟩ := List.mem_map.mp member
  refine ⟨tag, known, fun payload same => ?_⟩
  obtain rfl := Option.some.inj same
  exact ⟨List.length_pos_iff.mpr (fit line listed).1, (fit line listed).2⟩

theorem startFrames_fit (settings : Settings) {received unsent : List (List UInt8)}
    (receivedFit : ∀ line ∈ received, line ≠ [] ∧ line.length < 65536)
    (unsentFit : ∀ line ∈ unsent, line ≠ [] ∧ line.length < 65536) :
    ∀ frame ∈ startFrames settings received unsent, Fits commandTable frame := by
  intro frame member
  simp only [startFrames, List.mem_append, List.mem_singleton] at member
  rcases member with ((member | member) | member) | rfl
  · exact settings.frames_fit frame member
  · exact injects_fit (by decide) (by decide) receivedFit frame member
  · exact injects_fit (by decide) (by decide) unsentFit frame member
  · refine ⟨by decide, by decide, fun payload same => ?_⟩
    cases same

/-! ### What is injected -/

theorem injected_append (cmd : UInt8) (frames frames' : List Frame) :
    injected cmd (frames ++ frames') = injected cmd frames ++ injected cmd frames' :=
  List.flatMap_append

theorem injected_lines (cmd : UInt8) (lines : List (List UInt8)) :
    injected cmd (lines.map fun line => ⟨cmd, some line⟩) = lines.flatten := by
  induction lines with
  | nil => rfl
  | cons line lines ih =>
    rw [List.map_cons, List.flatten_cons, ← ih]
    simp [injected]

/-- Other commands do not count. -/
theorem injected_other {cmd : UInt8} {frames : List Frame} (other : ∀ frame ∈ frames, frame.tag ≠ cmd) :
    injected cmd frames = [] := by
  rw [injected, List.flatMap_eq_nil_iff]
  exact fun frame member => if_neg (other frame member)

theorem Settings.frames_tag (settings : Settings) : ∀ frame ∈ settings.frames,
    frame.tag ≠ cmdInjectRecvq ∧ frame.tag ≠ cmdInjectSendq := by
  obtain ⟨zip, crypt⟩ := settings
  cases zip <;> rcases crypt with _ | ⟨input, output⟩ <;> simp [Settings.frames] <;> decide

theorem startFrames_injected (settings : Settings) (received unsent : List (List UInt8)) :
    injected cmdInjectRecvq (startFrames settings received unsent) = received.flatten ∧
      injected cmdInjectSendq (startFrames settings received unsent) = unsent.flatten := by
  have lines : ∀ {cmd cmd' : UInt8} (lines : List (List UInt8)), cmd' ≠ cmd →
      injected cmd (lines.map fun line => ⟨cmd', some line⟩) = [] := by
    intro cmd cmd' lines other
    apply injected_other
    intro frame member
    obtain ⟨line, -, rfl⟩ := List.mem_map.mp member
    exact other
  simp only [startFrames, injected_append]
  constructor
  · rw [injected_other fun frame member => (settings.frames_tag frame member).1, injected_lines,
      lines unsent (by decide)]
    simp [injected, cmdInit, cmdInjectRecvq]
  · rw [injected_other fun frame member => (settings.frames_tag frame member).2, injected_lines,
      lines received (by decide)]
    simp [injected, cmdInit, cmdInjectSendq]

omit [DecidableEq ι] in
/-- All lines of a queue are what is left to write, exactly if none of the first has been written. -/
theorem unsent_iff {s : Queues ι} {h : ι} (flowing : s.Flowing h) :
    s.written h ++ (sendqLines h s).flatten = s.queued h ↔ (s.heads h).writeofs = 0 := by
  have bytes := flowing.bytes
  rw [Queues.pending, List.flatMap_def] at bytes
  rw [← bytes, List.append_cancel_left_eq]
  constructor
  · intro all
    have length := congrArg List.length all
    rw [List.length_drop] at length
    cases list : (s.heads h).list with
    | nil => exact flowing.empty list
    | cons id rest =>
      have below := (flowing.first id rest list).1
      simp only [sendqLines, list, List.map_cons, List.flatten_cons, List.length_append] at length
      omega
  · intro none
    rw [none, List.drop_zero]
    rfl

/-- What `start_io` makes of queues whose lines are in order. -/
theorem handsOver_iff [Fintype ι] (settings : Settings) {intake : Intake} (kept : intake.Kept) {s : Queues ι}
    (sound : s.Sound) (bounded : s.Bounded) {h : ι} (ready : s.done h = false) :
    HandsOver (startIo settings intake.recvq s h).1 intake (s.written h) (s.queued h) ↔
      (s.heads h).writeofs = 0 := by
  have receivedFit : ∀ line ∈ intake.recvq.list.map BufLine.buf, line ≠ [] ∧ line.length < 65536 := by
    intro line member
    obtain ⟨first, listed, rfl⟩ := List.mem_map.mp member
    have short := (kept.raw first listed).short
    exact ⟨(kept.raw first listed).some, by omega⟩
  have unsentFit : ∀ line ∈ sendqLines h s, line ≠ [] ∧ line.length < 65536 := by
    intro line member
    obtain ⟨id, listed, rfl⟩ := List.mem_map.mp member
    have short := bounded id
    exact ⟨(sound.listed h id listed).2.2, by omega⟩
  have fits := startFrames_fit settings receivedFit unsentFit
  obtain ⟨received, unsent⟩ :=
    startFrames_injected settings (intake.recvq.list.map BufLine.buf) (sendqLines h s)
  have recvq : intake.parsed ++ (intake.recvq.list.map BufLine.buf).flatten = intake.received := by
    rw [← List.flatMap_def]
    exact kept.bytes
  rw [startIo_eq settings kept.raw fun line member => (unsentFit line member).1,
    ← unsent_iff (sound.flowing h ready)]
  constructor
  · rintro ⟨frames, same, fits', -, sent⟩
    obtain rfl := encodeAll_injective fits fits' same
    rwa [unsent] at sent
  · intro sent
    exact ⟨_, rfl, fits, by rw [received, recvq], by rw [unsent, sent]⟩

/-- For every receive queue and every send queue, `start_io` hands over exactly what there is, and nothing
twice, exactly if no part of the first line to send has been written. -/
theorem startIo_handsOver_iff [Fintype ι] (settings : Settings) (reads : List IntakeOp)
    (ops : List (QueueOp ι)) (h : ι) (ready : ((Queues.start ι).run ops).done h = false) :
    HandsOver (startIo settings (Intake.run reads).recvq ((Queues.start ι).run ops) h).1 (Intake.run reads)
        (((Queues.start ι).run ops).written h) (((Queues.start ι).run ops).queued h) ↔
      (((Queues.start ι).run ops).heads h).writeofs = 0 :=
  handsOver_iff settings (Intake.run_kept reads) (start_sound.run ops) (Queues.run_bounded ops) ready

end

/-- The message `PONG`. -/
def pongMsg : Msg where
  front := []
  body := [80, 79, 78, 71]
  front_fits := Nat.zero_le _
  some_text := ⟨80, by decide, by decide, by decide⟩

/-- One message in the queue, none of it written, and a part of a line received. -/
theorem startIo_handsOver_iff_pong :
    HandsOver (startIo ⟨none, none⟩ (Intake.run [.read [80, 73] 0]).recvq
        ((Queues.start Unit).run [.putmsg () pongMsg]) ()).1 (Intake.run [.read [80, 73] 0])
        (((Queues.start Unit).run [.putmsg () pongMsg]).written ())
        (((Queues.start Unit).run [.putmsg () pongMsg]).queued ()) ↔
      (((Queues.start Unit).run [.putmsg () pongMsg]).heads ()).writeofs = 0 :=
  startIo_handsOver_iff ⟨none, none⟩ [.read [80, 73] 0] [.putmsg () pongMsg] () rfl

/-- One byte of a message has been written, and it is sent once more. -/
theorem startIo_repeats :
    ¬ ∀ (settings : Settings) (reads : List IntakeOp) (ops : List (QueueOp Unit)) (h : Unit),
      ((Queues.start Unit).run ops).done h = false →
        HandsOver (startIo settings (Intake.run reads).recvq ((Queues.start Unit).run ops) h).1
          (Intake.run reads) (((Queues.start Unit).run ops).written h)
          (((Queues.start Unit).run ops).queued h) := by
  intro claim
  have handed := claim ⟨none, none⟩ [] [.putmsg () pongMsg, .flush () 1] () rfl
  rw [handsOver_iff _ (Intake.run_kept _) (start_sound.run _) (Queues.run_bounded _) rfl] at handed
  revert handed
  decide

end Ircd.Servlink
