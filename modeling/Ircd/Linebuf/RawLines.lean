import Ircd.Linebuf.Buffer

/-!
# Raw lines keep every byte

Input of a connection that is not registered yet is parsed raw: a line is cut behind its line ends, which
stay in it, and nothing is dropped.
-/
namespace Ircd.Linebuf

/-- A line that has been filled raw. -/
structure BufLine.Raw (line : BufLine) : Prop where
  raw : line.raw = true
  some : line.buf ≠ []
  short : line.buf.length ≤ 510

/-- The bytes of the lines of a queue. -/
def BufHead.bytes (bufhead : BufHead) : List UInt8 := bufhead.list.flatMap BufLine.buf

/-- Two runs at the front of a list are a prefix of it. -/
theorem runs_isPrefix {α : Type} (p q : α → Bool) (data : List α) :
    data.takeWhile p ++ (data.drop (data.takeWhile p).length).takeWhile q <+: data := by
  have split : data.takeWhile p ++ data.drop (data.takeWhile p).length = data :=
    List.prefix_iff_eq_append.mp ( List.takeWhile_prefix p)
  conv_rhs => rw [← split]
  exact (List.prefix_append_right_inj _).mpr ( List.takeWhile_prefix q)

/-- What copying into a line that has room takes: a part of the data, the line ends with it. -/
theorem copyRaw_open (past : UInt8) (line : BufLine) (data : List UInt8) (short : line.buf.length ≤ 510)
    (opened : line.terminated = false) :
    ∃ taken, taken <+: data.take (510 - line.buf.length) ∧
      (linebufCopyRaw past line data).clen = taken.length ∧
      (linebufCopyRaw past line data).line.buf = line.buf ++ taken ∧
      (linebufCopyRaw past line data).line.raw = true := by
  have full : ¬ (line.buf.length = bufDataSize ∨ line.terminated = true) := by
    rintro (same | ended)
    · simp only [bufDataSize] at same
      omega
    · rw [opened] at ended
      cases ended
  have room : (data.take (min data.length (bufDataSize - line.buf.length - 1))) =
      data.take (510 - line.buf.length) := by
    rw [bufDataSize, List.take_eq_take_iff]
    omega
  simp only [linebufCopyRaw, if_neg full, room]
  split
  · exact ⟨_, runs_isPrefix _ _ _, rfl, rfl, rfl⟩
  · exact ⟨_, List.takeWhile_prefix _, rfl, rfl, rfl⟩

/-- Copying moves bytes from the data to the line. -/
theorem copyRaw_moves (past : UInt8) (line : BufLine) (data : List UInt8) (short : line.buf.length ≤ 510) :
    let copied := linebufCopyRaw past line data
    copied.clen ≤ data.length ∧ copied.line.buf = line.buf ++ data.take copied.clen ∧
      copied.line.buf.length ≤ 510 ∧ (line.raw = true → copied.line.raw = true) := by
  cases opened : line.terminated with
  | true =>
    have same : linebufCopyRaw past line data = ⟨line, 0, 0⟩ := by simp [linebufCopyRaw, opened]
    simp [same, short]
  | false =>
    obtain ⟨taken, front, clen, buf, raw⟩ := copyRaw_open past line data short opened
    have whole : taken <+: data := front.trans ( List.take_prefix _ _)
    have length := front.length_le
    rw [List.length_take] at length
    refine ⟨?_, ?_, ?_, fun _ => raw⟩
    · rw [clen]
      exact whole.length_le
    · rw [buf, clen, ← List.prefix_iff_eq_take.mp whole]
    · rw [buf, List.length_append]
      omega

/-- A new line takes something. -/
theorem copyRaw_new (past : UInt8) {data : List UInt8} (some : data ≠ []) :
    0 < (linebufCopyRaw past newLine data).clen := by
  obtain ⟨first, rest, rfl⟩ := List.exists_cons_of_ne_nil some
  have room : min (first :: rest).length (bufDataSize - newLine.buf.length - 1) = min rest.length 509 + 1 := by
    simp only [bufDataSize, newLine, List.length_nil, List.length_cons]
    omega
  simp only [linebufCopyRaw, room, List.take_succ_cons]
  by_cases crlf : isCrlf first = true
  · simp [newLine, bufDataSize, crlf]
  · simp only [crlf, List.takeWhile_cons, Bool.not_false, if_true]
    rw [if_neg (by simp [newLine, bufDataSize])]
    split <;> simp

/-- The queue holds raw lines only. -/
def BufHead.AllRaw (bufhead : BufHead) : Prop := ∀ line ∈ bufhead.list, line.Raw

theorem parseLoop_raw (past : UInt8) (rounds : ℕ) (bufhead : BufHead) (data : List UInt8)
    (enough : data.length ≤ rounds) (raw : bufhead.AllRaw) :
    (parseLoop true past rounds bufhead data).bytes = bufhead.bytes ++ data ∧
      (parseLoop true past rounds bufhead data).AllRaw := by
  induction rounds generalizing bufhead data with
  | zero =>
    obtain rfl := List.length_eq_zero_iff.mp (Nat.le_zero.mp enough)
    exact ⟨(List.append_nil _).symm, raw⟩
  | succ rounds ih =>
    cases data with
    | nil => exact ⟨(List.append_nil _).symm, raw⟩
    | cons first rest =>
      have some : first :: rest ≠ [] := List.cons_ne_nil first rest
      obtain ⟨-, buf, short, -⟩ := copyRaw_moves past newLine (first :: rest) (by simp [newLine])
      obtain ⟨taken, -, clen, buf', marked⟩ :=
        copyRaw_open past newLine (first :: rest) (by simp [newLine]) rfl
      have moved := copyRaw_new past some
      have new : (linebufCopyRaw past newLine (first :: rest)).line.Raw := by
        refine ⟨marked, ?_, short⟩
        rw [buf']
        intro none
        rw [clen, (List.append_eq_nil_iff.mp none).2] at moved
        exact Nat.lt_irrefl 0 moved
      simp only [parseLoop, linebufCopy, if_true]
      generalize linebufCopyRaw past newLine (first :: rest) = copied at *
      have fewer : ((first :: rest).drop copied.clen).length ≤ rounds := by
        rw [List.length_drop]
        omega
      obtain ⟨bytes, all⟩ := ih ⟨bufhead.list ++ [copied.line], bufhead.len + copied.grown,
        bufhead.alloclen + 1, bufhead.numlines + 1⟩ _ fewer (by
          intro line member
          rcases List.mem_append.mp member with member | member
          · exact raw line member
          · exact List.mem_singleton.mp member ▸ new)
      refine ⟨?_, all⟩
      rw [bytes]
      simp only [BufHead.bytes, List.flatMap_append, List.flatMap_singleton, buf, newLine, List.nil_append,
        List.append_assoc, List.take_append_drop]

/-- Parsing adds the data to the bytes of the queue. -/
theorem linebufParse_raw (past : UInt8) {bufhead : BufHead} (data : List UInt8) (raw : bufhead.AllRaw) :
    (linebufParse bufhead data true past).bytes = bufhead.bytes ++ data ∧
      (linebufParse bufhead data true past).AllRaw := by
  rw [linebufParse]
  cases last : bufhead.list.getLast? with
  | none => exact parseLoop_raw past data.length bufhead data (Nat.le_refl _) raw
  | some line =>
    obtain ⟨before, shape⟩ := List.getLast?_eq_some_iff.mp last
    have old : line.Raw := raw line (by simp [shape])
    obtain ⟨less, buf, short, marked⟩ := copyRaw_moves past line data old.short
    simp only [linebufCopy, if_true, shape, List.dropLast_concat]
    generalize linebufCopyRaw past line data = copied at *
    have new : copied.line.Raw := by
      refine ⟨marked old.raw, ?_, short⟩
      rw [buf]
      intro none
      exact old.some (List.append_eq_nil_iff.mp none).1
    obtain ⟨bytes, all⟩ := parseLoop_raw past data.length
      { bufhead with list := before ++ [copied.line], len := bufhead.len + copied.grown }
      (data.drop copied.clen) (by simp) (by
        intro line' member
        rcases List.mem_append.mp member with member | member
        · exact raw line' (by simp [shape, member])
        · exact List.mem_singleton.mp member ▸ new)
    refine ⟨?_, all⟩
    rw [bytes]
    simp only [BufHead.bytes, shape, List.flatMap_append, List.flatMap_singleton, buf, List.append_assoc,
      List.take_append_drop]

/-! ### A connection before it is registered -/

/-- What has been received, the bytes of the lines that have been taken for parsing, and the receive queue. -/
structure Intake where
  received : List UInt8
  parsed : List UInt8
  recvq : BufHead

def Intake.start : Intake := ⟨[], [], linebufNewbuf⟩

/-- A read by `read_packet`, with the byte that is in memory behind the data, or a line that
`parse_client_queued` takes. -/
inductive IntakeOp where
  | read (data : List UInt8) (past : UInt8)
  | take

def Intake.step (s : Intake) : IntakeOp → Intake
  | .read data past => { s with received := s.received ++ data, recvq := linebufParse s.recvq data true past }
  | .take =>
    match s.recvq.list, linebufGet s.recvq false false with
    | line :: _, some (_, recvq) => { s with parsed := s.parsed ++ line.buf, recvq := recvq }
    | _, _ => s

def Intake.run (ops : List IntakeOp) : Intake := ops.foldl Intake.step .start

/-- Each byte received has been taken for parsing, or is in the queue. -/
structure Intake.Kept (s : Intake) : Prop where
  bytes : s.parsed ++ s.recvq.bytes = s.received
  raw : s.recvq.AllRaw

theorem Intake.Kept.step {s : Intake} (kept : s.Kept) (op : IntakeOp) : (s.step op).Kept := by
  cases op with
  | read data past =>
    obtain ⟨bytes, raw⟩ := linebufParse_raw past data kept.raw
    refine ⟨?_, raw⟩
    simp only [Intake.step, bytes]
    rw [← List.append_assoc, kept.bytes]
  | take =>
    simp only [Intake.step, linebufGet]
    cases shape : s.recvq.list with
    | nil => simpa only using kept
    | cons line rest =>
      by_cases ended : line.terminated = true
      · simp only [ended, Bool.or_true, Bool.not_true]
        refine ⟨?_, fun other member => kept.raw other (by
          rw [shape]
          exact List.mem_cons_of_mem line member)⟩
        have bytes := kept.bytes
        rw [BufHead.bytes, shape, List.flatMap_cons, ← List.append_assoc] at bytes
        exact bytes
      · simpa [ended] using kept

theorem Intake.run_kept (ops : List IntakeOp) : (Intake.run ops).Kept := by
  have from_kept : ∀ s : Intake, s.Kept → (ops.foldl Intake.step s).Kept := by
    induction ops with
    | nil => exact fun s kept => kept
    | cons op ops ih => exact fun s kept => ih _ (kept.step op)
  exact from_kept _ ⟨rfl, fun line member => absurd member (List.not_mem_nil)⟩

end Ircd.Linebuf
