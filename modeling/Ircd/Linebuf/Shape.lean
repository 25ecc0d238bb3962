import Ircd.Linebuf.RawLines

/-!
# The shape of a receive queue

However a queue is filled, only its last line waits for more, and no line is longer than a buffer.
-/
namespace Ircd.Linebuf

/-- Only the last line of a queue is not terminated, and no line is longer than a buffer. -/
structure BufHead.Orderly (bufhead : BufHead) : Prop where
  ended : ∀ line ∈ bufhead.list.dropLast, line.terminated = true
  short : ∀ line ∈ bufhead.list, line.buf.length ≤ 510

/-- A line takes all of the data, or is terminated. -/
structure Fills (copied : Copied) (data : List UInt8) : Prop where
  ended : copied.line.terminated = true ∨ data.drop copied.clen = []
  short : copied.line.buf.length ≤ 510

/-- Behind the run of bytes that a predicate holds of, it does not hold. -/
private theorem head_behind_run {α : Type} (p : α → Bool) (data : List α) {first : α} {rest : List α}
    (behind : data.drop (data.takeWhile p).length = first :: rest) : p first = false := by
  induction data with
  | nil => simp at behind
  | cons a data ih =>
    by_cases holds : p a = true
    · simp only [List.takeWhile_cons, holds, if_true, List.length_cons, List.drop_succ_cons] at behind
      exact ih behind
    · simp only [List.takeWhile_cons, holds] at behind
      obtain ⟨rfl, -⟩ := List.cons.inj behind
      exact Bool.eq_false_iff.mpr holds

theorem copyRaw_fills (past : UInt8) (line : BufLine) (data : List UInt8) (short : line.buf.length ≤ 510) :
    Fills (linebufCopyRaw past line data) data := by
  refine ⟨?_, (copyRaw_moves past line data short).2.2.1⟩
  simp only [linebufCopyRaw]
  split
  · rename_i full
    rcases full with same | ended
    · simp only [bufDataSize] at same
      omega
    · exact Or.inl ended
  split
  · exact Or.inl rfl
  · rename_i ends
    right
    rw [not_or, Nat.not_le] at ends
    obtain ⟨open_, room⟩ := ends
    generalize text_eq : ((data.take (min data.length (bufDataSize - line.buf.length - 1))).takeWhile
      (!isCrlf ·)) = text at *
    by_contra some
    obtain ⟨first, rest, behind⟩ := List.exists_cons_of_ne_nil some
    -- the byte behind the text would be a line end, and the test would have seen it
    have left : text.length < data.length := by
      by_contra all
      exact some (List.drop_eq_nil_of_le (Nat.not_lt.mp all))
    have inside : (data.take (min data.length (bufDataSize - line.buf.length - 1))).drop text.length =
        first :: rest.take (min data.length (bufDataSize - line.buf.length - 1) - text.length - 1) := by
      rw [List.drop_take, behind, List.take_cons (by omega)]
    rw [← text_eq] at inside
    have crlf := head_behind_run _ _ inside
    rw [behind, List.headD_cons] at open_
    simp [open_] at crlf

/-- Where the run up to the next line does not end in a line end, it is everything. -/
private theorem skipCrlf_all {buf data : List UInt8}
    (waits : ((buf ++ data.take (linebufSkipCrlf data)).getLast?.map isCrlf).getD false = false) :
    data.drop (linebufSkipCrlf data) = [] := by
  have front := runs_isPrefix (!isCrlf ·) isCrlf data
  have taken := List.prefix_iff_eq_take.mp front
  rw [List.length_append] at taken
  rw [linebufSkipCrlf] at waits ⊢
  rw [← taken] at waits
  cases behind : data.drop (data.takeWhile (!isCrlf ·)).length with
  | nil => rw [← List.drop_drop, behind, List.takeWhile_nil, List.length_nil, List.drop_zero]
  | cons b rest =>
    -- the run has a line end, and so its last byte is one
    have crlf : isCrlf b = true := by simpa using head_behind_run _ _ behind
    rw [behind, ← List.append_assoc] at waits
    have eols : (b :: rest).takeWhile isCrlf ≠ [] := by simp [crlf]
    have last := List.mem_takeWhile_imp (List.getLast_mem eols)
    rw [List.getLast?_append_of_ne_nil _ eols, List.getLast?_eq_getLast_of_ne_nil eols] at waits
    simp [last] at waits

theorem copyLine_fills (line : BufLine) (data : List UInt8) (short : line.buf.length ≤ 510) :
    Fills (linebufCopyLine line data) data := by
  simp only [linebufCopyLine]
  split
  · rename_i ended
    exact ⟨Or.inl ended, short⟩
  split
  · refine ⟨Or.inl rfl, ?_⟩
    have less := (yanked_le (linebufSkipCrlf data)
      (line.buf ++ data.take (bufDataSize - line.buf.length - 1)).reverse).2
    simp only [List.length_append, List.length_take, List.length_replicate, List.length_reverse,
      bufDataSize] at less ⊢
    omega
  split
  · rename_i fits waits
    refine ⟨Or.inr ?_, ?_⟩
    · exact skipCrlf_all waits
    · simp only [List.length_append, List.length_take, bufDataSize] at fits ⊢
      omega
  · rename_i fits _
    refine ⟨Or.inl rfl, ?_⟩
    simp only [List.length_append, List.length_take, bufDataSize] at fits ⊢
    omega

theorem linebufCopy_fills (raw : Bool) (past : UInt8) (line : BufLine) (data : List UInt8)
    (short : line.buf.length ≤ 510) : Fills (linebufCopy raw past line data) data := by
  cases raw with
  | true => exact copyRaw_fills past line data short
  | false => exact copyLine_fills line data short

/-- All lines are terminated, if there is more data. -/
theorem parseLoop_orderly (raw : Bool) (past : UInt8) (rounds : ℕ) {bufhead : BufHead} {data : List UInt8}
    (orderly : bufhead.Orderly) (ready : data ≠ [] → ∀ line ∈ bufhead.list, line.terminated = true) :
    (parseLoop raw past rounds bufhead data).Orderly := by
  induction rounds generalizing bufhead data with
  | zero => exact orderly
  | succ rounds ih =>
    cases data with
    | nil => exact orderly
    | cons first rest =>
      have ready := ready (List.cons_ne_nil first rest)
      obtain ⟨ended, short⟩ := linebufCopy_fills raw past newLine (first :: rest) (by simp [newLine])
      simp only [parseLoop]
      generalize linebufCopy raw past newLine (first :: rest) = copied at *
      apply ih
      · constructor
        · simpa only [List.dropLast_concat] using ready
        · intro line member
          rcases List.mem_append.mp member with member | member
          · exact orderly.short line member
          · exact List.mem_singleton.mp member ▸ short
      · intro more line member
        rcases List.mem_append.mp member with member | member
        · exact ready line member
        · exact List.mem_singleton.mp member ▸ ended.resolve_right more

theorem linebufParse_orderly (raw : Bool) (past : UInt8) {bufhead : BufHead} (data : List UInt8)
    (orderly : bufhead.Orderly) : (linebufParse bufhead data raw past).Orderly := by
  rw [linebufParse]
  cases last : bufhead.list.getLast? with
  | none =>
    apply parseLoop_orderly raw past _ orderly
    intro _ line member
    rw [List.getLast?_eq_none_iff.mp last] at member
    cases member
  | some line =>
    obtain ⟨before, shape⟩ := List.getLast?_eq_some_iff.mp last
    have old : ∀ line ∈ before, line.terminated = true := by
      have ended := orderly.ended
      rwa [shape, List.dropLast_concat] at ended
    obtain ⟨ended, short⟩ := linebufCopy_fills raw past line data (orderly.short line (by simp [shape]))
    simp only [shape, List.dropLast_concat]
    generalize linebufCopy raw past line data = copied at *
    apply parseLoop_orderly
    · constructor
      · simpa only [List.dropLast_concat] using old
      · intro line' member
        rcases List.mem_append.mp member with member | member
        · exact orderly.short line' (by simp [shape, member])
        · exact List.mem_singleton.mp member ▸ short
    · intro more line' member
      rcases List.mem_append.mp member with member | member
      · exact old line' member
      · exact List.mem_singleton.mp member ▸ ended.resolve_right more

/-- Taking the first line leaves the rest as it is. -/
theorem BufHead.Orderly.tail {bufhead bufhead' : BufHead} (orderly : bufhead.Orderly)
    (list : bufhead'.list = bufhead.list.tail) : bufhead'.Orderly := by
  constructor
  · intro line member
    rw [list] at member
    cases shape : bufhead.list with
    | nil => simp [shape] at member
    | cons first rest =>
      cases rest with
      | nil => simp [shape] at member
      | cons second rest =>
        apply orderly.ended line
        rw [shape, List.dropLast_cons_cons]
        rw [shape, List.tail_cons] at member
        exact List.mem_cons_of_mem first member
  · intro line member
    rw [list] at member
    exact orderly.short line (List.mem_of_mem_tail member)

theorem linebufNewbuf_orderly : linebufNewbuf.Orderly := by
  constructor <;> simp [linebufNewbuf]

end Ircd.Linebuf
