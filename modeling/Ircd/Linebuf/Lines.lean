import Ircd.Linebuf.Buffer
import Ircd.Lib.LineSplitter
import Mathlib.Data.List.Forall2

/-!
# Lines in the receive queue

`linebuf_parse` refines a forgetful line splitter (`Ircd.Lib.LineSplitter`) with limit 510:
the overflow branch drops the rest of the current chunk only. Lines within the limit do
not depend on how the stream is cut; an overlong line is one line exactly when no chunk
boundary severs it.
-/
namespace Ircd.Linebuf

open LineSplitter (runs endedRuns openRun feed chunked whole Intact)

/-- The number of data bytes of a line. -/
abbrev lineMax : ℕ := bufDataSize - 1

/-! ### What one copy does -/

private theorem room_eq (n : ℕ) : bufDataSize - n - 1 = lineMax - n := by
  unfold lineMax
  omega

def CrlfFree (bytes : List UInt8) : Prop := ∀ b ∈ bytes, isCrlf b = false

/-- The data at hand is text, then the CR/LF bytes that end it, then the rest. -/
private structure Piece (data text eols rest : List UInt8) : Prop where
  split : data = text ++ eols ++ rest
  text_free : CrlfFree text
  eols_crlf : ∀ b ∈ eols, isCrlf b = true
  rest_nil : eols = [] → rest = []
  skip : linebufSkipCrlf data = text.length + eols.length

private theorem exists_piece (data : List UInt8) : ∃ text eols rest, Piece data text eols rest := by
  let text := data.takeWhile (!isCrlf ·)
  let tail := data.dropWhile (!isCrlf ·)
  have whole : data = text ++ tail := (List.takeWhile_append_dropWhile).symm
  refine ⟨text, tail.takeWhile isCrlf, tail.dropWhile isCrlf, ?_, ?_, ?_, ?_, ?_⟩
  · rw [List.append_assoc, List.takeWhile_append_dropWhile]
    exact whole
  · intro b member
    simpa using List.mem_takeWhile_imp member
  · exact fun b member => List.mem_takeWhile_imp member
  · intro none
    cases first : tail with
    | nil => rfl
    | cons b bs =>
      have crlf : isCrlf b = true := by
        have := List.head?_dropWhile_not (fun b => !isCrlf b) data
        simp only [tail] at first
        simp_all
      simp [first, crlf] at none
  · have dropped : data.drop text.length = tail := by
      conv_lhs => rw [whole]
      exact List.drop_left
    unfold linebufSkipCrlf
    simp only [text] at dropped
    simp only [dropped, text]

private theorem yanked_append (n : ℕ) (eols text : List UInt8) (crlf : ∀ b ∈ eols, isCrlf b = true)
    (free : CrlfFree text) (enough : eols.length ≤ n) :
    yanked n (eols ++ text) = eols.length := by
  induction eols generalizing n with
  | nil =>
    cases n with
    | zero => rfl
    | succ n =>
      cases text with
      | nil => rfl
      | cons b bs => simp [yanked, free b (by simp)]
  | cons e es ih =>
    obtain ⟨n, rfl⟩ : ∃ m, n = m + 1 := ⟨n - 1, by simp at enough; omega⟩
    have fewer : yanked n (es ++ text) = es.length :=
      ih n (fun b member => crlf b (by simp [member])) (by simpa using enough)
    simp [yanked, crlf e (by simp), fewer]

/-- The bytes below `len` after the CR/LF bytes have been overwritten with NULs. -/
private theorem take_yanked (text eols : List UInt8) (n : ℕ) (crlf : ∀ b ∈ eols, isCrlf b = true)
    (free : CrlfFree text) (enough : eols.length ≤ n) :
    (text ++ eols).take ((text ++ eols).length - yanked n (text ++ eols).reverse) = text := by
  rw [List.reverse_append, yanked_append n _ _ (by simpa using crlf) (by simpa [CrlfFree] using free)
    (by simpa using enough)]
  simp

section Copy

variable {line : BufLine} {data text eols rest : List UInt8}

private theorem copyLine_clen (piece : Piece data text eols rest) (opened : line.terminated = false) :
    (linebufCopyLine line data).clen = text.length + eols.length := by
  unfold linebufCopyLine
  simp only [opened, Bool.false_eq_true, if_false, piece.skip]
  split
  · rfl
  · split <;> rfl

private theorem copyLine_fed (piece : Piece data text eols rest) (opened : line.terminated = false) :
    (linebufCopyLine line data).line.fed = line.fed ++ (text ++ eols) := by
  have taken : data.take (text.length + eols.length) = text ++ eols := by
    rw [piece.split, ← List.length_append, List.take_left]
  unfold linebufCopyLine
  simp only [opened, Bool.false_eq_true, if_false, piece.skip, taken]
  split
  · rfl
  · split <;> rfl

@[simp] private theorem copyLine_raw : (linebufCopyLine line data).line.raw = false := by
  unfold linebufCopyLine
  split
  · rfl
  · simp only
    split
    · rfl
    · split <;> rfl

/-- The overflow branch: the line is the first 510 bytes of its text, padded with NULs
where the buffer already held CR/LF bytes. -/
private theorem copyLine_overflow (piece : Piece data text eols rest)
    (opened : line.terminated = false) (free : CrlfFree line.buf)
    (longer : lineMax < line.buf.length + text.length + eols.length)
    (room : line.buf.length ≤ lineMax) :
    (linebufCopyLine line data).line.terminated = true ∧
      ∃ n, (linebufCopyLine line data).line.buf =
        (line.buf ++ text).take lineMax ++ List.replicate n 0 ∧
        (linebufCopyLine line data).line.buf.length = lineMax := by
  have branch : text.length + eols.length > bufDataSize - line.buf.length - 1 := by
    rw [room_eq]
    omega
  have stored : line.buf ++ data.take (bufDataSize - line.buf.length - 1) =
      (line.buf ++ text).take lineMax ++ eols.take (lineMax - (line.buf ++ text).length) := by
    calc
      _ = (line.buf ++ data).take lineMax := by
        rw [room_eq, List.take_append, List.take_of_length_le room]
      _ = (line.buf ++ text ++ eols).take lineMax := by
        rw [piece.split, ← List.append_assoc, ← List.append_assoc]
        apply List.take_append_of_le_length
        simp only [List.length_append]
        omega
      _ = _ := List.take_append
  have full : ((line.buf ++ text).take lineMax ++
      eols.take (lineMax - (line.buf ++ text).length)).length = lineMax := by
    rw [← List.take_append, List.length_take, List.length_append, List.length_append]
    omega
  have free' : CrlfFree ((line.buf ++ text).take lineMax) := by
    intro b member
    rcases List.mem_append.mp (List.mem_of_mem_take member) with old | new
    · exact free b old
    · exact piece.text_free b new
  have crlf' : ∀ b ∈ eols.take (lineMax - (line.buf ++ text).length), isCrlf b = true :=
    fun b member => piece.eols_crlf b (List.mem_of_mem_take member)
  have enough : (eols.take (lineMax - (line.buf ++ text).length)).length ≤
      text.length + eols.length := by
    rw [List.length_take]
    omega
  have kept := take_yanked _ _ _ crlf' free' enough
  unfold linebufCopyLine
  simp only [opened, Bool.false_eq_true, if_false, piece.skip, if_pos branch, true_and]
  rw [stored, kept]
  refine ⟨_, rfl, ?_⟩
  rw [List.length_append, List.length_replicate, List.reverse_append, yanked_append]
  · simpa using full
  · simpa using crlf'
  · simpa [CrlfFree] using free'
  · simpa using enough

private theorem copyLine_waits (piece : Piece data text [] rest)
    (opened : line.terminated = false) (free : CrlfFree line.buf)
    (fits : line.buf.length + text.length ≤ lineMax) :
    (linebufCopyLine line data).line.terminated = false ∧
      (linebufCopyLine line data).line.buf = line.buf ++ text := by
  have branch : ¬ text.length + 0 > bufDataSize - line.buf.length - 1 := by
    rw [room_eq]
    omega
  have taken : data.take (text.length + 0) = text := by
    rw [piece.split, List.append_nil, Nat.add_zero, List.take_left]
  have waits : ((line.buf ++ text).getLast?.map isCrlf).getD false = false := by
    cases last : (line.buf ++ text).getLast? with
    | none => rfl
    | some b =>
      rcases List.mem_append.mp (List.mem_of_getLast? last) with old | new
      · exact free b old
      · exact piece.text_free b new
  unfold linebufCopyLine
  simp only [opened, Bool.false_eq_true, if_false, piece.skip, List.length_nil, if_neg branch, taken,
    waits, if_true, and_self]

private theorem copyLine_ends (piece : Piece data text eols rest) (ended : eols ≠ [])
    (opened : line.terminated = false) (free : CrlfFree line.buf)
    (fits : line.buf.length + text.length + eols.length ≤ lineMax) :
    (linebufCopyLine line data).line.terminated = true ∧
      (linebufCopyLine line data).line.buf = line.buf ++ text := by
  have branch : ¬ text.length + eols.length > bufDataSize - line.buf.length - 1 := by
    rw [room_eq]
    omega
  have taken : line.buf ++ data.take (text.length + eols.length) = line.buf ++ text ++ eols := by
    rw [piece.split, ← List.length_append, List.take_left, List.append_assoc]
  have ends : ((line.buf ++ text ++ eols).getLast?.map isCrlf).getD false = true := by
    rw [List.getLast?_append_of_ne_nil _ ended, List.getLast?_eq_getLast_of_ne_nil ended]
    exact piece.eols_crlf _ (List.getLast_mem ended)
  have kept := take_yanked (line.buf ++ text) eols (text.length + eols.length) piece.eols_crlf
    (fun b member => (List.mem_append.mp member).elim (free b) (piece.text_free b)) (by omega)
  unfold linebufCopyLine
  simp only [opened, Bool.false_eq_true, if_false, piece.skip, if_neg branch, taken, ends,
    Bool.true_eq_false, true_and]
  exact kept

end Copy

/-! ### What the queue holds -/

def BufLine.hasText (line : BufLine) : Bool := line.fed.any (!isCrlf ·)

/-- The lines, in order, hold the texts; the other lines were only given CR/LF bytes. -/
inductive Carries : List (List UInt8) → List BufLine → Prop
  | nil : Carries [] []
  | blank {texts lines line} (before : Carries texts lines) (none : line.hasText = false)
      (nul : ∀ b ∈ line.buf, b = 0) : Carries texts (lines ++ [line])
  | text {texts lines line text n} (before : Carries texts lines) (some : line.hasText = true)
      (padded : line.buf = text ++ List.replicate n 0) (fits : line.buf.length ≤ lineMax) :
      Carries (texts ++ [text]) (lines ++ [line])

/-- The queue behind the lines handed out so far, as a state of the splitter: finished
lines, and possibly one at the end that waits for more. -/
structure Rep (past list : List BufLine) (σ : LineSplitter.State UInt8) : Prop where
  plain : ∀ line ∈ list, line.raw = false
  shape : ∃ closed kept done tail, σ = LineSplitter.opened closed kept ∧ list = done ++ tail ∧
    CrlfFree kept ∧ kept.length ≤ lineMax ∧ (∀ line ∈ done, line.terminated = true) ∧
    Carries closed (past ++ done) ∧
    ((kept = [] ∧ tail = []) ∨ kept ≠ [] ∧
      ∃ line, tail = [line] ∧ line.terminated = false ∧ line.buf = kept ∧ line.hasText = true)

private theorem hasText_copy {line : BufLine} {data text eols rest : List UInt8}
    (piece : Piece data text eols rest) (opened : line.terminated = false) :
    (linebufCopyLine line data).line.hasText = (line.hasText || !text.isEmpty) := by
  have none : eols.any (!isCrlf ·) = false := by
    simpa using piece.eols_crlf
  have some : text.any (!isCrlf ·) = !text.isEmpty := by
    cases shape : text with
    | nil => rfl
    | cons b bs => simp [piece.text_free b (by simp [shape])]
  simp only [BufLine.hasText, copyLine_fed piece opened, List.any_append, none, some,
    Bool.or_false]

/-- Unless it waits, the line is finished and holds the first 510 bytes of its text. -/
private theorem copyLine_closes {line : BufLine} {data text eols rest : List UInt8}
    (piece : Piece data text eols rest) (opened : line.terminated = false)
    (free : CrlfFree line.buf) (room : line.buf.length ≤ lineMax)
    (closes : ¬ (eols = [] ∧ (line.buf ++ text).length ≤ lineMax)) :
    (linebufCopyLine line data).line.terminated = true ∧
      ∃ n, (linebufCopyLine line data).line.buf =
        (line.buf ++ text).take lineMax ++ List.replicate n 0 ∧
        (linebufCopyLine line data).line.buf.length ≤ lineMax := by
  by_cases longer : lineMax < line.buf.length + text.length + eols.length
  · obtain ⟨terminated, n, buf, length⟩ := copyLine_overflow piece opened free longer room
    exact ⟨terminated, n, buf, length.le⟩
  · have ended : eols ≠ [] := by
      rintro rfl
      refine closes ⟨rfl, ?_⟩
      rw [List.length_append]
      simpa using longer
    obtain ⟨terminated, buf⟩ := copyLine_ends piece ended opened free (by omega)
    have fits : (line.buf ++ text).length ≤ lineMax := by
      rw [List.length_append]
      omega
    exact ⟨terminated, 0, by simp [buf, List.take_of_length_le fits], buf ▸ fits⟩

/-- A line that has been given one piece more: it is finished, or it waits at the end. -/
private theorem rep_copy {past done : List BufLine} {closed : List (List UInt8)} {line : BufLine}
    {data text eols rest : List UInt8} (piece : Piece data text eols rest)
    (finished : ∀ l ∈ done, l.terminated = true) (plain : ∀ l ∈ done, l.raw = false)
    (carries : Carries closed (past ++ done))
    (opened : line.terminated = false) (free : CrlfFree line.buf) (room : line.buf.length ≤ lineMax)
    (given : line.hasText = !line.buf.isEmpty) (some : line.buf ++ text ++ eols ≠ []) :
    Rep past (done ++ [(linebufCopyLine line data).line])
      (((text ++ eols).foldl (feed isCrlf lineMax) (LineSplitter.opened closed line.buf)).cut) := by
  have plain' : ∀ l ∈ done ++ [(linebufCopyLine line data).line], l.raw = false := by
    intro l member
    rcases List.mem_append.mp member with old | new
    · exact plain l old
    · rw [List.mem_singleton.mp new, copyLine_raw]
  have hasText := hasText_copy piece opened
  rw [given] at hasText
  refine ⟨plain', ?_⟩
  rw [LineSplitter.foldl_feed_piece isCrlf lineMax closed line.buf text eols piece.text_free
    piece.eols_crlf room (by decide)]
  -- without a line end, and with room for more, the line waits
  by_cases waits : eols = [] ∧ (line.buf ++ text).length ≤ lineMax
  · obtain ⟨rfl, fits⟩ := waits
    obtain ⟨pending, buf⟩ := copyLine_waits piece opened free (by simpa using fits)
    have both : ([] : List UInt8) = [] ∧ (line.buf ++ text).length ≤ lineMax := ⟨rfl, fits⟩
    rw [if_pos both]
    refine ⟨closed, line.buf ++ text, done, [_], rfl, rfl, ?_, fits, finished, carries, Or.inr ⟨by simpa using some, _, rfl, pending, buf, ?_⟩⟩
    · exact fun b member => (List.mem_append.mp member).elim (free b) (piece.text_free b)
    · rw [hasText]
      cases text <;> simp_all
  · obtain ⟨terminated, n, buf, fits⟩ := copyLine_closes piece opened free room waits
    refine ⟨_, [], done ++ [(linebufCopyLine line data).line], [], if_neg waits, by simp,
      fun b member => by simp at member, Nat.zero_le _, ?_, ?_, Or.inl ⟨rfl, rfl⟩⟩
    · intro l member
      rcases List.mem_append.mp member with old | new
      · exact finished l old
      · rw [List.mem_singleton.mp new, terminated]
    · rw [← List.append_assoc]
      by_cases blank : line.buf ++ text = []
      · obtain ⟨noBuf, noText⟩ := List.append_eq_nil_iff.mp blank
        have none : [(line.buf ++ text).take lineMax].filter (!·.isEmpty) = [] := by simp [blank]
        rw [none, List.append_nil]
        refine .blank carries (by simp [hasText, noBuf, noText]) fun b member => ?_
        rw [buf, blank] at member
        rcases List.mem_append.mp member with old | new
        · simp at old
        · exact List.eq_of_mem_replicate new
      · have shown : (line.buf ++ text).take lineMax ≠ [] := by
          simpa [lineMax, bufDataSize] using blank
        have one : [(line.buf ++ text).take lineMax].filter (!·.isEmpty) =
            [(line.buf ++ text).take lineMax] := by
          simpa using shown
        rw [one]
        refine .text carries ?_ buf fits
        rw [hasText]
        cases noBuf : line.buf <;> cases noText : text <;> simp_all

private theorem rep_idle {past list : List BufLine} {closed : List (List UInt8)}
    (finished : ∀ l ∈ list, l.terminated = true) (plain : ∀ l ∈ list, l.raw = false)
    (carries : Carries closed (past ++ list)) : Rep past list (LineSplitter.opened closed []) :=
  ⟨plain, closed, [], list, [], rfl, by simp, fun b member => by simp at member, Nat.zero_le _,
    finished, carries, Or.inl ⟨rfl, rfl⟩⟩

/-- After one piece the loop goes on with the rest, if there is any. -/
private theorem rep_rest {past : List BufLine} {rounds : ℕ} {bufhead : BufHead}
    {closed : List (List UInt8)} {kept data text eols rest : List UInt8}
    (piece : Piece data text eols rest) (room : kept.length ≤ lineMax)
    (step : Rep past bufhead.list
      (((text ++ eols).foldl (feed isCrlf lineMax) (LineSplitter.opened closed kept)).cut))
    (loop : ∀ closed', (∀ l ∈ bufhead.list, l.terminated = true) →
      (∀ l ∈ bufhead.list, l.raw = false) → Carries closed' (past ++ bufhead.list) →
      Rep past (parseLoop false 0 rounds bufhead rest).list
        ((rest.foldl (feed isCrlf lineMax) (LineSplitter.opened closed' [])).cut)) :
    Rep past (parseLoop false 0 rounds bufhead rest).list
      ((data.foldl (feed isCrlf lineMax) (LineSplitter.opened closed kept)).cut) := by
  by_cases ended : eols = []
  · have last := piece.rest_nil ended
    have all : data = text ++ eols := by rw [piece.split, last, List.append_nil]
    rw [last, all]
    cases rounds <;> exact step
  · -- the line is finished, so the queue is again one the loop can start from
    have idle := LineSplitter.foldl_feed_piece isCrlf lineMax closed kept text eols
      piece.text_free piece.eols_crlf room (by decide)
    rw [if_neg fun both => ended both.1] at idle
    obtain ⟨plain, closed', kept', done, tail, state, list, -, -, finished, carries, tails⟩ := step
    obtain ⟨rfl, rfl⟩ := LineSplitter.opened_eq_idle (state.symm.trans idle)
    obtain rfl : tail = [] := tails.elim And.right fun both => absurd rfl both.1
    rw [List.append_nil] at list
    have fold := LineSplitter.foldl_feed_cut_of_eols isCrlf lineMax
      (LineSplitter.opened closed kept) text eols ended piece.eols_crlf
    rw [piece.split, List.foldl_append, ← fold, idle]
    rw [← list] at finished carries
    exact loop _ finished plain carries

/-- The loop of `linebuf_parse`, on a queue of finished lines. -/
private theorem rep_parseLoop (past : List BufLine) (rounds : ℕ) (bufhead : BufHead)
    (closed : List (List UInt8)) (data : List UInt8) (enough : data.length ≤ rounds)
    (finished : ∀ l ∈ bufhead.list, l.terminated = true)
    (plain : ∀ l ∈ bufhead.list, l.raw = false) (carries : Carries closed (past ++ bufhead.list)) :
    Rep past (parseLoop false 0 rounds bufhead data).list
      ((data.foldl (feed isCrlf lineMax) (LineSplitter.opened closed [])).cut) := by
  have stopped := rep_idle finished plain carries
  induction rounds generalizing bufhead closed data with
  | zero =>
    obtain rfl := List.length_eq_zero_iff.mp (Nat.le_zero.mp enough)
    simpa [parseLoop] using stopped
  | succ rounds ih =>
    cases shape : data with
    | nil => simpa [parseLoop] using stopped
    | cons b bs =>
      rw [← shape]
      obtain ⟨text, eols, rest, piece⟩ := exists_piece data
      have progress : 0 < text.length + eols.length := by
        rw [Nat.pos_iff_ne_zero]
        intro none
        have noText : text = [] := List.length_eq_zero_iff.mp (by omega)
        have noEols : eols = [] := List.length_eq_zero_iff.mp (by omega)
        have split := piece.split
        rw [noText, noEols, piece.rest_nil noEols, shape] at split
        cases split
      have some : newLine.buf ++ text ++ eols ≠ [] := by
        intro none
        have length := congrArg List.length none
        simp only [List.length_append, List.length_nil] at length
        omega
      have step := rep_copy piece finished plain carries rfl
        (fun b member => by simp [newLine] at member) (Nat.zero_le _) rfl some
      have clen := @copyLine_clen newLine _ _ _ _ piece rfl
      have dropped : data.drop (linebufCopyLine newLine data).clen = rest := by
        rw [clen, piece.split, ← List.length_append, List.drop_left]
      have shorter : rest.length ≤ rounds := by
        have split := congrArg List.length piece.split
        simp only [List.length_append] at split
        omega
      have unfolded : parseLoop false 0 (rounds + 1) bufhead data =
          parseLoop false 0 rounds ⟨bufhead.list ++ [(linebufCopyLine newLine data).line],
            bufhead.len + (linebufCopyLine newLine data).grown, bufhead.alloclen + 1,
            bufhead.numlines + 1⟩ rest := by
        rw [← dropped, shape]
        rfl
      rw [unfolded]
      refine rep_rest piece (Nat.zero_le _) step fun closed' finished' plain' carries' => ?_
      exact ih _ _ _ shorter finished' plain' carries' (rep_idle finished' plain' carries')

private theorem rep_parse {past : List BufLine} {bufhead : BufHead} {σ : LineSplitter.State UInt8}
    (rep : Rep past bufhead.list σ) (chunk : List UInt8) :
    Rep past (linebufParse bufhead chunk false 0).list
      (LineSplitter.feedChunk isCrlf lineMax σ chunk) := by
  obtain ⟨plain, closed, kept, done, tail, rfl, list, free, room, finished, carries, tails⟩ := rep
  rcases tails with ⟨rfl, rfl⟩ | ⟨nonempty, line, rfl, opened, rfl, hasText⟩
  · -- the last line, if there is one, is finished and rejects the data
    rw [List.append_nil] at list
    have same : linebufParse bufhead chunk false 0 =
        parseLoop false 0 chunk.length bufhead chunk := by
      unfold linebufParse
      cases last : bufhead.list.getLast? with
      | none => rfl
      | some bufline =>
        have member := List.mem_of_getLast? last
        have rejects : linebufCopyLine bufline chunk = ⟨bufline, 0, 0⟩ := by
          have terminated := finished bufline (list ▸ member)
          have raw := plain bufline member
          obtain ⟨buf, _, _, fed⟩ := bufline
          simp_all [linebufCopyLine]
        have whole : bufhead.list.dropLast ++ [bufline] = bufhead.list :=
          List.dropLast_append_getLast? bufline last
        simp [linebufCopy, rejects, whole]
    rw [same]
    rw [← list] at finished carries
    exact rep_parseLoop past _ bufhead closed chunk le_rfl finished plain carries
  · obtain ⟨text, eols, rest, piece⟩ := exists_piece chunk
    have plain' : ∀ l ∈ done, l.raw = false := fun l member => plain l (by simp [list, member])
    have some : line.buf ++ text ++ eols ≠ [] := by simp [nonempty]
    have step := rep_copy piece finished plain' carries opened free room
      (by simp [hasText, nonempty]) some
    have clen := copyLine_clen piece opened
    have dropped : chunk.drop (linebufCopyLine line chunk).clen = rest := by
      rw [clen, piece.split, ← List.length_append, List.drop_left]
    have unfolded : linebufParse bufhead chunk false 0 =
        parseLoop false 0 chunk.length
          { bufhead with
            list := done ++ [(linebufCopyLine line chunk).line]
            len := bufhead.len + (linebufCopyLine line chunk).grown } rest := by
      unfold linebufParse
      simp only [list, List.getLast?_concat, List.dropLast_concat, linebufCopy, Bool.false_eq_true,
        if_false, dropped]
    rw [unfolded]
    refine rep_rest piece room step fun closed' finished' plain'' carries' => ?_
    refine rep_parseLoop past _ _ closed' rest ?_ finished' plain'' carries'
    have split := congrArg List.length piece.split
    simp only [List.length_append] at split
    omega

private theorem rep_get {past : List BufLine} {bufhead : BufHead} {σ : LineSplitter.State UInt8}
    (rep : Rep past bufhead.list σ) {line : BufLine} {rest : BufHead}
    (got : linebufGet bufhead false false = some (line, rest)) :
    Rep (past ++ [line]) rest.list σ ∧ bufhead.list = line :: rest.list := by
  obtain ⟨plain, closed, kept, done, tail, rfl, list, free, room, finished, carries, tails⟩ := rep
  unfold linebufGet at got
  cases shape : bufhead.list with
  | nil => simp [shape] at got
  | cons head others =>
    have raw := plain head (by simp [shape])
    obtain ⟨buf, terminated, _, fed⟩ := head
    obtain rfl := raw
    simp only [shape, Bool.false_or, Bool.false_and, Bool.false_eq_true, if_false] at got
    split at got
    · cases got
    · rename_i ready
      obtain ⟨rfl, rfl⟩ := Prod.mk.inj (Option.some.inj got)
      have plain' : ∀ l ∈ others, l.raw = false := fun l member => plain l (by simp [shape, member])
      -- a line that waits for more is never handed out, so this is one of the finished ones
      have taken : ∃ done', done = ⟨buf, terminated, false, fed⟩ :: done' ∧ others = done' ++ tail := by
        rw [shape] at list
        rcases List.cons_eq_append_iff.mp list with ⟨rfl, last⟩ | ⟨done', rfl, others⟩
        · rcases tails with ⟨-, rfl⟩ | ⟨-, line, rfl, waits, -⟩
          · cases last
          · obtain ⟨rfl, -⟩ := List.cons.inj last
            exact absurd (by simpa using waits) ready
        · exact ⟨done', rfl, others⟩
      obtain ⟨done', rfl, split⟩ := taken
      refine ⟨⟨plain', closed, kept, done', tail, rfl, split, free, room, ?_, ?_, tails⟩, rfl⟩
      · exact fun l member => finished l (List.mem_cons_of_mem _ member)
      · simpa using carries

theorem chunks_concat (ops : List Op) (op : Op) :
    chunks (ops ++ [op]) = chunks ops ++ chunks [op] :=
  List.filterMap_append

theorem Session.run_concat (ops : List Op) (op : Op) :
    Session.run (ops ++ [op]) = (Session.run ops).step op := by
  simp only [Session.run, List.foldl_append, List.foldl_cons, List.foldl_nil]

private theorem linebufGet_list {bufhead rest : BufHead} {partialOk raw : Bool} {line : BufLine}
    (got : linebufGet bufhead partialOk raw = some (line, rest)) :
    rest.list = bufhead.list.tail ∧ bufhead.list ≠ [] := by
  unfold linebufGet at got
  split at got
  · cases got
  · rename_i bufline others shape
    split at got
    · cases got
    · obtain ⟨rfl, rfl⟩ := Prod.mk.inj (Option.some.inj got)
      simp [shape]

theorem linebufGet_length {bufhead rest : BufHead} {partialOk raw : Bool} {line : BufLine}
    (got : linebufGet bufhead partialOk raw = some (line, rest)) :
    rest.list.length < bufhead.list.length := by
  obtain ⟨tail, nonempty⟩ := linebufGet_list got
  have positive := List.length_pos_iff.mpr nonempty
  rw [tail, List.length_tail]
  omega

theorem Session.step_get (s : Session) :
    (linebufGet s.bufhead false false = none ∧ s.step .get = s) ∨
      ∃ line rest, linebufGet s.bufhead false false = some (line, rest) ∧
        s.step .get = ⟨s.delivered ++ [line], rest⟩ := by
  cases got : linebufGet s.bufhead false false with
  | none => exact Or.inl ⟨rfl, by simp only [Session.step, got]⟩
  | some handed => exact Or.inr ⟨handed.1, handed.2, rfl, by simp only [Session.step, got]⟩

/-- The receive queue refines the forgetful splitter. -/
theorem rep_run (ops : List Op) :
    Rep (Session.run ops).delivered (Session.run ops).bufhead.list
      (chunked isCrlf lineMax (chunks ops)) := by
  induction ops using List.reverseRecOn with
  | nil => exact @rep_idle [] [] [] (by simp) (by simp) .nil
  | append_singleton ops op ih =>
    rw [Session.run_concat, chunks_concat]
    cases op with
    | parse chunk =>
      have one : chunks [.parse chunk] = [chunk] := rfl
      rw [one, LineSplitter.chunked_concat]
      exact rep_parse ih chunk
    | get =>
      have none : chunks [.get] = [] := rfl
      rw [none, List.append_nil]
      rcases (Session.run ops).step_get with ⟨-, same⟩ | ⟨line, rest, got, next⟩
      · rw [same]
        exact ih
      · rw [next]
        exact (rep_get ih got).1

end Ircd.Linebuf
