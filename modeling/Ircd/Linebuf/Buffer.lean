import Mathlib.Data.List.DropRight

/-!
# Line buffers

The receive side of `src/linebuf.c`: bytes arrive in chunks, `linebuf_parse` cuts them
into lines and `linebuf_get` hands the finished lines out in order. A line buffer holds
`BUF_DATA_SIZE - 1` data bytes; `buf` is what the C buffer holds below `len`.
-/
namespace Ircd.Linebuf

/-- `BUF_DATA_SIZE`: 510 data bytes, plus space for a NUL. -/
def bufDataSize : ℕ := 511

def isCrlf (b : UInt8) : Bool := b == 13 || b == 10

/-- `buf_line_t`. -/
structure BufLine where
  buf : List UInt8
  terminated : Bool
  raw : Bool
  /-- Ghost: the stream bytes given to this line. No branch reads it. -/
  fed : List UInt8
deriving DecidableEq

/-- `buf_head_t`. -/
structure BufHead where
  list : List BufLine
  len : ℤ
  alloclen : ℤ
  numlines : ℤ
deriving DecidableEq

/-- `linebuf_newbuf`. -/
def linebufNewbuf : BufHead := ⟨[], 0, 0, 0⟩

/-- The line `linebuf_new_line` allocates. -/
def newLine : BufLine := ⟨[], false, false, []⟩

/-- Bytes up to and including the first CR/LF sequence. -/
def linebufSkipCrlf (data : List UInt8) : ℕ :=
  let text := data.takeWhile (!isCrlf ·)
  text.length + ((data.drop text.length).takeWhile isCrlf).length

/-- How many trailing CR/LF bytes the loop `while (cpylen && ...)` takes off. The second
argument is the buffer from its last byte downwards; the loop of the source would look at
the byte in front of the buffer where this one stops at its first. -/
def yanked : ℕ → List UInt8 → ℕ
  | 0, _ => 0
  | _, [] => 0
  | cpylen + 1, b :: bs => if isCrlf b then yanked cpylen bs + 1 else 0

theorem yanked_le (n : ℕ) (bytes : List UInt8) : yanked n bytes ≤ n ∧ yanked n bytes ≤ bytes.length := by
  induction bytes generalizing n with
  | nil => cases n <;> simp [yanked]
  | cons b bytes ih =>
    cases n with
    | zero => simp [yanked]
    | succ n =>
      rw [yanked, List.length_cons]
      split
      · exact ⟨Nat.succ_le_succ (ih n).1, Nat.succ_le_succ (ih n).2⟩
      · exact ⟨Nat.zero_le _, Nat.zero_le _⟩

/-- What copying into one line gives: the line, by how much `bufhead->len` grows, and
the number of bytes consumed. -/
structure Copied where
  line : BufLine
  grown : ℤ
  clen : ℕ

/-- `linebuf_copy_line`. -/
def linebufCopyLine (bufline : BufLine) (data : List UInt8) : Copied :=
  if bufline.terminated then ⟨{ bufline with raw := false }, 0, 0⟩
  else
    let len := bufline.buf.length
    let clen := linebufSkipCrlf data
    let fed := bufline.fed ++ data.take clen
    if clen > bufDataSize - len - 1 then
      -- overflow: the buffer is filled and the rest of what was skipped is dropped
      let stored := bufline.buf ++ data.take (bufDataSize - len - 1)
      let cut := yanked clen stored.reverse
      ⟨⟨stored.take (stored.length - cut) ++ List.replicate cut 0, true, false, fed⟩,
        bufDataSize - 1, clen⟩
    else
      let stored := bufline.buf ++ data.take clen
      if (stored.getLast?.map isCrlf).getD false = false then
        -- no linefeed, wait for more
        ⟨⟨stored, false, false, fed⟩, clen, clen⟩
      else
        let cut := yanked clen stored.reverse
        ⟨⟨stored.take (stored.length - cut), true, false, fed⟩, clen - cut, clen⟩

/-- `linebuf_copy_raw`. `past` is the byte in memory behind the data, which the test
after the first loop looks at when the loop has used the data up. -/
def linebufCopyRaw (past : UInt8) (bufline : BufLine) (data : List UInt8) : Copied :=
  let len := bufline.buf.length
  if len = bufDataSize ∨ bufline.terminated then ⟨bufline, 0, 0⟩
  else
    let remaining := min data.length (bufDataSize - len - 1)
    let text := (data.take remaining).takeWhile (!isCrlf ·)
    let ch := (data.drop text.length).headD past
    if isCrlf ch ∨ text.length ≥ bufDataSize - len - 1 then
      let eols := ((data.take remaining).drop text.length).takeWhile isCrlf
      let taken := text ++ eols
      ⟨⟨bufline.buf ++ taken, true, true, bufline.fed ++ taken⟩, taken.length, taken.length⟩
    else
      ⟨⟨bufline.buf ++ text, false, true, bufline.fed ++ text⟩, text.length, text.length⟩

/-- The choice `linebuf_parse` makes for each line. -/
def linebufCopy (raw : Bool) (past : UInt8) (bufline : BufLine) (data : List UInt8) : Copied :=
  if raw then linebufCopyRaw past bufline data else linebufCopyLine bufline data

/-- The loop of `linebuf_parse`: each round opens a new line. The count is the number of
bytes, since a round consumes at least one. -/
def parseLoop (raw : Bool) (past : UInt8) : ℕ → BufHead → List UInt8 → BufHead
  | 0, bufhead, _ => bufhead
  | _, bufhead, [] => bufhead
  | rounds + 1, bufhead, data =>
    let copied := linebufCopy raw past newLine data
    parseLoop raw past rounds
      ⟨bufhead.list ++ [copied.line], bufhead.len + copied.grown, bufhead.alloclen + 1,
        bufhead.numlines + 1⟩
      (data.drop copied.clen)

/-- `linebuf_parse`. -/
def linebufParse (bufhead : BufHead) (data : List UInt8) (raw : Bool) (past : UInt8) : BufHead :=
  match bufhead.list.getLast? with
  | none => parseLoop raw past data.length bufhead data
  | some bufline =>
    let copied := linebufCopy raw past bufline data
    parseLoop raw past data.length
      { bufhead with
        list := bufhead.list.dropLast ++ [copied.line]
        len := bufhead.len + copied.grown }
      (data.drop copied.clen)

/-- What `linebuf_get` takes off a line that was filled raw and is not read raw. -/
def stripEol (buf : List UInt8) : List UInt8 := (buf.dropWhile isCrlf).rdropWhile isCrlf

/-- `linebuf_get`: the next line, with the bytes as they are handed out, unless there is
none or it must wait for more data. -/
def linebufGet (bufhead : BufHead) (partialOk raw : Bool) : Option (BufLine × BufHead) :=
  match bufhead.list with
  | [] => none
  | bufline :: rest =>
    if !(partialOk || bufline.terminated) then none
    else
      let bytes := if bufline.raw && !raw then stripEol bufline.buf else bufline.buf
      some ({ bufline with buf := bytes },
        ⟨rest, bufhead.len - bufline.buf.length, bufhead.alloclen - 1, bufhead.numlines - 1⟩)

/-- What a reader of a C string sees. -/
def cstring (buf : List UInt8) : List UInt8 := buf.takeWhile (· != 0)

/-! ### Sessions -/

/-- What happens to a receive queue that is read in non-raw mode. -/
inductive Op where
  | parse (chunk : List UInt8)
  | get
deriving DecidableEq

/-- A receive queue and the lines handed out so far. -/
structure Session where
  delivered : List BufLine
  bufhead : BufHead

def Session.start : Session := ⟨[], linebufNewbuf⟩

def Session.step (s : Session) : Op → Session
  | .parse chunk => { s with bufhead := linebufParse s.bufhead chunk false 0 }
  | .get =>
    match linebufGet s.bufhead false false with
    | none => s
    | some (line, rest) => ⟨s.delivered ++ [line], rest⟩

def Session.run (ops : List Op) : Session := ops.foldl Session.step .start

/-- Every line that has ever been put into the queue. -/
def Session.lines (s : Session) : List BufLine := s.delivered ++ s.bufhead.list

/-- The chunks of a history, in the order in which they arrive. -/
def chunks (ops : List Op) : List (List UInt8) :=
  ops.filterMap fun
    | .parse chunk => some chunk
    | .get => none

end Ircd.Linebuf
