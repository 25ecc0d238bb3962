import Ircd.Linebuf.Buffer
import Mathlib.Algebra.BigOperators.Group.Finset.Basic
import Mathlib.Logic.Function.Basic

/-!
# Send queues

The send side of `src/linebuf.c`. A line is written once, and every queue that it is put on points to it.
How far the first line of a queue has been written is noted in the queue, but that a line is being written
is noted in the line.
-/
namespace Ircd.Linebuf

/-! ### Messages -/

/-- What `linebuf_putmsg` is given: what `prefixfmt` and `format` make. The first must fit, since the size
passed for the second is the room left. The loop that takes line ends away stops at the first byte that is
none, and every message of the server has one. -/
structure Msg where
  front : List UInt8
  body : List UInt8
  front_fits : front.length ≤ bufDataSize
  some_text : ∃ b ∈ (front ++ body).take 510, isCrlf b = false ∧ b ≠ 0

/-- The line as `linebuf_putmsg` writes it: cut, without line ends at its end, and then ended. -/
def Msg.line (msg : Msg) : List UInt8 :=
  ((msg.front ++ msg.body).take 510).rdropWhile (fun b => isCrlf b || b == 0) ++ [13, 10]

/-! ### Lines and queues -/

/-- `buf_line_t`; `buf` has `len` bytes. -/
structure QLine where
  buf : List UInt8
  terminated : Bool
  flushing : Bool
  refcount : ℤ

/-- `buf_head_t`, with the lines that the nodes of `list` point to. -/
structure QHead where
  list : List ℕ
  len : ℤ
  alloclen : ℤ
  writeofs : ℕ
  numlines : ℤ

/-- The lines in memory and the queues. `made` counts the calls of `linebuf_allocate`, and `frees` those of
`linebuf_free`. The source does not note which queues are done, nor the bytes of the lines that were put
on a queue and those that have been written for it. -/
structure Queues (ι : Type) where
  lines : ℕ → QLine
  made : ℕ
  frees : ℕ → ℕ
  heads : ι → QHead
  done : ι → Bool
  queued : ι → List UInt8
  written : ι → List UInt8

/-- Every queue after `linebuf_newbuf`. -/
def Queues.start (ι : Type) : Queues ι where
  lines := fun _ => ⟨[], false, false, 0⟩
  made := 0
  frees := fun _ => 0
  heads := fun _ => ⟨[], 0, 0, 0, 0⟩
  done := fun _ => false
  queued := fun _ => []
  written := fun _ => []

section Operations

variable {ι : Type} [DecidableEq ι]

def Queues.setHead (s : Queues ι) (h : ι) (head : QHead) : Queues ι :=
  { s with heads := Function.update s.heads h head }

def Queues.setLine (s : Queues ι) (id : ℕ) (line : QLine) : Queues ι :=
  { s with lines := Function.update s.lines id line }

def Queues.queue (s : Queues ι) (h : ι) (bytes : List UInt8) : Queues ι :=
  { s with queued := Function.update s.queued h (s.queued h ++ bytes) }

/-- `linebuf_new_line`. -/
def linebufNewLine (s : Queues ι) (h : ι) : Queues ι :=
  let head := s.heads h
  { (s.setLine s.made ⟨[], false, false, 1⟩).setHead h
      { head with
        list := head.list ++ [s.made]
        alloclen := head.alloclen + 1
        numlines := head.numlines + 1 } with
    made := s.made + 1 }

/-- `linebuf_putmsg`. -/
def linebufPutmsg (s : Queues ι) (h : ι) (msg : Msg) : Queues ι :=
  let s' := linebufNewLine s h
  let s' := s'.setLine s.made { s'.lines s.made with buf := msg.line, terminated := true }
  (s'.setHead h { s'.heads h with len := (s'.heads h).len + msg.line.length }).queue h msg.line

/-- `linebuf_done_line`, at the first line of the queue. -/
def linebufDoneLine (s : Queues ι) (h : ι) : Queues ι :=
  let head := s.heads h
  match head.list with
  | [] => s
  | id :: rest =>
    let line := s.lines id
    let s' := s.setHead h
      { head with
        list := rest
        alloclen := head.alloclen - 1
        len := head.len - line.buf.length
        numlines := head.numlines - 1 }
    let s' := s'.setLine id { line with refcount := line.refcount - 1 }
    if line.refcount - 1 = 0 then { s' with frees := Function.update s'.frees id (s'.frees id + 1) } else s'

/-- `linebuf_done_line` for each line. -/
def doneLines (h : ι) : ℕ → Queues ι → Queues ι
  | 0, s => s
  | n + 1, s => doneLines h n (linebufDoneLine s h)

/-- `linebuf_donebuf`. -/
def linebufDonebuf (s : Queues ι) (h : ι) : Queues ι :=
  { doneLines h (s.heads h).list.length s with done := Function.update s.done h true }

/-- One turn of the loop in `linebuf_attach`. -/
def attachLine (h : ι) (s : Queues ι) (id : ℕ) : Queues ι :=
  let head := s.heads h
  let line := s.lines id
  ((s.setHead h
      { head with
        list := head.list ++ [id]
        alloclen := head.alloclen + 1
        len := head.len + line.buf.length
        numlines := head.numlines + 1 }).setLine id
    { line with refcount := line.refcount + 1 }).queue h line.buf

/-- `linebuf_attach`. -/
def linebufAttach (s : Queues ι) (h new : ι) : Queues ι := (s.heads new).list.foldl (attachLine h) s

/-- The first line is marked, by the first queue that writes it. -/
def markFlushing (s : Queues ι) (h : ι) (id : ℕ) : Queues ι :=
  if (s.lines id).flushing then s
  else (s.setLine id { s.lines id with flushing := true }).setHead h { s.heads h with writeofs := 0 }

/-- `linebuf_flush`; `n` is how much `write` would take, or zero when it takes nothing. -/
def linebufFlush (s : Queues ι) (h : ι) (n : ℕ) : Queues ι :=
  match (s.heads h).list with
  | [] => s
  | id :: _ =>
    if !(s.lines id).terminated then s
    else
      let s' := markFlushing s h id
      let head := s'.heads h
      let line := s'.lines id
      let retval := min n (line.buf.length - head.writeofs)
      if retval = 0 then s'
      else
        -- `write` has taken a part of the line, or all of it
        let s'' :=
          { s' with
            written := Function.update s'.written h
              (s'.written h ++ (line.buf.drop head.writeofs).take retval) }
        if head.writeofs + retval = line.buf.length then
          linebufDoneLine (s''.setHead h { head with writeofs := 0 }) h
        else s''.setHead h { head with writeofs := head.writeofs + retval }

/-! ### Runs -/

inductive QueueOp (ι : Type) where
  | putmsg (h : ι) (msg : Msg)
  | attach (h new : ι)
  | flush (h : ι) (n : ℕ)
  | donebuf (h : ι)

/-- Nothing is done with a queue that is done. A queue is not attached to itself, since the loop would go
on for ever. -/
def Queues.step (s : Queues ι) : QueueOp ι → Queues ι
  | .putmsg h msg => if s.done h then s else linebufPutmsg s h msg
  | .attach h new => if s.done h ∨ h = new then s else linebufAttach s h new
  | .flush h n => if s.done h then s else linebufFlush s h n
  | .donebuf h => if s.done h then s else linebufDonebuf s h

def Queues.run (s : Queues ι) (ops : List (QueueOp ι)) : Queues ι := ops.foldl Queues.step s

/-- How many nodes of queues point to the line. -/
def Queues.nodes [Fintype ι] (s : Queues ι) (id : ℕ) : ℕ := ∑ h, (s.heads h).list.count id

end Operations

end Ircd.Linebuf
