import Ircd.Lib.Refs
import Ircd.Lib.Run
import Ircd.Linebuf.RawLines
import Ircd.Linebuf.SendQueue
import Mathlib.Algebra.Ring.Nat

/-!
# What the queues account for

Every queue notes how many bytes and lines it holds. The lines of received data grow while they wait for their end, and
lines may be on several queues. Here any function of `src/linebuf.c` may be called on any queue.
-/
namespace Ircd.Linebuf.Accounting

/-- `buf_line_t`. -/
structure PoolLine where
  text : BufLine
  flushing : Bool
  refcount : ℤ

/-- The lines in memory and the queues. `made` counts the calls of `linebuf_allocate`, and `bufline_count` the lines
that are not freed. The assertions of `linebuf_done_line` have held so far if `asserted` is set. -/
structure Pool (ι : Type) where
  lines : ℕ → PoolLine
  made : ℕ
  buflineCount : ℤ
  heads : ι → QHead
  asserted : Bool

/-- Every queue after `linebuf_newbuf`. -/
def Pool.start (ι : Type) : Pool ι where
  lines := fun _ => ⟨newLine, false, 0⟩
  made := 0
  buflineCount := 0
  heads := fun _ => ⟨[], 0, 0, 0, 0⟩
  asserted := true

section Operations

variable {ι : Type} [DecidableEq ι]

namespace Pool

def setHead (s : Pool ι) (h : ι) (head : QHead) : Pool ι := { s with heads := Function.update s.heads h head }

def setLine (s : Pool ι) (id : ℕ) (line : PoolLine) : Pool ι := { s with lines := Function.update s.lines id line }

/-- The line gets another text, and the queue another length. -/
def fill (s : Pool ι) (h : ι) (id : ℕ) (text : BufLine) (grown : ℤ) : Pool ι :=
  (s.setLine id { s.lines id with text := text }).setHead h { s.heads h with len := (s.heads h).len + grown }

end Pool

/-- `linebuf_new_line`. -/
def linebufNewLine (s : Pool ι) (h : ι) : Pool ι :=
  let head := s.heads h
  { (s.setLine s.made ⟨newLine, false, 1⟩).setHead h
      { head with
        list := head.list ++ [s.made]
        alloclen := head.alloclen + 1
        numlines := head.numlines + 1 } with
    made := s.made + 1
    buflineCount := s.buflineCount + 1 }

/-- `linebuf_done_line`, at the first line of the queue. -/
def linebufDoneLine (s : Pool ι) (h : ι) : Pool ι :=
  let head := s.heads h
  match head.list with
  | [] => s
  | id :: rest =>
    let line := s.lines id
    let len := head.len - line.text.buf.length
    let refcount := line.refcount - 1
    let count := if refcount = 0 then s.buflineCount - 1 else s.buflineCount
    { (s.setHead h
          { head with list := rest, alloclen := head.alloclen - 1, len := len, numlines := head.numlines - 1 }).setLine
        id { line with refcount := refcount } with
      buflineCount := count
      asserted := s.asserted && decide (0 ≤ len) && decide (0 ≤ refcount) && decide (refcount = 0 → 0 ≤ count) }

/-- The loop of `linebuf_parse`: each round opens a new line. -/
def parseLoop (h : ι) (raw : Bool) (past : UInt8) : ℕ → Pool ι → List UInt8 → Pool ι
  | 0, s, _ => s
  | _, s, [] => s
  | rounds + 1, s, data =>
    let copied := linebufCopy raw past newLine data
    parseLoop h raw past rounds ((linebufNewLine s h).fill h s.made copied.line copied.grown) (data.drop copied.clen)

/-- `linebuf_parse`. -/
def linebufParse (s : Pool ι) (h : ι) (data : List UInt8) (raw : Bool) (past : UInt8) : Pool ι :=
  match (s.heads h).list.getLast? with
  | none => parseLoop h raw past data.length s data
  | some id =>
    let copied := linebufCopy raw past (s.lines id).text data
    parseLoop h raw past data.length (s.fill h id copied.line copied.grown) (data.drop copied.clen)

/-- `linebuf_get`: the bytes that are handed out, unless there is no line or it must wait for more. -/
def linebufGet (s : Pool ι) (h : ι) (partialOk raw : Bool) : Option (List UInt8) × Pool ι :=
  match (s.heads h).list with
  | [] => (none, s)
  | id :: _ =>
    let bufline := (s.lines id).text
    if !(partialOk || bufline.terminated) then (none, s)
    else (some (if bufline.raw && !raw then stripEol bufline.buf else bufline.buf), linebufDoneLine s h)

/-- `linebuf_putmsg`. -/
def linebufPutmsg (s : Pool ι) (h : ι) (msg : Msg) : Pool ι :=
  (linebufNewLine s h).fill h s.made { newLine with buf := msg.line, terminated := true } msg.line.length

/-- One turn of the loop in `linebuf_attach`. -/
def attachLine (h : ι) (s : Pool ι) (id : ℕ) : Pool ι :=
  let head := s.heads h
  let line := s.lines id
  (s.setHead h
      { head with
        list := head.list ++ [id]
        alloclen := head.alloclen + 1
        len := head.len + line.text.buf.length
        numlines := head.numlines + 1 }).setLine id { line with refcount := line.refcount + 1 }

/-- `linebuf_attach`. A queue that is attached to itself grows as fast as the loop reads it, so that it does not come to
an end unless the queue is empty. -/
def linebufAttach (s : Pool ι) (h new : ι) : Option (Pool ι) :=
  if h = new ∧ (s.heads h).list ≠ [] then none else some ((s.heads new).list.foldl (attachLine h) s)

/-- `linebuf_flush`; `retval` is what `write` returns. -/
def linebufFlush (s : Pool ι) (h : ι) (retval : ℤ) : Pool ι :=
  match (s.heads h).list with
  | [] => s
  | id :: _ =>
    if !(s.lines id).text.terminated then s
    else
      let s' :=
        if (s.lines id).flushing then s
        else (s.setLine id { s.lines id with flushing := true }).setHead h { s.heads h with writeofs := 0 }
      if retval ≤ 0 then s'
      else
        let writeofs := (s'.heads h).writeofs + retval.toNat
        if writeofs = (s'.lines id).text.buf.length then
          linebufDoneLine (s'.setHead h { s'.heads h with writeofs := 0 }) h
        else s'.setHead h { s'.heads h with writeofs := writeofs }

/-- `linebuf_done_line` for each line. -/
def doneLines (h : ι) : ℕ → Pool ι → Pool ι
  | 0, s => s
  | n + 1, s => doneLines h n (linebufDoneLine s h)

/-- `linebuf_donebuf`. -/
def linebufDonebuf (s : Pool ι) (h : ι) : Pool ι := doneLines h (s.heads h).list.length s

inductive LinebufOp (ι : Type) where
  | parse (h : ι) (data : List UInt8) (raw : Bool) (past : UInt8)
  | get (h : ι) (partialOk raw : Bool)
  | putmsg (h : ι) (msg : Msg)
  | attach (h new : ι)
  | flush (h : ι) (retval : ℤ)
  | donebuf (h : ι)

def Pool.step (s : Pool ι) : LinebufOp ι → Option (Pool ι)
  | .parse h data raw past => some (linebufParse s h data raw past)
  | .get h partialOk raw => some (linebufGet s h partialOk raw).2
  | .putmsg h msg => some (linebufPutmsg s h msg)
  | .attach h new => linebufAttach s h new
  | .flush h retval => some (linebufFlush s h retval)
  | .donebuf h => some (linebufDonebuf s h)

/-- Nothing is called any more when a call does not return. -/
def next (s : Option (Pool ι)) (op : LinebufOp ι) : Option (Pool ι) := s.bind (·.step op)

def run (calls : List (LinebufOp ι)) : Option (Pool ι) := calls.foldl next (some (Pool.start ι))

end Operations

/-! ### What the queues note -/

section

variable {ι : Type}

/-- The bytes on a queue. -/
def Pool.queued (s : Pool ι) (h : ι) : ℕ := ((s.heads h).list.map fun id => (s.lines id).text.buf.length).sum

structure Pool.Accounted (s : Pool ι) : Prop where
  len : ∀ h, (s.heads h).len = s.queued h
  alloclen : ∀ h, (s.heads h).alloclen = (s.heads h).list.length
  numlines : ∀ h, (s.heads h).numlines = (s.heads h).list.length
  asserted : s.asserted = true

/-- Data for a line that waits changes its length. -/
def Adds (raw : Bool) (line : BufLine) (data : List UInt8) : Prop :=
  if raw then data ≠ [] ∧ line.buf.length < 510 else ∃ b ∈ data.head?, isCrlf b = false

instance (raw : Bool) (line : BufLine) (data : List UInt8) : Decidable (Adds raw line data) :=
  inferInstanceAs (Decidable (if raw then _ else _))

/-- If the last line waits for more, it has room for it, unless it is filled raw. If it gets longer, no other node points
to it. -/
def Pool.Continues [DecidableEq ι] (s : Pool ι) (h : ι) (data : List UInt8) (raw : Bool) : Prop :=
  ∀ id ∈ (s.heads h).list.getLast?, (s.lines id).text.terminated = false →
    (raw = false → (s.lines id).text.buf.length + linebufSkipCrlf data ≤ 510) ∧
      (Adds raw (s.lines id).text data → ∀ k, (s.heads k).list.count id = if k = h then 1 else 0)

instance [Fintype ι] [DecidableEq ι] (s : Pool ι) (h : ι) (data : List UInt8) (raw : Bool) :
    Decidable (s.Continues h data raw) :=
  inferInstanceAs (Decidable (∀ id ∈ (s.heads h).list.getLast?, _ → _ ∧ (_ → _)))

/-- What must hold of a call. -/
def Pool.Safe [DecidableEq ι] (s : Pool ι) : LinebufOp ι → Prop
  | .parse h data raw _ => s.Continues h data raw
  | _ => True

instance [Fintype ι] [DecidableEq ι] (s : Pool ι) : DecidablePred s.Safe
  | .parse h data raw _ => inferInstanceAs (Decidable (s.Continues h data raw))
  | .get .. | .putmsg .. | .attach .. | .flush .. | .donebuf .. => .isTrue trivial

end

/-! ### How a line grows -/

section

variable {line : BufLine} {data : List UInt8} {raw : Bool}

/-- All of a run of line ends is taken away. -/
theorem yanked_run {run : List UInt8} (ends : ∀ b ∈ run, isCrlf b = true) (more : List UInt8) :
    yanked run.length (run ++ more) = run.length := by
  induction run with
  | nil => cases more <;> rfl
  | cons b run ih =>
    obtain ⟨first, rest⟩ := List.forall_mem_cons.mp ends
    rw [List.length_cons, List.cons_append, yanked, if_pos first, ih rest]

theorem linebufSkipCrlf_le (data : List UInt8) : linebufSkipCrlf data ≤ data.length := by
  have whole := (runs_isPrefix (!isCrlf ·) isCrlf data).length_le
  rwa [List.length_append] at whole

/-- A line that has room for what it is given notes by how much it grows, and so does a new line. -/
theorem linebufCopyLine_grown
    (room : line.terminated = false → line.buf = [] ∨ line.buf.length + linebufSkipCrlf data ≤ 510) :
    (linebufCopyLine line data).grown = ((linebufCopyLine line data).line.buf.length : ℤ) - line.buf.length := by
  have skipped := linebufSkipCrlf_le data
  simp only [linebufCopyLine]
  split
  · simp
  · next open_ =>
    split
    · next beyond =>
      -- only an empty line is filled as far as its length tells
      have empty : line.buf = [] := by
        rcases room (by simpa using open_) with empty | fits
        · exact empty
        · simp only [bufDataSize] at beyond
          omega
      have cut := yanked_le (linebufSkipCrlf data)
        (line.buf ++ data.take (bufDataSize - line.buf.length - 1)).reverse
      rw [List.length_reverse, List.length_append, List.length_take] at cut
      simp only [empty, bufDataSize, List.length_nil, List.nil_append] at beyond cut ⊢
      simp only [List.length_append, List.length_replicate, List.length_take]
      omega
    · split
      · simp only [List.length_append, List.length_take, Nat.min_eq_left skipped]
        omega
      · have cut := yanked_le (linebufSkipCrlf data) (line.buf ++ data.take (linebufSkipCrlf data)).reverse
        simp only [List.length_append, List.length_take, Nat.min_eq_left skipped, List.length_reverse] at cut ⊢
        omega

theorem linebufCopyRaw_grown (past : UInt8) :
    (linebufCopyRaw past line data).grown =
      ((linebufCopyRaw past line data).line.buf.length : ℤ) - line.buf.length := by
  simp only [linebufCopyRaw]
  split
  · simp
  · split <;> simp

theorem linebufCopy_grown (past : UInt8)
    (room : line.terminated = false → raw = false →
      line.buf = [] ∨ line.buf.length + linebufSkipCrlf data ≤ 510) :
    (linebufCopy raw past line data).grown =
      ((linebufCopy raw past line data).line.buf.length : ℤ) - line.buf.length := by
  rw [linebufCopy]
  split
  · exact linebufCopyRaw_grown past
  · next noRaw => exact linebufCopyLine_grown fun open_ => room open_ (by simpa using noRaw)

/-- Data that begins with a line end is taken as far as that goes. -/
theorem linebufSkipCrlf_of_crlf (begins : ∀ b, data.head? = some b → isCrlf b = true) :
    linebufSkipCrlf data = (data.takeWhile isCrlf).length := by
  have text : data.takeWhile (!isCrlf ·) = [] := by
    cases data with
    | nil => rfl
    | cons b data => simp [begins b rfl]
  rw [linebufSkipCrlf, text]
  simp

theorem take_takeWhile (p : UInt8 → Bool) (data : List UInt8) :
    data.take (data.takeWhile p).length = data.takeWhile p :=
  (List.prefix_iff_eq_take.mp (List.takeWhile_prefix p)).symm

/-- A line that is given nothing but line ends keeps its length. -/
theorem linebufCopyLine_still (room : line.terminated = false → line.buf.length + linebufSkipCrlf data ≤ 510)
    (nothing : line.terminated = false → ¬Adds false line data) :
    (linebufCopyLine line data).line.buf.length = line.buf.length := by
  simp only [linebufCopyLine]
  split
  · rfl
  · next open_ =>
    have begins : ∀ b, data.head? = some b → isCrlf b = true := by
      intro b first
      by_contra other
      exact nothing (by simpa using open_) ⟨b, first, by simpa using other⟩
    have fits := room (by simpa using open_)
    have skipped := linebufSkipCrlf_of_crlf begins
    rw [if_neg (by simp only [bufDataSize]; omega)]
    rw [skipped, take_takeWhile] at *
    split
    · next waits =>
      -- the run is empty, since it would end in a line end
      have empty : data.takeWhile isCrlf = [] := by
        by_contra some_
        have last := List.mem_takeWhile_imp (List.getLast_mem some_)
        rw [List.getLast?_append_of_ne_nil _ some_, List.getLast?_eq_getLast_of_ne_nil some_] at waits
        simp [last] at waits
      rw [empty, List.append_nil]
    · have all : ∀ b ∈ (data.takeWhile isCrlf).reverse, isCrlf b = true := fun b inside =>
        List.mem_takeWhile_imp (List.mem_reverse.mp inside)
      have cut := yanked_run all line.buf.reverse
      rw [List.length_reverse] at cut
      rw [List.reverse_append, cut, List.length_append, Nat.add_sub_cancel, List.take_left']
      rfl

theorem linebufCopyRaw_still (past : UInt8) (nothing : line.terminated = false → ¬Adds true line data) :
    (linebufCopyRaw past line data).line.buf.length = line.buf.length := by
  simp only [linebufCopyRaw]
  split
  · rfl
  · next open_ =>
    have none : data.take (min data.length (bufDataSize - line.buf.length - 1)) = [] := by
      rw [not_or] at open_
      have still := nothing (by simpa using open_.2)
      rw [Adds, if_pos rfl, not_and_or, not_not, Nat.not_lt] at still
      rcases still with rfl | full
      · rfl
      · rw [List.take_eq_nil_iff]
        left
        simp only [bufDataSize]
        omega
    rw [none]
    split <;> simp

theorem linebufCopy_still (past : UInt8)
    (room : line.terminated = false → raw = false → line.buf.length + linebufSkipCrlf data ≤ 510)
    (nothing : line.terminated = false → ¬Adds raw line data) :
    (linebufCopy raw past line data).line.buf.length = line.buf.length := by
  cases raw with
  | true => exact linebufCopyRaw_still past nothing
  | false => exact linebufCopyLine_still (fun open_ => room open_ rfl) nothing

end

/-! ### The calls -/

section Calls

variable {ι : Type} [Fintype ι]

/-- How many nodes point to a line. -/
def Pool.nodes (s : Pool ι) (id : ℕ) : ℕ := refs (fun h => (s.heads h).list) id

/-- The invariant: a line knows how many nodes point to it, and it is freed when none is left. -/
structure Pool.Sound (s : Pool ι) : Prop extends s.Accounted where
  listed : ∀ h, ∀ id ∈ (s.heads h).list, id < s.made
  refcount : ∀ id < s.made, (s.lines id).refcount = s.nodes id
  count : s.buflineCount = ((Finset.range s.made).filter fun id => 0 < s.nodes id).card

theorem start_sound : (Pool.start ι).Sound := by
  constructor
  case toAccounted => constructor <;> simp [Pool.start, Pool.queued]
  · simp [Pool.start]
  · simp [Pool.start]
  · rfl

/-! ### One queue -/

/-- What a queue notes of its lines, by their lengths. -/
structure Notes (size : ℕ → ℕ) (head : QHead) : Prop where
  len : head.len = (head.list.map size).sum
  alloclen : head.alloclen = head.list.length
  numlines : head.numlines = head.list.length

/-- A value that changes at one place, in a sum over a list. -/
theorem sum_map_update (f : ℕ → ℕ) (id v : ℕ) (list : List ℕ) :
    (list.map (Function.update f id v)).sum + list.count id * f id = (list.map f).sum + list.count id * v := by
  induction list with
  | nil => simp
  | cons old list ih =>
    rw [List.map_cons, List.map_cons, List.sum_cons, List.sum_cons, List.count_cons]
    by_cases here : old = id
    · subst here
      rw [Function.update_self, beq_self_eq_true, if_pos rfl, Nat.add_mul, Nat.add_mul]
      omega
    · rw [Function.update_of_ne here, beq_eq_false_iff_ne.mpr here, if_neg Bool.false_ne_true, Nat.add_zero]
      omega

namespace Notes

variable {size size' : ℕ → ℕ} {head : QHead} {id : ℕ}

theorem congr (notes : Notes size head) (same : ∀ id ∈ head.list, size' id = size id) : Notes size' head :=
  ⟨by rw [notes.len, List.map_congr_left same], notes.alloclen, notes.numlines⟩

/-- A line comes to the end. -/
theorem push (notes : Notes size head) (id : ℕ) : Notes size
    { head with
      list := head.list ++ [id]
      len := head.len + size id
      alloclen := head.alloclen + 1
      numlines := head.numlines + 1 } := by
  constructor
  · simp only [List.map_append, List.sum_append, notes.len, List.map_singleton, List.sum_singleton, Int.natCast_add]
  · simp only [List.length_append, notes.alloclen, List.length_singleton, Int.natCast_add, Int.natCast_one]
  · simp only [List.length_append, notes.numlines, List.length_singleton, Int.natCast_add, Int.natCast_one]

/-- The first line goes. -/
theorem pop (notes : Notes size head) {rest : List ℕ} (shape : head.list = id :: rest) : Notes size
    { head with
      list := rest
      len := head.len - size id
      alloclen := head.alloclen - 1
      numlines := head.numlines - 1 } := by
  obtain ⟨len, alloclen, numlines⟩ := notes
  rw [shape] at len alloclen numlines
  rw [List.map_cons, List.sum_cons] at len
  rw [List.length_cons] at alloclen numlines
  constructor <;> simp only <;> omega

/-- A line gets another length. -/
theorem fill (notes : Notes size head) (id length : ℕ) : Notes (Function.update size id length)
    { head with len := head.len + head.list.count id * ((length : ℤ) - size id) } := by
  refine ⟨?_, notes.alloclen, notes.numlines⟩
  have change := sum_map_update size id length head.list
  have before := notes.len
  simp only
  rw [Int.mul_sub]
  omega

end Notes

/-! ### All queues -/

def Pool.size (s : Pool ι) (id : ℕ) : ℕ := (s.lines id).text.buf.length

theorem Pool.sound_iff {s : Pool ι} : s.Sound ↔ (∀ h, Notes s.size (s.heads h)) ∧ s.asserted = true ∧
    Counted (fun h => (s.heads h).list) (fun id => (s.lines id).refcount) s.made s.buflineCount := by
  constructor
  · intro sound
    exact ⟨fun h => ⟨sound.len h, sound.alloclen h, sound.numlines h⟩, sound.asserted, sound.listed, sound.refcount,
      sound.count⟩
  · rintro ⟨notes, asserted, listed, refcount, count⟩
    exact ⟨⟨fun h => (notes h).len, fun h => (notes h).alloclen, fun h => (notes h).numlines, asserted⟩, listed,
      refcount, count⟩

variable [DecidableEq ι] {s : Pool ι} {h : ι} {id : ℕ}

omit [Fintype ι] in
theorem lists_update (heads : ι → QHead) (h : ι) (head : QHead) :
    (fun k => (Function.update heads h head k).list) = Function.update (fun k => (heads k).list) h head.list :=
  Function.comp_update QHead.list heads h head

theorem sizes_update (lines : ℕ → PoolLine) (id : ℕ) (line : PoolLine) :
    (fun old => (Function.update lines id line old).text.buf.length) =
      Function.update (fun old => (lines old).text.buf.length) id line.text.buf.length :=
  Function.comp_update (fun line : PoolLine => line.text.buf.length) lines id line

theorem refcounts_update (lines : ℕ → PoolLine) (id : ℕ) (line : PoolLine) :
    (fun old => (Function.update lines id line old).refcount) =
      Function.update (fun old => (lines old).refcount) id line.refcount :=
  Function.comp_update PoolLine.refcount lines id line

omit [Fintype ι] in
/-- What holds of all queues when one of them changes. -/
theorem forall_heads {P : QHead → Prop} {heads : ι → QHead} {h : ι} {head : QHead} (here : P head)
    (others : ∀ k, P (heads k)) (k : ι) : P (Function.update heads h head k) :=
  (Function.forall_update_iff heads fun _ => P).mpr ⟨here, fun k _ => others k⟩ k

theorem Pool.Sound.newLine (sound : s.Sound) (h : ι) : (linebufNewLine s h).Sound := by
  obtain ⟨notes, asserted, counted⟩ := Pool.sound_iff.mp sound
  have sizes : (linebufNewLine s h).size = Function.update s.size s.made 0 := sizes_update s.lines _ _
  -- the line is not on any queue yet
  have old (k : ι) : Notes (Function.update s.size s.made 0) (s.heads k) :=
    (notes k).congr fun id member => Function.update_of_ne (sound.listed k id member).ne _ _
  have last := (old h).push s.made
  rw [Function.update_self, Int.natCast_zero, Int.add_zero] at last
  refine Pool.sound_iff.mpr ⟨?_, asserted, ?_⟩
  · rw [sizes]
    exact forall_heads last old
  · unfold linebufNewLine Pool.setHead Pool.setLine
    dsimp only
    rw [lists_update, refcounts_update]
    exact counted.make

theorem Pool.Sound.fill (sound : s.Sound) {text : BufLine} {grown : ℤ}
    (grows : grown = (text.buf.length : ℤ) - (s.lines id).text.buf.length)
    (alone : text.buf.length = (s.lines id).text.buf.length ∨
      ∀ k, (s.heads k).list.count id = if k = h then 1 else 0) : (s.fill h id text grown).Sound := by
  obtain ⟨notes, asserted, counted⟩ := Pool.sound_iff.mp sound
  have sizes : (s.fill h id text grown).size = Function.update s.size id text.buf.length := sizes_update s.lines _ _
  have change : ∀ k, (s.heads k).list.count id * ((text.buf.length : ℤ) - s.size id) = if k = h then grown else 0 := by
    intro k
    rw [Pool.size, ← grows]
    rcases alone with same | alone
    · have none : grown = 0 := by omega
      rw [none, Int.mul_zero, ite_self]
    · rw [alone k]
      split
      · exact Int.one_mul _
      · exact Int.zero_mul _
  have filled (k : ι) := (notes k).fill id text.buf.length
  refine Pool.sound_iff.mpr ⟨?_, asserted, ?_⟩
  · rw [sizes]
    refine (Function.forall_update_iff s.heads fun _ head => Notes _ head).mpr ⟨?_, fun k other => ?_⟩
    · have here := filled h
      rwa [change, if_pos rfl] at here
    · have there := filled k
      rwa [change, if_neg other, Int.add_zero] at there
  · unfold Pool.fill Pool.setHead Pool.setLine
    dsimp only
    rw [lists_update, refcounts_update, Function.update_eq_self h, Function.update_eq_self id]
    exact counted

theorem nodes_attachLine (s : Pool ι) (h : ι) (id old : ℕ) :
    (attachLine h s id).nodes old = s.nodes old + if old = id then 1 else 0 := by
  unfold attachLine Pool.setHead Pool.setLine Pool.nodes
  dsimp only
  rw [lists_update]
  exact refs_put (List.perm_append_singleton id _)

theorem Pool.Sound.attachLine (sound : s.Sound) (h : ι) (alive : 0 < s.nodes id) :
    (attachLine h s id).Sound := by
  obtain ⟨notes, asserted, counted⟩ := Pool.sound_iff.mp sound
  have sizes : (Accounting.attachLine h s id).size = s.size :=
    (sizes_update s.lines _ _).trans (Function.update_eq_self id _)
  refine Pool.sound_iff.mpr ⟨?_, asserted, ?_⟩
  · rw [sizes]
    exact forall_heads ((notes h).push id) notes
  · unfold Accounting.attachLine Pool.setHead Pool.setLine
    dsimp only
    rw [lists_update, refcounts_update]
    exact counted.attach alive

theorem Pool.Sound.doneLine (sound : s.Sound) (h : ι) : (linebufDoneLine s h).Sound := by
  obtain ⟨notes, asserted, counted⟩ := Pool.sound_iff.mp sound
  cases shape : (s.heads h).list with
  | nil =>
    have same : linebufDoneLine s h = s := by rw [linebufDoneLine, shape]
    rwa [same]
  | cons id rest =>
    have left := (notes h).pop shape
    have taken := counted.take shape
    have on : id ∈ (s.heads h).list := by simp [shape]
    have positive : 0 < (s.lines id).refcount := counted.refcount_pos (h := h) on
    have sizes : (linebufDoneLine s h).size = s.size := by
      simp only [linebufDoneLine, shape]
      exact (sizes_update s.lines _ _).trans (Function.update_eq_self id _)
    refine Pool.sound_iff.mpr ⟨?_, ?_, ?_⟩
    · rw [sizes]
      simp only [linebufDoneLine, shape]
      exact forall_heads left notes
    · -- the assertions
      have len := left.len
      have count := taken.alive
      simp only [linebufDoneLine, shape, asserted, Bool.true_and, Bool.and_eq_true, decide_eq_true_eq]
      refine ⟨⟨?_, ?_⟩, fun _ => ?_⟩
      · exact (Int.natCast_nonneg _).trans_eq len.symm
      · exact Int.sub_nonneg_of_le positive
      · exact (Int.natCast_nonneg _).trans_eq count.symm
    · simp only [linebufDoneLine, shape, Pool.setHead, Pool.setLine]
      rw [lists_update, refcounts_update]
      exact taken

theorem Pool.Sound.doneLines (sound : s.Sound) (h : ι) (n : ℕ) : (doneLines h n s).Sound := by
  induction n generalizing s with
  | zero => exact sound
  | succ n ih => exact ih (sound.doneLine h)

/-- A line that has just been made is filled. -/
theorem Pool.Sound.makeLine (sound : s.Sound) (h : ι) {text : BufLine} {grown : ℤ} (grows : grown = text.buf.length) :
    ((linebufNewLine s h).fill h s.made text grown).Sound := by
  have lists (k : ι) : ((linebufNewLine s h).heads k).list = Function.update (fun k => (s.heads k).list) h
      ((s.heads h).list ++ [s.made]) k := congrFun (lists_update s.heads h _) k
  have absent (k : ι) : (s.heads k).list.count s.made = 0 :=
    List.count_eq_zero.mpr fun member => Nat.lt_irrefl _ (sound.listed k _ member)
  have new : (linebufNewLine s h).lines s.made = ⟨Linebuf.newLine, false, 1⟩ := Function.update_self _ _ _
  apply (sound.newLine h).fill
  · rw [new, grows]
    exact (Int.sub_zero _).symm
  · right
    intro k
    rw [lists]
    by_cases here : k = h
    · subst here
      rw [Function.update_self, List.count_append, absent, List.count_singleton_self, if_pos rfl]
    · rw [Function.update_of_ne here, absent, if_neg here]

theorem Pool.Sound.parseLoop (sound : s.Sound) (h : ι) (raw : Bool) (past : UInt8) (rounds : ℕ) (data : List UInt8) :
    (parseLoop h raw past rounds s data).Sound := by
  induction rounds generalizing s data with
  | zero => exact sound
  | succ rounds ih =>
    cases data with
    | nil => exact sound
    | cons b data =>
      refine ih (sound.makeLine h ?_) _
      rw [linebufCopy_grown past fun _ _ => .inl rfl]
      exact Int.sub_zero _

theorem Pool.Sound.parse (sound : s.Sound) {data : List UInt8} {raw : Bool} (past : UInt8)
    (continues : s.Continues h data raw) : (linebufParse s h data raw past).Sound := by
  unfold linebufParse
  split
  · exact sound.parseLoop h raw past _ _
  · next id last =>
    have room (open_ : (s.lines id).text.terminated = false) (noRaw : raw = false) :=
      (continues id last open_).1 noRaw
    refine (sound.fill (linebufCopy_grown past fun open_ noRaw => .inr (room open_ noRaw)) ?_).parseLoop h raw past _ _
    by_cases adds : (s.lines id).text.terminated = false ∧ Adds raw (s.lines id).text data
    · exact .inr ((continues id last adds.1).2 adds.2)
    · exact .inl (linebufCopy_still past room fun open_ more => adds ⟨open_, more⟩)

theorem Pool.Sound.attachLines (sound : s.Sound) (h : ι) (list : List ℕ) (alive : ∀ id ∈ list, 0 < s.nodes id) :
    (list.foldl (Accounting.attachLine h) s).Sound := by
  induction list generalizing s with
  | nil => exact sound
  | cons id list ih =>
    obtain ⟨first, rest⟩ := List.forall_mem_cons.mp alive
    refine ih (sound.attachLine h first) fun old member => ?_
    exact (rest old member).trans_le ((nodes_attachLine s h id old).symm ▸ Nat.le_add_right _ _)

theorem Pool.Sound.attach (sound : s.Sound) {new : ι} : ∀ s' ∈ linebufAttach s h new, s'.Sound := by
  intro s' attached
  unfold linebufAttach at attached
  split at attached
  · cases attached
  · obtain rfl := Option.some.inj attached
    exact sound.attachLines h _ fun id member => refs_pos_iff.mpr ⟨new, member⟩

/-- Another offset, or another mark. -/
theorem Pool.Sound.setHead (sound : s.Sound) (h : ι) (writeofs : ℕ) :
    (s.setHead h { s.heads h with writeofs := writeofs }).Sound := by
  obtain ⟨notes, asserted, counted⟩ := Pool.sound_iff.mp sound
  refine Pool.sound_iff.mpr ⟨?_, asserted, ?_⟩
  · exact forall_heads ⟨(notes h).len, (notes h).alloclen, (notes h).numlines⟩ notes
  · unfold Pool.setHead
    dsimp only
    rw [lists_update, Function.update_eq_self h]
    exact counted

omit [DecidableEq ι] in
theorem Pool.Sound.mark (sound : s.Sound) (id : ℕ) : (s.setLine id { s.lines id with flushing := true }).Sound := by
  obtain ⟨notes, asserted, counted⟩ := Pool.sound_iff.mp sound
  have sizes : (s.setLine id { s.lines id with flushing := true }).size = s.size :=
    (sizes_update s.lines _ _).trans (Function.update_eq_self id _)
  refine Pool.sound_iff.mpr ⟨sizes ▸ notes, asserted, ?_⟩
  unfold Pool.setLine
  dsimp only
  rw [refcounts_update, Function.update_eq_self id]
  exact counted

theorem Pool.Sound.flush (sound : s.Sound) (h : ι) (retval : ℤ) : (linebufFlush s h retval).Sound := by
  unfold linebufFlush
  split
  · exact sound
  · next id rest shape =>
    split
    · exact sound
    · have marked : (if (s.lines id).flushing then s
          else (s.setLine id { s.lines id with flushing := true }).setHead h { s.heads h with writeofs := 0 }).Sound := by
        split
        · exact sound
        · exact (sound.mark id).setHead h 0
      generalize (if (s.lines id).flushing then s
          else (s.setLine id { s.lines id with flushing := true }).setHead h { s.heads h with writeofs := 0 }) = s' at *
      simp only
      split
      · exact marked
      · split
        · exact (marked.setHead h 0).doneLine h
        · exact marked.setHead h _

theorem Pool.Sound.step (sound : s.Sound) {op : LinebufOp ι} (safe : s.Safe op) : ∀ s' ∈ s.step op, s'.Sound := by
  intro s' after
  cases op with
  | parse h data raw past =>
    obtain rfl := Option.some.inj after
    exact sound.parse past safe
  | get h partialOk raw =>
    obtain rfl := Option.some.inj after
    unfold linebufGet
    split
    · exact sound
    · simp only
      split
      · exact sound
      · exact sound.doneLine h
  | putmsg h msg =>
    obtain rfl := Option.some.inj after
    exact sound.makeLine h rfl
  | attach h new => exact sound.attach s' after
  | flush h retval =>
    obtain rfl := Option.some.inj after
    exact sound.flush h retval
  | donebuf h =>
    obtain rfl := Option.some.inj after
    exact sound.doneLines h _

/-- If no parse overflows a line that has been begun, and none continues a line that another node points to, then after
every call the queues note what they hold, and the assertions have held. -/
theorem accounted_kept (calls : List (LinebufOp ι))
    (safe : Along next (fun s op => ∀ s' ∈ s, s'.Safe op) (some (Pool.start ι)) calls) (k : ℕ) :
    ∀ s ∈ run (calls.take k), s.Accounted := by
  have sound : ∀ s ∈ run (calls.take k), s.Sound := by
    have keep : ∀ (s : Option (Pool ι)) op, (∀ s' ∈ s, s'.Sound) → (∀ s' ∈ s, s'.Safe op) →
        ∀ s' ∈ next s op, s'.Sound := by
      intro s op sound safe s' after
      obtain ⟨before, here, step⟩ := Option.bind_eq_some_iff.mp after
      exact (sound before here).step (safe before here) s' step
    refine (safe.take k).keeps keep ?_
    intro s' here
    obtain rfl := Option.some.inj here
    exact start_sound
  exact fun s here => (sound s here).toAccounted

/-- A line comes in two pieces and is read. -/
theorem accounted_kept_pieces : ∃ s : Pool Unit,
    run [.parse () [97] false 0, .parse () [98, 13, 10] false 0, .get () false false] = some s ∧ s.Accounted :=
  ⟨_, rfl, accounted_kept [.parse () [97] false 0, .parse () [98, 13, 10] false 0, .get () false false]
    ⟨fun _ here => Option.some.inj here ▸ by decide, fun _ here => Option.some.inj here ▸ by decide,
      fun _ _ => trivial, trivial⟩ 3 _ rfl⟩

/-- One byte is received, and then more than there is room for: the byte counts twice. -/
theorem begun_line_counts_twice :
    ¬ ∀ (ι : Type) [Fintype ι] [DecidableEq ι] (calls : List (LinebufOp ι)) (k : ℕ),
      ∀ s ∈ run (calls.take k), s.Accounted := by
  intro all
  have now : (run [.parse () [97] false 0, .parse () (List.replicate 511 97 ++ [13, 10]) false 0]).map
      (fun s => ((s.heads ()).len, s.queued ())) = some (511, 510) := by
    decide +kernel
  obtain ⟨s, here, sums⟩ := Option.map_eq_some_iff.mp now
  have len := (all Unit [.parse () [97] false 0, .parse () (List.replicate 511 97 ++ [13, 10]) false 0] 2 s here).len ()
  rw [(Prod.mk.inj sums).1, (Prod.mk.inj sums).2] at len
  exact absurd len (by decide)

end Calls

end Ircd.Linebuf.Accounting
