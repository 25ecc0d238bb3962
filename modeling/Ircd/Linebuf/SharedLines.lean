import Ircd.Linebuf.SendQueue
import Ircd.Lib.Refs

/-!
# Shared lines reach every queue

Each line knows how many nodes point to it, and each queue knows how far it has written its first line.
The mark on a line never makes a queue forget that: whoever has written a part of a line finds the mark.
-/
namespace Ircd.Linebuf

variable {ι : Type} [DecidableEq ι]

@[simp] theorem Msg.line_ne_nil (msg : Msg) : msg.line ≠ [] := by simp [Msg.line]

/-! ### Counting nodes -/

section Nodes

variable [Fintype ι] {s s' : Queues ι}

omit [DecidableEq ι] in
theorem nodes_congr (same : ∀ h, (s'.heads h).list = (s.heads h).list) (id : ℕ) :
    s'.nodes id = s.nodes id := by
  simp only [Queues.nodes, same]

omit [DecidableEq ι] in
theorem nodes_pos {id : ℕ} : 0 < s.nodes id ↔ ∃ h, id ∈ (s.heads h).list :=
  refs_pos_iff

omit [Fintype ι] in
/-- The lists when one queue changes. -/
theorem nodes_lists {h : ι} {head : QHead} (heads : s'.heads = Function.update s.heads h head) :
    (fun k => (s'.heads k).list) = Function.update (fun k => (s.heads k).list) h head.list := by
  rw [heads]
  exact Function.comp_update QHead.list s.heads h head

/-- A node for a line is added at the end of a queue. -/
theorem nodes_push {h : ι} {head : QHead} (heads : s'.heads = Function.update s.heads h head) {id : ℕ}
    (list : head.list = (s.heads h).list ++ [id]) (old : ℕ) :
    s'.nodes old = s.nodes old + if old = id then 1 else 0 := by
  show refs (fun k => (s'.heads k).list) old = refs (fun k => (s.heads k).list) old + _
  rw [nodes_lists heads]
  exact refs_put (list ▸ List.perm_append_singleton id _)

/-- The first node of a queue is taken away. -/
theorem nodes_pop {h : ι} {head : QHead} (heads : s'.heads = Function.update s.heads h head) {id : ℕ}
    (list : (s.heads h).list = id :: head.list) (old : ℕ) :
    s'.nodes old + (if old = id then 1 else 0) = s.nodes old := by
  show refs (fun k => (s'.heads k).list) old + _ = refs (fun k => (s.heads k).list) old
  rw [nodes_lists heads]
  exact refs_take (.of_eq list)

/-- Every line in a queue is complete, has as many references as nodes, and is freed when it has none. -/
structure Queues.Counted (s : Queues ι) : Prop where
  listed : ∀ h, ∀ id ∈ (s.heads h).list,
    id < s.made ∧ (s.lines id).terminated = true ∧ (s.lines id).buf ≠ []
  counted : ∀ id < s.made,
    (s.lines id).refcount = s.nodes id ∧ s.frees id = if s.nodes id = 0 then 1 else 0
  unmade : ∀ id, s.made ≤ id → s.frees id = 0

omit [DecidableEq ι] in
theorem start_counted : (Queues.start ι).Counted := by
  constructor <;> simp [Queues.start]

end Nodes

/-! ### The bytes of one queue -/

/-- What the queue still has to write. -/
def Queues.pending (s : Queues ι) (h : ι) : List UInt8 :=
  ((s.heads h).list.flatMap fun id => (s.lines id).buf).drop (s.heads h).writeofs

/-- Nothing is lost or repeated, and only a marked line is written in part. -/
structure Queues.Flowing (s : Queues ι) (h : ι) : Prop where
  bytes : s.written h ++ s.pending h = s.queued h
  empty : (s.heads h).list = [] → (s.heads h).writeofs = 0
  first : ∀ id rest, (s.heads h).list = id :: rest →
    (s.heads h).writeofs < (s.lines id).buf.length ∧
      (0 < (s.heads h).writeofs → (s.lines id).flushing = true)

/-- A queue that is done has written a part of what was put on it. -/
structure Queues.Closed (s : Queues ι) (h : ι) : Prop where
  empty : (s.heads h).list = []
  bytes : s.written h <+: s.queued h

omit [DecidableEq ι] in
/-- Another queue changes, and lines are marked. -/
theorem Queues.Flowing.congr {s s' : Queues ι} {h : ι} (flowing : s.Flowing h)
    (heads : s'.heads h = s.heads h) (written : s'.written h = s.written h)
    (queued : s'.queued h = s.queued h)
    (lines : ∀ id ∈ (s.heads h).list, (s'.lines id).buf = (s.lines id).buf ∧
      ((s.lines id).flushing = true → (s'.lines id).flushing = true)) : s'.Flowing h := by
  constructor
  · have pending : s'.pending h = s.pending h := by
      rw [Queues.pending, Queues.pending, heads]
      congr 1
      exact List.flatMap_congr fun id member => (lines id member).1
    rw [written, queued, pending]
    exact flowing.bytes
  · rw [heads]
    exact flowing.empty
  · intro id rest list
    rw [heads] at list ⊢
    obtain ⟨buf, marked⟩ := lines id (by simp [list])
    obtain ⟨below, mark⟩ := flowing.first id rest list
    rw [buf]
    exact ⟨below, fun started => marked (mark started)⟩

omit [DecidableEq ι] in
theorem Queues.Closed.congr {s s' : Queues ι} {h : ι} (closed : s.Closed h)
    (heads : s'.heads h = s.heads h) (written : s'.written h = s.written h)
    (queued : s'.queued h = s.queued h) : s'.Closed h := by
  constructor
  · rw [heads]
    exact closed.empty
  · rw [written, queued]
    exact closed.bytes

/-- The invariant. -/
structure Queues.Sound [Fintype ι] (s : Queues ι) : Prop extends s.Counted where
  flowing : ∀ h, s.done h = false → s.Flowing h
  closed : ∀ h, s.done h = true → s.Closed h

variable [Fintype ι] {s : Queues ι}

omit [DecidableEq ι] in
theorem start_sound : (Queues.start ι).Sound := by
  constructor
  · exact start_counted
  · intro h open_
    constructor <;> simp [Queues.start, Queues.pending]
  · intro h done
    cases done

/-! ### A new line -/

omit [Fintype ι] in
/-- What `linebuf_putmsg` changes. -/
theorem linebufPutmsg_fields (s : Queues ι) (h : ι) (msg : Msg) :
    (linebufPutmsg s h msg).lines =
        Function.update s.lines s.made ⟨msg.line, true, false, 1⟩ ∧
      (∃ head, (linebufPutmsg s h msg).heads = Function.update s.heads h head ∧
        head.list = (s.heads h).list ++ [s.made] ∧ head.writeofs = (s.heads h).writeofs) ∧
      (linebufPutmsg s h msg).queued = Function.update s.queued h (s.queued h ++ msg.line) := by
  simp only [linebufPutmsg, linebufNewLine, Queues.setLine, Queues.setHead, Queues.queue,
    Function.update_idem, Function.update_self]
  exact ⟨trivial, ⟨_, rfl, rfl, rfl⟩, trivial⟩

omit [DecidableEq ι] [Fintype ι] in
/-- A line at the end of a queue is queued, and nothing else happens to the queue. -/
theorem Queues.Flowing.push {s s' : Queues ι} {h : ι} (flowing : s.Flowing h) (id : ℕ)
    (list : (s'.heads h).list = (s.heads h).list ++ [id])
    (writeofs : (s'.heads h).writeofs = (s.heads h).writeofs) (written : s'.written h = s.written h)
    (queued : s'.queued h = s.queued h ++ (s'.lines id).buf) (some : (s'.lines id).buf ≠ [])
    (lines : ∀ old ∈ (s.heads h).list, (s'.lines old).buf = (s.lines old).buf ∧
      ((s.lines old).flushing = true → (s'.lines old).flushing = true)) : s'.Flowing h := by
  have same : (s.heads h).list.flatMap (fun old => (s'.lines old).buf) =
      (s.heads h).list.flatMap (fun old => (s.lines old).buf) :=
    List.flatMap_congr fun old member => (lines old member).1
  have short : (s.heads h).writeofs ≤
      ((s.heads h).list.flatMap fun old => (s.lines old).buf).length := by
    cases shape : (s.heads h).list with
    | nil => simp [flowing.empty shape]
    | cons first rest =>
      have below := (flowing.first first rest shape).1
      simp only [List.flatMap_cons, List.length_append]
      omega
  constructor
  · rw [written, queued, Queues.pending, list, writeofs, List.flatMap_append, List.flatMap_singleton, same,
      List.drop_append_of_le_length short, ← List.append_assoc]
    congr 1
    exact flowing.bytes
  · intro none
    simp [list] at none
  · intro first rest shape
    rw [list] at shape
    rw [writeofs]
    cases before : (s.heads h).list with
    | nil =>
      rw [before] at shape
      obtain ⟨rfl, -⟩ := List.cons.inj shape
      rw [flowing.empty before]
      exact ⟨List.length_pos_iff.mpr some, fun started => absurd started (Nat.lt_irrefl 0)⟩
    | cons old others =>
      rw [before, List.cons_append] at shape
      obtain ⟨rfl, -⟩ := List.cons.inj shape
      obtain ⟨below, mark⟩ := flowing.first old others before
      obtain ⟨buf, marked⟩ := lines old (by simp [before])
      rw [buf]
      exact ⟨below, fun started => marked (mark started)⟩

theorem Queues.Sound.putmsg (sound : s.Sound) {h : ι} (ready : s.done h = false) (msg : Msg) :
    (linebufPutmsg s h msg).Sound := by
  obtain ⟨lines, ⟨head, heads, list, writeofs⟩, queued⟩ := linebufPutmsg_fields s h msg
  have made : (linebufPutmsg s h msg).made = s.made + 1 := rfl
  have frees : (linebufPutmsg s h msg).frees = s.frees := rfl
  have done : (linebufPutmsg s h msg).done = s.done := rfl
  have written : (linebufPutmsg s h msg).written = s.written := rfl
  generalize linebufPutmsg s h msg = s' at *
  have old : ∀ id < s.made, s'.lines id = s.lines id := by
    intro id below
    rw [lines, Function.update_of_ne below.ne]
  have new : s'.lines s.made = ⟨msg.line, true, false, 1⟩ := by rw [lines, Function.update_self]
  have absent : ∀ k, s.made ∉ (s.heads k).list :=
    fun k member => Nat.lt_irrefl _ (sound.listed k s.made member).1
  have none : s.nodes s.made = 0 := by
    by_contra some
    obtain ⟨k, member⟩ := nodes_pos.mp (Nat.pos_of_ne_zero some)
    exact absent k member
  have nodes : ∀ id, s'.nodes id = s.nodes id + if id = s.made then 1 else 0 := nodes_push heads list
  constructor
  case toCounted =>
    constructor
    · intro k id member
      rw [made]
      have inOld : id ∈ (s.heads k).list → id < s.made + 1 ∧ (s'.lines id).terminated = true ∧
          (s'.lines id).buf ≠ [] := by
        intro member
        obtain ⟨below, rest⟩ := sound.listed k id member
        rw [old id below]
        exact ⟨Nat.lt_succ_of_lt below, rest⟩
      rw [heads] at member
      by_cases here : k = h
      · subst here
        rw [Function.update_self, list] at member
        rcases List.mem_append.mp member with member | member
        · exact inOld member
        · obtain rfl := List.mem_singleton.mp member
          rw [new]
          exact ⟨Nat.lt_succ_self _, rfl, msg.line_ne_nil⟩
      · rw [Function.update_of_ne here] at member
        exact inOld member
    · intro id below
      rw [made] at below
      rw [nodes, frees]
      rcases Nat.lt_succ_iff_lt_or_eq.mp below with below | rfl
      · rw [old id below, if_neg below.ne, Nat.add_zero]
        exact sound.counted id below
      · rw [new, none, if_pos rfl, sound.unmade _ (Nat.le_refl _)]
        simp
    · intro id above
      rw [made] at above
      rw [frees]
      exact sound.unmade id (Nat.le_of_succ_le above)
  case flowing =>
    intro k open_
    rw [done] at open_
    have flowing := sound.flowing k open_
    have unmoved : ∀ id ∈ (s.heads k).list, (s'.lines id).buf = (s.lines id).buf ∧
        ((s.lines id).flushing = true → (s'.lines id).flushing = true) := by
      intro id member
      rw [old id (sound.listed k id member).1]
      exact ⟨rfl, fun marked => marked⟩
    by_cases here : k = h
    · subst here
      refine flowing.push s.made ?_ ?_ ?_ ?_ ?_ unmoved
      · rw [heads, Function.update_self, list]
      · rw [heads, Function.update_self, writeofs]
      · rw [written]
      · rw [queued, Function.update_self, new]
      · rw [new]
        exact msg.line_ne_nil
    · refine flowing.congr ?_ ?_ ?_ unmoved
      · rw [heads, Function.update_of_ne here]
      · rw [written]
      · rw [queued, Function.update_of_ne here]
  case closed =>
    intro k closed
    rw [done] at closed
    have here : k ≠ h := by
      rintro rfl
      rw [ready] at closed
      cases closed
    refine (sound.closed k closed).congr ?_ ?_ ?_
    · rw [heads, Function.update_of_ne here]
    · rw [written]
    · rw [queued, Function.update_of_ne here]

/-! ### Attaching -/

omit [Fintype ι] in
/-- What one turn of the loop in `linebuf_attach` changes. -/
theorem attachLine_fields (s : Queues ι) (h : ι) (id : ℕ) :
    (attachLine h s id).lines =
        Function.update s.lines id { s.lines id with refcount := (s.lines id).refcount + 1 } ∧
      (∃ head, (attachLine h s id).heads = Function.update s.heads h head ∧
        head.list = (s.heads h).list ++ [id] ∧ head.writeofs = (s.heads h).writeofs) ∧
      (attachLine h s id).queued = Function.update s.queued h (s.queued h ++ (s.lines id).buf) :=
  ⟨rfl, ⟨_, rfl, rfl, rfl⟩, rfl⟩

/-- A line that changes its references only. -/
theorem update_refcount (lines : ℕ → QLine) (id : ℕ) (n : ℤ) (old : ℕ) :
    (Function.update lines id { lines id with refcount := n } old).buf = (lines old).buf ∧
      (Function.update lines id { lines id with refcount := n } old).flushing = (lines old).flushing ∧
      (Function.update lines id { lines id with refcount := n } old).terminated = (lines old).terminated := by
  by_cases here : old = id
  · subst here
    simp
  · simp [here]

theorem Queues.Sound.attachLine (sound : s.Sound) {h : ι} (ready : s.done h = false) {id : ℕ}
    (alive : ∃ k, id ∈ (s.heads k).list) : (attachLine h s id).Sound := by
  obtain ⟨lines, ⟨head, heads, list, writeofs⟩, queued⟩ := attachLine_fields s h id
  have made : (Linebuf.attachLine h s id).made = s.made := rfl
  have frees : (Linebuf.attachLine h s id).frees = s.frees := rfl
  have done : (Linebuf.attachLine h s id).done = s.done := rfl
  have written : (Linebuf.attachLine h s id).written = s.written := rfl
  generalize Linebuf.attachLine h s id = s' at *
  have same := update_refcount s.lines id ((s.lines id).refcount + 1)
  rw [← lines] at same
  have positive : 0 < s.nodes id := nodes_pos.mpr alive
  have nodes : ∀ old, s'.nodes old = s.nodes old + if old = id then 1 else 0 := nodes_push heads list
  constructor
  case toCounted =>
    constructor
    · intro k old member
      rw [made, (same old).1, (same old).2.2]
      rw [heads] at member
      by_cases here : k = h
      · subst here
        rw [Function.update_self, list] at member
        rcases List.mem_append.mp member with member | member
        · exact sound.listed k old member
        · obtain rfl := List.mem_singleton.mp member
          obtain ⟨other, member⟩ := alive
          exact sound.listed other old member
      · rw [Function.update_of_ne here] at member
        exact sound.listed k old member
    · intro old below
      rw [made] at below
      obtain ⟨counted, freed⟩ := sound.counted old below
      rw [nodes, frees, lines, freed]
      by_cases here : old = id
      · subst here
        rw [Function.update_self, if_pos rfl, if_neg positive.ne', if_neg (Nat.succ_ne_zero _), counted]
        exact ⟨by push_cast; rfl, rfl⟩
      · rw [Function.update_of_ne here, if_neg here]
        exact ⟨counted, rfl⟩
    · intro old above
      rw [made] at above
      rw [frees]
      exact sound.unmade old above
  case flowing =>
    intro k open_
    rw [done] at open_
    have flowing := sound.flowing k open_
    have unmoved : ∀ old ∈ (s.heads k).list, (s'.lines old).buf = (s.lines old).buf ∧
        ((s.lines old).flushing = true → (s'.lines old).flushing = true) := by
      intro old _
      rw [(same old).1, (same old).2.1]
      exact ⟨rfl, fun marked => marked⟩
    by_cases here : k = h
    · subst here
      refine flowing.push id ?_ ?_ ?_ ?_ ?_ unmoved
      · rw [heads, Function.update_self, list]
      · rw [heads, Function.update_self, writeofs]
      · rw [written]
      · rw [queued, Function.update_self, (same id).1]
      · rw [(same id).1]
        obtain ⟨other, member⟩ := alive
        exact (sound.listed other id member).2.2
    · refine flowing.congr ?_ ?_ ?_ unmoved
      · rw [heads, Function.update_of_ne here]
      · rw [written]
      · rw [queued, Function.update_of_ne here]
  case closed =>
    intro k closed
    rw [done] at closed
    have here : k ≠ h := by
      rintro rfl
      rw [ready] at closed
      cases closed
    refine (sound.closed k closed).congr ?_ ?_ ?_
    · rw [heads, Function.update_of_ne here]
    · rw [written]
    · rw [queued, Function.update_of_ne here]

/-- The loop of `linebuf_attach`, over lines that some queue has. -/
theorem Queues.Sound.foldl_attachLine {h : ι} (ids : List ℕ) {s : Queues ι} (sound : s.Sound)
    (ready : s.done h = false) (alive : ∀ id ∈ ids, ∃ k, id ∈ (s.heads k).list) :
    (ids.foldl (Linebuf.attachLine h) s).Sound := by
  induction ids generalizing s with
  | nil => exact sound
  | cons id ids ih =>
    refine ih (sound.attachLine ready (alive id (by simp))) ready fun other member => ?_
    -- the queues have not lost any line
    obtain ⟨k, inside⟩ := alive other (by simp [member])
    obtain ⟨-, ⟨head, heads, list, -⟩, -⟩ := attachLine_fields s h id
    refine ⟨k, ?_⟩
    rw [heads]
    by_cases here : k = h
    · subst here
      rw [Function.update_self, list]
      exact List.mem_append_left _ inside
    · rwa [Function.update_of_ne here]

theorem Queues.Sound.attach (sound : s.Sound) {h : ι} (ready : s.done h = false) (new : ι) :
    (linebufAttach s h new).Sound :=
  sound.foldl_attachLine _ ready fun _ member => ⟨new, member⟩

/-! ### Taking lines away -/

omit [Fintype ι] in
/-- What `linebuf_done_line` changes. -/
theorem linebufDoneLine_fields {h : ι} {id : ℕ} {rest : List ℕ} (list : (s.heads h).list = id :: rest) :
    (linebufDoneLine s h).lines =
        Function.update s.lines id { s.lines id with refcount := (s.lines id).refcount - 1 } ∧
      (∃ head, (linebufDoneLine s h).heads = Function.update s.heads h head ∧
        head.list = rest ∧ head.writeofs = (s.heads h).writeofs) ∧
      (linebufDoneLine s h).frees =
        (if (s.lines id).refcount - 1 = 0 then Function.update s.frees id (s.frees id + 1) else s.frees) ∧
      (linebufDoneLine s h).made = s.made ∧ (linebufDoneLine s h).done = s.done ∧
      (linebufDoneLine s h).queued = s.queued ∧ (linebufDoneLine s h).written = s.written := by
  simp only [linebufDoneLine, list]
  split <;> exact ⟨rfl, ⟨_, rfl, rfl, rfl⟩, rfl, rfl, rfl, rfl, rfl⟩

theorem Queues.Counted.doneLine (counted : s.Counted) (h : ι) : (linebufDoneLine s h).Counted := by
  cases shape : (s.heads h).list with
  | nil =>
    have same : linebufDoneLine s h = s := by simp only [linebufDoneLine, shape]
    rw [same]
    exact counted
  | cons id rest =>
    obtain ⟨lines, ⟨head, heads, list, -⟩, frees, made, -, -, -⟩ := linebufDoneLine_fields shape
    generalize linebufDoneLine s h = s' at *
    have same := update_refcount s.lines id ((s.lines id).refcount - 1)
    rw [← lines] at same
    have below := (counted.listed h id (by simp [shape])).1
    have positive : 0 < s.nodes id := nodes_pos.mpr ⟨h, by simp [shape]⟩
    have nodes : ∀ old, s'.nodes old + (if old = id then 1 else 0) = s.nodes old :=
      nodes_pop heads (list ▸ shape)
    constructor
    · intro k old member
      rw [made, (same old).1, (same old).2.2]
      rw [heads] at member
      by_cases here : k = h
      · subst here
        rw [Function.update_self, list] at member
        exact counted.listed k old (by simp [shape, member])
      · rw [Function.update_of_ne here] at member
        exact counted.listed k old member
    · intro old inside
      rw [made] at inside
      obtain ⟨references, freed⟩ := counted.counted old inside
      have change := nodes old
      by_cases here : old = id
      · subst here
        rw [if_pos rfl] at change
        rw [if_neg positive.ne'] at freed
        rw [lines, Function.update_self, references, frees, references]
        refine ⟨by push_cast [← change]; omega, ?_⟩
        by_cases last : s'.nodes old = 0
        · rw [if_pos last, if_pos (by omega), Function.update_self, freed]
        · rw [if_neg last, if_neg (by omega), freed]
      · rw [if_neg here, Nat.add_zero] at change
        have unfreed : s'.frees old = s.frees old := by
          rw [frees]
          split
          · rw [Function.update_of_ne here]
          · rfl
        rw [lines, Function.update_of_ne here, unfreed, change]
        exact ⟨references, freed⟩
    · intro old above
      rw [made] at above
      have here : old ≠ id := fun same => Nat.lt_irrefl _ (lt_of_lt_of_le (same ▸ below) above)
      rw [frees]
      split
      · rw [Function.update_of_ne here]
        exact counted.unmade old above
      · exact counted.unmade old above

/-- Taking lines away from one queue leaves everything else as it was. -/
structure Emptied (h : ι) (s s' : Queues ι) : Prop where
  heads : ∀ k, k ≠ h → s'.heads k = s.heads k
  lines : ∀ id, (s'.lines id).buf = (s.lines id).buf ∧ (s'.lines id).flushing = (s.lines id).flushing
  done : s'.done = s.done
  queued : s'.queued = s.queued
  written : s'.written = s.written

omit [DecidableEq ι] [Fintype ι] in
theorem Emptied.refl (h : ι) (s : Queues ι) : Emptied h s s :=
  ⟨fun _ _ => rfl, fun _ => ⟨rfl, rfl⟩, rfl, rfl, rfl⟩

omit [DecidableEq ι] [Fintype ι] in
theorem Emptied.trans {h : ι} {s s' s'' : Queues ι} (first : Emptied h s s') (second : Emptied h s' s'') :
    Emptied h s s'' where
  heads k other := (second.heads k other).trans (first.heads k other)
  lines id := ⟨(second.lines id).1.trans (first.lines id).1, (second.lines id).2.trans (first.lines id).2⟩
  done := second.done.trans first.done
  queued := second.queued.trans first.queued
  written := second.written.trans first.written

omit [Fintype ι] in
theorem doneLine_emptied (s : Queues ι) (h : ι) :
    Emptied h s (linebufDoneLine s h) ∧
      ((linebufDoneLine s h).heads h).list = (s.heads h).list.tail ∧
      ((linebufDoneLine s h).heads h).writeofs = (s.heads h).writeofs := by
  cases shape : (s.heads h).list with
  | nil =>
    have same : linebufDoneLine s h = s := by simp only [linebufDoneLine, shape]
    rw [same, shape]
    exact ⟨Emptied.refl h s, rfl, rfl⟩
  | cons id rest =>
    obtain ⟨lines, ⟨head, heads, list, writeofs⟩, -, -, done, queued, written⟩ :=
      linebufDoneLine_fields shape
    refine ⟨⟨fun k other => ?_, fun old => ?_, done, queued, written⟩, ?_, ?_⟩
    · rw [heads, Function.update_of_ne other]
    · rw [lines]
      exact ⟨(update_refcount _ _ _ old).1, (update_refcount _ _ _ old).2.1⟩
    · rw [heads, Function.update_self, list]
      rfl
    · rw [heads, Function.update_self, writeofs]

omit [Fintype ι] in
theorem doneLines_emptied (h : ι) (n : ℕ) (s : Queues ι) :
    Emptied h s (doneLines h n s) ∧ ((doneLines h n s).heads h).list = (s.heads h).list.drop n := by
  induction n generalizing s with
  | zero => exact ⟨Emptied.refl h s, rfl⟩
  | succ n ih =>
    obtain ⟨first, list, -⟩ := doneLine_emptied s h
    obtain ⟨others, rest⟩ := ih (linebufDoneLine s h)
    refine ⟨first.trans others, ?_⟩
    rw [doneLines, rest, list, List.drop_tail]

theorem Queues.Counted.doneLines (counted : s.Counted) (h : ι) (n : ℕ) :
    (doneLines h n s).Counted := by
  induction n generalizing s with
  | zero => exact counted
  | succ n ih => exact ih (counted.doneLine h)

omit [Fintype ι] in
omit [DecidableEq ι] in
/-- The other queues do not notice. -/
theorem Emptied.flowing {h k : ι} {s s' : Queues ι} (emptied : Emptied h s s') (other : k ≠ h)
    (flowing : s.Flowing k) : s'.Flowing k := by
  refine flowing.congr (emptied.heads k other) (by rw [emptied.written]) (by rw [emptied.queued]) ?_
  intro id _
  rw [(emptied.lines id).2]
  exact ⟨(emptied.lines id).1, fun marked => marked⟩

omit [Fintype ι] in
omit [DecidableEq ι] in
theorem Emptied.closed {h k : ι} {s s' : Queues ι} (emptied : Emptied h s s') (other : k ≠ h)
    (closed : s.Closed k) : s'.Closed k :=
  closed.congr (emptied.heads k other) (by rw [emptied.written]) (by rw [emptied.queued])

theorem Queues.Sound.donebuf (sound : s.Sound) {h : ι} (ready : s.done h = false) :
    (linebufDonebuf s h).Sound := by
  obtain ⟨emptied, list⟩ := doneLines_emptied h (s.heads h).list.length s
  have counted := sound.toCounted.doneLines h (s.heads h).list.length
  rw [List.drop_length] at list
  rw [linebufDonebuf]
  generalize Linebuf.doneLines h (s.heads h).list.length s = s' at *
  constructor
  case toCounted => exact ⟨counted.listed, counted.counted, counted.unmade⟩
  case flowing =>
    intro k open_
    by_cases here : k = h
    · subst here
      simp at open_
    · have before : s.done k = false := by simpa [here] using open_
      have flowing := emptied.flowing here (sound.flowing k before)
      exact ⟨flowing.bytes, flowing.empty, flowing.first⟩
  case closed =>
    intro k done
    by_cases here : k = h
    · subst here
      refine ⟨list, ?_⟩
      show s'.written k <+: s'.queued k
      rw [emptied.written, emptied.queued]
      exact ⟨_, (sound.flowing k ready).bytes⟩
    · have before : s.done k = true := by simpa [here] using done
      have closed := emptied.closed here (sound.closed k before)
      exact ⟨closed.empty, closed.bytes⟩

/-! ### Writing -/

omit [Fintype ι] in
/-- A queue that marks its first line has not written any of it. -/
theorem markFlushing_eq {h : ι} (flowing : s.Flowing h) {id : ℕ} {rest : List ℕ}
    (list : (s.heads h).list = id :: rest) :
    markFlushing s h id = s.setLine id { s.lines id with flushing := true } := by
  rw [markFlushing]
  split
  · rename_i marked
    have same : ({ s.lines id with flushing := true } : QLine) = s.lines id := by
      rw [← marked]
    rw [same, Queues.setLine, Function.update_eq_self]
  · rename_i unmarked
    have nothing : (s.heads h).writeofs = 0 := by
      by_contra some
      exact unmarked ((flowing.first id rest list).2 (Nat.pos_of_ne_zero some))
    have same : ({ s.heads h with writeofs := 0 } : QHead) = s.heads h := by
      rw [← nothing]
    rw [same, Queues.setHead]
    simp only [Queues.setLine]
    rw [Function.update_eq_self]

omit [DecidableEq ι] in
theorem Queues.Sound.mark (sound : s.Sound) (id : ℕ) :
    (s.setLine id { s.lines id with flushing := true }).Sound := by
  have lines : ∀ old, ((s.setLine id { s.lines id with flushing := true }).lines old).buf = (s.lines old).buf ∧
      ((s.setLine id { s.lines id with flushing := true }).lines old).terminated = (s.lines old).terminated ∧
      ((s.setLine id { s.lines id with flushing := true }).lines old).refcount = (s.lines old).refcount ∧
      ((s.lines old).flushing = true →
        ((s.setLine id { s.lines id with flushing := true }).lines old).flushing = true) := by
    intro old
    simp only [Queues.setLine]
    by_cases here : old = id
    · subst here
      simp
    · simp [here]
  have nodes : ∀ old, (s.setLine id { s.lines id with flushing := true }).nodes old = s.nodes old :=
    nodes_congr fun _ => rfl
  constructor
  case toCounted =>
    constructor
    · intro k old member
      rw [(lines old).1, (lines old).2.1]
      exact sound.listed k old member
    · intro old below
      rw [(lines old).2.2.1, nodes]
      exact sound.counted old below
    · exact sound.unmade
  case flowing =>
    exact fun k open_ => (sound.flowing k open_).congr rfl rfl rfl
      fun old _ => ⟨(lines old).1, (lines old).2.2.2⟩
  case closed => exact fun k done => (sound.closed k done).congr rfl rfl rfl

/-- Bytes of the first line are written, up to `ofs`. -/
def Queues.wrote (s : Queues ι) (h : ι) (bytes : List UInt8) (ofs : ℕ) : Queues ι :=
  { s with written := Function.update s.written h (s.written h ++ bytes) }.setHead h
    { s.heads h with writeofs := ofs }

theorem wrote_counted (counted : s.Counted) (h : ι) (bytes : List UInt8) (ofs : ℕ) :
    (s.wrote h bytes ofs).Counted := by
  have lists : ∀ k, ((s.wrote h bytes ofs).heads k).list = (s.heads k).list := by
    intro k
    simp only [Queues.wrote, Queues.setHead]
    by_cases here : k = h
    · subst here
      rw [Function.update_self]
    · rw [Function.update_of_ne here]
  constructor
  · intro k id member
    rw [lists] at member
    exact counted.listed k id member
  · intro id below
    rw [nodes_congr lists]
    exact counted.counted id below
  · exact counted.unmade

theorem Queues.Sound.writePart (sound : s.Sound) {h : ι} (ready : s.done h = false) {id : ℕ} {rest : List ℕ}
    (list : (s.heads h).list = id :: rest) (marked : (s.lines id).flushing = true) {n : ℕ}
    (short : (s.heads h).writeofs + n < (s.lines id).buf.length) :
    (s.wrote h (((s.lines id).buf.drop (s.heads h).writeofs).take n) ((s.heads h).writeofs + n)).Sound := by
  have flowing := sound.flowing h ready
  constructor
  case toCounted => exact wrote_counted sound.toCounted ..
  case flowing =>
    intro k open_
    by_cases here : k = h
    · subst here
      constructor
      · have bytes := flowing.bytes
        simp only [Queues.pending, list, List.flatMap_cons, Queues.wrote, Queues.setHead,
          Function.update_self] at bytes ⊢
        rw [List.drop_append_of_le_length (by omega)] at bytes
        rw [List.drop_append_of_le_length short.le, ← bytes, List.append_assoc, ← List.append_assoc (List.take _ _),
          ← List.drop_drop, List.take_append_drop]
      · intro none
        simp [Queues.wrote, Queues.setHead, list] at none
      · intro first others shape
        simp only [Queues.wrote, Queues.setHead, Function.update_self, list] at shape ⊢
        obtain ⟨rfl, -⟩ := List.cons.inj shape
        exact ⟨short, fun _ => marked⟩
    · refine (sound.flowing k open_).congr ?_ ?_ rfl fun old _ => ⟨rfl, fun marked => marked⟩
      · simp only [Queues.wrote, Queues.setHead, Function.update_of_ne here]
      · simp only [Queues.wrote, Queues.setHead, Function.update_of_ne here]
  case closed =>
    intro k done
    have here : k ≠ h := by
      rintro rfl
      exact absurd (ready.symm.trans done) Bool.false_ne_true
    refine (sound.closed k done).congr ?_ ?_ rfl
    · simp only [Queues.wrote, Queues.setHead, Function.update_of_ne here]
    · simp only [Queues.wrote, Queues.setHead, Function.update_of_ne here]

/-- The rest of the first line is written, and the line is taken away. -/
theorem Queues.Sound.writeLast (sound : s.Sound) {h : ι} (ready : s.done h = false) {id : ℕ} {rest : List ℕ}
    (list : (s.heads h).list = id :: rest) :
    (linebufDoneLine (s.wrote h ((s.lines id).buf.drop (s.heads h).writeofs) 0) h).Sound := by
  have flowing := sound.flowing h ready
  have counted := (wrote_counted sound.toCounted h ((s.lines id).buf.drop (s.heads h).writeofs) 0).doneLine h
  obtain ⟨emptied, tail, writeofs⟩ :=
    doneLine_emptied (s.wrote h ((s.lines id).buf.drop (s.heads h).writeofs) 0) h
  generalize linebufDoneLine (s.wrote h ((s.lines id).buf.drop (s.heads h).writeofs) 0) h = s' at *
  have list' : (s'.heads h).list = rest := by
    rw [tail]
    simp [Queues.wrote, Queues.setHead, list]
  have start : (s'.heads h).writeofs = 0 := by
    rw [writeofs]
    simp [Queues.wrote, Queues.setHead]
  have lines : ∀ old, (s'.lines old).buf = (s.lines old).buf := fun old => (emptied.lines old).1
  have others : ∀ k, k ≠ h → (s.wrote h ((s.lines id).buf.drop (s.heads h).writeofs) 0).heads k = s.heads k ∧
      (s.wrote h ((s.lines id).buf.drop (s.heads h).writeofs) 0).written k = s.written k := by
    intro k here
    simp only [Queues.wrote, Queues.setHead, Function.update_of_ne here]
    exact ⟨trivial, trivial⟩
  constructor
  case toCounted => exact counted
  case flowing =>
    intro k open_
    rw [emptied.done] at open_
    by_cases here : k = h
    · subst here
      constructor
      · have bytes := flowing.bytes
        have below := (flowing.first id rest list).1
        rw [Queues.pending, list, List.flatMap_cons, List.drop_append_of_le_length below.le] at bytes
        rw [emptied.written, emptied.queued, Queues.pending, list', start, List.drop_zero]
        simp only [Queues.wrote, Queues.setHead, Function.update_self, lines]
        rw [← bytes, List.append_assoc]
      · exact fun _ => start
      · intro first more shape
        rw [list'] at shape
        rw [start, lines]
        have some := (sound.listed k first (by simp [list, shape])).2.2
        exact ⟨List.length_pos_iff.mpr some, fun started => absurd started (Nat.lt_irrefl 0)⟩
    · exact emptied.flowing here ((sound.flowing k open_).congr (others k here).1 (others k here).2 rfl
        fun old _ => ⟨rfl, fun marked => marked⟩)
  case closed =>
    intro k done
    rw [emptied.done] at done
    have here : k ≠ h := by
      rintro rfl
      exact absurd (ready.symm.trans done) Bool.false_ne_true
    exact emptied.closed here ((sound.closed k done).congr (others k here).1 (others k here).2 rfl)

theorem Queues.Sound.flush (sound : s.Sound) {h : ι} (ready : s.done h = false) (n : ℕ) :
    (linebufFlush s h n).Sound := by
  have flowing := sound.flowing h ready
  cases list : (s.heads h).list with
  | nil =>
    simp only [linebufFlush, list]
    exact sound
  | cons id rest =>
    have terminated := (sound.listed h id (by simp [list])).2.1
    simp only [linebufFlush, list, terminated, Bool.not_true, Bool.false_eq_true, if_false]
    rw [markFlushing_eq flowing list]
    have marked := sound.mark id
    have flag : ((s.setLine id { s.lines id with flushing := true }).lines id).flushing = true := by
      simp [Queues.setLine]
    have list' : ((s.setLine id { s.lines id with flushing := true }).heads h).list = id :: rest := list
    have ready' : (s.setLine id { s.lines id with flushing := true }).done h = false := ready
    generalize s.setLine id { s.lines id with flushing := true } = s' at *
    have below := ((marked.flowing h ready').first id rest list').1
    split
    · exact marked
    split
    · rename_i whole
      have all : min n ((s'.lines id).buf.length - (s'.heads h).writeofs) =
          ((s'.lines id).buf.drop (s'.heads h).writeofs).length := by
        rw [List.length_drop]
        omega
      rw [all, List.take_length]
      exact marked.writeLast ready' list'
    · rename_i part
      exact marked.writePart ready' list' flag (by omega)

/-! ### The length of a line -/

theorem Msg.line_length (msg : Msg) : msg.line.length ≤ 512 := by
  have cut := List.rdropWhile_prefix (fun b => isCrlf b || b == 0) (l := (msg.front ++ msg.body).take 510)
  have length := cut.length_le
  rw [List.length_take] at length
  simp only [Msg.line, List.length_append, List.length_cons, List.length_nil]
  omega

omit [Fintype ι] in
theorem markFlushing_buf (s : Queues ι) (h : ι) (id old : ℕ) :
    ((markFlushing s h id).lines old).buf = (s.lines old).buf := by
  simp only [markFlushing]
  split
  · rfl
  · by_cases here : old = id
    · subst here
      simp [Queues.setHead, Queues.setLine]
    · simp [Queues.setHead, Queues.setLine, here]

omit [Fintype ι] in
theorem linebufFlush_buf (s : Queues ι) (h : ι) (n old : ℕ) :
    ((linebufFlush s h n).lines old).buf = (s.lines old).buf := by
  cases list : (s.heads h).list with
  | nil => simp only [linebufFlush, list]
  | cons id rest =>
    have mark := markFlushing_buf s h id old
    simp only [linebufFlush, list]
    split
    · rfl
    split
    · exact mark
    split
    · rw [((doneLine_emptied _ h).1.lines old).1]
      exact mark
    · exact mark

omit [Fintype ι] in
theorem linebufAttach_buf (s : Queues ι) (h new : ι) (old : ℕ) :
    ((linebufAttach s h new).lines old).buf = (s.lines old).buf := by
  rw [linebufAttach]
  generalize (s.heads new).list = ids
  induction ids generalizing s with
  | nil => rfl
  | cons id ids ih =>
    rw [List.foldl_cons, ih]
    exact (update_refcount s.lines id ((s.lines id).refcount + 1) old).1

/-- No line is longer than a message can be. -/
def Queues.Bounded (s : Queues ι) : Prop := ∀ id, (s.lines id).buf.length ≤ 512

omit [Fintype ι] in
theorem Queues.Bounded.step (bounded : s.Bounded) (op : QueueOp ι) : (s.step op).Bounded := by
  intro old
  cases op with
  | putmsg h msg =>
    simp only [Queues.step]
    split
    · exact bounded old
    · rw [(linebufPutmsg_fields s h msg).1]
      by_cases here : old = s.made
      · subst here
        rw [Function.update_self]
        exact msg.line_length
      · rw [Function.update_of_ne here]
        exact bounded old
  | attach h new =>
    simp only [Queues.step]
    split
    · exact bounded old
    · rw [linebufAttach_buf]
      exact bounded old
  | flush h n =>
    simp only [Queues.step]
    split
    · exact bounded old
    · rw [linebufFlush_buf]
      exact bounded old
  | donebuf h =>
    simp only [Queues.step]
    split
    · exact bounded old
    · have same := ((doneLines_emptied h (s.heads h).list.length s).1.lines old).1
      simp only [linebufDonebuf, same]
      exact bounded old

omit [Fintype ι] in
theorem Queues.run_bounded (ops : List (QueueOp ι)) : ((Queues.start ι).run ops).Bounded := by
  have from_bounded : ∀ s : Queues ι, s.Bounded → (s.run ops).Bounded := by
    induction ops with
    | nil => exact fun s bounded => bounded
    | cons op ops ih => exact fun s bounded => ih _ (bounded.step op)
  exact from_bounded _ fun _ => Nat.zero_le 512

/-! ### Runs -/

theorem Queues.Sound.step (sound : s.Sound) (op : QueueOp ι) : (s.step op).Sound := by
  cases op with
  | putmsg h msg =>
    simp only [Queues.step]
    split
    · exact sound
    · rename_i ready
      exact sound.putmsg (by simpa using ready) msg
  | attach h new =>
    simp only [Queues.step]
    split
    · exact sound
    · rename_i ready
      exact sound.attach (by simpa using fun done => ready (Or.inl done)) new
  | flush h n =>
    simp only [Queues.step]
    split
    · exact sound
    · rename_i ready
      exact sound.flush (by simpa using ready) n
  | donebuf h =>
    simp only [Queues.step]
    split
    · exact sound
    · rename_i ready
      exact sound.donebuf (by simpa using ready)

theorem Queues.Sound.run (ops : List (QueueOp ι)) {s : Queues ι} (sound : s.Sound) : (s.run ops).Sound := by
  induction ops generalizing s with
  | nil => exact sound
  | cons op ops ih => exact ih (sound.step op)

/-- At any time what has been written for a queue is the beginning of what was put on it, and all but what
is pending while the queue is in use. A line has as many references as there are nodes that point to it,
and it is freed, once, when there are none. -/
theorem sendQueues_spec (ops : List (QueueOp ι)) :
    let s := (Queues.start ι).run ops
    (∀ h, s.written h <+: s.queued h ∧ (s.done h = false → s.written h ++ s.pending h = s.queued h)) ∧
      ∀ id < s.made, (s.lines id).refcount = s.nodes id ∧ s.frees id = if s.nodes id = 0 then 1 else 0 := by
  have sound : ((Queues.start ι).run ops).Sound := start_sound.run ops
  refine ⟨fun h => ⟨?_, fun ready => (sound.flowing h ready).bytes⟩, sound.counted⟩
  cases done : ((Queues.start ι).run ops).done h with
  | true => exact (sound.closed h done).bytes
  | false => exact ⟨_, (sound.flowing h done).bytes⟩

end Ircd.Linebuf
