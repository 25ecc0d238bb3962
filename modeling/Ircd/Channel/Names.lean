import Ircd.Channel.Integrity
import Ircd.Channel.Vchan
import Ircd.Lib.Machine
import Mathlib.Algebra.Order.BigOperators.Group.List

/-!
# NAMES

`channel_member_names` of `src/channel.c` walks through the five lists of members at once and puts the names into
lines. The flag of the ops with voice has no terminator, and an op with voice is shown to himself as somebody with
voice under `+a`.
-/
namespace Ircd.Chan

/-! ### The lines -/

/-- What `channel_member_names` is called with, who is `IsInvisible`, and what stands on the stack behind the flag
of the ops with voice: `set_channel_mode_flags` writes that flag, but not the byte behind it. -/
structure NamesQuery where
  source : ClientId
  chptr : ChannelId
  nameOfChannel : List Char
  showEon : Bool
  invisible : ClientId → Bool
  stale : List Char

/-- `PubChannel`. -/
def Channel.pub (ch : Channel) : Bool := decide (.paranoid ∉ ch.mode.mode ∧ .secret ∉ ch.mode.mode)

/-- `channel_pub_or_secret`. -/
def Channel.pubOrSecret (ch : Channel) : Char :=
  if ch.pub then '=' else if .secret ∈ ch.mode.mode then '@' else '*'

/-- The sublists in the order of `members_ptr`. -/
def sublists : List Rank := [.chanop, .halfop, .voiced, .peon, .chanopVoiced]

/-- Somebody who is no op may not see who is. -/
def Channel.hides (ch : Channel) (source : ClientId) : Bool :=
  decide (.hideOps ∈ ch.mode.mode) && !ch.isAnyOp source

/-- `set_channel_mode_flags`, with what is read of the flags that it writes. -/
def Channel.modeFlags (ch : Channel) (source : ClientId) (stale : List Char) : Rank → List Char :=
  if ch.hides source then fun _ => []
  else fun
    | .chanop => ['@']
    | .halfop => ['%']
    | .voiced => ['+']
    | .peon => []
    | .chanopVoiced => '@' :: stale

/-- The variables of the loop. `lbuf` is what has been written to the buffer. -/
structure NamesLoop where
  membersPtr : Rank → List ClientId
  sublistsDone : Rank → Bool
  lbuf : List Char
  replyToSend : Bool
  sent : List (List Char)

section Query

variable (s : State) (q : NamesQuery)

/-- `RPL_NAMREPLY`, up to the names. -/
def State.nameReply : List Char :=
  ':' :: s.meName ++ [' ', '3', '5', '3', ' '] ++ (s.client q.source).name ++
    [' ', (s.channel q.chptr).pubOrSecret, ' '] ++ q.nameOfChannel ++ [' ', ':']

/-- `RPL_ENDOFNAMES`. -/
def State.endOfNames : List (List Char) :=
  if q.showEon then
    [':' :: s.meName ++ [' ', '3', '6', '6', ' '] ++ (s.client q.source).name ++ [' '] ++ q.nameOfChannel ++
      " :End of /NAMES list.".toList]
  else []

/-- `ShowChannel`. -/
def State.showChannel : Bool := (s.channel q.chptr).pub || s.isMember q.source q.chptr

/-- Somebody on the channel whom the loop does not leave out. -/
def State.visible (who : ClientId) : Bool := !(q.invisible who && !s.isMember q.source q.chptr)

/-- What the loop writes for somebody on one of the lists. -/
def State.nameEntry (i : Rank) (who : ClientId) : List Char :=
  let ch := s.channel q.chptr
  (if who = q.source ∧ ch.isVoiced who = true ∧ .hideOps ∈ ch.mode.mode then ['+']
    else ch.modeFlags q.source q.stale i) ++ (s.client who).name ++ [' ']

/-- The body of the inner loop. -/
def State.namesSublist (l : NamesLoop) (i : Rank) : NamesLoop :=
  match l.membersPtr i with
  | [] => { l with sublistsDone := Function.update l.sublistsDone i true }
  | who :: next =>
    let l := { l with membersPtr := Function.update l.membersPtr i next }
    if s.visible q who then
      let lbuf := l.lbuf ++ s.nameEntry q i who
      if lbuf.length + nickLen > bufSize - 3 then
        { l with sent := l.sent ++ [lbuf], replyToSend := false, lbuf := s.nameReply q }
      else { l with lbuf := lbuf, replyToSend := true }
    else l

/-- One round of the outer loop. The lines are complete when all sublists are done. -/
def State.namesRound (l : NamesLoop) : NamesLoop ⊕ List (List Char) :=
  if sublists.all l.sublistsDone then .inr (if l.replyToSend then l.sent ++ [l.lbuf] else l.sent)
  else .inl (sublists.foldl (s.namesSublist q) l)

def State.namesStart : NamesLoop where
  membersPtr := (s.channel q.chptr).members
  sublistsDone := fun _ => false
  lbuf := s.nameReply q
  replyToSend := false
  sent := []

/-- `channel_member_names`, with so many rounds of the loop at most. -/
def State.channelMemberNames (rounds : ℕ) : Option (List (List Char)) :=
  if s.showChannel q then
    match Machine.run (s.namesRound q) rounds (s.namesStart q) with
    | .inl _ => none
    | .inr lines => some (lines ++ s.endOfNames q)
  else some (s.endOfNames q)

end Query

/-! ### The loop ends -/

theorem mem_sublists (r : Rank) : r ∈ sublists := by cases r <;> decide

theorem sublists_nodup : sublists.Nodup := by decide

section Loop

variable {s : State} {q : NamesQuery} {l : NamesLoop} {r i : Rank}

/-- How often a sublist is still looked at. -/
def NamesLoop.left (l : NamesLoop) (r : Rank) : ℕ :=
  (l.membersPtr r).length + if l.sublistsDone r then 0 else 1

theorem namesSublist_left (s : State) (q : NamesQuery) (l : NamesLoop) (i r : Rank) :
    (s.namesSublist q l i).left r = if r = i then l.left r - 1 else l.left r := by
  have other : ∀ {α : Type} (f : Rank → α) (a : α), r ≠ i → Function.update f i a r = f r :=
    fun f a different => Function.update_of_ne different a f
  unfold State.namesSublist NamesLoop.left
  split
  next empty =>
    by_cases here : r = i
    · subst here
      simp only [Function.update_self, empty, List.length_nil, if_true]
      split <;> rfl
    · simp only [other _ _ here, if_neg here]
  next who next members =>
    have taken : ∀ l' : NamesLoop, l'.membersPtr = Function.update l.membersPtr i next →
        l'.sublistsDone = l.sublistsDone →
        ((l'.membersPtr r).length + if l'.sublistsDone r = true then 0 else 1) =
          if r = i then ((l.membersPtr r).length + if l.sublistsDone r = true then 0 else 1) - 1
          else (l.membersPtr r).length + if l.sublistsDone r = true then 0 else 1 := by
      intro l' ptr done
      rw [ptr, done]
      by_cases here : r = i
      · subst here
        rw [if_pos rfl, Function.update_self, members, List.length_cons]
        omega
      · rw [if_neg here, other _ _ here]
    dsimp only
    split
    · split
      · exact taken _ rfl rfl
      · exact taken _ rfl rfl
    · exact taken _ rfl rfl

theorem foldl_namesSublist_left (s : State) (q : NamesQuery) (order : List Rank) (once : order.Nodup)
    (l : NamesLoop) (r : Rank) :
    (order.foldl (s.namesSublist q) l).left r = if r ∈ order then l.left r - 1 else l.left r := by
  induction order generalizing l with
  | nil => rfl
  | cons i order ih =>
    obtain ⟨absent, once⟩ := List.nodup_cons.mp once
    rw [List.foldl_cons, ih once, namesSublist_left]
    by_cases here : r = i
    · subst here
      simp [absent]
    · simp [here]

def NamesLoop.weight (l : NamesLoop) : ℕ := (sublists.map l.left).sum

/-- A round takes one of everything that is left. -/
theorem namesRound_lighter {l' : NamesLoop} (round : s.namesRound q l = .inl l') : l'.weight < l.weight := by
  unfold State.namesRound at round
  split at round
  · cases round
  next unfinished =>
    obtain rfl := Sum.inl.inj round
    have fewer : ∀ r, (sublists.foldl (s.namesSublist q) l).left r = l.left r - 1 := fun r => by
      rw [foldl_namesSublist_left s q sublists sublists_nodup, if_pos (mem_sublists r)]
    obtain ⟨r, listed, undone⟩ : ∃ r ∈ sublists, l.sublistsDone r = false := by
      simpa using unfinished
    have some_ : 1 ≤ l.left r := by
      unfold NamesLoop.left
      rw [undone]
      simp
    exact List.sum_lt_sum _ _ (fun r _ => by rw [fewer]; omega) ⟨r, listed, by rw [fewer]; omega⟩

/-! ### Everybody is written once -/

/-- What comes first in one of several lists comes first, as far as the order does not matter. -/
theorem flatMap_perm_head {α β : Type*} [DecidableEq α] {f g : α → List β} {a : α} {first : List β}
    (here : f a = first ++ g a) (others : ∀ b, b ≠ a → f b = g b) {order : List α} (once : order.Nodup)
    (listed : a ∈ order) : (order.flatMap f).Perm (first ++ order.flatMap g) := by
  induction order with
  | nil => cases listed
  | cons b order ih =>
    obtain ⟨absent, once⟩ := List.nodup_cons.mp once
    rw [List.flatMap_cons, List.flatMap_cons]
    by_cases same : b = a
    · subst same
      have rest : order.flatMap f = order.flatMap g :=
        List.flatMap_congr fun c member => others c fun equal => absent (equal ▸ member)
      rw [here, rest, List.append_assoc]
    · rw [others b same]
      have later := ih once (List.mem_of_ne_of_mem (Ne.symm same) listed)
      refine (later.append_left (g b)).trans ?_
      rw [← List.append_assoc, ← List.append_assoc]
      exact (List.perm_append_comm).append_right _

/-- A line with these names, each with the list that it is on. -/
def State.namesLine (s : State) (q : NamesQuery) (group : List (Rank × ClientId)) : List Char :=
  s.nameReply q ++ group.flatMap fun item => s.nameEntry q item.1 item.2

/-- Those whom the loop still has to write. -/
def State.pending (s : State) (q : NamesQuery) (members : Rank → List ClientId) : List (Rank × ClientId) :=
  sublists.flatMap fun r => ((members r).filter (s.visible q)).map (Prod.mk r)

/-- Where the loop is: these lines have been sent, and these names are in the buffer. -/
structure State.Written (s : State) (q : NamesQuery) (l : NamesLoop) (groups : List (List (Rank × ClientId)))
    (cur : List (Rank × ClientId)) : Prop where
  sent : l.sent = groups.map (s.namesLine q)
  lbuf : l.lbuf = s.namesLine q cur
  reply : l.replyToSend = !cur.isEmpty
  names : ∀ group ∈ groups, group ≠ []
  done : ∀ r, l.sublistsDone r = true → l.membersPtr r = []
  everybody : (groups.flatten ++ cur ++ s.pending q l.membersPtr).Perm (s.pending q (s.channel q.chptr).members)

/-- The buffer has room for one more name. -/
structure NamesLoop.Room (l : NamesLoop) : Prop where
  lbuf : l.lbuf.length + nickLen ≤ bufSize - 3
  sent : ∀ line ∈ l.sent, line.length < bufSize

theorem pending_update (s : State) (q : NamesQuery) {members : Rank → List ClientId} {who : ClientId}
    {next : List ClientId} (here : members i = who :: next) : (s.pending q members).Perm
      ((if s.visible q who then [(i, who)] else []) ++ s.pending q (Function.update members i next)) := by
  refine flatMap_perm_head (a := i) ?_ (fun r different => ?_) sublists_nodup (mem_sublists i)
  · rw [Function.update_self, here, List.filter_cons]
    split
    · rfl
    · rfl
  · rw [Function.update_of_ne different]

theorem State.namesLine_append (s : State) (q : NamesQuery) (group : List (Rank × ClientId)) (i : Rank)
    (who : ClientId) : s.namesLine q (group ++ [(i, who)]) = s.namesLine q group ++ s.nameEntry q i who := by
  simp [State.namesLine, List.append_assoc]

/-- One turn of the inner loop. -/
theorem State.Written.sublist {groups : List (List (Rank × ClientId))} {cur : List (Rank × ClientId)}
    (written : s.Written q l groups cur) (i : Rank) :
    ∃ groups' cur', s.Written q (s.namesSublist q l i) groups' cur' := by
  -- a list that has been gone through stays so
  have done : ∀ {who next}, l.membersPtr i = who :: next → ∀ r, l.sublistsDone r = true →
      Function.update l.membersPtr i next r = [] := by
    intro who next here r finished
    have empty := written.done r finished
    by_cases same : r = i
    · subst same
      rw [here] at empty
      cases empty
    · rw [Function.update_of_ne same, empty]
  unfold State.namesSublist
  split
  next empty =>
    refine ⟨groups, cur, written.sent, written.lbuf, written.reply, written.names, fun r finished => ?_,
      written.everybody⟩
    by_cases same : r = i
    · rw [same, empty]
    · exact written.done r (by simpa [same] using finished)
  next who next here =>
    have rest := pending_update s q here
    have all := written.everybody
    dsimp only
    split
    next shown =>
      rw [if_pos shown] at rest
      have more : s.namesLine q cur ++ s.nameEntry q i who = s.namesLine q (cur ++ [(i, who)]) :=
        (s.namesLine_append q cur i who).symm
      have every : (groups.flatten ++ (cur ++ [(i, who)]) ++
          s.pending q (Function.update l.membersPtr i next)).Perm (s.pending q (s.channel q.chptr).members) := by
        refine List.Perm.trans ?_ all
        rw [← List.append_assoc groups.flatten, List.append_assoc (groups.flatten ++ cur)]
        exact rest.symm.append_left _
      rw [written.lbuf, more]
      split
      · -- the line is full
        refine ⟨groups ++ [cur ++ [(i, who)]], [], ?_, ?_, rfl, fun group member => ?_, done here, ?_⟩
        · rw [written.sent, List.map_append]
          rfl
        · simp [State.namesLine]
        · rcases List.mem_append.mp member with before | last
          · exact written.names group before
          · rw [List.mem_singleton.mp last]
            simp
        · rw [List.flatten_append, List.append_nil]
          simpa using every
      · exact ⟨groups, cur ++ [(i, who)], written.sent, rfl, by simp, written.names, done here, every⟩
    next unseen =>
      rw [if_neg unseen] at rest
      exact ⟨groups, cur, written.sent, written.lbuf, written.reply, written.names, done here,
        (rest.symm.append_left _).trans all⟩

/-- Where all names are short, no line gets too long. -/
theorem NamesLoop.Room.sublist (room : l.Room) (start : (s.nameReply q).length + nickLen ≤ bufSize - 3)
    (i : Rank) (short : ∀ who ∈ l.membersPtr i, s.visible q who = true → (s.nameEntry q i who).length ≤ nickLen + 2) :
    (s.namesSublist q l i).Room := by
  unfold State.namesSublist
  split
  · exact ⟨room.lbuf, room.sent⟩
  next who next here =>
    have more := short who (by rw [here]; exact List.mem_cons_self)
    have lengths : bufSize = 512 ∧ nickLen = 10 := ⟨rfl, rfl⟩
    have before := room.lbuf
    dsimp only
    split
    next shown =>
      have less := more shown
      split
      · refine ⟨start, fun line member => ?_⟩
        rcases List.mem_append.mp member with old | new
        · exact room.sent line old
        · rw [List.mem_singleton.mp new, List.length_append]
          omega
      next small => exact ⟨by dsimp only; omega, room.sent⟩
    · exact ⟨room.lbuf, room.sent⟩

/-- The header and the names leave room for one another. -/
structure State.Short (s : State) (q : NamesQuery) : Prop where
  header : (s.nameReply q).length + nickLen ≤ bufSize - 3
  entry : ∀ item ∈ s.pending q (s.channel q.chptr).members, (s.nameEntry q item.1 item.2).length ≤ nickLen + 2

/-- What every turn of the loops keeps. -/
def State.NamesInv (s : State) (q : NamesQuery) (l : NamesLoop) : Prop :=
  (∃ groups cur, s.Written q l groups cur) ∧ (s.Short q → l.Room)

theorem State.NamesInv.sublist (inv : s.NamesInv q l) (i : Rank) : s.NamesInv q (s.namesSublist q l i) := by
  obtain ⟨⟨groups, cur, written⟩, room⟩ := inv
  refine ⟨written.sublist i, fun short => (room short).sublist short.header i fun who member shown => ?_⟩
  refine short.entry (i, who) (written.everybody.subset (List.mem_append_right _ ?_))
  exact List.mem_flatMap.mpr ⟨i, mem_sublists i, List.mem_map_of_mem (List.mem_filter.mpr ⟨member, shown⟩)⟩

theorem State.NamesInv.round {l' : NamesLoop} (inv : s.NamesInv q l) (round : s.namesRound q l = .inl l') :
    s.NamesInv q l' := by
  unfold State.namesRound at round
  split at round
  · cases round
  · obtain rfl := Sum.inl.inj round
    have each : ∀ (order : List Rank) (l : NamesLoop), s.NamesInv q l → s.NamesInv q (order.foldl (s.namesSublist q) l) := by
      intro order
      induction order with
      | nil => exact fun _ inv => inv
      | cons i order ih => exact fun l inv => ih _ (inv.sublist i)
    exact each sublists l inv

theorem State.namesInv_start (s : State) (q : NamesQuery) : s.NamesInv q (s.namesStart q) := by
  refine ⟨⟨[], [], rfl, ?_, rfl, fun _ member => (by cases member), fun _ finished => (by cases finished),
    List.Perm.refl _⟩, fun short => ⟨short.header, fun _ member => (by cases member)⟩⟩
  simp [State.namesStart, State.namesLine]

/-- All lines of the reply: everybody whom the loop does not leave out is in one of them, once. -/
structure State.NamesLines (s : State) (q : NamesQuery) (lines : List (List Char))
    (groups : List (List (Rank × ClientId))) : Prop where
  same : lines = groups.map (s.namesLine q)
  names : ∀ group ∈ groups, group ≠ []
  everybody : groups.flatten.Perm (s.pending q (s.channel q.chptr).members)
  fits : s.Short q → ∀ line ∈ lines, line.length < bufSize

theorem State.NamesInv.finish {lines : List (List Char)} (inv : s.NamesInv q l)
    (round : s.namesRound q l = .inr lines) : ∃ groups, s.NamesLines q lines groups := by
  obtain ⟨⟨groups, cur, written⟩, room⟩ := inv
  unfold State.namesRound at round
  split at round
  next finished =>
    have result := Sum.inr.inj round
    have none : s.pending q l.membersPtr = [] := by
      unfold State.pending
      rw [List.flatMap_eq_nil_iff]
      intro r listed
      rw [written.done r (List.all_eq_true.mp finished r listed)]
      rfl
    have everybody := written.everybody
    rw [none, List.append_nil] at everybody
    cases cur with
    | nil =>
      rw [written.reply] at result
      rw [List.append_nil] at everybody
      have sent : lines = l.sent := result.symm
      subst sent
      exact ⟨groups, written.sent, written.names, everybody, fun short => (room short).sent⟩
    | cons item cur =>
      rw [written.reply] at result
      have sent : lines = l.sent ++ [l.lbuf] := result.symm
      subst sent
      refine ⟨groups ++ [item :: cur], ?_, fun group member => ?_, ?_, fun short line member => ?_⟩
      · rw [List.map_append, ← written.sent, written.lbuf]
        rfl
      · rcases List.mem_append.mp member with before | last
        · exact written.names group before
        · rw [List.mem_singleton.mp last]
          exact List.cons_ne_nil _ _
      · rw [List.flatten_append]
        simpa using everybody
      · rcases List.mem_append.mp member with before | last
        · exact (room short).sent line before
        · have lengths : bufSize = 512 ∧ nickLen = 10 := ⟨rfl, rfl⟩
          have least := (room short).lbuf
          rw [List.mem_singleton.mp last]
          omega
  · cases round

/-- The loop comes to an end, with everybody written once. -/
theorem State.names_end (s : State) (q : NamesQuery) : ∃ lines, (∃ groups, s.NamesLines q lines groups) ∧
    Machine.Ends (s.namesRound q) (s.namesStart q) lines := by
  have nowhere : ∀ loop, s.NamesInv q loop → ¬ True → ∀ lines, (∃ groups, s.NamesLines q lines groups) →
      ¬ Machine.Ends (s.namesRound q) loop lines := fun _ _ unsafe_ => absurd trivial unsafe_
  refine (Machine.ends_iff (measure NamesLoop.weight).wf
    (fun _ _ inv round => inv.round round) (fun _ _ _ _ round => namesRound_lighter round)
    (fun _ _ inv _ round => inv.finish round) nowhere
    (s.namesInv_start q)).mpr fun _ _ _ => trivial

theorem State.mem_pending {members : Rank → List ClientId} {i : Rank} {who : ClientId} :
    (i, who) ∈ s.pending q members ↔ who ∈ members i ∧ s.visible q who = true := by
  simp [State.pending, mem_sublists, List.mem_filter]

end Loop

/-! ### What the requester may see -/

/-- The status of a member as somebody may see it: under `+a` only ops see it, and everybody his own voice. -/
def Channel.seenPrefix (ch : Channel) (source who : ClientId) : List Char :=
  if ch.hides source then if who = source ∧ ch.isVoiced source = true then ['+'] else []
  else if ch.isChanOp who then ['@']
  else if ch.isHalfOp who then ['%']
  else if ch.isVoiced who then ['+']
  else []

section Right

variable {s : State} {q : NamesQuery}

/-- The requester may see that somebody is on the channel. -/
def State.MaySee (s : State) (q : NamesQuery) (who : ClientId) : Prop :=
  s.showChannel q = true ∧ who ∈ Lists.all (s.channel q.chptr).members ∧ s.visible q who = true

def State.seenEntry (s : State) (q : NamesQuery) (who : ClientId) : List Char :=
  (s.channel q.chptr).seenPrefix q.source who ++ (s.client who).name ++ [' ']

/-- The lines list everybody whom the requester may see once, with the status that he may see, and nobody else;
and each line fits the buffer. -/
def State.ListsAll (s : State) (q : NamesQuery) (lines : List (List Char)) : Prop :=
  ∃ groups : List (List ClientId), lines = groups.map (fun group => s.nameReply q ++ group.flatMap (s.seenEntry q)) ∧
    (∀ group ∈ groups, group ≠ []) ∧ (∀ who, s.MaySee q who → groups.flatten.count who = 1) ∧
    (∀ who ∈ groups.flatten, s.MaySee q who) ∧ ∀ line ∈ lines, line.length < bufSize

/-- The texts fit the arrays that they come from. -/
structure State.Sized (s : State) (q : NamesQuery) : Prop where
  me : s.meName.length ≤ hostLen
  source : (s.client q.source).name.length ≤ nickLen
  members : ∀ who ∈ Lists.all (s.channel q.chptr).members, (s.client who).name.length ≤ nickLen
  name : q.nameOfChannel.length ≤ channelLen

/-- Where the requester sees an op with voice as an op, there is a terminator behind the flag, and he is not that
op himself under `+a`. -/
def State.Flagged (s : State) (q : NamesQuery) : Prop :=
  s.showChannel q = true → (s.channel q.chptr).hides q.source = false →
    ∀ who ∈ (s.channel q.chptr).members .chanopVoiced, s.visible q who = true →
      q.stale = [] ∧ ¬ (who = q.source ∧ .hideOps ∈ (s.channel q.chptr).mode.mode)

/-- What the ranks say of somebody who is on one list only. -/
theorem Lists.on_iff {lists : Lists} (once : lists.all.Nodup) {i : Rank} {who : ClientId} (on : who ∈ lists i)
    (r : Rank) : who ∈ lists r ↔ i = r :=
  ⟨fun on' => Lists.rank_unique once on on', fun same => same ▸ on⟩

/-- The flag that the loop writes is the one that may be seen, but for the ops with voice. -/
theorem State.nameEntry_eq (once : (Lists.all (s.channel q.chptr).members).Nodup) {i : Rank} {who : ClientId}
    (on : who ∈ (s.channel q.chptr).members i) :
    s.nameEntry q i who = (if (s.channel q.chptr).hides q.source = false ∧ i = .chanopVoiced then
        if who = q.source ∧ .hideOps ∈ (s.channel q.chptr).mode.mode then ['+'] else '@' :: q.stale
      else (s.channel q.chptr).seenPrefix q.source who) ++ (s.client who).name ++ [' '] := by
  have ranks := Lists.on_iff once on
  unfold State.nameEntry Channel.modeFlags Channel.seenPrefix
  dsimp only
  congr 2
  cases hides : (s.channel q.chptr).hides q.source with
  | true =>
    have under : .hideOps ∈ (s.channel q.chptr).mode.mode := by
      unfold Channel.hides at hides
      exact of_decide_eq_true (Bool.and_eq_true_iff.mp hides).1
    simp only [under, and_true, if_true, Bool.true_eq_false, false_and, if_false]
    by_cases self : who = q.source
    · rw [self]
    · simp [self]
  | false => cases i <;> simp [Channel.isChanOp, Channel.isHalfOp, Channel.isVoiced, ranks]

theorem State.seenEntry_eq {who : ClientId}
    (on : who ∈ (s.channel q.chptr).members .chanopVoiced) (shows : (s.channel q.chptr).hides q.source = false) :
    s.seenEntry q who = ['@'] ++ (s.client who).name ++ [' '] := by
  simp [State.seenEntry, Channel.seenPrefix, shows, Channel.isChanOp, on]

/-- Everybody whom the requester may see is pending at the start, once. -/
theorem State.pending_members (once : (Lists.all (s.channel q.chptr).members).Nodup) :
    ((s.pending q (s.channel q.chptr).members).map Prod.snd).Nodup ∧
      ∀ who, who ∈ (s.pending q (s.channel q.chptr).members).map Prod.snd ↔
        who ∈ Lists.all (s.channel q.chptr).members ∧ s.visible q who = true := by
  have perm : ((s.pending q (s.channel q.chptr).members).map Prod.snd).Perm
      ((Lists.all (s.channel q.chptr).members).filter (s.visible q)) := by
    have order : sublists.Perm Rank.all := by decide
    simp only [State.pending, List.map_flatMap, List.map_map, Lists.all, List.filter_flatMap]
    refine (List.Perm.flatMap_right _ order).trans ?_
    simp [Function.comp_def]
  exact ⟨perm.nodup_iff.mpr (once.filter _), fun who => by rw [perm.mem_iff, List.mem_filter]⟩

/-- The names of all lines, one after the other. -/
theorem flatMap_drop {α : Type*} (header : List Char) (entry : α → List Char) (groups : List (List α)) :
    (groups.map fun group => header ++ group.flatMap entry).flatMap (List.drop header.length) =
      groups.flatten.flatMap entry := by
  induction groups with
  | nil => rfl
  | cons group groups ih =>
    rw [List.map_cons, List.flatMap_cons, ih, List.drop_left, List.flatten_cons, List.flatMap_append]

/-- Where one of the summands is greater, so is the sum. -/
theorem eq_of_sum_eq {α : Type*} {list : List α} {f g : α → ℕ} (le : ∀ a ∈ list, f a ≤ g a)
    (sums : (list.map f).sum = (list.map g).sum) {a : α} (member : a ∈ list) : f a = g a := by
  by_contra different
  exact (List.sum_lt_sum f g le ⟨a, member, lt_of_le_of_ne (le a member) different⟩).ne sums

/-- The lines of the loop are right only if the flags of the ops with voice are. -/
theorem State.NamesLines.flagged {lines : List (List Char)} {groups : List (List (Rank × ClientId))}
    (written : s.NamesLines q lines groups) (once : (Lists.all (s.channel q.chptr).members).Nodup)
    (right : s.ListsAll q lines) : s.Flagged q := by
  intro shown shows who on sees
  obtain ⟨groups', same', -, counted, only, -⟩ := right
  obtain ⟨distinct, mem⟩ := State.pending_members (q := q) once
  generalize whole : s.pending q (s.channel q.chptr).members = items at distinct mem
  have everybody := written.everybody
  rw [whole] at everybody
  have here : (Rank.chanopVoiced, who) ∈ items := by
    rw [← whole]
    exact State.mem_pending.mpr ⟨on, sees⟩
  have onList : ∀ item ∈ items, item.2 ∈ (s.channel q.chptr).members item.1 := fun item member => by
    rw [← whole] at member
    exact (State.mem_pending.mp member).1
  -- both ways to write the same lines have the same names
  have names : groups'.flatten.Perm (items.map Prod.snd) := by
    rw [List.perm_ext_iff_of_nodup (List.nodup_iff_count_le_one.mpr fun u => ?_) distinct]
    · intro u
      rw [mem]
      refine ⟨fun member => (only u member).2, fun sees' => List.count_pos_iff.mp ?_⟩
      rw [counted u ⟨shown, sees'⟩]
      exact Nat.one_pos
    · by_cases member : u ∈ groups'.flatten
      · exact (counted u (only u member)).le
      · rw [List.count_eq_zero_of_not_mem member]
        exact Nat.zero_le 1
  have text : groups.flatten.flatMap (fun item => s.nameEntry q item.1 item.2) =
      groups'.flatten.flatMap (s.seenEntry q) := by
    rw [← flatMap_drop (s.nameReply q), ← flatMap_drop (s.nameReply q), ← same', written.same]
    rfl
  have lengths : (items.map fun item => (s.seenEntry q item.2).length).sum =
      (items.map fun item => (s.nameEntry q item.1 item.2).length).sum := by
    have both := congrArg List.length text
    rw [List.length_flatMap, List.length_flatMap, (everybody.map _).sum_eq, (names.map _).sum_eq, List.map_map] at both
    exact both.symm
  have counts : (items.map fun item => (s.seenEntry q item.2).count '+').sum =
      (items.map fun item => (s.nameEntry q item.1 item.2).count '+').sum := by
    have both := congrArg (List.count '+') text
    rw [List.count_flatMap, List.count_flatMap, (everybody.map _).sum_eq, (names.map _).sum_eq, List.map_map] at both
    exact both.symm
  have each : ∀ item ∈ items, s.nameEntry q item.1 item.2 = s.seenEntry q item.2 ∨
      s.seenEntry q item.2 = ['@'] ++ (s.client item.2).name ++ [' '] ∧ ∃ flag ∈ [['+'], '@' :: q.stale],
        s.nameEntry q item.1 item.2 = flag ++ (s.client item.2).name ++ [' '] := by
    intro item member
    have on' := onList item member
    rw [State.nameEntry_eq once on']
    split
    next voiced =>
      rw [voiced.2] at on'
      refine Or.inr ⟨State.seenEntry_eq on' voiced.1, ?_⟩
      split
      · exact ⟨_, by simp, rfl⟩
      · exact ⟨_, by simp, rfl⟩
    · exact Or.inl rfl
  have less : ∀ item ∈ items, (s.seenEntry q item.2).length ≤ (s.nameEntry q item.1 item.2).length := by
    intro item member
    rcases each item member with same | ⟨seen, flag, flags, same⟩
    · rw [same]
    · rw [seen, same]
      rcases List.mem_pair.mp flags with rfl | rfl
      · simp
      · simp
  have fewer : ∀ item ∈ items, (s.seenEntry q item.2).count '+' ≤ (s.nameEntry q item.1 item.2).count '+' := by
    intro item member
    rcases each item member with same | ⟨seen, flag, flags, same⟩
    · rw [same]
    · rw [seen, same]
      rcases List.mem_pair.mp flags with rfl | rfl
      · simp
      · simp
  have length := eq_of_sum_eq less lengths here
  have count := eq_of_sum_eq fewer counts here
  dsimp only at length count
  rw [State.nameEntry_eq once on, if_pos ⟨shows, rfl⟩, State.seenEntry_eq on shows] at length count
  by_cases self : who = q.source ∧ .hideOps ∈ (s.channel q.chptr).mode.mode
  · rw [if_pos self] at count
    simp at count
  · rw [if_neg self] at length
    refine ⟨List.length_eq_zero_iff.mp ?_, self⟩
    simp only [List.length_append, List.length_cons, List.length_nil] at length
    omega

theorem State.Flagged.entry (flagged : s.Flagged q) (shown : s.showChannel q = true)
    (once : (Lists.all (s.channel q.chptr).members).Nodup) {item : Rank × ClientId}
    (member : item ∈ s.pending q (s.channel q.chptr).members) :
    s.nameEntry q item.1 item.2 = s.seenEntry q item.2 := by
  obtain ⟨i, who⟩ := item
  obtain ⟨on, sees⟩ := State.mem_pending.mp member
  rw [State.nameEntry_eq once on]
  split
  next voiced =>
    obtain ⟨shows, rfl⟩ := voiced
    obtain ⟨terminated, other⟩ := flagged shown shows who on sees
    rw [State.seenEntry_eq on shows, if_neg other, terminated]
  · rfl

theorem Channel.length_seenPrefix (ch : Channel) (source who : ClientId) : (ch.seenPrefix source who).length ≤ 1 := by
  unfold Channel.seenPrefix
  split_ifs <;> simp

theorem State.Sized.short (sized : s.Sized q)
    (entry : ∀ item ∈ s.pending q (s.channel q.chptr).members, s.nameEntry q item.1 item.2 = s.seenEntry q item.2) :
    s.Short q where
  header := by
    have lengths : bufSize = 512 ∧ nickLen = 10 ∧ hostLen = 63 ∧ channelLen = 200 := ⟨rfl, rfl, rfl, rfl⟩
    have me := sized.me
    have source := sized.source
    have name := sized.name
    simp only [State.nameReply, List.length_append, List.length_cons, List.length_nil]
    omega
  entry item member := by
    have flag := (s.channel q.chptr).length_seenPrefix q.source item.2
    have nick := sized.members item.2 (Lists.mem_all.mpr ⟨item.1, (State.mem_pending.mp member).1⟩)
    rw [entry item member]
    simp only [State.seenEntry, List.length_append, List.length_cons, List.length_nil]
    omega

/-- The lines of the loop are right if the flags of the ops with voice are. -/
theorem State.NamesLines.listsAll {lines : List (List Char)} {groups : List (List (Rank × ClientId))}
    (written : s.NamesLines q lines groups) (once : (Lists.all (s.channel q.chptr).members).Nodup)
    (sized : s.Sized q) (shown : s.showChannel q = true) (flagged : s.Flagged q) : s.ListsAll q lines := by
  obtain ⟨distinct, mem⟩ := State.pending_members (q := q) once
  have entry : ∀ item ∈ s.pending q (s.channel q.chptr).members, s.nameEntry q item.1 item.2 = s.seenEntry q item.2 :=
    fun _ => flagged.entry shown once
  have names : (groups.map (List.map Prod.snd)).flatten.Perm
      ((s.pending q (s.channel q.chptr).members).map Prod.snd) := by
    rw [← List.map_flatten]
    exact written.everybody.map _
  refine ⟨groups.map (List.map Prod.snd), ?_, fun group member => ?_, fun who sees => ?_, fun who member => ?_,
    written.fits (sized.short entry)⟩
  · rw [written.same, List.map_map]
    refine List.map_congr_left fun group member => ?_
    rw [State.namesLine, Function.comp_apply, List.flatMap_map]
    refine congrArg (s.nameReply q ++ ·) (List.flatMap_congr fun item inside => ?_)
    exact entry item (written.everybody.subset (List.mem_flatten.mpr ⟨group, member, inside⟩))
  · obtain ⟨group', member', rfl⟩ := List.mem_map.mp member
    exact fun none => written.names group' member' (List.map_eq_nil_iff.mp none)
  · rw [names.count_eq]
    exact List.count_eq_one_of_mem distinct ((mem who).mpr sees.2)
  · exact ⟨shown, (mem who).mp (names.subset member)⟩

/-- There is always a reply. -/
theorem State.channelMemberNames_some (s : State) (q : NamesQuery) :
    ∃ rounds lines, s.channelMemberNames q rounds = some (lines ++ s.endOfNames q) ∧
      (s.showChannel q = true → ∃ groups, s.NamesLines q lines groups) ∧ (s.showChannel q = false → lines = []) := by
  unfold State.channelMemberNames
  cases shown : s.showChannel q with
  | false => exact ⟨0, [], by rw [if_neg Bool.false_ne_true]; rfl, Bool.noConfusion, fun _ => rfl⟩
  | true =>
    obtain ⟨lines, written, rounds, ends⟩ := s.names_end q
    refine ⟨rounds, lines, ?_, fun _ => written, Bool.noConfusion⟩
    rw [if_pos rfl, ends]

/-- However many rounds there may be, the reply is the same. -/
theorem State.channelMemberNames_unique {n m : ℕ} {lines lines' : List (List Char)}
    (first : s.channelMemberNames q n = some lines) (second : s.channelMemberNames q m = some lines') :
    lines = lines' := by
  unfold State.channelMemberNames at first second
  split at first
  next shown =>
    rw [if_pos shown] at second
    split at first
    · cases first
    next sent ends =>
      split at second
      · cases second
      next sent' ends' =>
        have same : sent = sent' := Machine.Ends.unique ⟨n, ends⟩ ⟨m, ends'⟩
        rw [← Option.some.inj first, ← Option.some.inj second, same]
  next hidden =>
    rw [if_neg hidden] at second
    rw [← Option.some.inj first, ← Option.some.inj second]

/-- The reply comes and is right. -/
def State.NamesRight (s : State) (q : NamesQuery) : Prop :=
  ∃ rounds lines, s.channelMemberNames q rounds = some (lines ++ s.endOfNames q) ∧ s.ListsAll q lines

theorem State.NamesRight.flagged (once : (Lists.all (s.channel q.chptr).members).Nodup) (right : s.NamesRight q) :
    s.Flagged q := by
  obtain ⟨n, lines, replied, all⟩ := right
  obtain ⟨m, lines', replied', written, -⟩ := s.channelMemberNames_some q
  obtain rfl := List.append_cancel_right (State.channelMemberNames_unique replied replied')
  intro shown
  obtain ⟨groups, written⟩ := written shown
  exact written.flagged once all shown

/-- The reply to NAMES is right if and only if the flags of the ops with voice are. -/
theorem names_right_iff (sized : s.Sized q) (once : (Lists.all (s.channel q.chptr).members).Nodup) :
    s.NamesRight q ↔ s.Flagged q := by
  refine ⟨State.NamesRight.flagged once, fun flagged => ?_⟩
  obtain ⟨rounds, lines, replied, written, none⟩ := s.channelMemberNames_some q
  refine ⟨rounds, lines, replied, ?_⟩
  cases shown : s.showChannel q with
  | true =>
    obtain ⟨groups, written⟩ := written shown
    exact written.listsAll once sized shown flagged
  | false =>
    rw [none shown]
    refine ⟨[], rfl, fun _ member => (by cases member), fun who sees => ?_, fun _ member => (by cases member),
      fun _ member => (by cases member)⟩
    rw [sees.1] at shown
    cases shown

/-- A channel under `+a` with one member, who is an op with voice. -/
def voicedOpChannel : Channel := { emptyChannel ['#', 'a'] 0 with
  mode := { noMode with mode := {.hideOps} }
  users := 1
  locusers := 1
  members := fun
    | .chanopVoiced => [3]
    | _ => []
  locMembers := fun
    | .chanopVoiced => [3]
    | _ => [] }

def voicedOpNetwork : State := { smallNetwork with channel := fun _ => voicedOpChannel }

/-- Somebody asks for the names; the byte behind the flag is a terminator by chance. -/
def askNames (source : ClientId) : NamesQuery := ⟨source, 0, ['#', 'a'], true, fun _ => false, []⟩

theorem askNames_sized (source : ClientId) (known : source = 1 ∨ source = 3) :
    voicedOpNetwork.Sized (askNames source) := by
  rcases known with rfl | rfl
  · exact ⟨by decide, by decide, by decide +kernel, by decide⟩
  · exact ⟨by decide, by decide, by decide +kernel, by decide⟩

theorem names_right_iff_askNames : voicedOpNetwork.NamesRight (askNames 1) ↔ voicedOpNetwork.Flagged (askNames 1) :=
  names_right_iff (askNames_sized 1 (.inl rfl)) (by decide)

/-- The op with voice asks, and is shown as somebody with voice only. -/
theorem voiced_op_shown_voiced : ¬ ∀ (s : State) (q : NamesQuery), s.Sized q →
    (Lists.all (s.channel q.chptr).members).Nodup → s.NamesRight q := by
  intro all
  have right := all voicedOpNetwork (askNames 3) (askNames_sized 3 (.inr rfl)) (by decide)
  have flagged := right.flagged (by decide) (by decide) (by decide) 3 (by decide) (by decide)
  exact flagged.2 ⟨rfl, by decide⟩

end Right

end Ircd.Chan
