import Ircd.Channel.OldServerLines

/-!
# Changes of ranks and a server that has no halfops

Letter by letter, what the old server would show if the pending changes were sent. It keeps in step
with the ranks here, but for three kinds of `-o` and `-h`: one that cancels a `+o` for somebody whom the old server shows
as op already, one by id that leaves a `+o` pending, and one that takes halfop from somebody whom it shows as op.
-/
namespace Ircd.Chan

/-! ### What must not happen -/

/-- Whom the old server will show as op when the changes have been sent. -/
def Changes.showsOp (s : State) (op : ClientId → Bool) (y : Changes) (u : ClientId) : Bool :=
  hasPending y.plus 'o' (s.client u).name || op u && !hasPending y.minus 'o' (s.client u).name

/-- A letter of a MODE that the old server is told of. Somebody for whom `+o` is pending is deopped by nick, and is
not shown as op yet; and no halfop is taken from somebody who is shown as op. -/
def letterFits (x : ModeContext) (op : ClientId → Bool) (dir : Dir) (c : Char) (r : ModeRun) : Bool :=
  if dir = .del ∧ c = 'o' then
    match (opTarget x dir r).2 with
    | some (opnick, targ) =>
      !hasPending r.changes.plus 'o' (x.s.client targ).name || opnick.head? != some '.' && !op targ
    | none => true
  else if dir = .del ∧ c = 'h' then
    match (halfopTarget x dir r).2 with
    | some (_, targ) => !r.changes.showsOp x.s op targ
    | none => true
  else true

def lettersFit (x : ModeContext) (op : ClientId → Bool) : List Char → Dir → ModeRun → Bool
  | [], _, _ => true
  | c :: letters, dir, r =>
    if c = '+' ∨ c = '-' ∨ c = '=' then lettersFit x op letters (dir.read c) r
    else
      letterFits x op dir c r &&
        match modeTable x dir c r with
        | none => true
        | some r => lettersFit x op letters dir r

/-- What a letter does on the old server, when the MODE is its own. -/
def Shown.letter (x : ModeContext) (dir : Dir) (c : Char) (r : ModeRun) (v : Shown) : Shown :=
  match x.param r with
  | none => v
  | some nick => if dir = .query then v else v.change x.s (dir, c, nick)

/-- A letter of a MODE of the old server itself. It makes members ops, and no halfop is taken from somebody who is
shown as op. -/
def backFits (x : ModeContext) (v : Shown) (dir : Dir) (c : Char) (r : ModeRun) : Bool :=
  if dir = .add ∧ c = 'o' then
    match (x.param r).bind x.s.findClient with
    | none => true
    | some who => x.s.isMember who x.chptr
  else if dir = .del ∧ c = 'h' then
    match (halfopTarget x dir r).2 with
    | some (_, targ) => !v.op targ
    | none => true
  else true

def backsFit (x : ModeContext) : List Char → Dir → ModeRun → Shown → Bool
  | [], _, _, _ => true
  | c :: letters, dir, r, v =>
    if c = '+' ∨ c = '-' ∨ c = '=' then backsFit x letters (dir.read c) r v
    else
      backFits x v dir c r &&
        match modeTable x dir c r with
        | none => true
        | some r' => backsFit x letters dir r' (v.letter x dir c r)

/-- A step after which the two sides still agree. -/
def Sides.fits (peer : OldServer) (x : Sides) : Heard → Bool
  | .sjoin clientP source parv =>
    match x.state.sjoinStart source parv with
    | none => true
    | some start => start.fits x.state clientP
  | .mode m =>
    if m.clientP = peer.link then
      backsFit (m.context x.state) (m.parv.headD []) .add (m.start x.state) x.shown
    else lettersFit (m.context x.state) x.shown.op (m.parv.headD []) .add (m.start x.state)

/-- No step of the run is one of those. -/
def Sides.fitsAll (peer : OldServer) (c : ChannelId) : Sides → List Heard → Bool
  | _, [] => true
  | x, heard :: list =>
    x.fits peer heard &&
      match x.after peer c heard with
      | none => true
      | some y => y.fitsAll peer c list

/-! ### Ranks -/

/-- The channel of a MODE: its members are those that it had before. -/
structure Ranked (x : ModeContext) (ch : Channel) : Prop where
  once : (Lists.all ch.members).Nodup
  back : ∀ u, x.s.isMember u x.chptr = true ↔ u ∈ Lists.all ch.members
  channelts : ch.channelts = (x.s.channel x.chptr).channelts

section Ranks

variable {x : ModeContext} {ch : Channel}

theorem Channel.isChanOp_rank (once : (Lists.all ch.members).Nodup) (u : ClientId) :
    ch.isChanOp u = (ch.rank u).any fun r => r.letters.o := by
  cases rank : ch.rank u with
  | none =>
    have nowhere := Channel.rank_eq_none.mp rank
    simp only [Lists.mem_all, not_exists] at nowhere
    simp [Channel.isChanOp, nowhere]
  | some r => exact Channel.isChanOp_eq once rank

theorem Channel.isHalfOp_rank (once : (Lists.all ch.members).Nodup) (u : ClientId) :
    ch.isHalfOp u = (ch.rank u).any fun r => r.letters.h := by
  cases rank : ch.rank u with
  | none =>
    have nowhere := Channel.rank_eq_none.mp rank
    simp only [Lists.mem_all, not_exists] at nowhere
    simp [Channel.isHalfOp, nowhere]
  | some r => exact Channel.isHalfOp_eq once rank

/-- Nobody is an op and a halfop. -/
theorem Channel.not_both (once : (Lists.all ch.members).Nodup) {u : ClientId} (op : ch.isChanOp u = true) :
    ch.isHalfOp u = false := by
  rw [Channel.isChanOp_rank once] at op
  rw [Channel.isHalfOp_rank once]
  cases rank : ch.rank u with
  | none => rfl
  | some r =>
    rw [rank] at op
    cases r with
    | chanop => rfl
    | chanopVoiced => rfl
    | halfop => cases op
    | voiced => cases op
    | peon => cases op

/-- A member gets a rank. -/
theorem Ranked.move (ranked : Ranked x ch) {targ : ClientId} (member : x.s.isMember targ x.chptr = true) (r : Rank)
    (mine : Bool) : Ranked x (ch.changeMembership r targ mine) ∧
      (∀ u, (ch.changeMembership r targ mine).isChanOp u = if u = targ then r.letters.o else ch.isChanOp u) ∧
      ∀ u, (ch.changeMembership r targ mine).isHalfOp u = if u = targ then r.letters.h else ch.isHalfOp u := by
  obtain ⟨once, back, channelts⟩ := ranked
  obtain ⟨n, onList⟩ := Lists.mem_all.mp ((back targ).mp member)
  have all := Channel.changeMembership_all once onList r mine
  have once' := all.nodup_iff.mpr once
  have rank := Channel.rank_changeMembership once ((Channel.rank_iff once).mpr onList) r mine
  refine ⟨⟨once', fun u => ?_, channelts⟩, fun u => ?_, fun u => ?_⟩
  · rw [all.mem_iff, back]
  · rw [Channel.isChanOp_rank once', Channel.isChanOp_rank once, rank]
    split <;> rfl
  · rw [Channel.isHalfOp_rank once', Channel.isHalfOp_rank once, rank]
    split <;> rfl

end Ranks

/-! ### The pending changes -/

/-- Changes of ranks, with the nicks of members. Every server is told of a change of ops. -/
structure Plain (x : ModeContext) (list : List ChModeChange) : Prop where
  signed : Signed x list
  rank : ∀ e ∈ list, e.letter ≠ '\x00' → e.letter ∈ rankLetters
  caps : ∀ e ∈ list, e.letter = 'o' → e.caps = ∅ ∧ e.nocaps = ∅

/-- Nobody is deopped by id. -/
def NoId (list : List ChModeChange) : Prop := ∀ e ∈ list, e.letter = 'o' → e.id = none

section Entries

variable {x : ModeContext} {list list' : List ChModeChange}

theorem mem_wipeAll {p : ChModeChange → Bool} {e : ChModeChange} (member : e ∈ wipeAll p list) :
    e.letter = '\x00' ∨ e ∈ list := by
  obtain ⟨e₀, inside, rfl⟩ := List.mem_map.mp member
  split
  · exact Or.inl rfl
  · exact Or.inr inside

theorem Plain.wipeAll (plain : Plain x list) (p : ChModeChange → Bool) : Plain x (wipeAll p list) where
  signed := plain.signed.wipeAll p
  rank e member letter := by
    rcases mem_wipeAll member with none | old
    · exact absurd none letter
    · exact plain.rank e old letter
  caps e member letter := by
    rcases mem_wipeAll member with none | old
    · rw [none] at letter
      exact absurd letter (by decide)
    · exact plain.caps e old letter

theorem plain_nil (x : ModeContext) : Plain x [] := ⟨nofun, nofun, nofun⟩

theorem Plain.append (plain : Plain x list) {targ : ClientId} (member : x.s.isMember targ x.chptr = true) {c : Char}
    (rank : c ∈ rankLetters) {caps : Finset Cap} (all : c = 'o' → caps = ∅) (id : Option (List Char)) :
    Plain x (list ++ [.forOps c caps (x.s.client targ).name id]) where
  signed := plain.signed.append member c caps id
  rank e inside letter := by
    rcases List.mem_append.mp inside with old | new
    · exact plain.rank e old letter
    · obtain rfl := List.mem_singleton.mp new
      exact rank
  caps e inside letter := by
    rcases List.mem_append.mp inside with old | new
    · exact plain.caps e old letter
    · obtain rfl := List.mem_singleton.mp new
      exact ⟨all letter, rfl⟩

theorem Plain.ite {P : Prop} [Decidable P] (first : Plain x list) (second : Plain x list') :
    Plain x (if P then list else list') := by
  split
  · exact first
  · exact second

theorem NoId.wipeAll (noId : NoId list) (p : ChModeChange → Bool) : NoId (wipeAll p list) := by
  intro e member letter
  rcases mem_wipeAll member with none | old
  · rw [none] at letter
    exact absurd letter (by decide)
  · exact noId e old letter

theorem NoId.append (noId : NoId list) {c : Char} (caps : Finset Cap) (arg : List Char) {id : Option (List Char)}
    (none : c = 'o' → id = none) : NoId (list ++ [.forOps c caps arg id]) := by
  intro e inside letter
  rcases List.mem_append.mp inside with old | new
  · exact noId e old letter
  · obtain rfl := List.mem_singleton.mp new
    exact none letter

theorem NoId.ite {P : Prop} [Decidable P] (first : NoId list) (second : NoId list') :
    NoId (if P then list else list') := by
  split
  · exact first
  · exact second

/-- The target has been given by nick. -/
def byNick (opnick : List Char) : Bool := opnick.head? != some '.'

variable {opnick : List Char} {targ : ClientId}

theorem IrcEq.of_findClient {s : State} (found : s.findClient opnick = some targ) (nick : byNick opnick = true) :
    IrcEq opnick (s.client targ).name := by
  have noDot : opnick.head? ≠ some '.' := by simpa [byNick] using nick
  unfold State.findClient at found
  rw [if_neg noDot] at found
  simpa using List.find?_some found

/-- What is pending for the text the target has been given by. -/
theorem Plain.pendingFor (plain : Plain x list) (sane : x.Sane) (found : x.s.findClient opnick = some targ)
    (member : x.s.isMember targ x.chptr = true) :
    hasPending list 'o' opnick = (byNick opnick && hasPending list 'o' (x.s.client targ).name) := by
  cases nick : byNick opnick with
  | true =>
    rw [Bool.true_and]
    exact (refers_of_nick sane list member (IrcEq.of_findClient found nick)).same 'o' (by decide)
  | false =>
    rw [Bool.false_and]
    exact plain.signed.hasPending_id sane (by simpa [byNick] using nick) (by decide)

/-- What is pending for a member when the changes of the target have been cancelled. -/
theorem Plain.wiped (plain : Plain x list) (sane : x.Sane) (found : x.s.findClient opnick = some targ)
    (member : x.s.isMember targ x.chptr = true) {letters : List Char} (subset : letters ⊆ rankLetters) {u : ClientId}
    (isMember : x.s.isMember u x.chptr = true) :
    hasPending (Chan.wipeAll (·.isFor letters opnick) list) 'o' (x.s.client u).name =
      (hasPending list 'o' (x.s.client u).name &&
        !(byNick opnick && decide (u = targ) && letters.contains 'o')) := by
  cases nick : byNick opnick with
  | true =>
    have refers := refers_of_nick sane list member (IrcEq.of_findClient found nick)
    by_cases self : u = targ
    · subst self
      rw [refers.wiped letters subset 'o' (by decide)]
      simp
    · rw [refers.others u isMember self letters subset 'o' (by decide)]
      simp [self]
  | false =>
    rw [plain.signed.wipeAll_id sane (by simpa [byNick] using nick) letters (by decide)]
    simp

/-- What is pending for a member when an entry for the target may have been put behind. -/
theorem hasPending_note (sane : x.Sane) (member : x.s.isMember targ x.chptr = true) {u : ClientId}
    (isMember : x.s.isMember u x.chptr = true) {P : Prop} [Decidable P] (c : Char) (caps : Finset Cap)
    (id : Option (List Char)) :
    hasPending (if P then list ++ [.forOps c caps (x.s.client targ).name id] else list) 'o' (x.s.client u).name =
      (hasPending list 'o' (x.s.client u).name || decide P && c == 'o' && decide (u = targ)) := by
  have same : IrcEq (x.s.client targ).name (x.s.client u).name ↔ u = targ :=
    ⟨fun equal => sane.names u targ isMember member equal.symm, fun self => self ▸ IrcEq.refl _⟩
  split
  next holds =>
    rw [hasPending_append, decide_eq_decide.mpr same, decide_eq_true holds, Bool.true_and]
  next fails => simp [fails]

end Entries

/-! ### A MODE that the old server is told of -/

/-- Where somebody is shown as op when the changes are sent: `p` and `m` say that `+o` and `-o` are pending. -/
def agree (isOp isHalfop p m shown : Bool) : Bool :=
  (!p || isOp) && (!m || shown) && (!isOp || p || shown && !m) && (!(p || shown && !m) || isOp || isHalfop)

theorem agree_start {isOp isHalfop shown : Bool} (known : shown = true → (isOp || isHalfop) = true)
    (told : isOp = true → shown = true) : agree isOp isHalfop false false shown = true := by
  revert isOp isHalfop shown
  decide

theorem agree_op_add {nick isHalfop p m shown : Bool} (before : agree false isHalfop p m shown = true) :
    agree true false (p && !nick || !(nick && m)) (m && !nick) shown = true := by
  revert nick isHalfop p m shown
  decide

theorem agree_op_del {nick p m shown : Bool} (before : agree true false p m shown = true)
    (fits : (!p || nick && !shown) = true) :
    agree false false (p && !nick) (m && !nick || !(nick && p)) shown = true := by
  revert nick p m shown
  decide

theorem agree_halfop_add {nick p m shown : Bool} (before : agree false false p m shown = true) (isHalfop : Bool) :
    agree false isHalfop (p && !nick) m shown = true := by
  revert nick isHalfop p m shown
  decide

theorem agree_halfop_del {nick p m shown : Bool} (before : agree false true p m shown = true)
    (fits : (!(p || shown && !m)) = true) : agree false false (p && !nick) m shown = true := by
  revert nick p m shown
  decide

/-- The pending changes are in step with the ranks. -/
structure Tracks (x : ModeContext) (op : ClientId → Bool) (y : Changes) : Prop where
  ranked : Ranked x y.ch
  minus : Plain x y.minus
  plus : Plain x y.plus
  noId : NoId y.minus
  agrees : ∀ u, x.s.isMember u x.chptr = true → agree (y.ch.isChanOp u) (y.ch.isHalfOp u)
    (hasPending y.plus 'o' (x.s.client u).name) (hasPending y.minus 'o' (x.s.client u).name) (op u) = true

/-- A letter changes the flags of one member to these; for the others nothing changes. -/
structure Flags (x : ModeContext) (y : Changes) (targ : ClientId) (y' : Changes) (isOp isHalfop p m : Bool) : Prop where
  ranked : Ranked x y'.ch
  minus : Plain x y'.minus
  plus : Plain x y'.plus
  noId : NoId y'.minus
  isChanOp : ∀ u, y'.ch.isChanOp u = if u = targ then isOp else y.ch.isChanOp u
  isHalfOp : ∀ u, y'.ch.isHalfOp u = if u = targ then isHalfop else y.ch.isHalfOp u
  added : ∀ u, x.s.isMember u x.chptr = true → hasPending y'.plus 'o' (x.s.client u).name =
    if u = targ then p else hasPending y.plus 'o' (x.s.client u).name
  removed : ∀ u, x.s.isMember u x.chptr = true → hasPending y'.minus 'o' (x.s.client u).name =
    if u = targ then m else hasPending y.minus 'o' (x.s.client u).name

section Letters

variable {x : ModeContext} {op : ClientId → Bool} {y y' : Changes} {opnick : List Char} {targ : ClientId}
  (tracks : Tracks x op y)

include tracks

theorem Flags.inStep {isOp isHalfop p m : Bool} (flags : Flags x y targ y' isOp isHalfop p m)
    (self : agree isOp isHalfop p m (op targ) = true) : Tracks x op y' where
  ranked := flags.ranked
  minus := flags.minus
  plus := flags.plus
  noId := flags.noId
  agrees u isMember := by
    rw [flags.isChanOp, flags.isHalfOp, flags.added u isMember, flags.removed u isMember]
    split
    next here => exact here ▸ self
    next => exact tracks.agrees u isMember

variable (sane : x.Sane) (found : x.s.findClient opnick = some targ) (member : x.s.isMember targ x.chptr = true)

include sane found member

theorem Tracks.op_add : Flags x y targ (y.op .add 'o' opnick targ (x.s.client targ)) true false
    (hasPending y.plus 'o' (x.s.client targ).name && !byNick opnick ||
      !(byNick opnick && hasPending y.minus 'o' (x.s.client targ).name))
    (hasPending y.minus 'o' (x.s.client targ).name && !byNick opnick) := by
  obtain ⟨ranked, isOp, isHalfop⟩ := tracks.ranked.move member
    (if y.ch.isVoiced targ then .chanopVoiced else .chanop) (x.s.client targ).mine
  have minus := tracks.minus.wipeAll (·.isFor ['o'] opnick)
  have plus := tracks.plus.wipeAll (·.isFor ['o', 'h'] opnick)
  refine ⟨ranked, (minus.append member (by decide) (fun same => absurd same (by decide)) _).ite minus,
    (plus.append member (by decide) (fun _ => rfl) _).ite plus,
    ((tracks.noId.wipeAll _).append _ _ fun same => absurd same (by decide)).ite (tracks.noId.wipeAll _),
    fun u => (isOp u).trans ?_, fun u => (isHalfop u).trans ?_, fun u isMember => ?_, fun u isMember => ?_⟩
  · cases y.ch.isVoiced targ <;> rfl
  · cases y.ch.isVoiced targ <;> rfl
  · unfold Changes.op
    dsimp only
    rw [hasPending_note sane member isMember, tracks.plus.wiped sane found member (by decide) isMember,
      tracks.minus.pendingFor sane found member]
    by_cases self : u = targ <;> simp [self]
  · unfold Changes.op
    dsimp only
    rw [hasPending_note sane member isMember, tracks.minus.wiped sane found member (by decide) isMember]
    by_cases self : u = targ <;> simp [self]

theorem Tracks.op_del (isOp : y.ch.isChanOp targ = true) : Flags x y targ
    (y.op .del 'o' opnick targ (x.s.client targ)) false false
    (hasPending y.plus 'o' (x.s.client targ).name && !byNick opnick)
    (hasPending y.minus 'o' (x.s.client targ).name && !byNick opnick ||
      !(byNick opnick && hasPending y.plus 'o' (x.s.client targ).name)) := by
  obtain ⟨ranked, isOp', isHalfop'⟩ := tracks.ranked.move member
    (if y.ch.isVoiced targ then .voiced else .peon) (x.s.client targ).mine
  have minus := tracks.minus.wipeAll (·.isFor ['o'] opnick)
  have plus := tracks.plus.wipeAll (·.isFor ['o', 'h'] opnick)
  have noId := tracks.noId.wipeAll (·.isFor ['o'] opnick)
  -- nobody who is an op is taken for a halfop
  have result : y.op .del 'o' opnick targ (x.s.client targ) =
      ⟨y.ch.changeMembership (if y.ch.isVoiced targ then .voiced else .peon) targ (x.s.client targ).mine,
        if !hasPending y.plus 'o' opnick then
          wipeAll (·.isFor ['o'] opnick) y.minus ++ [.forOps 'o' ∅ (x.s.client targ).name none]
        else wipeAll (·.isFor ['o'] opnick) y.minus,
        wipeAll (·.isFor ['o', 'h'] opnick) y.plus⟩ := by
    unfold Changes.op
    simp [isOp]
  rw [result]
  refine ⟨ranked, (minus.append member (by decide) (fun _ => rfl) _).ite minus, plus,
    (noId.append _ _ fun _ => rfl).ite noId, fun u => (isOp' u).trans ?_, fun u => (isHalfop' u).trans ?_,
    fun u isMember => ?_, fun u isMember => ?_⟩
  · cases y.ch.isVoiced targ <;> rfl
  · cases y.ch.isVoiced targ <;> rfl
  · dsimp only
    rw [tracks.plus.wiped sane found member (by decide) isMember]
    by_cases self : u = targ <;> simp [self]
  · dsimp only
    rw [hasPending_note sane member isMember, tracks.minus.wiped sane found member (by decide) isMember,
      tracks.plus.pendingFor sane found member]
    by_cases self : u = targ <;> simp [self]

/-- Somebody is made halfop, or stays what he is if this takes back that it was taken from him. -/
theorem Tracks.halfop_add (noOp : y.ch.isChanOp targ = false) : ∃ isHalfop, Flags x y targ
    (y.halfop .add 'h' opnick targ (x.s.client targ)) false isHalfop
    (hasPending y.plus 'o' (x.s.client targ).name && !byNick opnick)
    (hasPending y.minus 'o' (x.s.client targ).name) := by
  obtain ⟨ranked, isOp, isHalfop⟩ := tracks.ranked.move member .halfop (x.s.client targ).mine
  have minus := tracks.minus.wipeAll (·.isFor ['h', 'v'] opnick)
  have plus := tracks.plus.wipeAll (·.isFor ['o', 'h', 'v'] opnick)
  have noId := tracks.noId.wipeAll (·.isFor ['h', 'v'] opnick)
  refine ⟨if hasPending y.minus 'h' opnick then y.ch.isHalfOp targ else true, ?_,
    (minus.append member (by decide) (fun _ => rfl) _).ite minus,
    (plus.append member (by decide) (fun same => absurd same (by decide)) _).ite plus,
    (noId.append _ _ fun same => absurd same (by decide)).ite noId,
    fun u => ?_, fun u => ?_, fun u isMember => ?_, fun u isMember => ?_⟩
  · unfold Changes.halfop
    dsimp only
    split
    · exact ranked
    · exact tracks.ranked
  · unfold Changes.halfop
    dsimp only
    split
    · exact isOp u
    · split
      next self => rw [self, noOp]
      next => rfl
  · unfold Changes.halfop
    dsimp only
    cases taken : hasPending y.minus 'h' opnick with
    | true =>
      by_cases self : u = targ <;> simp [self]
    | false => exact isHalfop u
  · unfold Changes.halfop
    dsimp only
    rw [hasPending_note sane member isMember, tracks.plus.wiped sane found member (by decide) isMember]
    by_cases self : u = targ <;> simp [self]
  · unfold Changes.halfop
    dsimp only
    rw [hasPending_note sane member isMember, tracks.minus.wiped sane found member (by decide) isMember]
    by_cases self : u = targ <;> simp [self]

theorem Tracks.halfop_del : Flags x y targ (y.halfop .del 'h' opnick targ (x.s.client targ)) false false
    (hasPending y.plus 'o' (x.s.client targ).name && !byNick opnick)
    (hasPending y.minus 'o' (x.s.client targ).name) := by
  obtain ⟨ranked, isOp, isHalfop⟩ := tracks.ranked.move member .peon (x.s.client targ).mine
  have minus := tracks.minus.wipeAll (·.isFor ['h', 'v'] opnick)
  have plus := tracks.plus.wipeAll (·.isFor ['o', 'h', 'v'] opnick)
  have noId := tracks.noId.wipeAll (·.isFor ['h', 'v'] opnick)
  refine ⟨ranked, (minus.append member (by decide) (fun same => absurd same (by decide)) _).ite minus, plus,
    (noId.append _ _ fun same => absurd same (by decide)).ite noId, isOp, isHalfop, fun u isMember => ?_,
    fun u isMember => ?_⟩
  · unfold Changes.halfop
    dsimp only
    rw [tracks.plus.wiped sane found member (by decide) isMember]
    by_cases self : u = targ <;> simp [self]
  · unfold Changes.halfop
    dsimp only
    rw [hasPending_note sane member isMember, tracks.minus.wiped sane found member (by decide) isMember]
    by_cases self : u = targ <;> simp [self]

/-- Voice makes no difference to ops and halfops. -/
theorem Tracks.voice (dir : Dir) : Flags x y targ
    (y.voice dir 'v' opnick targ (x.s.client targ)) (y.ch.isChanOp targ) false
    (hasPending y.plus 'o' (x.s.client targ).name) (hasPending y.minus 'o' (x.s.client targ).name) := by
  have minus := tracks.minus.wipeAll (·.isFor ['v'] opnick)
  have plus := tracks.plus.wipeAll (·.isFor ['h', 'v'] opnick)
  have noId := tracks.noId.wipeAll (·.isFor ['v'] opnick)
  have added : ∀ u, x.s.isMember u x.chptr = true →
      hasPending (wipeAll (·.isFor ['h', 'v'] opnick) y.plus) 'o' (x.s.client u).name =
        hasPending y.plus 'o' (x.s.client u).name := by
    intro u isMember
    rw [tracks.plus.wiped sane found member (by decide) isMember]
    simp
  have removed : ∀ u, x.s.isMember u x.chptr = true →
      hasPending (wipeAll (·.isFor ['v'] opnick) y.minus) 'o' (x.s.client u).name =
        hasPending y.minus 'o' (x.s.client u).name := by
    intro u isMember
    rw [tracks.minus.wiped sane found member (by decide) isMember]
    simp
  unfold Changes.voice
  cases dir with
  | add =>
    obtain ⟨ranked, isOp, isHalfop⟩ := tracks.ranked.move member
      (if y.ch.isChanOp targ then .chanopVoiced else .voiced) (x.s.client targ).mine
    refine ⟨ranked, minus, (plus.append member (by decide) (fun same => absurd same (by decide)) _).ite plus, noId,
      fun u => (isOp u).trans ?_, fun u => (isHalfop u).trans ?_, fun u isMember => ?_, fun u isMember => ?_⟩
    · cases y.ch.isChanOp targ <;> rfl
    · cases y.ch.isChanOp targ <;> rfl
    · rw [hasPending_note sane member isMember, added u isMember]
      by_cases self : u = targ <;> simp [self]
    · rw [removed u isMember]
      by_cases self : u = targ <;> simp [self]
  | _ =>
    obtain ⟨ranked, isOp, isHalfop⟩ := tracks.ranked.move member
      (if y.ch.isChanOp targ then .chanop else .peon) (x.s.client targ).mine
    refine ⟨ranked, (minus.append member (by decide) (fun same => absurd same (by decide)) _).ite minus, plus,
      (noId.append _ _ fun same => absurd same (by decide)).ite noId,
      fun u => (isOp u).trans ?_, fun u => (isHalfop u).trans ?_, fun u isMember => ?_, fun u isMember => ?_⟩
    · cases y.ch.isChanOp targ <;> rfl
    · cases y.ch.isChanOp targ <;> rfl
    · rw [added u isMember]
      by_cases self : u = targ <;> simp [self]
    · rw [hasPending_note sane member isMember, removed u isMember]
      by_cases self : u = targ <;> simp [self]

end Letters

/-- A letter keeps the pending changes in step. -/
theorem Tracks.letter {x : ModeContext} {op : ClientId → Bool} {dir : Dir} {c : Char} {r : ModeRun} {y' : Changes}
    (tracks : Tracks x op r.changes) (sane : x.Sane) (rank : c ∈ rankLetters) (change : Change x dir r c y')
    (fits : letterFits x op dir c r = true) : Tracks x op y' := by
  cases change with
  | idle quiet => exact tracks
  | flag caps letter =>
    rcases mem_rankLetters.mp rank with rfl | rfl | rfl <;> cases letter
  | @mask type raw mask raw' _ given read done => cases type <;> exact absurd rank (by decide)
  | @op opnick targ targets checked new =>
    obtain ⟨-, found, member⟩ := targets
    have before := tracks.agrees targ member
    rcases new with ⟨rfl, new⟩ | ⟨rfl, new⟩
    · rw [new] at before
      exact (tracks.op_add sane found member).inStep tracks (agree_op_add before)
    · rw [new, Channel.not_both tracks.ranked.once new] at before
      unfold letterFits at fits
      rw [if_pos ⟨rfl, rfl⟩, checked] at fits
      exact (tracks.op_del sane found member new).inStep tracks (agree_op_del before fits)
  | @halfop opnick targ targets checked new =>
    obtain ⟨-, found, member⟩ := targets
    have before := tracks.agrees targ member
    rcases new with ⟨rfl, noOp, noHalfop⟩ | ⟨rfl, noOp, isHalfop⟩
    · rw [noOp, noHalfop] at before
      obtain ⟨isHalfop, flags⟩ := tracks.halfop_add sane found member noOp
      exact flags.inStep tracks (agree_halfop_add before isHalfop)
    · rw [noOp, isHalfop] at before
      unfold letterFits at fits
      rw [if_neg (by decide), if_pos ⟨rfl, rfl⟩, checked] at fits
      exact (tracks.halfop_del sane found member).inStep tracks (agree_halfop_del before fits)
  | @voice opnick targ targets checked noHalfop new =>
    obtain ⟨-, found, member⟩ := targets
    have before := tracks.agrees targ member
    have half : r.changes.ch.isHalfOp targ = false := by
      cases isOp : r.changes.ch.isChanOp targ with
      | true => exact Channel.not_both tracks.ranked.once isOp
      | false => exact noHalfop isOp
    rw [half] at before
    exact (tracks.voice sane found member dir).inStep tracks before
  | setLimit => exact absurd rank (by decide)
  | dropLimit => exact absurd rank (by decide)
  | setKey => exact absurd rank (by decide)
  | dropKey => exact absurd rank (by decide)

/-- Letters of ranks and signs. -/
def RankLetters (letters : List Char) : Prop :=
  ∀ c ∈ letters, ¬(c = '+' ∨ c = '-' ∨ c = '=') → c ∈ rankLetters

theorem Tracks.letters {x : ModeContext} {op : ClientId → Bool} (sane : x.Sane) {letters : List Char}
    (ofRanks : RankLetters letters) {dir : Dir} {r r' : ModeRun} (tracks : Tracks x op r.changes)
    (fits : lettersFit x op letters dir r = true) (done : readLetters x letters dir r = some r') :
    Tracks x op r'.changes := by
  induction letters generalizing dir r with
  | nil =>
    cases done
    exact tracks
  | cons c letters ih =>
    have rest : RankLetters letters := fun c' member => ofRanks c' (List.mem_cons_of_mem c member)
    rw [readLetters] at done
    rw [lettersFit] at fits
    split at done
    next sign =>
      rw [if_pos sign] at fits
      exact ih rest tracks fits done
    next sign =>
      rw [if_neg sign, Bool.and_eq_true] at fits
      cases letter : modeTable x dir c r with
      | none =>
        rw [letter] at done
        cases done
      | some r₁ =>
        rw [letter] at done fits
        have change := change_modeTable x dir letter
        exact ih rest (tracks.letter sane (ofRanks c List.mem_cons_self sign) change fits.1) fits.2 done

/-! ### Reading the lines -/

theorem Shown.change_ts (s : State) (v : Shown) (change : Dir × Char × List Char) : (v.change s change).ts = v.ts := by
  unfold Shown.change
  split <;> rfl

theorem Shown.change_other (s : State) (v : Shown) {dir : Dir} {c : Char} (other : c ≠ 'o') (param : List Char) :
    v.change s (dir, c, param) = v := by
  unfold Shown.change
  split
  next equal _ => exact absurd (congrArg (fun change => change.2.1) equal) other
  next => rfl

theorem Shown.change_op {s : State} (v : Shown) (dir : Dir) {param : List Char} {who : ClientId}
    (found : s.findClient param = some who) : v.change s (dir, 'o', param) = v.setOp who (dir = .add) := by
  unfold Shown.change
  simp only [found]

theorem foldl_change_ts (s : State) (v : Shown) (changes : List (Dir × Char × List Char)) :
    (changes.foldl (Shown.change s) v).ts = v.ts := by
  induction changes generalizing v with
  | nil => rfl
  | cons change changes ih => rw [List.foldl_cons, ih, Shown.change_ts]

/-- The reader does what is pending for ops, and nothing else to them. -/
theorem Plain.foldl_change {x : ModeContext} (sane : x.Sane)
    (known : ∀ u, x.s.isMember u x.chptr = true → x.s.findClient (x.s.client u).name = some u)
    {list : List ChModeChange} (plain : Plain x list) {d : Dir} (entry : ChModeChange → Dir × Char × List Char)
    (letter : ∀ e, (entry e).2.1 = e.letter) (form : ∀ e ∈ list, e.letter = 'o' → entry e = (d, 'o', e.arg.getD []))
    (cap nocap : Finset Cap) (v : Shown) (u : ClientId) :
    (((list.filter (·.passes cap nocap)).map entry).foldl (Shown.change x.s) v).op u =
      if x.s.isMember u x.chptr = true ∧ hasPending list 'o' (x.s.client u).name = true then decide (d = .add)
      else v.op u := by
  induction list generalizing v with
  | nil => simp [hasPending]
  | cons e list ih =>
    have rest : Plain x list :=
      ⟨fun e' member => plain.signed e' (List.mem_cons_of_mem e member),
        fun e' member => plain.rank e' (List.mem_cons_of_mem e member),
        fun e' member => plain.caps e' (List.mem_cons_of_mem e member)⟩
    have later := fun v => ih rest (fun e' member => form e' (List.mem_cons_of_mem e member)) v
    have pending : hasPending (e :: list) 'o' (x.s.client u).name =
        (e.isFor ['o'] (x.s.client u).name || hasPending list 'o' (x.s.client u).name) := rfl
    rw [List.filter_cons, pending]
    by_cases isOp : e.letter = 'o'
    · obtain ⟨w, isMember, arg⟩ := plain.signed e List.mem_cons_self (isOp ▸ by decide)
      obtain ⟨caps, nocaps⟩ := plain.caps e List.mem_cons_self isOp
      have passes : e.passes cap nocap = true := by
        simp [ChModeChange.passes, isOp, caps, nocaps]
      have change : v.change x.s (entry e) = v.setOp w (d = .add) := by
        rw [form e List.mem_cons_self isOp, arg]
        exact v.change_op d (known w isMember)
      rw [if_pos passes, List.map_cons, List.foldl_cons, change, later, Shown.setOp_op]
      by_cases here : u = w
      · subst here
        have found : e.isFor ['o'] (x.s.client u).name = true :=
          isFor_iff.mpr ⟨by simp [isOp], _, arg, IrcEq.refl _⟩
        simp [found, isMember]
      · by_cases member : x.s.isMember u x.chptr = true
        · have other : e.isFor ['o'] (x.s.client u).name = false := by
            rw [← Bool.not_eq_true, isFor_iff]
            rintro ⟨-, arg', given, equal⟩
            obtain rfl := Option.some.inj (arg.symm.trans given)
            exact here (sane.names w u isMember member equal).symm
          simp [other, here]
        · simp [member, here]
    · have other : e.isFor ['o'] (x.s.client u).name = false := by
        rw [← Bool.not_eq_true, isFor_iff]
        exact fun found => isOp (by simpa using found.1)
      rw [other, Bool.false_or]
      split
      · have change : v.change x.s (entry e) = v := v.change_other x.s (by rw [letter]; exact isOp) _
        rw [List.map_cons, List.foldl_cons, change, later]
      · exact later v

/-- Ranks and what is shown agree, with nothing pending. -/
structure Settles (x : ModeContext) (ch : Channel) (v : Shown) : Prop where
  ranked : Ranked x ch
  known : ∀ u, v.op u = true → (ch.isChanOp u || ch.isHalfOp u) = true
  told : ∀ u, ch.isChanOp u = true → v.op u = true

/-- Nobody outside is an op or a halfop. -/
theorem Ranked.outside {x : ModeContext} {ch : Channel} (ranked : Ranked x ch) {u : ClientId}
    (outside : x.s.isMember u x.chptr = false) : ch.isChanOp u = false ∧ ch.isHalfOp u = false := by
  have nowhere : u ∉ Lists.all ch.members := by
    rw [← ranked.back, outside]
    decide
  rw [Channel.isChanOp_rank ranked.once, Channel.isHalfOp_rank ranked.once, Channel.rank_eq_none.mpr nowhere]
  exact ⟨rfl, rfl⟩

/-- When the lines have been read, nothing is pending any more. -/
theorem Tracks.settles {x : ModeContext} {v : Shown} {y : Changes} (tracks : Tracks x v.op y) (sane : x.Sane)
    (known : ∀ u, x.s.isMember u x.chptr = true → x.s.findClient (x.s.client u).name = some u) {ch : Channel}
    (before : Settles x ch v) (cap nocap : Finset Cap) :
    Settles x y.ch (((y.minus.filter (·.passes cap nocap)).map (·.removal cap) ++
      (y.plus.filter (·.passes cap nocap)).map ChModeChange.addition).foldl (Shown.change x.s) v) := by
  have removed := tracks.minus.foldl_change sane known (d := .del) (·.removal cap) (fun _ => rfl)
    (fun e member letter => by
      have none := tracks.noId e member letter
      unfold ChModeChange.removal ChModeChange.minusArg
      rw [letter, none]) cap nocap v
  have added := tracks.plus.foldl_change sane known (d := .add) ChModeChange.addition (fun _ => rfl)
    (fun e member letter => by
      unfold ChModeChange.addition
      rw [letter]) cap nocap
  rw [List.foldl_append]
  -- whom the lines leave shown as op
  have shown : ∀ u, (((y.plus.filter (·.passes cap nocap)).map ChModeChange.addition).foldl (Shown.change x.s)
      (((y.minus.filter (·.passes cap nocap)).map (·.removal cap)).foldl (Shown.change x.s) v)).op u =
        if x.s.isMember u x.chptr = true then
          hasPending y.plus 'o' (x.s.client u).name || v.op u && !hasPending y.minus 'o' (x.s.client u).name
        else v.op u := by
    intro u
    rw [added, removed]
    cases x.s.isMember u x.chptr <;> cases hasPending y.plus 'o' (x.s.client u).name <;>
      cases hasPending y.minus 'o' (x.s.client u).name <;> simp
  refine ⟨tracks.ranked, fun u shows => ?_, fun u op => ?_⟩
  · rw [shown] at shows
    cases isMember : x.s.isMember u x.chptr with
    | true =>
      rw [isMember, if_pos rfl] at shows
      have agrees := tracks.agrees u isMember
      unfold agree at agrees
      rw [shows] at agrees
      simpa using (Bool.and_eq_true_iff.mp agrees).2
    | false =>
      rw [isMember, if_neg (by decide)] at shows
      have known := before.known u shows
      rw [(before.ranked.outside isMember).1, (before.ranked.outside isMember).2] at known
      cases known
  · rw [shown]
    cases isMember : x.s.isMember u x.chptr with
    | true =>
      rw [if_pos rfl]
      have agrees := tracks.agrees u isMember
      unfold agree at agrees
      simp only [Bool.and_eq_true] at agrees
      rw [op, Bool.not_true, Bool.false_or] at agrees
      exact agrees.1.2
    | false =>
      rw [(tracks.ranked.outside isMember).1] at op
      cases op

/-! ### A MODE of the old server itself -/

section Back

variable {x : ModeContext} {dir : Dir} {c : Char} {r r' : ModeRun} {v : Shown}

/-! Whoever has access uses up the parameter of a letter, if there is one. -/

theorem opTarget_parn (access : x.alev = chaccessChanop) :
    (opTarget x dir r).1.parn = if dir = .query ∨ x.param r = none then r.parn else r.parn + 1 := by
  unfold opTarget
  rw [access, if_neg (lt_irrefl _)]
  cases x.param r with
  | none => simp
  | some opnick =>
    by_cases query : dir = .query
    · simp [query]
    · simp only [query, if_false, or_false, reduceCtorEq]
      cases x.s.findClient opnick with
      | none => rfl
      | some targ =>
        dsimp only
        split_ifs <;> rfl

theorem halfopTarget_parn (notMine : x.mine = false) (access : x.alev = chaccessChanop) :
    (halfopTarget x dir r).1.parn = if dir = .query ∨ x.param r = none then r.parn else r.parn + 1 := by
  unfold halfopTarget
  have enough : ¬ x.alev < (if .paranoid ∈ r.changes.ch.mode.mode then chaccessChanop else chaccessHalfop) := by
    rw [access]
    split <;> decide
  rw [if_neg enough]
  cases x.param r with
  | none => simp
  | some opnick =>
    by_cases query : dir = .query
    · simp [query]
    · simp only [query, if_false, notMine, Bool.false_and, Bool.false_eq_true, false_and, or_false,
        reduceCtorEq]
      cases x.s.findClient opnick with
      | none => rfl
      | some targ =>
        dsimp only
        split_ifs <;> rfl

theorem voiceTarget_parn (access : x.alev = chaccessChanop) :
    (voiceTarget x dir r).1.parn = if dir = .query ∨ x.param r = none then r.parn else r.parn + 1 := by
  unfold voiceTarget
  rw [access, if_neg (by decide)]
  cases x.param r with
  | none => simp
  | some opnick =>
    by_cases query : dir = .query
    · simp [query]
    · simp only [query, if_false, or_false, reduceCtorEq]
      cases x.s.findClient opnick with
      | none => rfl
      | some targ =>
        dsimp only
        split_ifs <;> rfl

theorem modeTable_parn (notMine : x.mine = false) (access : x.alev = chaccessChanop) (rank : c ∈ rankLetters)
    (done : modeTable x dir c r = some r') :
    r'.parn = if dir = .query ∨ x.param r = none then r.parn else r.parn + 1 := by
  rcases mem_rankLetters.mp rank with rfl | rfl | rfl
  · obtain rfl := Option.some.inj done
    rw [← opTarget_parn access]
    unfold chmOp
    split <;> simp only [*]
  · obtain rfl := Option.some.inj done
    rw [← halfopTarget_parn notMine access]
    unfold chmHalfop
    split <;> simp only [*]
  · obtain rfl := Option.some.inj done
    rw [← voiceTarget_parn access]
    unfold chmVoice
    split <;> simp only [*]

/-- Why a change of an op is ignored that is not local. -/
theorem opTarget_ignored (notMine : x.mine = false) (access : x.alev = chaccessChanop) {nick : List Char}
    {who : ClientId} (given : x.param r = some nick) (found : x.s.findClient nick = some who) (change : dir ≠ .query)
    (ignored : (opTarget x dir r).2 = none) : x.s.isMember who x.chptr = false ∨
      dir = .add ∧ r.changes.ch.isChanOp who = true ∨ dir = .del ∧ r.changes.ch.isChanOp who = false := by
  unfold opTarget at ignored
  rw [access, if_neg (lt_irrefl _), given] at ignored
  simp only [change, if_false, found, notMine, Bool.false_eq_true, false_and] at ignored
  split at ignored
  next outside => exact Or.inl (by simpa using outside)
  · split at ignored
    next same => exact Or.inr same
    · cases ignored

theorem Shown.letter_other (other : c ≠ 'o') : v.letter x dir c r = v := by
  unfold Shown.letter
  split
  · rfl
  · split
    · rfl
    · exact v.change_other x.s other _

/-- A member's rank changes here, and what the old server shows of him there. -/
theorem Settles.move {ch : Channel} (settles : Settles x ch v) {targ : ClientId}
    (member : x.s.isMember targ x.chptr = true) {toRank : Rank} (mine : Bool) {v' : Shown}
    (others : ∀ u, u ≠ targ → v'.op u = v.op u)
    (known : v'.op targ = true → toRank.letters.o = true ∨ toRank.letters.h = true)
    (told : toRank.letters.o = true → v'.op targ = true) :
    Settles x (ch.changeMembership toRank targ mine) v' := by
  obtain ⟨ranked, isOp, isHalfop⟩ := settles.ranked.move member toRank mine
  refine ⟨ranked, fun u shows => ?_, fun u op => ?_⟩
  · rw [isOp, isHalfop]
    by_cases self : u = targ
    · subst self
      rw [if_pos rfl, if_pos rfl, Bool.or_eq_true]
      exact known shows
    · rw [others u self] at shows
      rw [if_neg self, if_neg self]
      exact settles.known u shows
  · rw [isOp] at op
    by_cases self : u = targ
    · subst self
      rw [if_pos rfl] at op
      exact told op
    · rw [if_neg self] at op
      rw [others u self]
      exact settles.told u op

theorem Settles.letter {y' : Changes} (settles : Settles x r.changes.ch v) (notMine : x.mine = false)
    (access : x.alev = chaccessChanop) (rank : c ∈ rankLetters) (change : Change x dir r c y')
    (fits : backFits x v dir c r = true) : Settles x y'.ch (v.letter x dir c r) := by
  cases change with
  | flag caps letter =>
    rcases mem_rankLetters.mp rank with rfl | rfl | rfl <;> cases letter
  | @mask type raw mask raw' _ given read done => cases type <;> exact absurd rank (by decide)
  | setLimit => exact absurd rank (by decide)
  | dropLimit => exact absurd rank (by decide)
  | setKey => exact absurd rank (by decide)
  | dropKey => exact absurd rank (by decide)
  | idle quiet =>
    by_cases isOp : c = 'o'
    · subst isOp
      unfold Shown.letter
      cases given : x.param r with
      | none => exact settles
      | some nick =>
        by_cases query : dir = .query
        · simp only [query, if_true]
          exact settles
        · cases found : x.s.findClient nick with
          | none =>
            have nobody : v.change x.s (dir, 'o', nick) = v := by
              unfold Shown.change
              simp only [found]
            simp only [query, if_false, nobody]
            exact settles
          | some who =>
            simp only [query, if_false, v.change_op dir found]
            obtain ⟨ranked, known, told⟩ := settles
            have ignored := opTarget_ignored notMine access given found query (quiet.op rfl)
            refine ⟨ranked, fun u shows => ?_, fun u op => ?_⟩
            · rw [Shown.setOp_op] at shows
              split at shows
              next self =>
                -- he is an op already
                subst self
                have adds : dir = .add := of_decide_eq_true shows
                unfold backFits at fits
                rw [if_pos ⟨adds, rfl⟩, given, Option.bind_some, found] at fits
                rcases ignored with outside | ⟨-, isOp⟩ | ⟨deletes, -⟩
                · dsimp only at fits
                  rw [outside] at fits
                  cases fits
                · rw [isOp]
                  rfl
                · rw [adds] at deletes
                  cases deletes
              next => exact known u shows
            · rw [Shown.setOp_op]
              split
              next self =>
                subst self
                rcases ignored with outside | ⟨adds, -⟩ | ⟨-, noOp⟩
                · have nowhere : r.changes.ch.isChanOp u = false := by
                    rw [Channel.isChanOp_rank ranked.once, Channel.rank_eq_none.mpr]
                    · rfl
                    · rw [← ranked.back, outside]
                      decide
                  rw [nowhere] at op
                  cases op
                · exact decide_eq_true adds
                · rw [noOp] at op
                  cases op
              next => exact told u op
    · rw [Shown.letter_other isOp]
      exact settles
  | @op opnick targ targets checked new =>
    obtain ⟨given, found, member⟩ := targets
    have change : dir ≠ .query := by
      rcases new with ⟨rfl, -⟩ | ⟨rfl, -⟩ <;> exact nofun
    have shows : v.letter x dir 'o' r = v.setOp targ (dir = .add) := by
      unfold Shown.letter
      simp only [given, change, if_false, v.change_op dir found]
    rw [shows]
    have others : ∀ u, u ≠ targ → (v.setOp targ (dir = .add)).op u = v.op u := fun u other => by
      rw [Shown.setOp_op, if_neg other]
    have self : (v.setOp targ (dir = .add)).op targ = decide (dir = .add) := by
      rw [Shown.setOp_op, if_pos rfl]
    rcases new with ⟨rfl, new⟩ | ⟨rfl, new⟩
    · refine settles.move member (x.s.client targ).mine others (fun _ => ?_) fun _ => self
      cases r.changes.ch.isVoiced targ
      · exact Or.inl rfl
      · exact Or.inl rfl
    · refine settles.move member (x.s.client targ).mine others (fun op => ?_) fun op => ?_
      · rw [self] at op
        cases op
      · split at op <;> cases op
  | @halfop opnick targ targets checked new =>
    obtain ⟨-, -, member⟩ := targets
    rw [Shown.letter_other (by decide)]
    rcases new with ⟨rfl, noOp, noHalfop⟩ | ⟨rfl, noOp, isHalfop⟩
    · unfold Changes.halfop
      dsimp only
      split
      · exact settles.move member (x.s.client targ).mine (fun _ _ => rfl) (fun _ => Or.inr rfl) fun op => nomatch op
      · exact settles
    · unfold backFits at fits
      rw [if_neg (by decide), if_pos ⟨rfl, rfl⟩, checked] at fits
      refine settles.move member (x.s.client targ).mine (fun _ _ => rfl) (fun op => ?_) fun op => nomatch op
      dsimp only at fits
      rw [op] at fits
      cases fits
  | @voice opnick targ targets checked noHalfop new =>
    obtain ⟨-, -, member⟩ := targets
    rw [Shown.letter_other (by decide)]
    have half : r.changes.ch.isChanOp targ = false → v.op targ = false := by
      intro noOp
      rw [← Bool.not_eq_true]
      intro shows
      have known := settles.known targ shows
      rw [noOp, noHalfop noOp] at known
      cases known
    have move : ∀ toRank : Rank, toRank.letters.o = r.changes.ch.isChanOp targ →
        Settles x (r.changes.ch.changeMembership toRank targ (x.s.client targ).mine) v := by
      intro toRank same
      refine settles.move member (x.s.client targ).mine (fun _ _ => rfl) (fun shows => ?_) fun op => ?_
      · left
        rw [same, ← Bool.not_eq_false]
        intro noOp
        rw [half noOp] at shows
        cases shows
      · exact settles.told targ (same ▸ op)
    unfold Changes.voice
    cases dir with
    | add => exact move _ (by cases r.changes.ch.isChanOp targ <;> rfl)
    | _ => exact move _ (by cases r.changes.ch.isChanOp targ <;> rfl)

/-- The MODE of the old server is done here as its line is done there. -/
theorem Settles.letters (notMine : x.mine = false) (access : x.alev = chaccessChanop) {letters : List Char}
    (ofRanks : RankLetters letters) (settles : Settles x r.changes.ch v) (fits : backsFit x letters dir r v = true)
    (done : readLetters x letters dir r = some r') :
    Settles x r'.changes.ch ((readRanks letters dir (x.parv.drop r.parn)).foldl (Shown.change x.s) v) := by
  induction letters generalizing dir r v with
  | nil =>
    cases done
    exact settles
  | cons c letters ih =>
    have rest : RankLetters letters := fun c' member => ofRanks c' (List.mem_cons_of_mem c member)
    rw [readLetters] at done
    rw [backsFit] at fits
    simp only [readRanks]
    by_cases sign : c = '+' ∨ c = '-' ∨ c = '='
    · rw [if_pos sign] at done fits ⊢
      exact ih rest settles fits done
    · rw [if_neg sign] at done fits ⊢
      rw [Bool.and_eq_true] at fits
      have rank := ofRanks c List.mem_cons_self sign
      rw [if_pos rank]
      cases letter : modeTable x dir c r with
      | none =>
        rw [letter] at done
        cases done
      | some r₁ =>
        rw [letter] at done fits
        have next := ih rest (settles.letter notMine access rank (change_modeTable x dir letter) fits.1) fits.2 done
        rw [modeTable_parn notMine access rank letter] at next
        unfold Shown.letter at next
        -- the parameters that are left
        cases given : x.param r with
        | none =>
          have behind : x.parv.drop r.parn = [] := List.drop_eq_nil_iff.mpr (List.getElem?_eq_none_iff.mp given)
          rw [given] at next
          rw [behind]
          simpa [behind] using next
        | some nick =>
          have behind : x.parv.drop r.parn = nick :: x.parv.drop (r.parn + 1) := by
            obtain ⟨bound, equal⟩ := List.getElem?_eq_some_iff.mp given
            rw [← equal]
            exact List.drop_eq_getElem_cons bound
          rw [given] at next
          rw [behind]
          by_cases query : dir = .query
          · simpa [query, behind] using next
          · simpa [query] using next

end Back

/-! ### Runs -/

section Runs

variable {peer : OldServer} {x y : Sides} {c : ChannelId}

theorem Sides.Held.sane (held : x.Held c) {m : ModeCommand} (here : m.chptr = c) : (m.context x.state).Sane := by
  have channel := held.intact.channels c held.old
  have listed : ∀ u, x.state.isMember u c = true → u ∈ x.state.clientTable := fun u => held.addressed.listed u c
  subst here
  refine ⟨channel.once, fun u => ?_, fun u v isMember isMember' equal => ?_, fun u isMember => ?_⟩
  · exact ⟨fun isMember => (channel.back u).mp (of_decide_eq_true isMember),
      fun onList => decide_eq_true ((channel.back u).mpr onList)⟩
  · have first := held.addressed.found u (listed u isMember)
    have second := held.addressed.found v (listed v isMember')
    have noDot := held.addressed.undotted u (listed u isMember)
    have noDot' := held.addressed.undotted v (listed v isMember')
    unfold State.findClient at first second
    rw [if_neg noDot] at first
    rw [if_neg noDot'] at second
    refine Option.some.inj (first.symm.trans (Eq.trans ?_ second))
    refine List.find?_congr fun w _ => decide_eq_decide.mpr ?_
    exact ⟨equal.symm.trans, equal.trans⟩
  · exact held.addressed.undotted u (listed u isMember)

theorem Sides.Held.ranked (held : x.Held c) {m : ModeCommand} (here : m.chptr = c) :
    Ranked (m.context x.state) (x.state.channel m.chptr) :=
  ⟨(held.sane here).once, (held.sane here).back, rfl⟩

/-- The channel has been changed, and the two sides agree. -/
theorem Sides.Held.changed (held : x.Held c) {m : ModeCommand} (here : m.chptr = c) {changes : Changes} {v : Shown}
    (done : x.state.setChannelMode m = some changes) (settles : Settles (m.context x.state) changes.ch v)
    (same : v.ts = x.shown.ts) : Sides.Held c ⟨x.state.setChannel c changes.ch, v⟩ := by
  subst here
  have moded : x.state.mode m = some (x.state.setChannel m.chptr changes.ch) := by
    unfold State.mode
    rw [done]
    rfl
  have ranked := held.ranked (m := m) rfl
  refine ⟨held.intact.mode held.old moded, ⟨held.addressed.found, held.addressed.nick, held.addressed.undotted,
    held.addressed.listed⟩, held.old, ⟨fun u => ?_, fun u => ?_⟩, ?_⟩
  · simpa using settles.known u
  · simpa using settles.told u
  · have nobody : Lists.all changes.ch.members = [] ↔ Lists.all (x.state.channel m.chptr).members = [] := by
      rw [List.eq_nil_iff_forall_not_mem, List.eq_nil_iff_forall_not_mem]
      exact forall_congr' fun u => not_congr ((settles.ranked.back u).symm.trans (ranked.back u))
    dsimp only
    rw [same, held.time, State.setChannel_channel, settles.ranked.channelts, if_congr nobody rfl rfl]
    rfl

theorem Sides.Held.mode (held : x.Held c) {m : ModeCommand} (fits : x.fits peer (.mode m) = true)
    (done : x.after peer c (.mode m) = some y) : y.Held c := by
  unfold Sides.after at done
  dsimp only at done
  split at done
  next ofRanks =>
    obtain ⟨changes, command, rfl⟩ := Option.map_eq_some_iff.mp done
    obtain ⟨r, letters, rfl⟩ := Option.map_eq_some_iff.mp command
    unfold ModeCommand.ofRanks at ofRanks
    simp only [Bool.and_eq_true, beq_iff_eq, List.all_eq_true, Bool.or_eq_true, List.contains_iff_mem, bne_iff_ne,
      Bool.not_eq_true'] at ofRanks
    obtain ⟨⟨here, ranks⟩, remote⟩ := ofRanks
    have rankLetters : RankLetters (m.parv.headD []) := by
      intro l member noSign
      rcases ranks l member with ((plus | minus) | query) | rank
      · exact absurd (Or.inl plus) noSign
      · exact absurd (Or.inr (Or.inl minus)) noSign
      · exact absurd (Or.inr (Or.inr query)) noSign
      · exact rank
    have sane := held.sane here
    have ranked := held.ranked here
    have right := held.right
    unfold Sides.Right at right
    rw [← here] at right
    unfold Sides.fits at fits
    dsimp only at fits
    refine held.changed here command ?_ (foldl_change_ts _ _ _)
    by_cases own : m.clientP = peer.link
    · -- the old server has done this before it has sent it
      rw [if_pos own] at fits ⊢
      have notMine : (m.context x.state).mine = false := by
        rcases remote with other | notMine
        · exact absurd own other
        · exact notMine
      have access : (m.context x.state).alev = chaccessChanop := by
        change x.state.getChannelAccess m.source _ = _
        unfold State.getChannelAccess
        rw [show (x.state.client m.source).mine = false from notMine]
        rfl
      have settles : Settles (m.context x.state) (m.start x.state).changes.ch x.shown :=
        ⟨ranked, right.1, right.2⟩
      have letters' := settles.letters notMine access rankLetters fits letters
      rw [show (m.context x.state).parv.drop (m.start x.state).parn = m.parv.tail from List.drop_one] at letters'
      exact letters'
    · rw [if_neg own] at fits ⊢
      have start : Tracks (m.context x.state) x.shown.op (m.start x.state).changes :=
        ⟨ranked, plain_nil _, plain_nil _, nofun, fun u _ => agree_start (right.1 u) (right.2 u)⟩
      have tracks := start.letters sane rankLetters fits letters
      have ofRank : ∀ {list}, Plain (m.context x.state) list → ∀ e ∈ list, e.OfRank := by
        intro list plain e member letter
        obtain ⟨u, -, arg⟩ := plain.signed e member (plain.rank e member letter)
        exact ⟨plain.rank e member letter, by rw [arg]; rfl⟩
      have known : ∀ u, x.state.isMember u m.chptr = true → x.state.findClient (x.state.client u).name = some u :=
        fun u isMember => held.addressed.found u (held.addressed.listed u _ isMember)
      rw [sendCapModeChanges_told _ _ _ (ofRank tracks.minus) (ofRank tracks.plus)]
      exact tracks.settles sane known ⟨ranked, right.1, right.2⟩ peer.cap peer.nocap
  · cases done

theorem Sides.Held.after (held : x.Held c) {heard : Heard} (fits : x.fits peer heard = true)
    (done : x.after peer c heard = some y) : y.Held c := by
  cases heard with
  | sjoin clientP source parv =>
    refine held.sjoin (fun start started => ?_) done
    unfold Sides.fits at fits
    dsimp only at fits
    rwa [started] at fits
  | mode m => exact held.mode fits done

theorem Sides.Held.run (held : x.Held c) {list : List Heard} (fits : x.fitsAll peer c list = true)
    {done : List Heard} (start : done <+: list) (run : x.run peer c done = some y) : y.Held c := by
  induction done generalizing x list with
  | nil =>
    obtain rfl := Option.some.inj run
    exact held
  | cons heard done ih =>
    obtain ⟨rest, rfl⟩ := start
    obtain ⟨next, first, run⟩ := Option.bind_eq_some_iff.mp ((List.foldlM_cons ..).symm.trans run)
    rw [List.cons_append] at fits
    unfold Sides.fitsAll at fits
    rw [first, Bool.and_eq_true] at fits
    exact ih (held.after fits.1 first) fits.2 (List.prefix_append done rest) run

/-- From the burst on, whom the old server shows as op is an op or a halfop here, and it shows every op. -/
theorem old_server_agrees {s : State} (intact : s.Intact) (addressed : s.Addressed) (old : c < s.nextChannel)
    (hash : (s.channel c).chname.head? = some '#') (short : s.meName.length ≤ hostLen) {list : List Heard}
    (fits : (Sides.mk s (s.burstShown c)).fitsAll peer c list = true) {done : List Heard} (start : done <+: list)
    (run : (Sides.mk s (s.burstShown c)).run peer c done = some x) : x.Right c :=
  ((held_burst intact addressed old hash short).run fits start run).right

end Runs

/-! ### A halfop -/

/-- On a channel are the halfop 1 and the op 2, both behind the server 0; the server 3 has no halfops. -/
def halfopNetwork : State :=
  { smallNetwork with
    client
      | 1 => { Client.person ['a'] 0 false with user := some ⟨[0], 1, []⟩ }
      | 2 => { Client.person ['b'] 0 false with user := some ⟨[0], 1, []⟩ }
      | 3 => Client.server ['o'] 3
      | who => smallNetwork.client who
    channel := fun _ =>
      { emptyChannel ['#', 'x'] 5 with
        members := Lists.add (Lists.add (fun _ => []) .halfop 1) .chanop 2
        users := 2 }
    globalChannelList := [0]
    nextChannel := 1 }

def noHopsServer : OldServer := ⟨3, {.ex}, {.ie}, by decide⟩

theorem halfopNetwork_intact : halfopNetwork.Intact where
  channels c below := by
    obtain rfl : c = 0 := Nat.lt_one_iff.mp below
    refine ⟨by decide, fun u => ?_, fun r => ?_, by decide, by decide⟩
    · rcases u with _ | _ | _ | _ | u
      iterate 4 decide
      · have none : u + 4 ∉ Lists.all (halfopNetwork.channel 0).members := by
          rw [show Lists.all (halfopNetwork.channel 0).members = [2, 1] by decide]
          simp
        exact iff_of_false (by simp [halfopNetwork, smallNetwork, Client.channels, Client.person]) none
    · cases r <;> exact List.Perm.nil
  joined u user given := by
    rcases u with _ | _ | _ | _ | u
    · cases given
    · obtain rfl := Option.some.inj given
      decide
    · obtain rfl := Option.some.inj given
      decide
    · cases given
    · obtain rfl := Option.some.inj given
      decide
  sound := by
    refine ⟨by decide, fun u c on => ?_⟩
    rcases u with _ | _ | _ | _ | u
    · cases on
    · obtain rfl := List.mem_singleton.mp on
      decide
    · obtain rfl := List.mem_singleton.mp on
      decide
    · cases on
    · cases on

theorem halfopNetwork_addressed : halfopNetwork.Addressed where
  found := by decide
  nick u member := by
    rcases (by simpa [halfopNetwork, smallNetwork] using member : u = 0 ∨ u = 1 ∨ u = 2 ∨ u = 3) with
      rfl | rfl | rfl | rfl
    all_goals exact ⟨by decide, by decide, by decide, by decide, by decide⟩
  undotted := by decide
  listed u c on := by
    rcases u with _ | _ | _ | _ | u
    iterate 4 decide +revert
    exact absurd on Bool.false_ne_true

/-- A member gets voice and the op deops himself; then a SJOIN makes the halfop an op. -/
def fittingHistory : List Heard :=
  [.mode ⟨0, 2, 0, [['+', 'v', '-', 'o'], ['a'], ['b']]⟩,
    .sjoin 0 0 [['s'], ['5'], ['#', 'x'], ['+'], ['@', 'a', ' ', '+', 'b']]]

theorem old_server_agrees_fittingHistory :
    ∃ x, (Sides.mk halfopNetwork (halfopNetwork.burstShown 0)).run noHopsServer 0 fittingHistory = some x ∧
      x.Right 0 := by
  have runs : ((Sides.mk halfopNetwork (halfopNetwork.burstShown 0)).run noHopsServer 0 fittingHistory).isSome = true := by
    decide +kernel
  obtain ⟨x, run⟩ := Option.isSome_iff_exists.mp runs
  exact ⟨x, run, old_server_agrees halfopNetwork_intact halfopNetwork_addressed (by decide) (by decide) (by decide)
    (show (Sides.mk halfopNetwork (halfopNetwork.burstShown 0)).fitsAll noHopsServer 0 fittingHistory = true by
      decide +kernel) (List.prefix_refl _) run⟩

/-- The old server is not told that the halfop whom it shows as op has lost his rank. -/
theorem halfop_stays_op : ¬ ∀ (peer : OldServer) (s : State) (c : ChannelId), s.Intact → s.Addressed →
    c < s.nextChannel → (s.channel c).chname.head? = some '#' → s.meName.length ≤ hostLen →
    ∀ (list : List Heard) (x : Sides), (Sides.mk s (s.burstShown c)).run peer c list = some x → x.Right c := by
  intro all
  have runs : ((Sides.mk halfopNetwork (halfopNetwork.burstShown 0)).run noHopsServer 0
      [.mode ⟨0, 2, 0, [['-', 'h'], ['a']]⟩]).any (fun x => x.shown.op 1 && !(x.state.channel 0).isChanOp 1 &&
        !(x.state.channel 0).isHalfOp 1) = true := by
    decide +kernel
  cases run : (Sides.mk halfopNetwork (halfopNetwork.burstShown 0)).run noHopsServer 0
      [.mode ⟨0, 2, 0, [['-', 'h'], ['a']]⟩] with
  | none =>
    rw [run] at runs
    cases runs
  | some x =>
    have right := all noHopsServer halfopNetwork 0 halfopNetwork_intact halfopNetwork_addressed (by decide) (by decide)
      (by decide) _ x run
    rw [run] at runs
    simp only [Option.any_some, Bool.and_eq_true, Bool.not_eq_true'] at runs
    obtain ⟨⟨shows, noOp⟩, noHalfop⟩ := runs
    have rank := right.1 1 shows
    rw [noOp, noHalfop] at rank
    cases rank

end Ircd.Chan
