import Ircd.Invite.State

/-!
# INVITE on one server

To which links a server passes an invitation on, and that all servers that agree about clients and
channels make the same of it.
-/
namespace Ircd.Invite

open Chan (ClientId ChannelId Rank isChanChar isChannelName param)

/-! ### The links of the ops -/

/-- Somebody other than the origin who is told of an invitation: an op or a half-op of the channel. -/
def Hears (s : Chan.State) (chptr : ChannelId) (source who : ClientId) : Prop :=
  who ≠ source ∧ ∃ r ∈ Send.MemberType.onlyChanopsHalfops.ranks, who ∈ (s.channel chptr).members r

section

variable {s : Chan.State} {m : Marks} {clientP source : ClientId} {sender : List Char} {i : Invitation}

/-- The links that `sendto_channel_remote` comes to. -/
def opLinks (s : Chan.State) (m : Marks) (source : ClientId) (chptr : ChannelId) : List (ClientId × Send.Msg) :=
  Send.MemberType.onlyChanopsHalfops.ranks.flatMap fun r =>
    ((s.channel chptr).members r).filterMap ((sending s m).nextSerial.remoteAddressee source 0 0)

theorem mem_opLinks {chptr link : ClientId} {msg : Send.Msg} :
    (link, msg) ∈ opLinks s m source chptr ↔ msg = .toServer ∧
      ∃ who, Hears s chptr source who ∧ (s.client who).localClient = false ∧
        (s.client who).source = link := by
  simp only [opLinks, List.mem_flatMap, List.mem_filterMap, Send.State.remoteAddressee,
    Send.State.nextSerial, sending]
  constructor
  · rintro ⟨r, among, who, on, found⟩
    split at found
    · cases found
    next neither =>
      rw [not_or, Bool.not_eq_true] at neither
      rw [Option.bind_some, if_neg (by simp)] at found
      obtain ⟨rfl, rfl⟩ := Prod.mk.inj (Option.some.inj found)
      exact ⟨rfl, who, ⟨neither.2, r, among, on⟩, neither.1, rfl⟩
  · rintro ⟨rfl, who, ⟨other, r, among, on⟩, away, rfl⟩
    refine ⟨r, among, who, on, ?_⟩
    rw [if_neg (by simp [away, other]), Option.bind_some, if_neg (by simp)]

/-- The stamps are not ahead of the counter. -/
def Marks.Stamped (m : Marks) : Prop := ∀ c, m.serial c ≤ m.currentSerial

/-- Whoever is not local lies behind a local client. -/
def Routed (s : Chan.State) : Prop :=
  ∀ who chptr r, who ∈ (s.channel chptr).members r → (s.client who).localClient = false →
    (s.client (s.client who).source).localClient = true

/-- A link gets the line if an op or half-op lies behind it, or if the target does and the line has
come over it. -/
def ForwardsTo (s : Chan.State) (clientP source : ClientId) (i : Invitation) (link : ClientId) : Prop :=
  (∃ who, Hears s i.chptr source who ∧ (s.client who).localClient = false ∧ (s.client who).source = link) ∨
    (s.client i.target).localClient = false ∧ (s.client i.target).source = link ∧ link = clientP

/-- What `m_invite` sends in the end: one line to each of the links. -/
structure Sends (s : Chan.State) (m : Marks) (clientP source : ClientId) (sender : List Char) (i : Invitation)
    (m' : Marks) (out : List (ClientId × Line)) : Prop where
  stamped : m'.Stamped
  invites : m'.invites = if (s.client i.target).localClient = true ∧ i.chop = true then
    m.invites.addInvite i.vchan i.target else m.invites
  nodup : out.Nodup
  mem : ∀ link line, (link, line) ∈ out ↔
    line = ⟨sender, (s.client i.target).name, (s.channel i.vchan).chname⟩ ∧ ForwardsTo s clientP source i link

theorem forward_sends (routed : Routed s) (stamped : m.Stamped) :
    ∃ m' out, forward s m clientP source sender i = some (m', out) ∧ Sends s m clientP source sender i m' out := by
  have calm : (sending s m).nextSerial.Calm := fun outcome member => absurd member List.not_mem_nil
  have fresh : ∀ c, ((sending s m).nextSerial.client c).serial ≠ (sending s m).nextSerial.currentSerial :=
    fun c => Nat.ne_of_lt (Nat.lt_succ_of_le (stamped c))
  have run : Send.sendtoChannelRemote (Send.sendLinebuf 1) (sending s m) source .onlyChanopsHalfops 0 0
      i.chptr = some ((opLinks s m source i.chptr).foldl Send.State.serve (sending s m).nextSerial) := by
    refine Send.ranks_serve _ _ (fun u r same calm => ?_) _ (Send.SameButSerial.refl _) calm
    exact Send.sendtoListRemote_calm (fun c _ => ⟨_, rfl⟩) 0 source 0 0 i.chptr r same calm
  have once : ∀ a ∈ opLinks s m source i.chptr, ∀ b ∈ opLinks s m source i.chptr, a.1 = b.1 → a = b := by
    rintro ⟨a, msg⟩ left ⟨b, msg'⟩ right same
    rw [(mem_opLinks.mp left).1, (mem_opLinks.mp right).1]
    exact Prod.ext same rfl
  have same := Send.serve_fold_same (opLinks s m source i.chptr) (sending s m).nextSerial
  have count := Send.serve_fold_count (opLinks s m source i.chptr) once (sending s m).nextSerial
  have serial := Send.serve_fold_serial (opLinks s m source i.chptr) (sending s m).nextSerial
  unfold forward
  dsimp only
  rw [run, Option.map_some]
  generalize (opLinks s m source i.chptr).foldl Send.State.serve (sending s m).nextSerial = t at same count serial
  -- every link that is come to is open, and has not had the line
  have queued : ∀ link msg, t.queued.count (link, msg) = if (link, msg) ∈ opLinks s m source i.chptr then 1 else 0 := by
    intro link msg
    rw [count]
    have isOpen : (link, msg) ∈ opLinks s m source i.chptr → (sending s m).nextSerial.Open link := by
      intro member
      obtain ⟨-, who, ⟨-, r, -, on⟩, away, rfl⟩ := mem_opLinks.mp member
      exact ⟨routed who i.chptr r on away, rfl⟩
    by_cases member : (link, msg) ∈ opLinks s m source i.chptr
    · rw [if_pos ⟨member, isOpen member, fresh link⟩, if_pos member]
      rfl
    · rw [if_neg fun all => member all.1, if_neg member]
      rfl
  have mem : ∀ link msg, (link, msg) ∈ t.queued ↔ (link, msg) ∈ opLinks s m source i.chptr := by
    intro link msg
    rw [← List.count_pos_iff, queued]
    split
    next member => simp [member]
    next other => simp [other]
  have told : ∀ link, link ∈ t.queued.map Prod.fst ↔ ∃ a ∈ opLinks s m source i.chptr, a.1 = link := by
    intro link
    rw [List.mem_map]
    exact exists_congr fun a => and_congr_left fun _ => mem a.1 a.2
  have nodup : (t.queued.map Prod.fst).Nodup := by
    refine List.Nodup.map_on (fun a left b right => ?_) (List.nodup_iff_count_le_one.mpr ?_)
    · exact once a ((mem a.1 a.2).mp left) b ((mem b.1 b.2).mp right)
    · rintro ⟨link, msg⟩
      rw [queued]
      split
      · exact Nat.le_refl 1
      · exact Nat.zero_le 1
  have marked : ∀ c, (t.client c).serial = t.currentSerial ↔ c ∈ t.queued.map Prod.fst := by
    intro c
    rw [told, serial, same.currentSerial]
    split
    next gone => exact iff_of_true rfl gone
    next other => exact iff_of_false (fresh c) other
  refine ⟨_, _, rfl, ⟨?_, rfl, ?_, ?_⟩⟩
  · intro c
    dsimp only
    rw [serial, same.currentSerial]
    split
    · exact Nat.le_refl _
    · exact (stamped c).trans (Nat.le_succ _)
  · refine List.Nodup.map (fun _ _ equal => (Prod.mk.inj equal).1) (List.Nodup.append nodup ?_ ?_)
    · split
      · exact List.nodup_singleton _
      · exact List.nodup_nil
    · intro link member
      split
      next last =>
        rw [List.mem_singleton]
        rintro rfl
        exact last.2.1 ((marked _).mpr member)
      next => exact List.not_mem_nil
  · intro link line
    have ops : link ∈ t.queued.map Prod.fst ↔ ∃ who, Hears s i.chptr source who ∧
        (s.client who).localClient = false ∧ (s.client who).source = link := by
      rw [told]
      constructor
      · rintro ⟨⟨link, msg⟩, member, rfl⟩
        exact (mem_opLinks.mp member).2
      · exact fun behind => ⟨(link, .toServer), mem_opLinks.mpr ⟨rfl, behind⟩, rfl⟩
    rw [List.mem_map, ForwardsTo, ← ops]
    constructor
    · rintro ⟨link', member, equal⟩
      obtain ⟨rfl, rfl⟩ := Prod.mk.inj equal
      refine ⟨rfl, (List.mem_append.mp member).imp_right fun last => ?_⟩
      split at last
      next back =>
        obtain rfl := List.mem_singleton.mp last
        exact ⟨back.1, rfl, back.2.2⟩
      next => exact absurd last List.not_mem_nil
    · rintro ⟨rfl, either⟩
      refine ⟨link, List.mem_append.mpr ?_, rfl⟩
      by_cases already : link ∈ t.queued.map Prod.fst
      · exact Or.inl already
      · obtain ⟨away, rfl, back⟩ := either.resolve_left already
        right
        rw [if_pos ⟨away, mt (marked _).mp already, back⟩]
        exact List.mem_singleton_self _

end

/-! ### The next server -/

/-- A channel that all servers know, under its name. -/
structure Public (s : Chan.State) (chptr : ChannelId) : Prop where
  found : s.hashFindChannel (s.channel chptr).chname = some chptr
  chars : (s.channel chptr).chname.all isChanChar = true
  isName : isChannelName (s.channel chptr).chname = true
  shared : (s.channel chptr).chname.head? ≠ some '&'

/-- The tables of a server find people and channels by their names, and a virtual channel lies right
below the channel that leads to it. -/
structure Tidy (s : Chan.State) : Prop where
  named : ∀ c, (s.client c).isPerson = true → s.findClient (s.client c).name = some c
  listed : ∀ text c, s.hashFindChannel text = some c → text.head? ≠ some '&' → Public s c
  top : ∀ c, (s.channel c).hasVchans = true → (s.channel c).rootChptr = none
  vchan : ∀ c who v, Public s c → s.mapVchan c who = some v → v ≠ c →
    Public s v ∧ (s.channel v).rootChptr = some c ∧ (s.channel v).hasVchans = false

/-- Two servers know the same of people and channels. -/
structure Same (s t : Chan.State) : Prop where
  isPerson : ∀ c, (t.client c).isPerson = (s.client c).isPerson
  name : ∀ c, (t.client c).name = (s.client c).name
  findClient : ∀ text, t.findClient text = s.findClient text
  hashFindChannel : ∀ text, text.head? ≠ some '&' → t.hashFindChannel text = s.hashFindChannel text
  chname : ∀ c, (t.channel c).chname = (s.channel c).chname
  mode : ∀ c, (t.channel c).mode = (s.channel c).mode
  rootChptr : ∀ c, (t.channel c).rootChptr = (s.channel c).rootChptr
  hasVchans : ∀ c, (t.channel c).hasVchans = (s.channel c).hasVchans
  members : ∀ c r who, who ∈ (t.channel c).members r ↔ who ∈ (s.channel c).members r
  isMember : ∀ who c, t.isMember who c = s.isMember who c
  mapVchan : ∀ c who, t.mapVchan c who = s.mapVchan c who

section

variable {s t : Chan.State} {source : ClientId} {parv : List (List Char)} {i : Invitation}

theorem Same.isChanOp (same : Same s t) (c : ChannelId) (who : ClientId) :
    (t.channel c).isChanOp who = (s.channel c).isChanOp who := by
  simp only [Chan.Channel.isChanOp, same.members]

theorem Same.hears (same : Same s t) (c : ChannelId) (who : ClientId) :
    Hears t c source who ↔ Hears s c source who := by
  simp only [Hears, same.members]

/-- What `m_invite` has found when it accepts an invitation for somebody on another server. -/
structure Found (s : Chan.State) (source : ClientId) (i : Invitation) : Prop where
  target : (s.client i.target).isPerson = true
  vchan : Public s i.vchan
  invited : inviteTo s source i.target i.chptr i.vchan = some i
  sameRoot : rootOf s i.vchan = i.chptr
  sameVchan : vchanFor s source i.vchan = i.vchan

theorem inviteTo_eq {target : ClientId} {chptr vchan : ChannelId}
    (run : inviteTo s source target chptr vchan = some i) :
    i.target = target ∧ i.chptr = chptr ∧ i.vchan = vchan := by
  unfold inviteTo at run
  split_ifs at run <;> (obtain rfl := Option.some.inj run; exact ⟨rfl, rfl, rfl⟩)

/-- The virtual channel of somebody is reached again under its own name. -/
theorem Tidy.again (tidy : Tidy s) {chptr : ChannelId} (found : Public s chptr) :
    Public s (vchanFor s source chptr) ∧ rootOf s (vchanFor s source chptr) = rootOf s chptr ∧
      vchanFor s source (vchanFor s source chptr) = vchanFor s source chptr := by
  by_cases below : (s.channel chptr).hasVchans = true ∧ ∃ v, s.mapVchan chptr source = some v ∧ v ≠ chptr
  · obtain ⟨has, v, mapped, other⟩ := below
    obtain ⟨found', root, bottom⟩ := tidy.vchan chptr source v found mapped other
    have here : vchanFor s source chptr = v := by rw [vchanFor, if_pos has, mapped, Option.getD_some]
    rw [here, rootOf, rootOf, root, tidy.top chptr has, vchanFor, bottom, if_neg Bool.false_ne_true]
    exact ⟨found', rfl, rfl⟩
  · have here : vchanFor s source chptr = chptr := by
      rw [vchanFor]
      split
      next has =>
        cases mapped : s.mapVchan chptr source with
        | none => rfl
        | some v =>
          by_contra other
          exact below ⟨has, v, mapped, other⟩
      next => rfl
    rw [here]
    exact ⟨found, rfl, here⟩

/-- The checks have found a person, and a channel of that name. -/
theorem invitation_cases (run : invitation s source parv = some i) :
    (s.client i.target).isPerson = true ∧ ∃ chptr, s.hashFindChannel (param parv 2) = some chptr ∧
      ¬((s.client i.target).localClient = false ∧ (param parv 2).head? = some '&') ∧
      inviteTo s source i.target (rootOf s chptr) (vchanFor s source chptr) = some i := by
  unfold invitation at run
  split at run
  · cases run
  split at run
  · cases run
  split at run
  · cases run
  next target lookup =>
    split at run
    · cases run
    split at run
    · cases run
    split at run
    · cases run
    next isShared =>
      obtain ⟨chptr, found, invited⟩ := Option.bind_eq_some_iff.mp run
      obtain ⟨rfl, -, -⟩ := inviteTo_eq invited
      exact ⟨(Option.filter_eq_some_iff.mp lookup).2, chptr, found, isShared, invited⟩

theorem invitation_found (tidy : Tidy s) (run : invitation s source parv = some i)
    (away : (s.client i.target).localClient = false) : Found s source i := by
  obtain ⟨person, chptr, found, isShared, invited⟩ := invitation_cases run
  obtain ⟨-, root, vchan⟩ := inviteTo_eq invited
  have public_ := tidy.listed _ chptr found fun head => isShared ⟨away, head⟩
  obtain ⟨again, sameRoot, sameVchan⟩ := @Tidy.again s source tidy chptr public_
  rw [← vchan] at again sameRoot sameVchan invited
  rw [← root] at sameRoot invited
  exact ⟨person, again, invited, sameRoot, sameVchan⟩

/-- The line that goes to other servers. -/
def lineOf (s : Chan.State) (source : ClientId) (i : Invitation) : Line :=
  ⟨(s.client source).name, (s.client i.target).name, (s.channel i.vchan).chname⟩

theorem inviteTo_same {target : ClientId} {chptr vchan : ChannelId} (same : Same s t)
    (away : (t.client source).localClient = false)
    (run : inviteTo s source target chptr vchan = some i) : inviteTo t source target chptr vchan = some i := by
  have notMine : ¬((t.client source).mine = true ∧ ¬t.isMember source vchan = true) := by
    rw [Chan.Client.mine, away]
    exact fun both => Bool.false_ne_true both.1
  unfold inviteTo at run ⊢
  rw [if_neg notMine, same.mapVchan, same.isMember, same.mode, same.isChanOp]
  split at run
  · cases run
  · exact run

/-- A server to which somebody is not local takes the line of an invitation for the same invitation. -/
theorem Found.invitation (found : Found s source i) (tidy : Tidy s) (same : Same s t)
    (away : (t.client source).localClient = false) (person : (t.client source).isPerson = true) :
    invitation t source (parameters t source (lineOf s source i)) = some i := by
  obtain ⟨target, vchan, invited, sameRoot, sameVchan⟩ := found
  have channel : param (parameters t source (lineOf s source i)) 2 = (s.channel i.vchan).chname := rfl
  have nonempty : (s.channel i.vchan).chname ≠ [] := by
    intro empty
    have isName := vchan.isName
    rw [empty] at isName
    cases isName
  have user : (t.client source).user ≠ none := by
    rw [Chan.Client.isPerson, Bool.and_eq_true] at person
    exact Option.isSome_iff_ne_none.mp person.2
  have lookup : findPerson t (param (parameters t source (lineOf s source i)) 1) = some i.target := by
    rw [findPerson, same.findClient]
    change (s.findClient (s.client i.target).name).filter _ = _
    rw [tidy.named i.target target, Option.filter_some, same.isPerson, target, if_pos rfl]
  have root : rootOf t i.vchan = i.chptr := by
    rw [← sameRoot, rootOf, rootOf, same.rootChptr]
  have virtual : vchanFor t source i.vchan = i.vchan := by
    rw [vchanFor, same.hasVchans, same.mapVchan]
    exact sameVchan
  unfold Invite.invitation
  rw [channel, if_neg nonempty, if_neg user, lookup]
  dsimp only
  rw [vchan.chars, if_neg Bool.false_ne_true.symm, vchan.isName, if_neg Bool.false_ne_true.symm,
    if_neg fun both => vchan.shared both.2, same.hashFindChannel _ vchan.shared, vchan.found,
    Option.bind_some, root, virtual]
  exact inviteTo_same same away invited

end

end Ircd.Invite
