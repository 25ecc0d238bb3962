import Ircd.Channel.Sjoin
import Ircd.Channel.Vchan

/-!
# Joining and leaving channels

`JOIN` of one channel (`modules/m_join.c`), `CJOIN` (`modules/m_cjoin.c`), `PART`
(`modules/core/m_part.c`) and `KICK` (`modules/core/m_kick.c`) of clients, and what becomes of the
channels of a client that exits.
-/
namespace Ircd.Chan

/-! ### JOIN -/

/-- A request to join one channel: its name, the key for virtual channels, the channels that the
client has been invited to, and whether the configuration, `can_join` and the limit of channels let
it pass. They let everybody pass to a channel that is new. -/
structure JoinRequest where
  name : List Char
  vkey : List Char
  invited : List ChannelId
  admitted : Bool

/-- The name with a timestamp behind it that looks like that of a virtual channel. -/
def looksVirtual (name : List Char) (ts : ℤ) : Bool :=
  name.take 2 = ['#', '#'] &&
    (splitLastUnderscore (name.drop 3)).any fun parts => atol parts.2 = ts

/-- The modes of a channel with a new op. -/
def Channel.opened (ch : Channel) : Channel :=
  { ch with mode := { ch.mode with mode := insert .noPrivMsgs (insert .topicLimit ch.mode.mode) } }

/-- The timestamp of a channel with a new op. -/
def State.joinTs (s : State) (name : List Char) : ℤ :=
  if looksVirtual name s.currentTime then s.currentTime + 1 else s.currentTime

/-- The end of `m_join`: the client enters, and an empty channel becomes its own. -/
def State.enterChannel (s : State) (who : ClientId) (root chptr : ChannelId) (op : Bool)
    (name : List Char) : State :=
  let s := s.addUserToChannel chptr who (if op then modeChanop else 0)
  let s := s.addVchanToClientCache who root chptr
  if op then s.setChannel chptr { s.channel chptr with channelts := s.joinTs name }.opened
  else s

/-- `m_join` up to the entry of the client: the root channel, the channel to enter, and whether the
client will be its op. -/
def State.joinTarget (s : State) (who : ClientId) (r : JoinRequest) :
    Option (State × ChannelId × ChannelId × Bool) :=
  if r.name.all isChanChar = false ∨ ¬ (r.name.head? = some '#' ∨ r.name.head? = some '&') ∨
      channelLen < r.name.length ∨ r.admitted = false then none
  else
    match s.hashFindChannel r.name with
    | some root =>
      match s.selectVchan root who r.vkey r.invited with
      | none => none
      | some chptr =>
        if s.isMember who chptr then none
        else some (s, root, chptr, decide ((s.channel chptr).users = 0))
    | none => some (s.create r.name, s.nextChannel, s.nextChannel, true)

/-- `m_join`, for one channel. -/
def State.mJoin (s : State) (who : ClientId) (r : JoinRequest) : State :=
  match s.joinTarget who r with
  | none => s
  | some (s, root, chptr, op) => s.enterChannel who root chptr op r.name

/-! ### CJOIN -/

/-- `TS_MAX_DELTA_DEFAULT`. -/
def tsMaxDelta : ℕ := 600

/-- `"##%s_%u"`. -/
def vchanName (name : List Char) (ts : ℤ) : List Char :=
  '#' :: '#' :: (name.tail ++ '_' :: Nat.toDigits 10 (ts % 2 ^ 32).toNat)

/-- The first timestamp from now on under which there is no channel. -/
def State.freeVchanTs (s : State) (name : List Char) : Option ℤ :=
  ((List.range (tsMaxDelta + 1)).map fun (n : ℕ) => s.currentTime + n).find? fun ts =>
    s.hashFindChannel (vchanName name ts) = none

/-- `cjoin_channel`, up to the entry of the client. -/
def State.cjoinChannel (s : State) (root : ChannelId) (who : ClientId) (name : List Char)
    (admitted : Bool) : Option (State × ChannelId) :=
  if (s.channel root).isVchan = true ∨ s.onSubVchan root who = true ∨
      channelLen - 15 < name.length ∨ admitted = false then none
  else
    (s.freeVchanTs name).map fun ts =>
      let chptr := s.nextChannel
      let s := (s.create (vchanName name ts)).addVchan root chptr
      let s := s.addVchanToClientCache who root chptr
      (s.setChannel chptr { s.channel chptr with channelts := ts }, chptr)

/-- `m_cjoin` up to the entry of the client. -/
def State.cjoinTarget (s : State) (who : ClientId) (name : List Char) (admitted : Bool) :
    Option (State × ChannelId) :=
  if s.useVchans = false ∨ name.all isChanChar = false ∨ name.head? ≠ some '#' then none
  else (s.hashFindChannel name).bind fun root => s.cjoinChannel root who name admitted

/-- The end of `m_cjoin`. -/
def State.openVchan (s : State) (who : ClientId) (chptr : ChannelId) : State :=
  let s := s.addUserToChannel chptr who modeChanop
  s.setChannel chptr (s.channel chptr).opened

/-- `m_cjoin`. -/
def State.mCjoin (s : State) (who : ClientId) (name : List Char) (admitted : Bool) : State :=
  match s.cjoinTarget who name admitted with
  | none => s
  | some (s, chptr) => s.openVchan who chptr

/-! ### PART and KICK -/

/-- The channel that `part_one_client` takes a name for. -/
def State.partChannel (s : State) (who : ClientId) (name : List Char) : Option ChannelId :=
  (s.hashFindChannel name).bind fun chptr =>
    let chptr := if (s.channel chptr).hasVchans then s.mapVchan chptr who else some chptr
    chptr.filter (s.isMember who)

/-- `part_one_client`. -/
def State.partOneClient (s : State) (who : ClientId) (name : List Char) : State :=
  match s.partChannel who name with
  | none => s
  | some chptr => s.removeUserFromChannel chptr who false

/-- The channel that `m_kick` takes a name for. -/
def State.kickChannel (s : State) (source : ClientId) (name : List Char) : Option ChannelId :=
  (s.hashFindChannel name).map fun chptr =>
    if (s.channel chptr).hasVchans then (s.mapVchan chptr source).getD chptr else chptr

/-- Whether `m_kick` lets somebody kick somebody else off a channel. The kick of a client of another
server that is no op here is let through, unless the channel has the timestamp 0. -/
def State.mayKick (s : State) (source who : ClientId) (chptr : ChannelId) : Bool :=
  let ch := s.channel chptr
  ((s.client source).status == .server || ch.isAnyOp source ||
      !((s.client source).localClient || ch.channelts == 0)) &&
    s.isMember who chptr && !(ch.isHalfOp source && ch.isAnyOp who)

/-- `m_kick`, for a client that `find_chasing` has found. -/
def State.mKick (s : State) (source : ClientId) (name : List Char) (who : ClientId) : State :=
  match s.kickChannel source name with
  | none => s
  | some chptr => if s.mayKick source who chptr then s.removeUserFromChannel chptr who false else s

/-! ### All channels at once -/

/-- `do_join_0`. It does not end if a channel is still there after it has been left. -/
def State.doJoin0 (s : State) (who : ClientId) : ℕ → Option State
  | 0 => if (s.client who).channels = [] then some s else none
  | n + 1 =>
    match (s.client who).channels with
    | [] => some s
    | chptr :: _ => (s.removeUserFromChannel chptr who false).doJoin0 who n

/-- What `exit_one_client` does about the channels of a client. -/
def State.exitChannels (s : State) (who : ClientId) : State :=
  (s.client who).channels.foldl (fun s chptr => s.removeUserFromChannel chptr who true) s

/-- `MAX_VCHAN_TIME`. -/
def maxVchanTime : ℤ := 60 * 60

/-- `cleanup_channels`, for one channel without LazyLinks. -/
def State.cleanupChannel (s : State) (chptr : ChannelId) : State :=
  let ch := s.channel chptr
  if ch.isVchan then
    if maxVchanTime ≤ s.currentTime - ch.usersLast then
      if ch.users = 0 then s.destroyChannel chptr
      else s.setChannel chptr { ch with usersLast := s.currentTime }
    else s
  else if ch.users = 0 then
    if ch.channelts + s.persistTime > s.currentTime then s.destroyChannel chptr else s
  else s.setChannel chptr { ch with usersLast := s.currentTime }

/-! ### What comes of a request to join -/

section Requests

variable {s t : State} {who : ClientId} {root chptr : ChannelId} {op : Bool}

theorem State.joinTarget_some {r : JoinRequest} (joins : s.joinTarget who r = some (t, root, chptr, op)) :
    r.name.all isChanChar = true ∧ r.name.length ≤ channelLen ∧
      (t = s ∧ s.hashFindChannel r.name = some root ∧
          s.selectVchan root who r.vkey r.invited = some chptr ∧ chptr ∉ (s.client who).channels ∧
          op = decide ((s.channel chptr).users = 0) ∨
        s.hashFindChannel r.name = none ∧ t = s.create r.name ∧ root = s.nextChannel ∧
          chptr = s.nextChannel ∧ op = true) := by
  unfold State.joinTarget at joins
  split at joins
  · cases joins
  next passes =>
    have fits : ¬ channelLen < r.name.length := fun long => passes (Or.inr (Or.inr (Or.inl long)))
    have chars : r.name.all isChanChar = true := by
      by_contra other
      exact passes (Or.inl (Bool.eq_false_iff.mpr other))
    refine ⟨chars, Nat.le_of_not_lt fits, ?_⟩
    cases found : s.hashFindChannel r.name with
    | some top =>
      rw [found] at joins
      dsimp only at joins
      cases selected : s.selectVchan top who r.vkey r.invited with
      | none =>
        rw [selected] at joins
        cases joins
      | some c =>
        rw [selected] at joins
        dsimp only at joins
        split at joins
        · cases joins
        next outside =>
          obtain ⟨state, rest⟩ := Prod.mk.inj (Option.some.inj joins)
          obtain ⟨isRoot, rest'⟩ := Prod.mk.inj rest
          obtain ⟨isChannel, isOp⟩ := Prod.mk.inj rest'
          subst state isRoot isChannel isOp
          exact Or.inl ⟨rfl, rfl, selected, fun on => outside (decide_eq_true on), rfl⟩
    | none =>
      rw [found] at joins
      obtain ⟨state, rest⟩ := Prod.mk.inj (Option.some.inj joins)
      obtain ⟨isRoot, rest'⟩ := Prod.mk.inj rest
      obtain ⟨isChannel, isOp⟩ := Prod.mk.inj rest'
      subst state isRoot isChannel isOp
      exact Or.inr ⟨rfl, rfl, rfl, rfl, rfl⟩

theorem State.cjoinTarget_some {name : List Char} {admitted : Bool}
    (target : s.cjoinTarget who name admitted = some (t, chptr)) :
    s.useVchans = true ∧ name.all isChanChar = true ∧ name.head? = some '#' ∧
      ∃ root, s.hashFindChannel name = some root ∧
        s.cjoinChannel root who name admitted = some (t, chptr) := by
  unfold State.cjoinTarget at target
  split at target
  · cases target
  next passes =>
    refine ⟨?_, ?_, ?_, Option.bind_eq_some_iff.mp target⟩
    · by_contra off
      exact passes (Or.inl (Bool.eq_false_iff.mpr off))
    · by_contra other
      exact passes (Or.inr (Or.inl (Bool.eq_false_iff.mpr other)))
    · by_contra other
      exact passes (Or.inr (Or.inr other))

/-- It is the same whether a client remembers a virtual channel before it enters it or after. -/
theorem State.addVchanToClientCache_addUserToChannel {user : User}
    (given : (s.client who).user = some user) (root vchan : ChannelId) (flags : ℕ) :
    (s.addVchanToClientCache who root vchan).addUserToChannel chptr who flags =
      (s.addUserToChannel chptr who flags).addVchanToClientCache who root vchan := by
  unfold State.addVchanToClientCache
  split
  · rfl
  · simp [State.addUserToChannel, given, State.setClient, State.setChannel, Client.mine]

theorem State.addVchanToClientCache_setChannel (s : State) (who : ClientId)
    (root vchan chptr : ChannelId) (ch : Channel) :
    (s.addVchanToClientCache who root vchan).setChannel chptr ch =
      (s.setChannel chptr ch).addVchanToClientCache who root vchan := by
  unfold State.addVchanToClientCache
  split <;> rfl

theorem State.addVchanToClientCache_channel (s : State) (who : ClientId) (root vchan : ChannelId) :
    (s.addVchanToClientCache who root vchan).channel = s.channel := by
  unfold State.addVchanToClientCache
  split <;> rfl

theorem State.cjoinChannel_some {name : List Char} {admitted : Bool}
    (cjoined : s.cjoinChannel root who name admitted = some (t, chptr)) :
    (s.channel root).rootChptr = none ∧ name.length ≤ channelLen - 15 ∧ chptr = s.nextChannel ∧
      ∃ ts, s.hashFindChannel (vchanName name ts) = none ∧
        let linked := (s.create (vchanName name ts)).addVchan root chptr
        t = (linked.setChannel chptr { linked.channel chptr with
          channelts := ts }).addVchanToClientCache who root chptr := by
  unfold State.cjoinChannel at cjoined
  split at cjoined
  · cases cjoined
  next lets =>
    obtain ⟨ts, free, equal⟩ := Option.map_eq_some_iff.mp cjoined
    obtain ⟨rfl, rfl⟩ := Prod.mk.inj equal
    refine ⟨?_, ?_, rfl, ts, ?_, ?_⟩
    · have flat := fun isVchan => lets (Or.inl isVchan)
      unfold Channel.isVchan at flat
      simpa using flat
    · by_contra long
      exact lets (Or.inr (Or.inr (Or.inl (Nat.lt_of_not_le long))))
    · unfold State.freeVchanTs at free
      have shown := List.find?_some free
      exact of_decide_eq_true shown
    · dsimp only
      rw [State.addVchanToClientCache_setChannel, State.addVchanToClientCache_channel]

end Requests

end Ircd.Chan
