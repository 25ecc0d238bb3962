import Ircd.Channel.Mask
import Ircd.Channel.Topic
import Ircd.Channel.Vchan

/-!
# Who is banned

`is_banned`, `check_banned`, `can_join` and `can_send` of `src/channel.c`, and KNOCK (`modules/m_knock.c`),
which has a search of its own for clients behind a LazyLink. Both searches tell an exception from a ban; only
KNOCK takes what they return for a truth value (`same_bans_iff`).
-/
namespace Ircd.Bans

open Chan (ClientId ChannelId ircMatch isChannelName)

/-- What the configuration says, and `ServerInfo.hub`. `leaf` says that the uplink is a LazyLink. -/
structure Config where
  useExcept : Bool
  useInvex : Bool
  quietOnBan : Bool
  useKnock : Bool
  knockDelay : ℤ
  knockDelayChannel : ℤ
  hub : Bool
  leaf : Bool

/-- The network, and what else the checks read: `localClient->sockhost` and `localClient->last_knock` of a client,
its invitations and whether its address is spoofed, `last_knock` of a channel, and `find_channel_resv`. -/
structure World where
  net : Chan.State
  config : Config
  sockhost : ClientId → List Char
  ipSpoof : ClientId → Bool
  invited : ClientId → List ChannelId
  lastKnock : ClientId → ℤ
  lastKnockOf : ChannelId → ℤ
  resv : List Char → Bool

/-! ### The search -/

/-- What `check_banned` returns: 0, `CHFL_BAN` or `CHFL_EXCEPTION`. -/
inductive Verdict where
  | none_
  | ban
  | exception
deriving DecidableEq

/-- What C makes of it as a truth value. -/
def Verdict.holds : Verdict → Bool
  | .none_ => false
  | _ => true

/-- One of the masks matches one of the two texts. -/
def onList (list : List Chan.Ban) (s s2 : List Char) : Bool :=
  list.any fun entry => ircMatch entry.banstr s || ircMatch entry.banstr s2

/-- `check_banned`, and `check_banned_knock`, which has the same text. -/
def World.checkBanned (w : World) (chptr : ChannelId) (s s2 : List Char) : Verdict :=
  if onList (w.net.channel chptr).banlist s s2 then
    if w.config.useExcept && onList (w.net.channel chptr).exceptlist s s2 then .exception else .ban
  else .none_

/-- `nick!user@host`. -/
def fullName (client : Chan.Client) (host : List Char) : List Char :=
  client.name ++ ['!'] ++ client.username ++ ['@'] ++ host

/-- The two texts of a client, the second one with this for a host. -/
def World.checkClient (w : World) (chptr : ChannelId) (who : ClientId) (sockhost : List Char) : Verdict :=
  w.checkBanned chptr (fullName (w.net.client who) (w.net.client who).host) (fullName (w.net.client who) sockhost)

/-- `is_banned`. -/
def World.isBanned (w : World) (chptr : ChannelId) (who : ClientId) : Verdict :=
  if (w.net.client who).isPerson then w.checkClient chptr who (w.sockhost who) else .none_

/-- `is_banned_knock`. -/
def World.isBannedKnock (w : World) (chptr : ChannelId) (who : ClientId) (sockhost : List Char) : Verdict :=
  if (w.net.client who).isPerson then w.checkClient chptr who sockhost else .none_

/-! ### JOIN -/

inductive JoinError where
  | bannedFromChan
  | inviteOnlyChan
  | badChannelKey
  | channelIsFull
deriving DecidableEq

/-- An entry of the invex list matches the client. -/
def World.invexed (w : World) (chptr : ChannelId) (who : ClientId) : Bool :=
  onList (w.net.channel chptr).invexlist (fullName (w.net.client who) (w.net.client who).host)
    (fullName (w.net.client who) (w.sockhost who))

/-- `can_join`. -/
def World.canJoin (w : World) (who : ClientId) (chptr : ChannelId) (key : List Char) : Option JoinError :=
  let ch := w.net.channel chptr
  if w.checkClient chptr who (w.sockhost who) = .ban then some .bannedFromChan
  else if .inviteOnly ∈ ch.mode.mode ∧ chptr ∉ w.invited who ∧ ¬(w.config.useInvex ∧ w.invexed chptr who) then
    some .inviteOnlyChan
  else if ch.mode.key ≠ [] ∧ (key = [] ∨ ¬IrcEq ch.mode.key key) then some .badChannelKey
  else if ch.mode.limit ≠ 0 ∧ ch.mode.limit ≤ ch.users then some .channelIsFull
  else none

/-! ### Speaking -/

inductive CanSend where
  | no
  | nonop
  | opv
deriving DecidableEq

/-- `can_send`. -/
def World.canSend (w : World) (chptr : ChannelId) (who : ClientId) : CanSend :=
  let ch := w.net.channel chptr
  let mine := (w.net.client who).mine
  if mine ∧ w.resv ch.chname then .no
  else if ch.isAnyOp who then .opv
  else if ch.isVoiced who then .opv
  else if .moderated ∈ ch.mode.mode then .no
  else if w.config.quietOnBan ∧ mine ∧ w.isBanned chptr who = .ban then .no
  else if .noPrivMsgs ∈ ch.mode.mode ∧ ¬w.net.isMember who chptr then .no
  else .nonop

/-! ### KNOCK -/

/-- What comes of a KNOCK. One that this server leaves to the hub goes there as a KNOCKLL, with the name, the host
and the key. -/
inductive Knocked where
  | ignored
  | knockDisabled
  | noSuchChannel
  | knockll (name sockhost key : List Char)
  | knockOnChan
  | showVchans
  | badChanName
  | chanOpen
  | cannotSendToChan
  | tooManyKnock (what : String)
  | sent (chptr : ChannelId)
deriving DecidableEq

/-- What `KNOCKLL` has for the host of a client. -/
def World.passedHost (w : World) (who : ClientId) : List Char :=
  if w.ipSpoof who then "255.255.255.255".toList else w.sockhost who

/-- The first part of `parse_knock_local`: which channel is meant. The name is cut at the first comma. -/
def World.knockTarget (w : World) (who : ClientId) (name : List Char) (key : Option (List Char)) :
    Except Knocked ChannelId :=
  let name := (Chan.cutAt ',' name).1
  if !isChannelName name then .error .noSuchChannel
  else
    match w.net.hashFindChannel name with
    | none =>
      if !w.config.hub ∧ w.config.leaf then .error (.knockll name (w.passedHost who) (key.getD []))
      else .error .noSuchChannel
    | some chptr =>
      if (w.net.channel chptr).isVchanTop then
        if w.net.onSubVchan chptr who then .error .knockOnChan
        else if (key.getD []).head? = some '!' then
          -- KNOCK #channel ! shows them, as JOIN does
          if (key.getD []).tail = [] then .error .showVchans
          else
            match w.net.findVchan chptr (key.getD []) with
            | some vchan => .ok vchan
            | none => .error .noSuchChannel
        else .error .showVchans
      else if (w.net.channel chptr).isVchan then .error .badChanName
      else if w.net.isMember who chptr then .error .knockOnChan
      else .ok chptr

/-- There is something to knock at. -/
def closed (ch : Chan.Channel) : Bool :=
  decide (.inviteOnly ∈ ch.mode.mode ∨ ch.mode.key ≠ [] ∨ ch.mode.limit ≠ 0 ∧ ch.mode.limit ≤ ch.users)

/-- The bans as KNOCK sees them: with the host that was passed along, if there is one. -/
def World.knockBanned (w : World) (chptr : ChannelId) (who : ClientId) : Option (List Char) → Bool
  | some sockhost => (w.isBannedKnock chptr who sockhost).holds
  | none => (w.isBanned chptr who).holds

/-- `parse_knock_local`. -/
def World.parseKnockLocal (w : World) (who : ClientId) (name : List Char) (key sockhost : Option (List Char)) :
    Knocked :=
  match w.knockTarget who name key with
  | .error reply => reply
  | .ok chptr =>
    let ch := w.net.channel chptr
    if !closed ch then .chanOpen
    else if .secret ∈ ch.mode.mode ∨ w.knockBanned chptr who sockhost then .cannotSendToChan
    else if (w.net.client who).mine ∧ w.net.currentTime < w.lastKnock who + w.config.knockDelay then
      .tooManyKnock "user"
    else if w.net.currentTime < w.lastKnockOf chptr + w.config.knockDelayChannel then .tooManyKnock "channel"
    else .sent chptr

/-- `m_knock`, for KNOCK of a client and KNOCKLL of a link; `lazyLink` says that the link has `CAP_LL`. Of a KNOCKLL
the second parameter is the host. -/
def World.mKnock (w : World) (lazyLink : Bool) (who : ClientId) (name : List Char) (params : List (List Char)) :
    Knocked :=
  let client := w.net.client who
  if !w.config.useKnock ∧ client.mine then .knockDisabled
  else if client.localClient then
    if client.status = .client then w.parseKnockLocal who name params.head? none else .ignored
  else
    match params with
    | [] => .ignored
    | sockhost :: keys =>
      if w.config.hub ∧ lazyLink ∧ client.status = .client then
        w.parseKnockLocal who name keys.head? (some sockhost)
      else .ignored

/-! ### What is promised -/

section

variable (w : World) (chptr : ChannelId) (who : ClientId)

/-- Some ban matches, with the host or with the address, and no exception does when exceptions are in use. -/
def World.Banned (address : List Char) : Prop :=
  let s := fullName (w.net.client who) (w.net.client who).host
  let s2 := fullName (w.net.client who) address
  (∃ ban ∈ (w.net.channel chptr).banlist, ircMatch ban.banstr s ∨ ircMatch ban.banstr s2) ∧
    (w.config.useExcept → ∀ except ∈ (w.net.channel chptr).exceptlist,
      ¬ircMatch except.banstr s ∧ ¬ircMatch except.banstr s2)

/-- A ban and an exception in use match both. -/
def World.Excepted (address : List Char) : Prop :=
  let s := fullName (w.net.client who) (w.net.client who).host
  let s2 := fullName (w.net.client who) address
  (∃ ban ∈ (w.net.channel chptr).banlist, ircMatch ban.banstr s ∨ ircMatch ban.banstr s2) ∧
    w.config.useExcept = true ∧ ∃ except ∈ (w.net.channel chptr).exceptlist,
      ircMatch except.banstr s ∨ ircMatch except.banstr s2

/-- The same, but the channel has no bans. -/
def World.unbanned : World :=
  { w with net := w.net.setChannel chptr { w.net.channel chptr with banlist := [] } }

/-- The key for virtual channels among the parameters of KNOCK or KNOCKLL. -/
def World.knockKey (params : List (List Char)) : Option (List Char) :=
  if (w.net.client who).localClient then params.head? else params.tail.head?

/-- The address that KNOCK goes by. That of a client behind a LazyLink is passed along. -/
def World.knockAddress (params : List (List Char)) : Option (List Char) :=
  if (w.net.client who).localClient then some (w.sockhost who) else params.head?

/-- The reply of a KNOCK that bans have not stopped. -/
def Knocked.pastBans : Knocked → Bool
  | .tooManyKnock _ => true
  | .sent _ => true
  | _ => false

/-- The client is refused because of bans exactly if it is banned: when it joins; when it speaks as one who could
speak if there were no bans; and when it knocks, as one who could knock if there were none. -/
structure World.SameBans (key name : List Char) (lazyLink : Bool) (params : List (List Char)) : Prop where
  join : (w.net.client who).localClient = true →
    (w.canJoin who chptr key = some .bannedFromChan ↔ w.Banned chptr who (w.sockhost who))
  speak : (w.net.client who).localClient = true → w.config.quietOnBan = true →
    (w.unbanned chptr).canSend chptr who = .nonop →
      (w.canSend chptr who = .no ↔ w.Banned chptr who (w.sockhost who))
  knock : w.knockTarget who name (w.knockKey who params) = .ok chptr →
    ((w.unbanned chptr).mKnock lazyLink who name params).pastBans = true →
      ∀ address, w.knockAddress who params = some address →
        (w.mKnock lazyLink who name params = .cannotSendToChan ↔ w.Banned chptr who address)

/-- A KNOCK gets as far as the bans of the channel. -/
def World.Asks (name : List Char) (lazyLink : Bool) (params : List (List Char)) : Prop :=
  (if (w.net.client who).localClient then w.config.useKnock = true
    else w.config.hub = true ∧ lazyLink = true ∧ params ≠ []) ∧
  w.knockTarget who name (w.knockKey who params) = .ok chptr ∧
  closed (w.net.channel chptr) = true ∧ .secret ∉ (w.net.channel chptr).mode.mode

end

/-! ### The search decides -/

section

variable {w : World} {chptr : ChannelId} {who : ClientId}

theorem onList_iff (list : List Chan.Ban) (s s2 : List Char) :
    onList list s s2 = true ↔ ∃ entry ∈ list, ircMatch entry.banstr s ∨ ircMatch entry.banstr s2 := by
  simp [onList]

theorem onList_eq_false (list : List Chan.Ban) (s s2 : List Char) :
    onList list s s2 = false ↔ ∀ entry ∈ list, ¬ircMatch entry.banstr s ∧ ¬ircMatch entry.banstr s2 := by
  simp [onList]

theorem checkClient_eq_ban (address : List Char) :
    w.checkClient chptr who address = .ban ↔ w.Banned chptr who address := by
  have banned : w.Banned chptr who address ↔
      onList (w.net.channel chptr).banlist (fullName (w.net.client who) (w.net.client who).host)
        (fullName (w.net.client who) address) = true ∧
      (w.config.useExcept = true → onList (w.net.channel chptr).exceptlist
        (fullName (w.net.client who) (w.net.client who).host) (fullName (w.net.client who) address) = false) := by
    rw [onList_iff, onList_eq_false]
    rfl
  rw [banned, World.checkClient, World.checkBanned]
  split
  · next hit =>
    split
    · next both =>
      obtain ⟨used, excepted⟩ := Bool.and_eq_true_iff.mp both
      simp [used, excepted]
    · next missed =>
      simp only [hit, true_and, true_iff]
      intro used
      by_contra excepted
      exact missed (Bool.and_eq_true_iff.mpr ⟨used, Bool.eq_true_of_not_eq_false excepted⟩)
  · next free => simp [free]

theorem checkClient_eq_exception (address : List Char) :
    w.checkClient chptr who address = .exception ↔ w.Excepted chptr who address := by
  have excepted : w.Excepted chptr who address ↔
      onList (w.net.channel chptr).banlist (fullName (w.net.client who) (w.net.client who).host)
        (fullName (w.net.client who) address) = true ∧
      w.config.useExcept = true ∧ onList (w.net.channel chptr).exceptlist
        (fullName (w.net.client who) (w.net.client who).host) (fullName (w.net.client who) address) = true := by
    rw [onList_iff, onList_iff]
    rfl
  rw [excepted, ← Bool.and_eq_true_iff, World.checkClient, World.checkBanned]
  split
  · next hit => split <;> simp_all
  · next free => simp [free]

/-- An exception is not a ban. -/
theorem not_banned_of_excepted {address : List Char} (excepted : w.Excepted chptr who address) :
    ¬w.Banned chptr who address := by
  intro banned
  have verdict := (checkClient_eq_ban address).mpr banned
  rw [(checkClient_eq_exception address).mpr excepted] at verdict
  cases verdict

/-- As a truth value the verdict also counts an exception. -/
theorem checkClient_holds (address : List Char) :
    (w.checkClient chptr who address).holds = true ↔
      w.Banned chptr who address ∨ w.Excepted chptr who address := by
  rw [← checkClient_eq_ban, ← checkClient_eq_exception]
  cases w.checkClient chptr who address <;> simp [Verdict.holds]

/-! ### Without bans -/

/-- Nothing but the list of bans is different. -/
theorem unbanned_channel {β : Type} (read : Chan.Channel → β)
    (blind : ∀ ch : Chan.Channel, read { ch with banlist := [] } = read ch) (c : ChannelId) :
    read ((w.unbanned chptr).net.channel c) = read (w.net.channel c) := by
  by_cases same : c = chptr
  · subst same
    simp [World.unbanned, blind]
  · rw [World.unbanned, Chan.State.setChannel_channel_ne _ _ same]

@[simp] theorem unbanned_banlist : ((w.unbanned chptr).net.channel chptr).banlist = [] := by
  simp [World.unbanned]

@[simp] theorem unbanned_mode (c : ChannelId) :
    ((w.unbanned chptr).net.channel c).mode = (w.net.channel c).mode :=
  unbanned_channel Chan.Channel.mode (fun _ => rfl) c

@[simp] theorem unbanned_closed (c : ChannelId) :
    closed ((w.unbanned chptr).net.channel c) = closed (w.net.channel c) :=
  unbanned_channel closed (fun _ => rfl) c

@[simp] theorem unbanned_client : (w.unbanned chptr).net.client = w.net.client := rfl

@[simp] theorem unbanned_config : (w.unbanned chptr).config = w.config := rfl

theorem unbanned_knockTarget (name : List Char) (key : Option (List Char)) :
    (w.unbanned chptr).knockTarget who name key = w.knockTarget who name key := by
  have table : ∀ text, (w.unbanned chptr).net.hashFindChannel text = w.net.hashFindChannel text := by
    intro text
    unfold Chan.State.hashFindChannel
    congr 1
    funext c
    rw [unbanned_channel Chan.Channel.chname fun _ => rfl]
  have vchan : ∀ c text, (w.unbanned chptr).net.findVchan c text = w.net.findVchan c text := by
    intro c text
    have ids : (fun d => decide (IrcEq ((w.unbanned chptr).net.channel d).vchanId text.tail)) =
        fun d => decide (IrcEq (w.net.channel d).vchanId text.tail) := by
      funext d
      rw [unbanned_channel Chan.Channel.vchanId fun _ => rfl]
    simp only [Chan.State.findVchan, ids, unbanned_channel Chan.Channel.vchanList fun _ => rfl]
    rfl
  simp only [World.knockTarget, table, vchan, unbanned_channel Chan.Channel.isVchanTop fun _ => rfl,
    unbanned_channel Chan.Channel.isVchan fun _ => rfl]
  rfl

@[simp] theorem unbanned_checkClient (address : List Char) :
    (w.unbanned chptr).checkClient chptr who address = .none_ := by
  simp [World.checkClient, World.checkBanned, onList]

/-! ### The three commands -/

theorem canJoin_banned_iff (key : List Char) :
    w.canJoin who chptr key = some .bannedFromChan ↔ w.Banned chptr who (w.sockhost who) := by
  rw [← checkClient_eq_ban, World.canJoin]
  constructor
  · intro refused
    by_contra free
    rw [if_neg free] at refused
    split_ifs at refused <;> cases refused
  · exact fun banned => if_pos banned

theorem isBanned_eq (person : (w.net.client who).isPerson = true) :
    w.isBanned chptr who = w.checkClient chptr who (w.sockhost who) :=
  if_pos person

theorem canSend_no_iff (person : (w.net.client who).isPerson = true)
    (mine : (w.net.client who).localClient = true) (quiet : w.config.quietOnBan = true)
    (speaks : (w.unbanned chptr).canSend chptr who = .nonop) :
    w.canSend chptr who = .no ↔ w.Banned chptr who (w.sockhost who) := by
  have isMine : (w.net.client who).mine = true := by
    rw [Chan.Client.isPerson, Bool.and_eq_true] at person
    rw [Chan.Client.mine, mine, person.1]
    rfl
  have verdict : (w.unbanned chptr).isBanned chptr who = .none_ := by
    rw [isBanned_eq (w := w.unbanned chptr) person]
    exact unbanned_checkClient _
  have member : (w.unbanned chptr).net.isMember who chptr = w.net.isMember who chptr := rfl
  have resv : (w.unbanned chptr).resv = w.resv := rfl
  simp only [World.canSend, unbanned_client, unbanned_config, unbanned_mode, member, verdict, resv,
    unbanned_channel Chan.Channel.chname fun _ => rfl,
    unbanned_channel (fun ch => ch.isAnyOp who) fun _ => rfl,
    unbanned_channel (fun ch => ch.isVoiced who) fun _ => rfl] at speaks
  rw [← checkClient_eq_ban, ← isBanned_eq person, World.canSend]
  split_ifs at speaks ⊢ <;> simp_all

theorem knockBanned_local (person : (w.net.client who).isPerson = true) :
    w.knockBanned chptr who none = (w.checkClient chptr who (w.sockhost who)).holds := by
  rw [World.knockBanned, isBanned_eq person]

theorem knockBanned_passed (person : (w.net.client who).isPerson = true) (sockhost : List Char) :
    w.knockBanned chptr who (some sockhost) = (w.checkClient chptr who sockhost).holds := by
  rw [World.knockBanned, World.isBannedKnock, if_pos person]

/-- How a KNOCK at a known channel goes on. -/
theorem mKnock_eq {name : List Char} {lazyLink : Bool} {params : List (List Char)} {address : List Char}
    (person : (w.net.client who).isPerson = true)
    (target : w.knockTarget who name (w.knockKey who params) = .ok chptr)
    (given_ : w.knockAddress who params = some address)
    (served : if (w.net.client who).localClient then w.config.useKnock = true
      else w.config.hub = true ∧ lazyLink = true ∧ params ≠ []) :
    w.mKnock lazyLink who name params =
      if !closed (w.net.channel chptr) then .chanOpen
      else if .secret ∈ (w.net.channel chptr).mode.mode ∨ (w.checkClient chptr who address).holds then
        .cannotSendToChan
      else if (w.net.client who).mine ∧ w.net.currentTime < w.lastKnock who + w.config.knockDelay then
        .tooManyKnock "user"
      else if w.net.currentTime < w.lastKnockOf chptr + w.config.knockDelayChannel then .tooManyKnock "channel"
      else .sent chptr := by
  have client : (w.net.client who).status = .client := by
    rw [Chan.Client.isPerson, Bool.and_eq_true, beq_iff_eq] at person
    exact person.1
  by_cases mine : (w.net.client who).localClient = true
  · simp only [World.knockKey, World.knockAddress, mine, if_true, Option.some.injEq] at target given_ served
    subst given_
    simp only [World.mKnock, served, mine, client, World.parseKnockLocal, target, knockBanned_local person]
    rfl
  · have mine := Bool.eq_false_of_not_eq_true mine
    simp only [World.knockKey, World.knockAddress, mine, Bool.false_eq_true, if_false] at target given_ served
    obtain ⟨hub, link, -⟩ := served
    cases params with
    | nil => cases given_
    | cons sockhost keys =>
      obtain rfl : sockhost = address := Option.some.inj given_
      have notMine : (w.net.client who).mine = false := by
        rw [Chan.Client.mine, mine, Bool.false_and]
      simp only [List.tail_cons] at target
      simp [World.mKnock, hub, link, client, mine, notMine, World.parseKnockLocal, target,
        knockBanned_passed person]

/-- What `m_knock` does not serve is not delivered. -/
theorem served_of_pastBans {name : List Char} {lazyLink : Bool} {params : List (List Char)}
    (person : (w.net.client who).isPerson = true)
    (past : (w.mKnock lazyLink who name params).pastBans = true) :
    if (w.net.client who).localClient then w.config.useKnock = true
    else w.config.hub = true ∧ lazyLink = true ∧ params ≠ [] := by
  have client : (w.net.client who).status = .client := by
    rw [Chan.Client.isPerson, Bool.and_eq_true, beq_iff_eq] at person
    exact person.1
  unfold World.mKnock at past
  cases mine : (w.net.client who).localClient with
  | true =>
    rw [if_pos rfl]
    by_contra disabled
    simp [Chan.Client.mine, mine, client, Bool.eq_false_of_not_eq_true disabled, Knocked.pastBans] at past
  | false =>
    rw [if_neg Bool.false_ne_true]
    simp only [Chan.Client.mine, mine, client, Bool.false_and, Bool.false_eq_true, and_false, if_false,
      and_true] at past
    cases params with
    | nil => cases past
    | cons sockhost keys =>
      by_cases served : w.config.hub = true ∧ lazyLink = true
      · exact ⟨served.1, served.2, List.cons_ne_nil _ _⟩
      · simp [served, Knocked.pastBans] at past

/-- Without bans a KNOCK at this channel is delivered, or comes too soon, exactly if it asks for the bans. -/
theorem asks_iff {name : List Char} {lazyLink : Bool} {params : List (List Char)} {address : List Char}
    (person : (w.net.client who).isPerson = true)
    (given_ : w.knockAddress who params = some address) :
    w.Asks chptr who name lazyLink params ↔
      w.knockTarget who name (w.knockKey who params) = .ok chptr ∧
        ((w.unbanned chptr).mKnock lazyLink who name params).pastBans = true := by
  have target' (target : w.knockTarget who name (w.knockKey who params) = .ok chptr) :
      (w.unbanned chptr).knockTarget who name ((w.unbanned chptr).knockKey who params) = .ok chptr := by
    rw [unbanned_knockTarget]
    exact target
  constructor
  · rintro ⟨served, target, shut, open_⟩
    refine ⟨target, ?_⟩
    rw [mKnock_eq (w := w.unbanned chptr) person (target' target) given_ served]
    simp only [unbanned_closed, shut, Bool.not_true, Bool.false_eq_true, if_false, unbanned_mode, open_,
      unbanned_checkClient, Verdict.holds, or_self]
    split_ifs <;> rfl
  · rintro ⟨target, past⟩
    have served := served_of_pastBans (w := w.unbanned chptr) person past
    rw [mKnock_eq (w := w.unbanned chptr) person (target' target) given_ served] at past
    refine ⟨served, target, ?_, ?_⟩
    · by_contra open_
      simp [Bool.eq_false_of_not_eq_true open_, Knocked.pastBans] at past
    · intro secret
      rw [unbanned_closed, unbanned_mode] at past
      rw [if_pos (Or.inl secret)] at past
      split_ifs at past <;> cases past

/-- A KNOCK that asks is refused because of an exception, too. -/
theorem cannotSend_iff {name : List Char} {lazyLink : Bool} {params : List (List Char)} {address : List Char}
    (person : (w.net.client who).isPerson = true) (given_ : w.knockAddress who params = some address)
    (asks : w.Asks chptr who name lazyLink params) :
    w.mKnock lazyLink who name params = .cannotSendToChan ↔
      w.Banned chptr who address ∨ w.Excepted chptr who address := by
  obtain ⟨served, target, shut, open_⟩ := asks
  rw [mKnock_eq person target given_ served, ← checkClient_holds]
  simp only [shut, Bool.not_true, Bool.false_eq_true, if_false, open_, false_or]
  split_ifs <;> simp_all

/-- Bans and exceptions mean the same to JOIN, to those who speak and to KNOCK, unless a KNOCK asks about a client that
an exception lets through. -/
theorem same_bans_iff (w : World) (chptr : ChannelId) (who : ClientId)
    (person : (w.net.client who).isPerson = true) (key name : List Char) (lazyLink : Bool)
    (params : List (List Char)) :
    w.SameBans chptr who key name lazyLink params ↔
      ¬(w.Asks chptr who name lazyLink params ∧
        ∃ address, w.knockAddress who params = some address ∧ w.Excepted chptr who address) := by
  constructor
  · rintro same ⟨asks, address, given_, excepted⟩
    obtain ⟨target, past⟩ := (asks_iff person given_).mp asks
    have refused := (cannotSend_iff person given_ asks).mpr (.inr excepted)
    exact not_banned_of_excepted excepted ((same.knock target past address given_).mp refused)
  · intro fine
    refine ⟨fun _ => canJoin_banned_iff key, fun mine quiet => canSend_no_iff person mine quiet, ?_⟩
    intro target past address given_
    have asks := (asks_iff person given_).mpr ⟨target, past⟩
    rw [cannotSend_iff person given_ asks, or_iff_left]
    exact fun excepted => fine ⟨asks, address, given_, excepted⟩

end

/-- Somebody local, and a channel with `+i`, a ban on everybody and an exception for those with this nick. -/
def invitedOnly : World where
  net :=
    { Chan.smallNetwork with
      channel := fun chptr =>
        { Chan.smallNetwork.channel chptr with
          chname := ['#', 'a']
          mode := { Chan.noMode with mode := {.inviteOnly} }
          banlist := [⟨['*', '!', '*', '@', '*'], [], 0⟩]
          exceptlist := [⟨['c', '!', '*', '@', '*'], [], 0⟩]
          chname_len := Chan.hashA_length }
      globalChannelList := [0] }
  config := ⟨true, true, true, true, 0, 0, false, false⟩
  sockhost := fun _ => ['1']
  ipSpoof := fun _ => false
  invited := fun _ => []
  lastKnock := fun _ => 0
  lastKnockOf := fun _ => 0
  resv := fun _ => false

/-- The exception lets the client join and speak, but not knock. -/
theorem knock_excepted :
    ¬∀ (w : World) (chptr : ChannelId) (who : ClientId), (w.net.client who).isPerson = true →
      ∀ (key name : List Char) (lazyLink : Bool) (params : List (List Char)),
        w.SameBans chptr who key name lazyLink params := by
  intro always
  have same := always invitedOnly 0 3 (by decide) [] ['#', 'a'] false []
  have banned := (same.knock rfl (by decide) ['1'] rfl).mp (by decide)
  exact (banned.2 rfl _ (List.mem_singleton_self _)).1 (by decide)

theorem same_bans_invitedOnly : ¬invitedOnly.SameBans 0 3 [] ['#', 'a'] false [] := by
  rw [same_bans_iff invitedOnly 0 3 (by decide) [] ['#', 'a'] false [], not_not]
  refine ⟨⟨rfl, rfl, by decide, by decide⟩, ['1'], rfl, ?_⟩
  exact ⟨⟨_, List.mem_singleton_self _, .inl (by decide)⟩, rfl, _, List.mem_singleton_self _, .inl (by decide)⟩

end Ircd.Bans
