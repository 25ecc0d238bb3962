import Ircd.Channel.Membership
import Ircd.Lib.Walk

/-!
# Sending to many

The senders of `src/send.c` that walk a list, and what happens when a message cannot be queued: the
client is exited on the spot (`src/client.c`), in the middle of the walk. LazyLinks and notices to operators are
left out, and a link that splits is announced to the other links as to one that has `CAP_QS` and sees
all names. A walk that stands on a node that is freed ends, as it does as long as the node is not
taken for another list.
-/
namespace Ircd.Send

open Chan (ClientId ChannelId Rank Lists)

/-- `struct Client`. `source` is `from`, `fd` says that `localClient->fd` is open, `caps` are those of
`localClient`, and `users` are the people behind a server in the order in which
`recurse_remove_clients` takes them. -/
structure Client where
  source : Option ClientId
  localClient : Bool
  server : Bool
  registeredUser : Bool
  fd : Bool
  dead : Bool
  serial : ℕ
  caps : ℕ
  channel : List ChannelId
  users : List ClientId

/-- `struct Channel`. -/
structure Channel where
  chname : List Char
  members : Lists
  locMembers : Lists

/-- The messages: the one that is sent to many, as clients and as servers see it, and those about clients that
are exited on the way. -/
inductive Msg where
  | toClient
  | toServer
  | quit (who : ClientId)
  | squit (who : ClientId)
deriving DecidableEq

/-- How an attempt to queue a message ends. -/
inductive Outcome where
  | queued
  | writeError
  | sendqExceeded
deriving DecidableEq

/-- One server. `outcomes` are those of the attempts to come; when there are no more, all is well.
`queued` has what has been attached to some queue. -/
structure State where
  client : ClientId → Client
  channel : ChannelId → Channel
  servList : List ClientId
  lclientList : List ClientId
  currentSerial : ℕ
  outcomes : List Outcome
  queued : List (ClientId × Msg)

def State.setClient (s : State) (who : ClientId) (client : Client) : State :=
  { s with client := Function.update s.client who client }

/-- `target_p->serial = current_serial`. -/
def State.stamp (s : State) (who : ClientId) : State :=
  s.setClient who { s.client who with serial := s.currentSerial }

/-- `++current_serial`. -/
def State.nextSerial (s : State) : State := { s with currentSerial := s.currentSerial + 1 }

/-- `a->from ? a->from : a`. -/
def State.route (s : State) (who : ClientId) : ClientId := ((s.client who).source).getD who

def State.attach (s : State) (dest : ClientId) (msg : Msg) : State :=
  { s with queued := s.queued ++ [(dest, msg)] }

/-- `_send_linebuf`. -/
abbrev Sender := State → ClientId → Msg → Option State

/-! ### Local members -/

/-- `sendto_list_local`. -/
def sendtoListLocal (send : Sender) (chptr : ChannelId) (msg : Msg) (s : State) (r : Rank) :
    Option State :=
  walkAll (fun s => (s.channel chptr).locMembers r)
    (fun s target =>
      if (s.client target).localClient = false ∨ (s.client target).fd = false then some s
      else if (s.client target).serial = s.currentSerial then some s
      else send (s.stamp target) (s.route target) msg) s

/-- `sendto_common_channels_local`. -/
def sendtoCommonChannelsLocal (send : Sender) (s : State) (user : ClientId) (msg : Msg) :
    Option State :=
  (((s.client user).channel.flatMap fun chptr => Rank.all.map fun r => (chptr, r)).foldlM
      (fun s place => sendtoListLocal send place.1 msg s place.2) s.nextSerial).bind fun s =>
    if (s.client user).localClient ∧ (s.client user).serial ≠ s.currentSerial then
      send s (s.route user) msg
    else some s

/-! ### Clients that exit -/

/-- `remove_user_from_channel`, for the lists. -/
def Channel.removeUser (ch : Channel) (who : ClientId) (mine : Bool) : Channel :=
  match ch.members.find [.peon, .chanop, .chanopVoiced, .voiced, .halfop] who with
  | none => ch
  | some r =>
    { ch with
      members := ch.members.delete r who
      locMembers :=
        match mine, ch.locMembers.find [.peon, .chanop, .voiced, .halfop, .chanopVoiced] who with
        | true, some r => ch.locMembers.delete r who
        | _, _ => ch.locMembers }

/-- A client leaves a channel. -/
def State.removeUserFromChannel (s : State) (who : ClientId) (chptr : ChannelId) : State :=
  let client := s.client who
  let mine := client.localClient && client.registeredUser
  let s := { s with
    channel := Function.update s.channel chptr ((s.channel chptr).removeUser who mine) }
  s.setClient who { client with channel := client.channel.erase chptr }

/-- `sendto_server`. -/
def sendtoServer (send : Sender) (s : State) (one : Option ClientId) (chptr : Option ChannelId)
    (caps nocaps : ℕ) (msg : Msg) : Option State :=
  if (chptr.bind fun c => (s.channel c).chname.head?) = some '&' then some s
  else
    walkAll State.servList
      (fun s dest =>
        if (one.bind fun c => (s.client c).source) = some dest then some s
        else if (s.client dest).caps &&& caps ≠ caps then some s
        else if (s.client dest).caps &&& nocaps ≠ 0 then some s
        else send s (s.route dest) msg) s

/-- `exit_one_client`, for a person. -/
def exitOneClient (send : Sender) (s : State) (one : Option ClientId) (killed : Bool)
    (who : ClientId) : Option State :=
  (if killed then some s else sendtoServer send s one none 0 0 (.quit who)).bind fun s =>
    (sendtoCommonChannelsLocal send s who (.quit who)).map fun s =>
      let s := (s.client who).channel.foldl (fun s chptr => s.removeUserFromChannel who chptr) s
      s.setClient who { s.client who with dead := true }

/-- `close_connection`, and the lists that `exit_client` takes a local client off. -/
def State.closeConnection (s : State) (who : ClientId) : State :=
  let s := s.setClient who { s.client who with dead := true, source := none, fd := false }
  if (s.client who).server then { s with servList := s.servList.erase who }
  else { s with lclientList := s.lclientList.erase who }

/-- `exit_client(to, to, &me, "Dead link")`: for a server, `remove_dependents` first. -/
def exitClient (send : Sender) (s : State) (who : ClientId) : Option State :=
  if (s.client who).dead then some s
  else
    let s := s.closeConnection who
    if (s.client who).server then
      (walkAll State.servList (fun s dest => send s (s.route dest) (.squit who)) s).bind fun s =>
        (s.client who).users.foldlM (fun s user => exitOneClient send s none true user) s
    else exitOneClient send s (some who) false who

/-- `_send_linebuf`: a client whose queue is full, or whose socket fails, is exited. -/
def sendLinebuf : ℕ → Sender
  | 0, _, _, _ => none
  | fuel + 1, s, dest, msg =>
    if (s.client dest).fd = false ∨ (s.client dest).dead then some s
    else
      let rest := { s with outcomes := s.outcomes.tail }
      match s.outcomes.head? with
      | none | some .queued => some (rest.attach dest msg)
      | some .writeError => exitClient (sendLinebuf fuel) (rest.attach dest msg) dest
      | some .sendqExceeded => exitClient (sendLinebuf fuel) rest dest

/-! ### The message to many -/

/-- The `type` of `sendto_channel_local` and `sendto_channel_remote`. -/
inductive MemberType where
  | nonChanops
  | allMembers
  | onlyChanopsHalfopsVoiced
  | onlyChanopsHalfops
  | onlyChanops
deriving DecidableEq

/-- The lists that the `switch` comes to, in its order. -/
def MemberType.ranks : MemberType → List Rank
  | .nonChanops => [.voiced, .peon]
  | .allMembers => [.peon, .voiced, .halfop, .chanop, .chanopVoiced]
  | .onlyChanopsHalfopsVoiced => [.voiced, .halfop, .chanop, .chanopVoiced]
  | .onlyChanopsHalfops => [.halfop, .chanop, .chanopVoiced]
  | .onlyChanops => [.chanop, .chanopVoiced]

/-- `sendto_channel_local`. -/
def sendtoChannelLocal (send : Sender) (s : State) (type : MemberType) (chptr : ChannelId) :
    Option State :=
  type.ranks.foldlM (sendtoListLocal send chptr .toClient) s.nextSerial

/-- `sendto_list_anywhere`. The stamp comes after the message. -/
def sendtoListAnywhere (send : Sender) (one : Option ClientId) (chptr : ChannelId) (s : State)
    (r : Rank) : Option State :=
  walkAll (fun s => (s.channel chptr).members r)
    (fun s target =>
      if (s.client target).source = one then some s
      else if (s.client target).localClient ∧ (s.client target).registeredUser then
        if (s.client target).serial ≠ s.currentSerial then
          (send s (s.route target) .toClient).map fun s => s.stamp target
        else some s
      else
        -- a client that is not local lies behind a link
        (s.client target).source.bind fun link =>
          if (s.client link).serial ≠ s.currentSerial then
            (send s (s.route target) .toServer).bind fun s =>
              (s.client target).source.map fun link => s.stamp link
          else some s) s

/-- `sendto_channel_butone`. -/
def sendtoChannelButone (send : Sender) (s : State) (one : Option ClientId) (chptr : ChannelId) :
    Option State :=
  [.chanop, .chanopVoiced, .voiced, .halfop, .peon].foldlM (sendtoListAnywhere send one chptr)
    s.nextSerial

/-- `sendto_list_remote`. Only the origin itself is skipped. -/
def sendtoListRemote (send : Sender) (one : ClientId) (caps nocaps : ℕ) (chptr : ChannelId)
    (s : State) (r : Rank) : Option State :=
  walkAll (fun s => (s.channel chptr).members r)
    (fun s target =>
      if (s.client target).localClient then some s
      else if target = one then some s
      else
        (s.client target).source.bind fun link =>
          if (s.client link).caps &&& caps ≠ caps ∨ (s.client link).caps &&& nocaps ≠ 0 then some s
          else if (s.client link).serial = s.currentSerial then some s
          else send (s.stamp link) (s.route target) .toServer) s

/-- `sendto_channel_remote`. -/
def sendtoChannelRemote (send : Sender) (s : State) (one : ClientId) (type : MemberType)
    (caps nocaps : ℕ) (chptr : ChannelId) : Option State :=
  type.ranks.foldlM (sendtoListRemote send one caps nocaps chptr) s.nextSerial

/-- `sendto_match_butone`; the local clients that match the mask are given. -/
def sendtoMatchButone (send : Sender) (s : State) (one : Option ClientId) (matchIt : ClientId → Bool) :
    Option State :=
  (walkAll State.lclientList
      (fun s client =>
        if some client = one then some s
        else if matchIt client then send s (s.route client) .toClient
        else some s) s).bind fun s =>
    walkAll State.servList
      (fun s client =>
        if some client = one then some s else send s (s.route client) .toServer) s

end Ircd.Send
