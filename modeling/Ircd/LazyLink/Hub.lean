import Ircd.Lib.Herald
import Ircd.Channel.State

/-!
# The hub and one lazy leaf

What a hub tells a leaf that is linked with LazyLinks, and when: `client_burst_if_needed`, `ll_burst_channel` and
what they call in `src/s_serv.c`, `ts_burst_client` of `src/s_user.c`, `ts_burst_channel` of `src/channel.c` and the
part of `ms_sjoin` about LazyLinks. A line to the leaf is what it introduces or whom it names.
-/
namespace Ircd.LazyLink

open Chan (ClientId ChannelId Rank)

/-- A word of `lazyLinkClientExists`, `lazyLinkChannelExists` and `serverMask`, of which 32 bits are used. -/
abbrev Mask := BitVec 32

/-- `struct Client`. `live` is whether the block is in use, `hasId` is `HasID`, `umodes` is whether `send_umode`
leaves something in the buffer. -/
structure Client where
  live : Bool
  source : ClientId
  person : Bool
  hasId : Bool
  umodes : Bool
  lazyLinkClientExists : Mask

/-- `struct Channel`. -/
structure Channel where
  chname : List Char
  rootChptr : Option ChannelId
  members : Rank → List ClientId
  lazyLinkChannelExists : Mask

/-- The link to the leaf. -/
structure Leaf where
  self : ClientId
  serverMask : Mask
  myConnect : Bool
  capLL : Bool
  capUID : Bool

/-- A line to the leaf: `NICK`, `CLIENT`, `MODE` of a user, and `SJOIN`, which a long list of members spreads over
several lines. -/
inductive Line where
  | nick (who : ClientId)
  | client (who : ClientId)
  | umode (who : ClientId)
  | sjoin (who : List ClientId)
deriving DecidableEq

/-- `hub` is `ServerInfo.hub`. `ConfigFileEntry.hub` is another variable, which is never set. -/
structure Hub where
  hub : Bool
  configHub : Bool
  client : ClientId → Client
  channel : ChannelId → Channel
  nextClient : ClientId
  leaf : Leaf
  sent : List Line

namespace Hub

variable (s : Hub)

def send (lines : List Line) : Hub := { s with sent := s.sent ++ lines }

/-- The leaf knows the client: its bit is set. -/
def Knows (who : ClientId) : Prop := (s.client who).lazyLinkClientExists &&& s.leaf.serverMask ≠ 0

instance (who : ClientId) : Decidable (s.Knows who) := inferInstanceAs (Decidable (_ ≠ _))

/-- The client is behind the leaf. -/
def Behind (who : ClientId) : Prop := (s.client who).source = s.leaf.self

instance (who : ClientId) : Decidable (s.Behind who) := inferInstanceAs (Decidable (_ = _))

/-- `RootChan`. -/
def rootChan (chptr : ChannelId) : ChannelId := (s.channel chptr).rootChptr.getD chptr

/-- The leaf knows the channel. -/
def KnowsChannel (chptr : ChannelId) : Prop :=
  (s.channel (s.rootChan chptr)).lazyLinkChannelExists &&& s.leaf.serverMask ≠ 0

instance (chptr : ChannelId) : Decidable (s.KnowsChannel chptr) := inferInstanceAs (Decidable (_ ≠ _))

/-- `add_lazylinkclient`. -/
def addLazylinkclient (who : ClientId) : Hub :=
  { s with client := Function.update s.client who { s.client who with
      lazyLinkClientExists := (s.client who).lazyLinkClientExists ||| s.leaf.serverMask } }

/-- `add_lazylinkchannel`, up to `lazylink_channels`. -/
def addLazylinkchannel (chptr : ChannelId) : Hub :=
  { s with channel := Function.update s.channel chptr { s.channel chptr with
      lazyLinkChannelExists := (s.channel chptr).lazyLinkChannelExists ||| s.leaf.serverMask } }

/-- The line that introduces a client. -/
def introduction (who : ClientId) : Line :=
  if (s.client who).hasId ∧ s.leaf.capUID then .client who else .nick who

/-- `sendnick_TS`. -/
def sendnickTS (who : ClientId) : Hub := if (s.client who).person then s.send [s.introduction who] else s

/-- `ts_burst_client`. -/
def burstClient (who : ClientId) : Hub :=
  let sent := s.send [s.introduction who]
  if (s.client who).umodes then sent.send [.umode who] else sent

/-- `client_burst_if_needed`. -/
def clientBurstIfNeeded (target : ClientId) : Hub :=
  if s.hub = false then s
  else if s.leaf.myConnect = false then s
  else if s.leaf.capLL = false then s
  else if (s.client target).lazyLinkClientExists &&& s.leaf.serverMask = 0 then
    (s.sendnickTS target).addLazylinkclient target
  else s

/-- The body of the loop of `burst_ll_members`. -/
def burstMember (target : ClientId) : Hub :=
  if (s.client target).lazyLinkClientExists &&& s.leaf.serverMask = 0 then
    if (s.client target).source ≠ s.leaf.self then
      ((s.addLazylinkclient target).burstClient target).sendnickTS target
    else s
  else s

/-- `burst_ll_members`. -/
def burstLlMembers (list : List ClientId) : Hub := list.foldl burstMember s

/-- `send_members`. -/
def sendMembers (list : List ClientId) : Hub := if list = [] then s else s.send [.sjoin list]

/-- `ts_burst_channel`, up to the lists of masks. -/
def burstChannel (chptr : ChannelId) : Hub :=
  let ch := s.channel chptr
  if ch.chname.head? = some '#' then
    [Rank.chanop, .chanopVoiced, .halfop, .voiced, .peon].foldl (fun s r => s.sendMembers (ch.members r)) s
  else s

/-- `ll_burst_channel`. -/
def llBurstChannel (chptr : ChannelId) : Hub :=
  let ch := s.channel chptr
  let introduced := [Rank.chanop, .chanopVoiced, .voiced, .halfop, .peon].foldl
    (fun s r => s.burstLlMembers (ch.members r)) s
  (introduced.burstChannel chptr).addLazylinkchannel chptr

/-- What the loop of `ms_sjoin` over the nicks adds up: the hub, the nicks in the buffer, and `people`. -/
structure NickLoop where
  hub : Hub
  nicks : List ClientId
  people : ℕ

/-- One nick of a SJOIN from `clientP`, where `find_client` finds `found` for it. -/
def nickStep (clientP : ClientId) (chptr : ChannelId) (l : NickLoop) (found : Option ClientId) : NickLoop :=
  match found with
  | none => l
  | some target =>
    -- it is in the buffer before it is looked at
    let l := { l with nicks := l.nicks ++ [target] }
    if (l.hub.client target).source ≠ clientP then l
    else if (l.hub.client target).person = false then l
    else
      let l := { l with people := l.people + 1 }
      if l.hub.hub = false then l
      else if clientP = l.hub.leaf.self then l
      else if l.hub.leaf.capLL = false then l
      else if ¬ l.hub.KnowsChannel chptr then l
      else if ¬ l.hub.Knows target then { l with hub := (l.hub.sendnickTS target).addLazylinkclient target }
      else l

/-- `ms_sjoin` from the loop over the nicks on, up to the members that it adds. -/
def msSjoin (clientP : ClientId) (chptr : ChannelId) (found : List (Option ClientId)) : Hub :=
  let l := found.foldl (nickStep clientP chptr) ⟨s, [], 0⟩
  if l.people = 0 then l.hub
  else if l.hub.leaf.self = clientP then l.hub
  else if l.hub.hub ∧ l.hub.leaf.capLL ∧ ¬ l.hub.KnowsChannel chptr then l.hub
  else l.hub.send [.sjoin l.nicks]

end Hub

/-! ### What can happen -/

/-- `ll_burst_channel`, `client_burst_if_needed` and `ms_sjoin`, and what goes on besides them: clients come, register
and go, channels change, and other leaves are told of clients. -/
inductive Event where
  | arrive (client : Client)
  | register (who : ClientId)
  | exit (who : ClientId)
  | channels (channel : ChannelId → Channel)
  | others (exists_ : ClientId → Mask)
  | llBurstChannel (chptr : ChannelId)
  | clientBurstIfNeeded (target : ClientId)
  | msSjoin (clientP : ClientId) (chptr : ChannelId) (found : List (Option ClientId))

/-- A new client gets the next block. `nick_from_server` and `client_from_server` mark the clients of a leaf, if
`ConfigFileEntry.hub` is set. -/
def Hub.arrive (s : Hub) (client : Client) : Hub :=
  let came := { s with client := Function.update s.client s.nextClient client, nextClient := s.nextClient + 1 }
  if s.configHub ∧ s.leaf.capLL ∧ client.source = s.leaf.self then came.addLazylinkclient s.nextClient else came

def Hub.step (s : Hub) : Event → Hub
  | .arrive client => s.arrive client
  | .register who => { s with client := Function.update s.client who { s.client who with person := true } }
  | .exit who =>
    { s with
      client := Function.update s.client who { s.client who with live := false, person := false }
      channel := fun c => { s.channel c with members := fun r => ((s.channel c).members r).filter (· ≠ who) } }
  | .channels channel => { s with channel := channel }
  | .others exists_ =>
    { s with client := fun who => { s.client who with lazyLinkClientExists := exists_ who } }
  | .llBurstChannel chptr => s.llBurstChannel chptr
  | .clientBurstIfNeeded target => s.clientBurstIfNeeded target
  | .msSjoin clientP chptr found => s.msSjoin clientP chptr found

/-- A new client is not marked, members are persons, no two leaves share a mask, and what is looked up is there. -/
def Event.Called (s : Hub) : Event → Prop
  | .arrive client => client.live = true ∧ client.lazyLinkClientExists = 0
  | .register who => (s.client who).live = true ∧ (s.client who).person = false
  | .exit _ => True
  | .channels channel => ∀ c r, ∀ who ∈ (channel c).members r, (s.client who).person = true ∧ who < s.nextClient
  | .others exists_ =>
    ∀ who, exists_ who &&& s.leaf.serverMask = (s.client who).lazyLinkClientExists &&& s.leaf.serverMask
  | .llBurstChannel _ => True
  | .clientBurstIfNeeded target => (s.client target).live = true ∧ target < s.nextClient
  | .msSjoin _ _ found => ∀ who, some who ∈ found → (s.client who).live = true ∧ who < s.nextClient

/-- A leaf that has just been linked: no client is marked for it. -/
structure Hub.Fresh (s : Hub) : Prop where
  hub : s.hub = true
  mask : s.leaf.serverMask ≠ 0
  capLL : s.leaf.capLL = true
  myConnect : s.leaf.myConnect = true
  sent : s.sent = []
  unknown : ∀ who, ¬ s.Knows who
  live : ∀ who, (s.client who).person = true → (s.client who).live = true
  members : ∀ c r, ∀ who ∈ (s.channel c).members r, (s.client who).person = true ∧ who < s.nextClient

/-- Every event of the run has the property in the state in which it happens. -/
def Hub.Along (P : Hub → Event → Prop) (s : Hub) : List Event → Prop
  | [] => True
  | e :: events => P s e ∧ (s.step e).Along P events

end Ircd.LazyLink
