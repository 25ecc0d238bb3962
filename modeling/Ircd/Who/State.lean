import Ircd.Routing.ClientTable
import Ircd.Channel.State

/-!
# Who is on which channel

What `modules/m_who.c` and `modules/m_whois.c` read: the clients with their flags, the channels with their member lists,
and `user->channel`, the channels of a client in their order. There are no virtual channels.
-/
namespace Ircd.Who

open Ircd.Chan (ircMatch Rank SimpleMode)
open Ircd.Routing (ClientId)

/-- The address of a `struct Channel`. -/
abbrev ChannelId := ℕ

/-- `struct User`, without the channels. -/
structure User where
  away : Option (List Char)
  last : ℤ

/-- What `struct Client` has besides name, status and link. -/
structure Detail where
  username : List Char
  host : List Char
  info : List Char
  servptr : ClientId
  hopcount : ℕ
  oper : Bool
  admin : Bool
  invisible : Bool
  firsttime : ℤ
  user : Option User

/-- `struct Channel`. -/
structure Channel where
  chname : List Char
  mode : Finset SimpleMode
  members : Rank → List ClientId

/-- `SecretChannel`. -/
def Channel.secret (c : Channel) : Bool := decide (.secret ∈ c.mode)

/-- `PubChannel`. -/
def Channel.pub (c : Channel) : Bool := decide (.paranoid ∉ c.mode ∧ .secret ∉ c.mode)

/-- The clients and channels of a network, and what the configuration says about its servers. `channels` is
`user->channel`. A channel is in the list of those, and only those, who are in its member lists, and they are people on
`GlobalClientList`. `lazyLeaf` is a server that
is no hub and has a lazy uplink. -/
structure Network extends Routing.Table where
  detail : ClientId → Detail
  channels : ClientId → List ChannelId
  channel : ChannelId → Channel
  channelTable : List ChannelId
  hideServers : Bool
  networkName : List Char
  networkDesc : List Char
  currentTime : ℤ
  lazyLeaf : Bool
  hashed : ∀ who, who ∈ clientTable ∨ who ∈ idTable → who ∈ globalClientList
  named : ∀ c ∈ channelTable, ∀ d ∈ channelTable, IrcEq (channel c).chname (channel d).chname → c = d
  exists_ : ∀ who, ∀ c ∈ channels who, c ∈ channelTable
  linked : ∀ who, ∀ c ∈ channelTable, c ∈ channels who ↔ ∃ rank, who ∈ (channel c).members rank
  people : ∀ c ∈ channelTable, ∀ rank, ∀ who ∈ (channel c).members rank,
    (client who).status = .client ∧ (detail who).user.isSome ∧ who ∈ globalClientList

namespace Network

variable (net : Network) (source target : ClientId)

/-- `IsPerson`. -/
def isPerson : Bool := (net.client target).status = .client ∧ (net.detail target).user.isSome

/-- `IsMember`. -/
def isMember (chptr : ChannelId) : Bool := decide (chptr ∈ net.channels target)

/-- `hash_find_channel`. -/
def hashFindChannel (name : List Char) : Option ChannelId :=
  net.channelTable.find? fun c => IrcEq name (net.channel c).chname

/-- The member lists of a client's channels, in the order of the channels. -/
def memberLists : List (List ClientId) :=
  (net.channels source).flatMap fun c => Rank.all.map (net.channel c).members

/-- They are on a channel together. -/
def Together : Prop := ∃ c ∈ net.channels source, c ∈ net.channels target

variable {net source target}

end Network

end Ircd.Who
