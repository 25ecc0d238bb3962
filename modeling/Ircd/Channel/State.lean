import Ircd.Text
import Mathlib.Data.Finset.Basic
import Mathlib.Tactic.NormNum
import Mathlib.Logic.Function.Basic

/-!
# Clients and channels

The state that the channel code of one server works on. Lists are in the order of the
`dlink_list`s, head first. Pointers are numbers; what a pointer points to is looked up in
the state. LazyLinks, topics, invitations and flood counters are left out.
-/
namespace Ircd.Chan

abbrev ClientId := ℕ

abbrev ChannelId := ℕ

def nickLen : ℕ := 10

def userLen : ℕ := 10

def hostLen : ℕ := 63

def channelLen : ℕ := 200

def keyLen : ℕ := 23

def bufSize : ℕ := 512

def modeBufLen : ℕ := 200

def maxModeParams : ℕ := 4

/-- The member lists of a channel. There are five for all members (`chanops`,
`chanops_voiced`, ...) and five for the local ones (`locchanops`, ...). -/
inductive Rank where
  | chanop
  | chanopVoiced
  | halfop
  | voiced
  | peon
deriving DecidableEq

def Rank.all : List Rank := [.chanop, .chanopVoiced, .halfop, .voiced, .peon]

@[simp] theorem Rank.mem_all (r : Rank) : r ∈ Rank.all := by
  cases r <;> decide

/-- The bits of `mode.mode`. -/
inductive SimpleMode where
  | paranoid
  | secret
  | moderated
  | topicLimit
  | inviteOnly
  | noPrivMsgs
  | hideOps
deriving DecidableEq

/-- The range of an `int`. -/
def InInt (n : ℤ) : Prop := -2 ^ 31 ≤ n ∧ n < 2 ^ 31

instance (n : ℤ) : Decidable (InInt n) := inferInstanceAs (Decidable (_ ∧ _))

/-- `struct Mode`. -/
@[ext]
structure Mode where
  mode : Finset SimpleMode
  limit : ℤ
  key : List Char
  limit_int : InInt limit
  key_len : key.length ≤ keyLen
deriving DecidableEq

def noMode : Mode := ⟨∅, 0, [], by decide, by decide⟩

theorem toInt_inInt (n : ℤ) : InInt (toInt n) := by
  unfold InInt toInt
  have low := @Int.le_bmod n (2 ^ 32) (by decide)
  have high := @Int.bmod_lt n (2 ^ 32) (by decide)
  norm_num at low high ⊢
  omega

/-- `strlcpy` to the key. -/
def Mode.setKey (mode : Mode) (text : List Char) : Mode :=
  { mode with key := text.take keyLen, key_len := List.length_take_le _ _ }

/-- An assignment to the limit. -/
def Mode.setLimit (mode : Mode) (value : ℤ) : Mode :=
  { mode with limit := toInt value, limit_int := toInt_inInt value }

/-- `struct Ban`. -/
structure Ban where
  banstr : List Char
  who : List Char
  when : ℤ
deriving DecidableEq

inductive Status where
  | connecting
  | handshake
  | me
  | unknown
  | server
  | client
deriving DecidableEq

/-- `struct User`. -/
structure User where
  channel : List ChannelId
  joined : ℤ
  id : List Char
deriving DecidableEq

/-- `struct Client`. The strings fit their arrays; `source` is the link it lies behind (`from`), and `vchanMap` pairs root
channels with virtual channels. -/
structure Client where
  name : List Char
  username : List Char
  host : List Char
  status : Status
  user : Option User
  source : ClientId
  localClient : Bool
  vchanMap : List (ChannelId × ChannelId)
  name_len : name.length ≤ hostLen
  username_len : username.length ≤ userLen
  host_len : host.length ≤ hostLen

/-- `struct Channel`. -/
structure Channel where
  chname : List Char
  mode : Mode
  vchanId : List Char
  users : ℤ
  locusers : ℤ
  usersLast : ℤ
  rootChptr : Option ChannelId
  vchanList : List ChannelId
  members : Rank → List ClientId
  locMembers : Rank → List ClientId
  banlist : List Ban
  exceptlist : List Ban
  invexlist : List Ban
  numMask : ℤ
  channelts : ℤ
  tsWinner : Bool
  chname_len : chname.length ≤ channelLen

/-- One server. `clientTable` has the clients that can be found by name, `globalChannelList`
the channels that exist, and `nextChannel` is the block the next channel is put in. -/
structure State where
  meName : List Char
  currentTime : ℤ
  persistTime : ℤ
  maxbans : ℤ
  useVchans : Bool
  client : ClientId → Client
  clientTable : List ClientId
  channel : ChannelId → Channel
  globalChannelList : List ChannelId
  nextChannel : ChannelId

/-! ### A small network -/

/-- A server that is directly linked. -/
def Client.server (name : List Char) (self : ClientId) : Client where
  name := name.take hostLen
  username := []
  host := []
  status := .server
  user := none
  source := self
  localClient := true
  vchanMap := []
  name_len := List.length_take_le _ _
  username_len := Nat.zero_le _
  host_len := Nat.zero_le _

/-- Somebody behind a link, on no channel. -/
def Client.person (name : List Char) (source : ClientId) (localClient : Bool) : Client where
  name := name.take hostLen
  username := ['u']
  host := ['h']
  status := .client
  user := some ⟨[], 0, []⟩
  source := source
  localClient := localClient
  vchanMap := []
  name_len := List.length_take_le _ _
  username_len := by decide
  host_len := by decide

/-- Server 0 with the people 1 and 2 behind it, and 3 who is local; there are no channels. -/
def smallNetwork : State where
  meName := ['m', 'e']
  currentTime := 1000
  persistTime := 0
  maxbans := 20
  useVchans := false
  client
    | 0 => Client.server ['s'] 0
    | 1 => Client.person ['a'] 0 false
    | 2 => Client.person ['b'] 0 false
    | who => Client.person ['c'] who true
  clientTable := [0, 1, 2, 3]
  channel := fun _ =>
    ⟨[], noMode, [], 0, 0, 0, none, [], fun _ => [], fun _ => [], [], [], [], 0, 0, false,
      Nat.zero_le _⟩
  globalChannelList := []
  nextChannel := 0

theorem hashA_length : ['#', 'a'].length ≤ channelLen := by decide

/-! ### Looking up -/

/-- `MyClient`. -/
def Client.mine (client : Client) : Bool := client.localClient && client.status == .client

/-- `IsPerson`. -/
def Client.isPerson (client : Client) : Bool := client.status == .client && client.user.isSome

/-- The channels in `user->channel`. -/
def Client.channels (client : Client) : List ChannelId := (client.user.map User.channel).getD []

/-- `IsMember`. -/
def State.isMember (s : State) (who : ClientId) (chptr : ChannelId) : Bool :=
  decide (chptr ∈ (s.client who).channels)

/-- `find_client`: by id if the text begins with a dot, by name otherwise. -/
def State.findClient (s : State) (name : List Char) : Option ClientId :=
  if name.head? = some '.' then
    s.clientTable.find? fun c => ((s.client c).user.map User.id) = some name
  else s.clientTable.find? fun c => IrcEq name (s.client c).name

/-- `hash_find_channel`. -/
def State.hashFindChannel (s : State) (name : List Char) : Option ChannelId :=
  s.globalChannelList.find? fun c => IrcEq name (s.channel c).chname

/-! ### Changing -/

def State.setChannel (s : State) (chptr : ChannelId) (ch : Channel) : State :=
  { s with channel := Function.update s.channel chptr ch }

def State.setClient (s : State) (who : ClientId) (client : Client) : State :=
  { s with client := Function.update s.client who client }

/-- What `memset` and `strcpy` leave in a fresh block. -/
def emptyChannel (chname : List Char) (now : ℤ) : Channel where
  chname := chname.take channelLen
  mode := noMode
  vchanId := []
  users := 0
  locusers := 0
  usersLast := 0
  rootChptr := none
  vchanList := []
  members := fun _ => []
  locMembers := fun _ => []
  banlist := []
  exceptlist := []
  invexlist := []
  numMask := 0
  channelts := now
  tsWinner := false
  chname_len := List.length_take_le _ _

/-- A new channel goes to the head of the list. -/
def State.create (s : State) (chname : List Char) : State :=
  { s.setChannel s.nextChannel (emptyChannel chname s.currentTime) with
    globalChannelList := s.nextChannel :: s.globalChannelList
    nextChannel := s.nextChannel + 1 }

/-- `get_or_create_channel`, with `*isnew`. A name that is too long is cut, in the hands of
the caller too. -/
def State.getOrCreateChannel (s : State) (chname : List Char) : Option (State × ChannelId × Bool) :=
  if chname = [] then none
  else
    match s.hashFindChannel (chname.take channelLen) with
    | some chptr => some (s, chptr, false)
    | none => some (s.create chname, s.nextChannel, true)

/-! ### Lemmas of the state -/

@[simp] theorem State.setChannel_channel (s : State) (chptr : ChannelId) (ch : Channel) :
    (s.setChannel chptr ch).channel chptr = ch :=
  Function.update_self ..

theorem State.setChannel_channel_ne (s : State) {chptr other : ChannelId} (ch : Channel)
    (different : other ≠ chptr) : (s.setChannel chptr ch).channel other = s.channel other :=
  Function.update_of_ne different ..

@[simp] theorem State.setChannel_client (s : State) (chptr : ChannelId) (ch : Channel) :
    (s.setChannel chptr ch).client = s.client :=
  rfl

@[simp] theorem State.setClient_client (s : State) (who : ClientId) (client : Client) :
    (s.setClient who client).client who = client :=
  Function.update_self ..

theorem State.setClient_client_ne (s : State) {who other : ClientId} (client : Client)
    (different : other ≠ who) : (s.setClient who client).client other = s.client other :=
  Function.update_of_ne different ..

@[simp] theorem State.setClient_channel (s : State) (who : ClientId) (client : Client) :
    (s.setClient who client).channel = s.channel :=
  rfl

@[simp] theorem State.setChannel_globalChannelList (s : State) (chptr : ChannelId) (ch : Channel) :
    (s.setChannel chptr ch).globalChannelList = s.globalChannelList :=
  rfl

end Ircd.Chan
