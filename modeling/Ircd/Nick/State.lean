import Ircd.Channel.State
import Ircd.Lib.Chain

/-!
# The clients of a server

The state that the nick and kill code of one server works on: the clients, the hash tables that
find them by name and by id, and what has been sent to other servers. LazyLinks, channels, replies to
clients and lines about servers that leave are left out, and a send does not fail.
-/
namespace Ircd.Nick

open Chan (ClientId Status hostLen userLen)

/-- `NICKLEN`. -/
def nickLen : ℕ := 9 + 1

def realLen : ℕ := 50

/-! ### User modes -/

/-- The bits of `umodes`. -/
inductive Umode where
  | admin
  | bots
  | cconn
  | debug
  | full
  | callerid
  | invisible
  | skill
  | locops
  | nchange
  | oper
  | persistant
  | rej
  | servnotice
  | unauth
  | wallop
  | external
  | spy
  | operwall
deriving DecidableEq

/-- `user_modes`. -/
def userModes : List (Umode × Char) :=
  [(.admin, 'a'), (.bots, 'b'), (.cconn, 'c'), (.debug, 'd'), (.full, 'f'), (.callerid, 'g'),
    (.invisible, 'i'), (.skill, 'k'), (.locops, 'l'), (.nchange, 'n'), (.oper, 'o'),
    (.persistant, 'p'), (.rej, 'r'), (.servnotice, 's'), (.unauth, 'u'), (.wallop, 'w'),
    (.external, 'x'), (.spy, 'y'), (.operwall, 'z')]

/-- `user_modes_from_c_to_bitmask`. -/
def umodeOfLetter (c : Char) : Option Umode := (userModes.find? (·.2 = c)).map Prod.fst

/-- `SEND_UMODES`. -/
def sendUmodes : Finset Umode := {.invisible, .oper, .wallop, .admin, .persistant}

/-! ### Clients -/

/-- `struct Client`. Of `struct User` there is the id, which may be empty; `source` is the link the
client lies behind (`from`). -/
structure Client where
  name : List Char
  username : List Char
  host : List Char
  info : List Char
  status : Status
  user : Option (List Char)
  servptr : Option ClientId
  source : ClientId
  localClient : Bool
  tsinfo : ℤ
  umodes : Finset Umode
  hopcount : ℤ
  dead : Bool
  killed : Bool
  lastNickChange : ℤ
  numberOfNickChanges : ℤ
  name_len : name.length ≤ hostLen
  username_len : username.length ≤ userLen
  host_len : host.length ≤ hostLen
  info_len : info.length ≤ realLen

/-- What `memset` and `make_client` leave in a fresh block. -/
def Client.made (source : ClientId) (localClient : Bool) : Client where
  name := []
  username := ['u', 'n', 'k', 'n', 'o', 'w', 'n']
  host := []
  info := []
  status := .unknown
  user := none
  servptr := none
  source := source
  localClient := localClient
  tsinfo := 0
  umodes := ∅
  hopcount := 0
  dead := false
  killed := false
  lastNickChange := 0
  numberOfNickChanges := 0
  name_len := Nat.zero_le _
  username_len := by decide
  host_len := Nat.zero_le _
  info_len := Nat.zero_le _

/-- `strcpy` to the name. -/
def Client.setName (client : Client) (name : List Char) : Client :=
  { client with name := name.take hostLen, name_len := List.length_take_le _ _ }

/-- `strlcpy` to the user name. -/
def Client.setUsername (client : Client) (username : List Char) : Client :=
  { client with username := username.take userLen, username_len := List.length_take_le _ _ }

/-- `strlcpy` to the host. -/
def Client.setHost (client : Client) (host : List Char) : Client :=
  { client with host := host.take hostLen, host_len := List.length_take_le _ _ }

/-- `strlcpy` to the real name. -/
def Client.setInfo (client : Client) (info : List Char) : Client :=
  { client with info := info.take realLen, info_len := List.length_take_le _ _ }

/-- `IsPerson`. -/
def Client.isPerson (client : Client) : Bool := client.status == .client && client.user.isSome

/-- `MyClient`. -/
def Client.mine (client : Client) : Bool := client.localClient && client.status == .client

/-- `HasID`. -/
def Client.hasId (client : Client) : Bool :=
  client.status != .server && client.user.any (· != [])

/-- The id in `struct User`. -/
def Client.id (client : Client) : List Char := client.user.getD []

/-! ### Lines -/

inductive Command where
  | nick
  | client
  | mode
  | kill
  | quit
deriving DecidableEq

/-- A line to another server: the prefix, if there is one, and the parameters. The reasons of
`KILL` and `QUIT` are left out. -/
structure Message where
  sender : List Char
  command : Command
  params : List (List Char)
deriving DecidableEq

/-- The parameters as they are read: an empty one in the middle of a line is not seen. -/
def asRead (middle : List (List Char)) (last : List Char) : List (List Char) :=
  middle.filter (· ≠ []) ++ [last]

/-! ### The server -/

/-- What becomes of somebody whose registration is complete: a cookie or the auth module is waited
for, the configuration rejects the client, or accepts it under a user name. -/
inductive Registration where
  | waits
  | rejected
  | accepted (username : List Char)

/-- An entry of `WHOWAS`. -/
structure Whowas where
  name : List Char
  logoff : ℤ
  online : Option ClientId
deriving DecidableEq

/-- One server. `me` is its own client. `nextClient` is the block the next client is put in, `ubuf`
the static buffer of `ts_burst_client`, and `whowas` has the latest entry first; `findNickResv`,
`register` and `idGet` say what the configuration and the generator of ids decide. -/
structure State where
  me : ClientId
  currentTime : ℤ
  client : ClientId → Client
  nextClient : ClientId
  clientTable : ChainTable ClientId
  idTable : ChainTable ClientId
  globalClientList : List ClientId
  servList : List ClientId
  hasUid : ClientId → Bool
  sent : List (ClientId × Message)
  ubuf : List Char
  whowas : List Whowas
  antiNickFlood : Bool
  noOperFlood : Bool
  maxNickTime : ℤ
  maxNickChanges : ℤ
  findNickResv : List Char → Bool
  register : ClientId → Registration
  idGet : ℕ → List Char
  idCount : ℕ

def State.setClient (s : State) (who : ClientId) (client : Client) : State :=
  { s with client := Function.update s.client who client }

@[simp]
theorem State.client_setClient_self (s : State) (who : ClientId) (client : Client) :
    (s.setClient who client).client who = client := Function.update_self ..

theorem State.client_setClient_of_ne (s : State) {who c : ClientId} (other : c ≠ who)
    (client : Client) : (s.setClient who client).client c = s.client c :=
  Function.update_of_ne other ..

@[simp]
theorem State.setClient_setClient (s : State) (who : ClientId) (first second : Client) :
    (s.setClient who first).setClient who second = s.setClient who second := by
  simp [State.setClient]

/-- `sendto_one`, to a server. -/
def State.sendtoOne (s : State) (link : ClientId) (m : Message) : State :=
  { s with sent := s.sent ++ [(link, m)] }

/-- `sendto_server`: a line to all servers, less the one that `one` lies behind. -/
def State.sendtoServer (s : State) (one : Option ClientId) (m : Message) : State :=
  { s with sent := s.sent ++ (s.servList.filter fun link =>
      one.all fun one => link ≠ (s.client one).source).map fun link => (link, m) }

/-! ### Hash tables -/

/-- `hash_nick_name`, in 32 bits: `h * 16 - (h + c)`. -/
def hashNickName (name : List Char) : ℕ :=
  name.foldl (fun h c => (15 * h + (2 ^ 32 - (toLower c).toNat)) % 2 ^ 32) 0 % 65536

/-- `hash_id`. -/
def hashId (name : List Char) : ℕ :=
  name.foldl (fun h c => (15 * h + (2 ^ 32 - c.toNat)) % 2 ^ 32) 0 % 65536

/-- `add_to_client_hash_table`. -/
def State.addToClientHashTable (s : State) (name : List Char) (who : ClientId) : State :=
  { s with clientTable := s.clientTable.add (hashNickName name) who }

/-- `del_from_client_hash_table`. A walk of more steps than there are blocks does not end. -/
def State.delFromClientHashTable (s : State) (name : List Char) (who : ClientId) : Option State :=
  (s.clientTable.delete s.nextClient (hashNickName name) who).map fun table =>
    { s with clientTable := table }

/-- `add_to_id_hash_table`. -/
def State.addToIdHashTable (s : State) (id : List Char) (who : ClientId) : State :=
  { s with idTable := s.idTable.add (hashId id) who }

/-- `del_from_id_hash_table`. -/
def State.delFromIdHashTable (s : State) (id : List Char) (who : ClientId) : Option State :=
  (s.idTable.delete s.nextClient (hashId id) who).map fun table => { s with idTable := table }

/-- `find_id`. -/
def State.findId (s : State) (name : List Char) : Option (Option ClientId) :=
  s.idTable.find s.nextClient (hashId name) fun who => (s.client who).user = some name

/-- `find_client`. -/
def State.findClient (s : State) (name : List Char) : Option (Option ClientId) :=
  if name.head? = some '.' then s.findId name
  else s.clientTable.find s.nextClient (hashNickName name) fun who => IrcEq name (s.client who).name

/-- A server under its name that has just started, with the defaults of the configuration, where
everybody may register. -/
def State.started (name : List Char) : State where
  me := 0
  currentTime := 1000
  client := fun _ => { Client.made 0 false with status := .me, servptr := some 0 }.setName name
  nextClient := 1
  clientTable := ChainTable.add ⟨fun _ => none, fun _ => none⟩ (hashNickName name) 0
  idTable := ⟨fun _ => none, fun _ => none⟩
  globalClientList := [0]
  servList := []
  hasUid := fun _ => false
  sent := []
  ubuf := []
  whowas := []
  antiNickFlood := false
  noOperFlood := false
  maxNickTime := 20
  maxNickChanges := 5
  findNickResv := fun _ => false
  register := fun _ => .accepted ['u', 's', 'e', 'r']
  idGet := fun n => '.' :: Nat.toDigits 10 n
  idCount := 0

/-! ### Clients that come and go -/

/-- `make_client` and `add_client_to_list`; the client is in the block `s.nextClient`. -/
def State.makeClient (s : State) (client : Client) : State :=
  { s.setClient s.nextClient client with
    nextClient := s.nextClient + 1
    globalClientList := s.nextClient :: s.globalClientList }

/-- Somebody connects. -/
def State.connect (s : State) : State := s.makeClient (Client.made s.nextClient true)

/-- A server is there, as `ms_server` adds it: behind a link, or as a link of its own. -/
def State.addServer (s : State) (link : Option ClientId) (name : List Char) : State :=
  let server := { Client.made (link.getD s.nextClient) link.isNone with
    status := .server
    servptr := some (link.getD s.me) }.setName name
  let t := (s.makeClient server).addToClientHashTable name s.nextClient
  if link.isNone then { t with servList := s.nextClient :: t.servList } else t

def nicknameHistoryLength : ℕ := 15000

/-- `add_history`. -/
def State.addHistory (s : State) (who : ClientId) (online : Bool) : State :=
  { s with whowas := (⟨(s.client who).name.take nickLen, s.currentTime,
      if online then some who else none⟩ :: s.whowas).take nicknameHistoryLength }

/-- `get_history`. -/
def State.getHistory (s : State) (nick : List Char) (timelimit : ℤ) : Option ClientId :=
  (s.whowas.find? fun entry =>
    IrcEq nick entry.name ∧ s.currentTime - timelimit ≤ entry.logoff).bind Whowas.online

/-- `remove_client_from_list`. -/
def State.removeClientFromList (s : State) (who : ClientId) : State :=
  { s.setClient who { s.client who with dead := true } with
    globalClientList := s.globalClientList.erase who }

/-- What `exit_one_client` does for a person: the other servers are told, unless they know, and the
id goes. A person without a name keeps its place in the id table. -/
def State.exitPerson (s : State) (clientP : Option ClientId) (who : ClientId) : Option State :=
  let client := s.client who
  if client.isPerson = true ∧ client.name ≠ [] then
    let s := if client.killed then s else s.sendtoServer clientP ⟨client.name, .quit, []⟩
    if client.hasId then s.delFromIdHashTable client.id who else some s
  else some s

/-- `exit_one_client`. The server itself is never removed. -/
def State.exitOneClient (s : State) (clientP : Option ClientId) (who : ClientId) : Option State :=
  let client := s.client who
  if client.status = .me then some s
  else do
    let s ← s.exitPerson clientP who
    let s ← s.delFromClientHashTable client.name who
    some (s.removeClientFromList who)

/-- The clients that depend on a server, in the order in which `recurse_remove_clients` exits
them: the servers behind it, each after those that depend on it, then its users. -/
def State.dependents (s : State) : ℕ → ClientId → List ClientId
  | 0, _ => []
  | n + 1, server =>
    ((s.globalClientList.filter fun c =>
      (s.client c).status = .server ∧ (s.client c).servptr = some server).flatMap fun c =>
        s.dependents n c ++ [c]) ++
      s.globalClientList.filter fun c =>
        (s.client c).status = .client ∧ (s.client c).servptr = some server

/-- One round of `recurse_remove_clients`. -/
def State.exitDependent (s : State) (who : ClientId) : Option State :=
  (s.setClient who { s.client who with killed := true }).exitOneClient none who

/-- What `exit_client` does before anybody is removed: the client is marked, and nothing is sent to
it any more. -/
def State.closing (s : State) (who : ClientId) : State :=
  { s.setClient who { s.client who with dead := true } with
    servList := if (s.client who).localClient then s.servList.erase who else s.servList }

/-- `exit_client`. -/
def State.exitClient (s : State) (clientP : Option ClientId) (who : ClientId) : Option State :=
  if (s.client who).dead then some s
  else if (s.client who).status = .server then do
    let s := s.closing who
    let s ← (s.dependents s.nextClient who).foldlM State.exitDependent s
    s.exitOneClient clientP who
  else (s.closing who).exitOneClient clientP who

end Ircd.Nick
