import Ircd.Channel.Mask
import Ircd.Channel.State

/-!
# Servers that split off

`exit_client` and what it calls (`src/client.c`), for the tree of servers, the lists of clients and
the messages to other servers. Channels, hash tables, counters, LazyLinks and messages to clients
are left out, and a send does not fail.
-/
namespace Ircd.Split

open Chan (ClientId Status hostLen ircMatch)

/-- `struct ConfItem` of a link. The mask is one for host names and as long as a host name at most. -/
structure Conf where
  fakename : Option (List Char)
  fakename_len : ∀ mask ∈ fakename, mask.length ≤ hostLen

/-- `struct Server`. The lists are those that go on by `lnext`. -/
structure Serv where
  servers : List ClientId
  users : List ClientId
  sconf : Option Conf

/-- `struct Client`. Of `struct User` there is only whether there is one; `source` is `from`, and `qs`
is `CAP_QS` among the capabilities. -/
structure Client where
  name : List Char
  status : Status
  user : Bool
  servptr : Option ClientId
  source : Option ClientId
  localClient : Bool
  qs : Bool
  serv : Option Serv
  dead : Bool
  killed : Bool

/-- The messages about clients that go: `":%s QUIT :%s"`, `"SQUIT %s :%s"` and `":%s SQUIT %s :%s"`. -/
inductive Msg where
  | quit (name comment : List Char)
  | squit (name comment : List Char)
  | squitFrom (sender name comment : List Char)
deriving DecidableEq

/-- One server. `me` is its own block, and `meName` the name in it. -/
structure State where
  me : ClientId
  meName : List Char
  hideServers : Bool
  networkName : List Char
  client : ClientId → Client
  globalClientList : List ClientId
  servList : List ClientId
  deadList : List ClientId
  sent : List (ClientId × Msg)

/-- `IsPerson`. -/
def Client.isPerson (client : Client) : Bool := client.status == .client && client.user

def State.setClient (s : State) (who : ClientId) (client : Client) : State :=
  { s with client := Function.update s.client who client }

/-- Where a message to a client is queued. -/
def State.route (s : State) (dest : ClientId) : ClientId := ((s.client dest).source).getD dest

/-- `sendto_one`, for several messages. -/
def State.sendtoOne (s : State) (dest : ClientId) (msgs : List Msg) : State :=
  { s with sent := s.sent ++ msgs.map fun msg => (s.route dest, msg) }

/-! ### A small network -/

def Client.server (name : List Char) (servptr source : ClientId) (localClient qs : Bool)
    (serv : Serv) : Client where
  name := name
  status := .server
  user := false
  servptr := some servptr
  source := some source
  localClient := localClient
  qs := qs
  serv := some serv
  dead := false
  killed := false

def Client.person (name : List Char) (servptr source : ClientId) : Client where
  name := name
  status := .client
  user := true
  servptr := some servptr
  source := some source
  localClient := false
  qs := false
  serv := none
  dead := false
  killed := false

/-- The mask `*.us`. -/
def maskUs : Conf where
  fakename := some ['*', '.', 'u', 's']
  fakename_len := by decide

/-- Server 0 is `h.us`. Its links are 1, `a.uk`, with 2, `b.us`, and on that the user 3 behind it, and 4,
`c.it`, which has `CAP_QS` and is not to know of the servers under `us`. -/
def smallNetwork : State where
  me := 0
  meName := ['h', '.', 'u', 's']
  hideServers := false
  networkName := []
  client
    | 0 =>
      { Client.server ['h', '.', 'u', 's'] 0 0 true false ⟨[1, 4], [], none⟩ with
        status := .me, servptr := none }
    | 1 => Client.server ['a', '.', 'u', 'k'] 0 1 true true ⟨[2], [], none⟩
    | 2 => Client.server ['b', '.', 'u', 's'] 1 1 false false ⟨[], [3], none⟩
    | 3 => Client.person ['u'] 2 1
    | 4 => Client.server ['c', '.', 'i', 't'] 0 4 true true ⟨[], [], some maskUs⟩
    | _ => { Client.person [] 0 0 with user := false, servptr := none, source := none }
  globalClientList := [1, 2, 3, 4]
  servList := [1, 4]
  deadList := []
  sent := []

/-! ### One client -/

/-- `del_client_from_llist`, from the servers below a server. -/
def Serv.delServer (serv : Serv) (who : ClientId) : Serv :=
  { serv with servers := serv.servers.erase who }

/-- `del_client_from_llist`, from the users of a server. -/
def Serv.delUser (serv : Serv) (who : ClientId) : Serv := { serv with users := serv.users.erase who }

/-- A client comes off the list of the server that it hangs on, if there is one. -/
def State.unlink (s : State) (who : ClientId) : State :=
  match (s.client who).servptr with
  | none => s
  | some server =>
    match (s.client server).serv with
    | none => s
    | some serv =>
      s.setClient server { s.client server with
        serv := some (if (s.client who).status = .server then serv.delServer who
          else serv.delUser who) }

/-- `sendto_server` to all but `one`. -/
def State.toServers (s : State) (one : Option ClientId) (msg : Msg) : List (ClientId × Msg) :=
  (s.servList.filter fun dest => (one.bind fun c => (s.client c).source) != some dest).map
    fun dest => (dest, msg)

/-- What `exit_one_client` tells other servers. -/
def State.announcement (s : State) (clientP : Option ClientId) (who sender : ClientId)
    (comment : List Char) : List (ClientId × Msg) :=
  let client := s.client who
  if client.killed then []
  else if client.status = .server then
    match client.source with
    | none => []
    | some dest =>
      if (s.client dest).status = .server ∧ clientP ≠ some dest then
        [(s.route dest, .squitFrom (s.client sender).name client.name comment)]
      else []
  else if client.isPerson ∧ client.name ≠ [] then s.toServers clientP (.quit client.name comment)
  else []

/-- `exit_one_client`. -/
def State.exitOneClient (s : State) (clientP : Option ClientId) (who sender : ClientId)
    (comment : List Char) : State :=
  let s := s.unlink who
  if (s.client who).status = .me then s
  else
    let told := s.announcement clientP who sender comment
    let s := s.setClient who { s.client who with dead := true }
    { s with
      globalClientList := s.globalClientList.erase who
      deadList := who :: s.deadList
      sent := s.sent ++ told }

/-- `flags |= FLAGS_KILLED`. -/
def State.kill (s : State) (who : ClientId) : State :=
  s.setClient who { s.client who with killed := true }

/-! ### What depends on a server -/

/-- The loop of `recurse_remove_clients` over the users. -/
def State.removeUsers (who : ClientId) (comment : List Char) : ℕ → State → Option State
  | 0, _ => none
  | fuel + 1, s =>
    match (s.client who).serv.bind fun serv => serv.users.head? with
    | none => some s
    | some target =>
      ((s.kill target).exitOneClient none target s.me comment).removeUsers who comment fuel

mutual

/-- `recurse_remove_clients`. -/
def State.recurseRemoveClients (comment : List Char) : ℕ → ClientId → State → Option State
  | 0, _, _ => none
  | fuel + 1, who, s =>
    if (s.client who).status = .me ∨ (s.client who).serv.isNone then some s
    else (State.removeServers comment fuel who s).bind fun s => s.removeUsers who comment fuel

/-- Its loop over the servers. -/
def State.removeServers (comment : List Char) : ℕ → ClientId → State → Option State
  | 0, _, _ => none
  | fuel + 1, who, s =>
    match (s.client who).serv.bind fun serv => serv.servers.head? with
    | none => some s
    | some target =>
      (State.recurseRemoveClients comment fuel target s).bind fun s =>
        State.removeServers comment fuel who
          ((s.kill target).exitOneClient none target s.me s.meName)

end

/-- `recurse_send_quits`: what is sent about a server and what is below it. -/
def State.recurseSendQuits (s : State) (qs : Bool) (mask comment : List Char) :
    ℕ → ClientId → Option (List Msg)
  | 0, _ => none
  | fuel + 1, who =>
    match (s.client who).serv with
    | none => none
    | some serv =>
      let quits := serv.users.map fun u => Msg.quit (s.client u).name comment
      let squit := Msg.squit (s.client who).name s.meName
      let below := (serv.servers.mapM (s.recurseSendQuits qs mask comment fuel)).map List.flatten
      if qs then
        -- behind its mask the link does not know the server, and gets the QUITs
        if ircMatch mask (s.client who).name then below.map fun msgs => quits ++ msgs
        else some [squit]
      else
        below.map fun msgs =>
          quits ++ msgs ++ if ircMatch mask (s.client who).name then [] else [squit]

/-- The mask for a link: `my_name_for_link` if it has a configuration, otherwise the own name. -/
def State.maskFor (s : State) (dest : ClientId) : List Char :=
  (((s.client dest).serv.bind Serv.sconf).bind Conf.fakename).getD s.meName

/-- The links that `remove_dependents` tells of a split. -/
def State.splitLinks (s : State) (clientP : Option ClientId) (who : ClientId) : List ClientId :=
  s.servList.filter fun dest =>
    (s.client dest).status != .me && (s.client who).source != some dest &&
      !(clientP == some dest && (s.client dest).qs)

/-- `remove_dependents`. -/
def State.removeDependents (s : State) (clientP : Option ClientId) (who : ClientId)
    (comment : List Char) (fuel : ℕ) : Option State :=
  ((s.splitLinks clientP who).foldlM (fun (t : State) dest =>
      (t.recurseSendQuits (t.client dest).qs ((t.maskFor dest).take hostLen) comment fuel who).map
        fun msgs => t.sendtoOne dest msgs) s).bind
    fun t => t.recurseRemoveClients comment fuel who

/-- The text for those who go with a server: the names of the two servers at the split. -/
def State.splitComment (s : State) (who : ClientId) : List Char :=
  if s.hideServers then
    s.meName ++ " a.server.on.".toList ++ s.networkName ++ ".net".toList
  else
    (((s.client who).servptr.map fun server => (s.client server).name).getD []) ++ ' ' ::
      (s.client who).name

/-- What `exit_client` does to the connection of a client, and `close_connection`. -/
def State.closeConnection (s : State) (who : ClientId) : State :=
  let client := s.client who
  let s := s.setClient who { client with source := none }
  if client.status = .server ∨ client.status = .connecting ∨ client.status = .handshake then
    { s with servList := s.servList.erase who }
  else s

/-- The beginning of `exit_client`. -/
def State.depart (s : State) (who : ClientId) : State :=
  let s := s.setClient who { s.client who with dead := true }
  if (s.client who).localClient then s.closeConnection who else s

/-- `exit_client`. -/
def State.exitClient (s : State) (clientP : Option ClientId) (who sender : ClientId)
    (comment : List Char) (fuel : ℕ) : Option State :=
  if (s.client who).dead then some s
  else
    let s := s.depart who
    if (s.client who).status = .server then
      (s.removeDependents clientP who (s.splitComment who) fuel).map fun s =>
        s.exitOneClient clientP who sender comment
    else some (s.exitOneClient clientP who sender comment)

/-! ### The end of the dead -/

/-- What happens to the blocks of clients: the name or the `servptr` of one is read, or it is freed. -/
inductive Access where
  | read (who : ClientId)
  | free (who : ClientId)
deriving DecidableEq

/-- `release_client_state`, with `add_history`: the history of a person takes its name, and the name
of its server. -/
def State.releaseClientState (s : State) (who : ClientId) : List Access :=
  if (s.client who).isPerson then .read who :: (s.client who).servptr.toList.map .read else []

/-- `free_exited_clients`. -/
def State.freeExitedClients (s : State) : List Access :=
  s.deadList.flatMap fun who => s.releaseClientState who ++ [.free who]

/-- The first frees what the second reads. -/
def Access.Spoils : Access → Access → Prop
  | .free x, .read y => x = y
  | _, _ => False

instance (a b : Access) : Decidable (a.Spoils b) := by
  cases a <;> cases b <;> unfold Access.Spoils <;> infer_instance

/-- Nothing is read that has been freed before. -/
def Live (log : List Access) : Prop := log.Pairwise fun a b => ¬ a.Spoils b

instance (log : List Access) : Decidable (Live log) :=
  inferInstanceAs (Decidable (log.Pairwise fun a b => ¬ a.Spoils b))

end Ircd.Split
