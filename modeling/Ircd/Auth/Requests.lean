import Mathlib.Data.List.Nodup
import Mathlib.Data.Int.Notation
import Mathlib.Logic.Function.Basic

/-!
# DNS and ident queries of a connecting client

`src/s_auth.c` without an iauth server. A connecting client has a request, and a node for it in `auth_poll_list`. The
request is finished by the last of the two queries to come to an end, by `timeout_auth_queries_event`, or by the exit of
the client; all but the exit release the client, which at once reads what it has sent, and then it may exit.
-/
namespace Ircd.Auth

/-- The number of a connection: of its client, its `AuthRequest` and the node of that. -/
abbrev ConnId := ℕ

/-- What the ident socket waits for. -/
inductive Watch
  | connect | read
  deriving DecidableEq

/-- A connection. `fd` says that `auth->fd` is not negative, `query` that an adns query is under way that will call back
with the request, and `watch` is what `fd_table` has for the ident socket. `client`, `request` and `node` say that the
blocks are allocated, and `released` counts the calls of `release_auth_client`. -/
structure Conn where
  timeout : ℤ
  fd : Bool
  doingAuth : Bool
  dnsPending : Bool
  query : Bool
  watch : Option Watch
  dead : Bool
  released : ℕ
  client : Bool
  request : Bool
  node : Bool

/-- `fine` says that everything used so far was allocated. -/
structure State where
  currentTime : ℤ
  conn : ConnId → Conn
  pollList : List ConnId
  nextConn : ConnId
  fine : Bool

/-- Which clients exit while a released client is read. -/
abbrev Exits := ConnId → List ConnId

namespace State

variable (s : State)

/-! ### Blocks -/

def modify (n : ConnId) (f : Conn → Conn) : State := { s with conn := Function.update s.conn n (f (s.conn n)) }

def useRequest (n : ConnId) : State := { s with fine := s.fine && (s.conn n).request }

def useNode (n : ConnId) : State := { s with fine := s.fine && (s.conn n).node }

def useClient (n : ConnId) : State := { s with fine := s.fine && (s.conn n).client }

/-- `free_auth_request`. -/
def freeAuthRequest (n : ConnId) : State := (s.useRequest n).modify n fun c => { c with request := false }

/-- `free_dlink_node`. -/
def freeDlinkNode (n : ConnId) : State := (s.useNode n).modify n fun c => { c with node := false }

/-- `dlinkDelete`. -/
def dlinkDelete (n : ConnId) : State := { s.useNode n with pollList := s.pollList.erase n }

/-- `unlink_auth_request`. The loop reads every node up to the one of the request. -/
def unlinkAuthRequest (n : ConnId) : State :=
  let s := (s.pollList.takeWhile (· ≠ n)).foldl useNode s
  if n ∈ s.pollList then (s.dlinkDelete n).freeDlinkNode n else s

/-! ### The exit of a client -/

/-- A round of the loop of `delete_identd_queries`. -/
def deleteIdentdQuery (target : ConnId) (s : State) (n : ConnId) : State :=
  let s := (s.useNode n).useRequest n
  if n = target then
    let s := if (s.conn n).fd then s.modify n fun c => { c with watch := none } else s
    ((s.dlinkDelete n).freeAuthRequest n).freeDlinkNode n
  else s

/-- `delete_identd_queries`. -/
def deleteIdentdQueries (target : ConnId) : State := s.pollList.foldl (deleteIdentdQuery target) s

/-- `exit_client`, which `delete_adns_queries` is a part of. The client that has exited is freed later. -/
def exitClient (n : ConnId) : State :=
  if !(s.conn n).client || (s.conn n).dead then s
  else (s.modify n fun c => { c with dead := true, query := false }).deleteIdentdQueries n

/-- `free_exited_clients`. -/
def freeExitedClients : State :=
  { s with conn := fun n => { s.conn n with client := (s.conn n).client && !(s.conn n).dead } }

/-! ### The release of a client -/

/-- `release_auth_client`. `read_packet` reads what the client has sent. -/
def releaseAuthClient (exits : Exits) (n : ConnId) : State :=
  (exits n).foldl exitClient ((s.useClient n).modify n fun c => { c with released := c.released + 1 })

/-- What the callbacks do when neither query is under way any more. -/
def finish (exits : Exits) (n : ConnId) : State :=
  ((s.unlinkAuthRequest n).releaseAuthClient exits n).freeAuthRequest n

/-- `auth_dns_callback`. -/
def authDnsCallback (exits : Exits) (n : ConnId) : State :=
  let s := (s.useRequest n).useClient n
  let s := s.modify n fun c => { c with dnsPending := false, query := false }
  if !(s.conn n).doingAuth then s.finish exits n else s

/-- `auth_error`, and the end of `read_auth_reply`. -/
def identEnds (exits : Exits) (n : ConnId) : State :=
  let s := (s.useRequest n).useClient n
  let s := s.modify n fun c => { c with fd := false, watch := none, doingAuth := false }
  if !(s.conn n).dnsPending then s.finish exits n else s

/-- `read_auth_reply`, which waits if there is nothing to read yet. -/
def readAuthReply (exits : Exits) (n : ConnId) (ready : Bool) : State :=
  let s := s.useRequest n
  if ready then s.identEnds exits n else s.modify n fun c => { c with watch := some .read }

/-- `auth_connect_callback`. -/
def authConnectCallback (exits : Exits) (n : ConnId) (ok ready : Bool) : State :=
  let s := (s.useRequest n).useClient n
  if ok then s.readAuthReply exits n ready else s.identEnds exits n

/-! ### The timeout -/

/-- `ptr->next`. -/
def next (n : ConnId) : Option ConnId := (s.pollList.dropWhile (· ≠ n)).tail.head?

/-- What `timeout_auth_queries_event` does about a request that is too old. -/
def timeOut (exits : Exits) (n : ConnId) : State :=
  let s := s.useClient n
  let s := if (s.conn n).fd then s.modify n fun c => { c with watch := none } else s
  let s := if (s.conn n).dnsPending then s.modify n fun c => { c with query := false } else s
  (((s.releaseAuthClient exits n).dlinkDelete n).freeDlinkNode n).freeAuthRequest n

/-- The loop of `timeout_auth_queries_event`. -/
def timeoutLoop (exits : Exits) : ℕ → Option ConnId → State → State
  | 0, _, s => s
  | _, none, s => s
  | fuel + 1, some ptr, s =>
    let s := s.useNode ptr
    let next := s.next ptr
    let s := s.useRequest ptr
    if (s.conn ptr).timeout < s.currentTime then timeoutLoop exits fuel next (s.timeOut exits ptr)
    else timeoutLoop exits fuel next s

/-- `timeout_auth_queries_event`. -/
def timeoutAuthQueriesEvent (exits : Exits) : State :=
  timeoutLoop exits s.pollList.length s.pollList.head? s

/-! ### A new client -/

/-- What becomes of the ident query while `start_auth_query` runs: it cannot be started, is refused at once, is under way,
connected at once, or connected and answered at once. -/
inductive IdentStart
  | failed | refused | pending | connected | replied
  deriving DecidableEq

/-- `CONNECTTIMEOUT`. -/
def connectTimeout : ℤ := 30

/-- `start_auth`, for a client that is new. -/
def startAuth (ident : IdentStart) : State :=
  let open_ := decide (ident = .pending ∨ ident = .connected)
  let c : Conn := {
    timeout := s.currentTime + connectTimeout
    fd := open_
    doingAuth := open_
    dnsPending := true
    query := true
    watch := if ident = .pending then some .connect else if ident = .connected then some .read else none
    dead := false
    released := 0
    client := true
    request := true
    node := true }
  { s with
    conn := Function.update s.conn s.nextConn c
    pollList := s.nextConn :: s.pollList
    nextConn := s.nextConn + 1 }

end State

/-! ### Runs -/

/-- What can happen. A callback comes only if what it waits for is under way. -/
inductive Event
  | connect (ident : State.IdentStart)
  | dnsAnswer (n : ConnId) (exits : Exits)
  | identConnect (n : ConnId) (ok ready : Bool) (exits : Exits)
  | identReply (n : ConnId) (ready : Bool) (exits : Exits)
  | timeouts (now : ℤ) (exits : Exits)
  | exit (n : ConnId)
  | freeExited

def step (s : State) : Event → State
  | .connect ident => s.startAuth ident
  | .dnsAnswer n exits => if (s.conn n).query then s.authDnsCallback exits n else s
  | .identConnect n ok ready exits =>
    if (s.conn n).watch = some .connect then s.authConnectCallback exits n ok ready else s
  | .identReply n ready exits => if (s.conn n).watch = some .read then s.readAuthReply exits n ready else s
  | .timeouts now exits => { s with currentTime := now }.timeoutAuthQueriesEvent exits
  | .exit n => s.exitClient n
  | .freeExited => s.freeExitedClients

/-- Before the first connection. -/
def State.start (now : ℤ) : State := ⟨now, fun _ => ⟨0, false, false, false, false, none, false, 0, false, false, false⟩,
  [], 0, true⟩

end Ircd.Auth
