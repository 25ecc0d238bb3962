import Ircd.Channel.Mask
import Ircd.Channel.State

/-!
# Votes on G-lines

`modules/m_gline.c` and the two lists of `src/s_gline.c`. What is written to files and shown to
operators is left out.
-/
namespace Ircd.Gline

open Chan (hostLen userLen ircMatch)

/-- Who asks for a G-line: a client with its server. -/
structure Oper where
  username : List Char
  host : List Char
  server : List Char
  username_len : username.length ≤ userLen
  host_len : host.length ≤ hostLen
  server_len : server.length ≤ hostLen
deriving DecidableEq

/-- `struct gline_pending`, less what only the log shows. The last two fields are not in the source: they
are the numbers of the requests that the votes come from, and nothing looks at them. -/
structure GlinePending where
  operUser1 : List Char
  operHost1 : List Char
  operServer1 : List Char
  operUser2 : List Char
  operHost2 : List Char
  operServer2 : List Char
  lastGlineTime : ℤ
  user : List Char
  host : List Char
  request1 : ℕ
  request2 : ℕ
deriving DecidableEq

/-- An entry of the list `glines`, a `ConfItem`. -/
structure GlineConf where
  name : Option (List Char)
  host : Option (List Char)
  hold : ℤ
deriving DecidableEq

/-- A request that has come to `check_majority_gline`. -/
structure Request where
  oper : Oper
  user : List Char
  host : List Char
deriving DecidableEq

/-- A call of `set_local_gline`, and the number of the request that has led to it. -/
structure LocalGline where
  user : List Char
  host : List Char
  request : ℕ
deriving DecidableEq

/-- The configuration, the two lists, and what has happened so far. -/
structure State where
  glinesEnabled : Bool
  minNonwildcard : ℤ
  pendingGlines : List GlinePending
  glines : List GlineConf
  requests : List Request
  localGlines : List LocalGline

/-- The server at the start. -/
def start (glinesEnabled : Bool) (minNonwildcard : ℤ) : State :=
  ⟨glinesEnabled, minNonwildcard, [], [], [], []⟩

/-- `GLINE_PENDING_EXPIRE`. -/
def glinePendingExpire : ℤ := 600

/-! ### Lists -/

/-- `find_is_glined`. -/
def State.findIsGlined (s : State) (host name : List Char) : Option GlineConf :=
  s.glines.find? fun kill =>
    kill.name.any (fun mask => ircMatch mask name) && kill.host.any fun mask => ircMatch mask host

/-- `expire_glines`. -/
def State.expireGlines (s : State) (now : ℤ) : State :=
  { s with glines := s.glines.filter fun kill => ¬kill.hold ≤ now }

/-- `expire_pending_glines`. -/
def State.expirePendingGlines (s : State) (now : ℤ) : State :=
  { s with pendingGlines := s.pendingGlines.filter fun pending =>
      ¬(pending.lastGlineTime + glinePendingExpire ≤ now) ∧
        (s.findIsGlined pending.host pending.user).isNone }

/-- `cleanup_glines`. -/
def State.cleanupGlines (s : State) (now : ℤ) : State := (s.expireGlines now).expirePendingGlines now

/-! ### Votes -/

/-- `add_new_majority_gline`: the mask is cut to the size of the record. -/
def addNewMajorityGline (s : State) (now : ℤ) (oper : Oper) (user host : List Char) : State :=
  { s with pendingGlines :=
      { operUser1 := oper.username.take userLen
        operHost1 := oper.host.take hostLen
        operServer1 := oper.server.take hostLen
        operUser2 := []
        operHost2 := []
        operServer2 := []
        lastGlineTime := now
        user := user.take userLen
        host := host.take hostLen
        request1 := s.requests.length
        request2 := 0 } :: s.pendingGlines }

/-- The record is for this mask. -/
def GlinePending.IsFor (p : GlinePending) (user host : List Char) : Prop :=
  IrcEq p.user user ∧ IrcEq p.host host

/-- The first vote on the record came from this operator, his host or his server. -/
def GlinePending.Voted1 (p : GlinePending) (oper : Oper) : Prop :=
  (IrcEq p.operUser1 oper.username ∨ IrcEq p.operHost1 oper.host) ∨ IrcEq p.operServer1 oper.server

def GlinePending.Voted2 (p : GlinePending) (oper : Oper) : Prop :=
  (IrcEq p.operUser2 oper.username ∨ IrcEq p.operHost2 oper.host) ∨ IrcEq p.operServer2 oper.server

instance (p : GlinePending) (user host : List Char) : Decidable (p.IsFor user host) :=
  inferInstanceAs (Decidable (_ ∧ _))

instance (p : GlinePending) (oper : Oper) : Decidable (p.Voted1 oper) :=
  inferInstanceAs (Decidable ((_ ∨ _) ∨ _))

instance (p : GlinePending) (oper : Oper) : Decidable (p.Voted2 oper) :=
  inferInstanceAs (Decidable ((_ ∨ _) ∨ _))

/-- The second vote goes into the record. -/
def GlinePending.second (p : GlinePending) (now : ℤ) (number : ℕ) (oper : Oper) : GlinePending :=
  { p with
    operUser2 := oper.username.take userLen
    operHost2 := oper.host.take hostLen
    operServer2 := oper.server.take hostLen
    lastGlineTime := now
    request2 := number }

/-- What the loop of `majority_gline` comes to. -/
inductive Vote where
  | alreadyVoted
  | counted
  | agreed (pending : GlinePending)
deriving DecidableEq

/-- The loop of `majority_gline`, with the number of the request: nothing when no record is for
the mask. -/
def voteOn (now : ℤ) (number : ℕ) (oper : Oper) (user host : List Char) :
    List GlinePending → Option (Vote × List GlinePending)
  | [] => none
  | p :: rest =>
    if p.IsFor user host then
      if p.Voted1 oper then some (.alreadyVoted, p :: rest)
      else if p.operUser2 ≠ [] then
        if p.Voted2 oper then some (.alreadyVoted, p :: rest)
        else some (.agreed p, p :: rest)
      else some (.counted, p.second now number oper :: rest)
    else (voteOn now number oper user host rest).map fun r => (r.1, p :: r.2)

/-- `majority_gline`. -/
def majorityGline (s : State) (now : ℤ) (oper : Oper) (user host : List Char) : Bool × State :=
  if (s.findIsGlined host user).isSome then (false, s)
  else if s.pendingGlines.length = 0 then (false, addNewMajorityGline s now oper user host)
  else
    match voteOn now s.requests.length oper user host s.pendingGlines with
    | none => (false, addNewMajorityGline s now oper user host)
    | some (.agreed _, pending) => (true, { s with pendingGlines := pending })
    | some (_, pending) => (false, { s with pendingGlines := pending })

/-- `set_local_gline`: it does not put the G-line on the list `glines`. -/
def setLocalGline (s : State) (user host : List Char) : State :=
  { s with localGlines := s.localGlines ++ [⟨user, host, s.requests.length⟩] }

/-- `check_majority_gline`. -/
def checkMajorityGline (s : State) (now : ℤ) (oper : Oper) (user host : List Char) : State :=
  let voted := majorityGline s now oper user host
  let s :=
    if voted.1 then (setLocalGline voted.2 user host).cleanupGlines now
    else voted.2
  { s with requests := s.requests ++ [⟨oper, user, host⟩] }

/-! ### Requests -/

/-- `IsKWildChar`. -/
def isKWildChar (c : Char) : Bool := c ∈ ['!', '*', '.', '?', '@']

/-- `check_wild_gline`: the characters that are no wildcards are counted over both parts. -/
def checkWildGline (minNonwildcard : ℤ) (user host : List Char) : Bool :=
  (user.countP (fun c => !isKWildChar c) + host.countP (fun c => !isKWildChar c) : ℤ) <
    minNonwildcard

/-- `invalid_gline`. -/
def invalidGline (user : List Char) : Bool := '!' ∈ user

/-- The mask that `mo_gline` takes from its first parameter. -/
def moMask (text : List Char) : Option (List Char × List Char) :=
  if '@' ∈ text ∨ text.head? = some '*' then
    let mask :=
      if '@' ∈ text then (text.takeWhile (· ≠ '@'), (text.dropWhile (· ≠ '@')).tail)
      else if '.' ∈ text then (['*'], text)
      else (text, ['*'])
    -- the arrays have room for a user name with a `*` in front
    some (mask.1.take (userLen + 1), mask.2.take hostLen)
  else none

/-- `strcasecmp` finds no difference. -/
def strCaseEq (s t : List Char) : Prop := s.map Char.toLower = t.map Char.toLower

instance (s t : List Char) : Decidable (strCaseEq s t) :=
  inferInstanceAs (Decidable (s.map Char.toLower = t.map Char.toLower))

inductive Event where
  /-- `mo_gline`; the operator may have `IsOperGline`. -/
  | moGline (source : Oper) (isOperGline : Bool) (mask : List Char)
  /-- `ms_gline`, in either form: whether `find_server` knows the server that is named, whom
  `find_client` finds, and the mask. -/
  | msGline (operServer : List Char) (serverFound : Bool) (acptr : Option Oper)
      (user host : List Char)
  /-- `cleanup_glines`. -/
  | cleanup

/-- `mo_gline` and `ms_gline` up to `check_majority_gline`: the request that they make. -/
def Event.request? (s : State) : Event → Option Request
  | .moGline source isOperGline mask =>
    if s.glinesEnabled ∧ isOperGline then
      (moMask mask).bind fun (user, host) =>
        if invalidGline user ∨ checkWildGline s.minNonwildcard user host then none
        else some ⟨source, user, host⟩
    else none
  | .msGline operServer serverFound acptr user host =>
    acptr.bind fun oper =>
      if serverFound = false ∨ ¬strCaseEq operServer oper.server ∨ invalidGline user then none
      else if s.glinesEnabled = false ∨ checkWildGline s.minNonwildcard user host then none
      else some ⟨oper, user, host⟩
  | .cleanup => none

/-- One event at a time. -/
def step (s : State) (now : ℤ) (event : Event) : State :=
  match event, event.request? s with
  | .cleanup, _ => s.cleanupGlines now
  | _, some r => checkMajorityGline s now r.oper r.user r.host
  | _, none => s

/-- A run, each event with its time. -/
def run (s : State) (events : List (ℤ × Event)) : State :=
  events.foldl (fun s event => step s event.1 event.2) s

end Ircd.Gline
