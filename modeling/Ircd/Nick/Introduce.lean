import Ircd.Nick.State

/-!
# Introducing clients

How a client is introduced to another server (`ts_burst_client` of `src/s_user.c` and
`sendnick_TS` of `src/s_serv.c`), and how a client becomes a registered one. `none` stands for a
server that stops: a NULL pointer is read, or a buffer overflows.
-/
namespace Ircd.Nick

open Chan (ClientId Status)

/-- The name of the server itself. -/
def State.meName (s : State) : List Char := (s.client s.me).name

/-- What `send_umode` writes when there have been no modes before. The mask is for local clients
only. -/
def Client.umodeBuf (client : Client) (sendmask : Finset Umode) : List Char :=
  let letters := userModes.filterMap fun entry =>
    if entry.1 ∈ client.umodes ∧ (client.mine = true → entry.1 ∈ sendmask) then some entry.2
    else none
  if letters = [] then [] else '+' :: letters

/-- The modes of a client as they stand in its introduction. -/
def Client.umodeText (client : Client) : List Char :=
  if client.umodeBuf sendUmodes = [] then ['+'] else client.umodeBuf sendUmodes

/-- The parameters of an introduction before the last, with `umodes` for the modes:
`"CLIENT %s %d %lu %s %s %s %s %s :%s"` and `"NICK %s %d %lu %s %s %s %s :%s"`. -/
def Client.introParams (client : Client) (server umodes : List Char) (withId : Bool) :
    List (List Char) :=
  [client.name, printD (client.hopcount + 1), printLu (client.tsinfo % 2 ^ 64).toNat, umodes,
    client.username, client.host, server] ++ if withId then [client.id] else []

/-- The introduction of `target` to `link`. -/
def State.introLine (s : State) (link target server : ClientId) (umodes : List Char) : Message :=
  let client := s.client target
  let withId := s.hasUid link && client.hasId
  ⟨[], if withId then .client else .nick,
    asRead (client.introParams (s.client server).name umodes withId) client.info⟩

/-- `send_umode_out`, for a client that has had no modes before. -/
def State.sendUmodeOut (s : State) (link source : ClientId) : State :=
  let buf := (s.client source).umodeBuf sendUmodes
  let links := s.servList.filter fun target => target ≠ link ∧ target ≠ source ∧ buf ≠ []
  { s with sent := s.sent ++ links.map fun target =>
      (target, ⟨(s.client source).name, .mode, [(s.client source).name, buf]⟩) }

/-- `ts_burst_client`. The modes are written to the buffer after the line has been sent. -/
def State.tsBurstClient (s : State) (link target : ClientId) : Option State :=
  match (s.client target).servptr with
  | none => none
  | some server =>
    if 12 ≤ ((s.client target).umodeBuf sendUmodes).length then none
    else
      let s := s.sendtoOne link (s.introLine link target server s.ubuf)
      let s := { s with ubuf := (s.client target).umodeText }
      some (if 1 < s.ubuf.length then s.sendUmodeOut link target else s)

/-- `sendnick_TS`. -/
def State.sendnickTS (s : State) (link target : ClientId) : Option State :=
  if (s.client target).isPerson = false then some s
  else
    match (s.client target).servptr with
    | none => none
    | some server =>
      if 12 ≤ ((s.client target).umodeBuf sendUmodes).length then none
      else some (s.sendtoOne link (s.introLine link target server (s.client target).umodeText))

/-- `introduce_client_globally`. -/
def State.introduceClientGlobally (s : State) (clientP source : ClientId) : Option State :=
  (s.servList.filter (· ≠ clientP)).foldlM (fun s link => s.tsBurstClient link source) s

/-- `kill_client`. -/
def State.killClient (s : State) (clientP diedie : ClientId) : State :=
  let client := s.client diedie
  s.sendtoOne clientP ⟨s.meName, .kill,
    [if client.hasId ∧ s.hasUid clientP = true then client.id else client.name]⟩

/-- `kill_client_ll_serv_butone`. -/
def State.killClientButone (s : State) (one : Option ClientId) (source : ClientId) : State :=
  let client := s.client source
  let links := s.servList.filter fun link => one.all fun one => link ≠ (s.client one).source
  { s with sent := s.sent ++ links.map fun link => (link, ⟨s.meName, .kill,
      [if client.hasId ∧ s.hasUid link = true then client.id else client.name]⟩) }

/-- `FLAGS_KILLED` and `exit_client`. -/
def State.exitKilled (s : State) (clientP : Option ClientId) (who : ClientId) : Option State :=
  (s.setClient who { s.client who with killed := true }).exitClient clientP who

/-! ### Registration -/

/-- The next id of the generator that nobody has. -/
def State.freshId : ℕ → State → Option (List Char × State)
  | 0, _ => none
  | n + 1, s =>
    let id := s.idGet s.idCount
    let s := { s with idCount := s.idCount + 1 }
    match s.findId id with
    | none => none
    | some none => some (id, s)
    | some (some _) => s.freshId n

/-- A client gets an id, if it has none. -/
def State.giveId (s : State) (source : ClientId) : Option State :=
  if (s.client source).id = [] then do
    let (id, s) ← s.freshId (s.nextClient + 1)
    let s := s.setClient source { s.client source with user := some id }
    some (s.addToIdHashTable id source)
  else some s

/-- `register_local_user`. -/
def State.registerLocalUser (s : State) (clientP source : ClientId) : Option State :=
  match s.register source with
  | .waits => some s
  | .rejected => s.exitClient (some clientP) source
  | .accepted username => do
    let s := s.setClient source ((s.client source).setUsername username)
    let s ← s.giveId source
    let client := s.client source
    let s := s.setClient source { client with umodes := insert .invisible client.umodes }
    if client.dead then some s
    else
      let s := s.setClient source { s.client source with status := .client, servptr := some s.me }
      s.introduceClientGlobally clientP source

/-- `do_local_user`. -/
def State.doLocalUser (s : State) (clientP source : ClientId) (username realname : List Char) :
    Option State :=
  let client := { s.client source with user := some ((s.client source).user.getD []) }
  if client.status ≠ .unknown then some (s.setClient source client)
  else
    let client := { client with servptr := some s.me }.setInfo realname
    if client.name ≠ [] then (s.setClient source client).registerLocalUser clientP source
    else some (s.setClient source (client.setUsername username))

/-- `register_remote_user`. The notice about a ghost reads the name of its server, NULL or not. -/
def State.registerRemoteUser (s : State) (clientP source : ClientId) (username : List Char) :
    Option State :=
  let s := s.setClient source ((s.client source).setUsername username)
  match (s.client source).servptr with
  | none => none
  | some server =>
    if (s.client server).status ≠ .server then
      (s.killClient clientP source).exitKilled none source
    else if (s.client server).source ≠ clientP then
      (s.killClient clientP source).exitKilled (some source) source
    else if (s.client clientP).dead then some s
    else (s.setClient source { s.client source with status := .client }).introduceClientGlobally
      clientP source

/-- `do_remote_user`. -/
def State.doRemoteUser (s : State) (clientP source : ClientId)
    (username host server realname : List Char) (id : Option (List Char)) : Option State := do
  let client := s.client source
  let client := { client with user := some (id.getD (client.user.getD [])) }
  let s := s.setClient source ((client.setHost host).setInfo realname)
  let servptr ← s.findClient server
  let s := s.setClient source { s.client source with servptr := servptr }
  s.registerRemoteUser clientP source username

end Ircd.Nick
