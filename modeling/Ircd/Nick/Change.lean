import Ircd.Nick.Introduce
import Ircd.Channel.Sjoin

/-!
# Nicks

`set_initial_nick` and `change_local_nick` of `src/client.c`, and the handlers of
`modules/core/m_nick.c` for clients (`mr_nick`, `m_nick`) and for servers (`tsm_nick`,
`tsm_client`), with `perform_nick_collides`.
-/
namespace Ircd.Nick

open Chan (ClientId param)

/-! ### Valid names -/

/-- `IsNickChar`. -/
def isNickChar (c : Char) : Bool := c == '-' || c.isDigit || ('A' ≤ c && c ≤ '\x7d')

/-- `clean_nick_name`. -/
def cleanNickName (nick : List Char) : Bool :=
  nick.head?.all (fun c => c != '-' && !c.isDigit) && nick.all isNickChar

/-- `check_clean_nick`. Gives true if the nick is erroneous, or has been cut. -/
def State.checkCleanNick (s : State) (clientP source : ClientId) (nick newnick : List Char) :
    Option (Bool × State) :=
  if cleanNickName nick = false ∨ nick ≠ newnick then
    let s := s.sendtoOne clientP ⟨s.meName, .kill, [newnick]⟩
    if source ≠ clientP then
      ((s.killClientButone (some clientP) source).exitKilled (some clientP) source).map fun s =>
        (true, s)
    else some (true, s)
  else some (false, s)

/-- `check_clean_user` and `check_clean_host`: text that does not fit gets the nick killed. Other
errors are only reported. -/
def State.checkLength (s : State) (clientP : ClientId) (nick text : List Char) (size : ℕ) :
    Bool × State :=
  if size < text.length then (true, s.sendtoOne clientP ⟨s.meName, .kill, [nick]⟩) else (false, s)

def State.checkCleanUser (s : State) (clientP : ClientId) (nick user : List Char) : Bool × State :=
  s.checkLength clientP nick user Chan.userLen

def State.checkCleanHost (s : State) (clientP : ClientId) (nick host : List Char) : Bool × State :=
  s.checkLength clientP nick host Chan.hostLen

/-- Both checks, up to the first that fails. -/
def State.checkUserHost (s : State) (clientP : ClientId) (nick user host : List Char) :
    Bool × State :=
  let (bad, s) := s.checkCleanUser clientP nick user
  if bad then (true, s) else s.checkCleanHost clientP nick host

/-! ### Local clients -/

/-- A client that has a name is taken out of the hash table. -/
def State.unname (s : State) (source : ClientId) : Option State :=
  if (s.client source).name ≠ [] then s.delFromClientHashTable (s.client source).name source
  else some s

/-- The end of every change of nick: out of the hash table under the old name, if there is one, and
back in under the new. -/
def State.rename (s : State) (source : ClientId) (nick : List Char) : Option State := do
  let s ← s.unname source
  some ((s.setClient source ((s.client source).setName nick)).addToClientHashTable nick source)

/-- `set_initial_nick`. -/
def State.setInitialNick (s : State) (clientP source : ClientId) (nick : List Char) :
    Option State := do
  let s := s.setClient source { s.client source with tsinfo := s.currentTime }
  let s ← s.rename source nick
  if (s.client source).user.isSome then s.registerLocalUser clientP source else some s

/-- `mr_nick`. -/
def State.mrNick (s : State) (clientP source : ClientId) (parv : List (List Char)) :
    Option State :=
  if parv.length < 2 then some s
  else
    let nick := ((param parv 1).takeWhile (· != '~')).take nickLen
    if cleanNickName nick = false then some s
    else if s.findNickResv nick then some s
    else do
      match ← s.findClient nick with
      | none => s.setInitialNick clientP source nick
      | some _ => some s

/-- The counters of `change_local_nick`. -/
def State.countNickChange (s : State) (source : ClientId) : State :=
  let client := s.client source
  let number :=
    if client.lastNickChange + s.maxNickTime < s.currentTime then 0 else client.numberOfNickChanges
  s.setClient source { client with
    tsinfo := s.currentTime
    lastNickChange := s.currentTime
    numberOfNickChanges := number + 1 }

/-- Whether `change_local_nick` lets a change pass. -/
def State.mayChangeNick (s : State) (source : ClientId) : Bool :=
  let client := s.client source
  !s.antiNickFlood || decide (client.numberOfNickChanges ≤ s.maxNickChanges) ||
    (decide (Umode.oper ∈ client.umodes) && s.noOperFlood)

/-- `change_local_nick`. The other servers should be told by the handler for nick changes of their
protocol, but the protocol of servers has none: a NULL pointer is called. -/
def State.changeLocalNick (s : State) (clientP source : ClientId) (nick : List Char) :
    Option State :=
  let s := s.countNickChange source
  if s.mayChangeNick source = false then some s
  else if (s.client source).user.isSome then
    if s.servList.filter (· ≠ clientP) ≠ [] then none
    else do
      let s := s.addHistory source true
      let s ← s.delFromClientHashTable (s.client source).name source
      some ((s.setClient source ((s.client source).setName nick)).addToClientHashTable nick source)
  else do
    let s ← s.delFromClientHashTable (s.client source).name source
    some ((s.setClient source ((s.client source).setName nick)).addToClientHashTable nick source)

/-- `m_nick`. -/
def State.mNick (s : State) (clientP source : ClientId) (parv : List (List Char)) : Option State :=
  if parv.length < 2 then some s
  else
    let nick := (param parv 1).take nickLen
    if cleanNickName nick = false then some s
    else if s.findNickResv nick then some s
    else do
      match ← s.findClient nick with
      | none => s.changeLocalNick clientP source nick
      | some target =>
        if target = source then
          if (s.client target).name ≠ nick then s.changeLocalNick clientP source nick else some s
        -- somebody who has not registered gives the nick up
        else if (s.client target).status = .unknown then
          let s ← s.exitClient none target
          s.changeLocalNick clientP source nick
        else some s

/-! ### Clients of other servers -/

/-- The modes an introduction brings. -/
def umodesOf (text : List Char) : Finset Umode :=
  ((text.drop 1).filterMap umodeOfLetter).toFinset ∩ sendUmodes

/-- A new client, in the hash table under its nick. -/
def State.newClient (s : State) (client : Client) (nick : List Char) : State :=
  (s.makeClient (client.setName nick)).addToClientHashTable nick s.nextClient

/-- The block of a client that `NICK` introduces. -/
def Client.ofNick (clientP : ClientId) (parv : List (List Char)) (newts currentTime : ℤ) : Client :=
  { Client.made clientP false with
    hopcount := if 2 < parv.length then atoi (param parv 2) else 0
    tsinfo := if newts ≠ 0 then newts else currentTime }

/-- The block of a client that `CLIENT` introduces. -/
def Client.ofClient (clientP : ClientId) (parv : List (List Char)) (newts : ℤ) : Client :=
  { Client.made clientP false with
    hopcount := atoi (param parv 2)
    tsinfo := newts
    umodes := umodesOf (param parv 4) }

/-- The first half of `nick_from_server`: a server introduces a new client. -/
def State.newNickFromServer (s : State) (clientP : ClientId) (parv : List (List Char)) (newts : ℤ)
    (nick : List Char) : Option State :=
  let source := s.nextClient
  let s := s.newClient (Client.ofNick clientP parv newts s.currentTime) nick
  if 8 < parv.length then
    let s := s.setClient source { s.client source with umodes := umodesOf (param parv 4) }
    s.doRemoteUser clientP source (param parv 5) (param parv 6) (param parv 7) (param parv 8) none
  else s.rename source nick

/-- The second half: a client changes its nick. -/
def State.changeNickFromServer (s : State) (clientP source : ClientId) (parv : List (List Char))
    (newts : ℤ) (nick : List Char) : Option State :=
  let client := s.client source
  if client.name ≠ [] then
    let tsinfo := if IrcEq (param parv 0) nick then client.tsinfo
      else if newts ≠ 0 then newts else s.currentTime
    let s := s.setClient source { client with tsinfo := tsinfo }
    let s := if client.user.isSome then
        (s.addHistory source true).sendtoServer (some clientP)
          ⟨param parv 0, .nick, asRead [nick] (printLu (tsinfo % 2 ^ 64).toNat)⟩
      else s
    s.rename source nick
  else s.rename source nick

/-- `nick_from_server`. -/
def State.nickFromServer (s : State) (clientP source : ClientId) (parv : List (List Char))
    (newts : ℤ) (nick : List Char) : Option State :=
  if (s.client source).status = .server then s.newNickFromServer clientP parv newts nick
  else s.changeNickFromServer clientP source parv newts nick

/-- `client_from_server`. -/
def State.clientFromServer (s : State) (clientP : ClientId) (parv : List (List Char)) (newts : ℤ)
    (nick : List Char) : Option State :=
  let source := s.nextClient
  let s := s.newClient (Client.ofClient clientP parv newts) nick
  let s := s.addToIdHashTable (param parv 8) source
  s.doRemoteUser clientP source (param parv 5) (param parv 6) (param parv 7) (param parv 9)
    (some (param parv 8))

/-! ### Collisions -/

/-- The same user and host, up to case. -/
def Client.sameUser (client : Client) (username host : List Char) : Bool :=
  decide (IrcEq client.username username) && decide (IrcEq client.host host)

/-- Both sides of a collision lose if one has no timestamp, or both have the same. -/
def bothKilled (newts oldts : ℤ) : Bool := newts == 0 || oldts == 0 || newts == oldts

/-- The newcomer of a collision loses: of one user, if it is the older one, of two users, if it is
the newer one. -/
def newcomerLoses (sameuser : Bool) (newts oldts : ℤ) : Bool :=
  if sameuser then decide (newts < oldts) else decide (oldts < newts)

/-- `perform_nick_collides`, when a server introduces a new nick. -/
def State.introCollides (s : State) (clientP source target : ClientId) (parv : List (List Char))
    (newts : ℤ) (nick : List Char) : Option State :=
  let old := s.client target
  if bothKilled newts old.tsinfo then
    (s.killClientButone none target).exitKilled (some clientP) target
  else
    let sameuser := old.user.isSome && old.sameUser (param parv 5) (param parv 6)
    if newcomerLoses sameuser newts old.tsinfo then some s
    else do
      let s ← (s.killClientButone (some source) target).exitKilled (some clientP) target
      if parv.length = 9 then s.nickFromServer clientP source parv newts nick
      else if parv.length = 10 then s.clientFromServer clientP parv newts nick
      else some s

/-- `perform_nick_collides`, when a client changes to a nick that is in use. -/
def State.changeCollides (s : State) (clientP source target : ClientId) (parv : List (List Char))
    (newts : ℤ) (nick : List Char) : Option State :=
  let old := s.client target
  if bothKilled newts old.tsinfo = true ∨ (s.client source).user = none then do
    let s ← ((s.killClientButone none source).killClientButone none target).exitKilled none target
    s.exitKilled (some clientP) source
  else
    let sameuser := old.sameUser (s.client source).username (s.client source).host
    if newcomerLoses sameuser newts old.tsinfo then
      (s.killClientButone (some clientP) source).exitKilled (some clientP) source
    else do
      let s ← (s.killClientButone (some source) target).exitKilled (some clientP) target
      s.nickFromServer clientP source parv newts nick

/-- `perform_nick_collides`. -/
def State.performNickCollides (s : State) (source clientP target : ClientId)
    (parv : List (List Char)) (newts : ℤ) (nick : List Char) : Option State :=
  if (s.client source).status = .server then s.introCollides clientP source target parv newts nick
  else s.changeCollides clientP source target parv newts nick

/-! ### The handlers for servers -/

/-- The timestamp `tsm_nick` reads. -/
def State.newtsOf (s : State) (source : ClientId) (parv : List (List Char)) : ℤ :=
  if parv.length = 9 then
    if (s.client source).status = .server then atol (param parv 3) else 0
  else if (s.client source).status = .server then 0 else atol (param parv 2)

/-- `tsm_nick` from the lookup of the nick on. -/
def State.takeNick (s : State) (clientP source : ClientId) (parv : List (List Char)) (newts : ℤ)
    (nick : List Char) : Option State := do
  match ← s.findClient nick with
  | none => s.nickFromServer clientP source parv newts nick
  | some target =>
    if (s.client target).status = .unknown then
      let s ← s.exitClient none target
      s.nickFromServer clientP source parv newts nick
    else if target = source then
      if (s.client target).name ≠ nick then s.nickFromServer clientP source parv newts nick
      else some s
    else s.performNickCollides source clientP target parv newts nick

/-- `tsm_nick`. A real name that is too long is cut where it is stored. -/
def State.tsmNick (s : State) (clientP source : ClientId) (parv : List (List Char)) :
    Option State :=
  if parv.length ≠ 3 ∧ parv.length ≠ 9 then some s
  else do
    let nick := (param parv 1).take (nickLen + 1)
    let (bad, s) ← s.checkCleanNick clientP source nick (param parv 1)
    if bad then some s
    else
      let (bad, s) := if parv.length = 9 then
          s.checkUserHost clientP nick (param parv 5) (param parv 6)
        else (false, s)
      if bad then some s else s.takeNick clientP source parv (s.newtsOf source parv) nick

/-- `tsm_client` from the lookup of the nick on. -/
def State.takeClient (s : State) (clientP source : ClientId) (parv : List (List Char)) (newts : ℤ)
    (nick : List Char) : Option State := do
  match ← s.findClient nick with
  | none => s.clientFromServer clientP parv newts nick
  | some target =>
    if (s.client target).status = .unknown then
      let s ← s.exitClient none target
      s.clientFromServer clientP parv newts nick
    else s.performNickCollides source clientP target parv newts nick

/-- `tsm_client`. -/
def State.tsmClient (s : State) (clientP source : ClientId) (parv : List (List Char)) :
    Option State :=
  if parv.length < 10 then some s
  else do
    let nick := (param parv 1).take (nickLen + 1)
    let (bad, s) ← s.checkCleanNick clientP source nick (param parv 1)
    if bad then some s
    else
      let (bad, s) := s.checkUserHost clientP nick (param parv 5) (param parv 6)
      if bad then some s else s.takeClient clientP source parv (atol (param parv 3)) nick

end Ircd.Nick
