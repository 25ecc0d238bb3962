import Ircd.Nick.Change

/-!
# KILL

`ms_kill` and `relay_kill` of `modules/core/m_kill.c`.
-/
namespace Ircd.Nick

open Chan (ClientId param)

def killChaseTimeLimit : ℤ := 90

/-- `ID`. -/
def Client.shownId (client : Client) : List Char :=
  if client.hasId then client.id else client.name

/-- `relay_kill`. -/
def State.relayKill (s : State) (one source target : ClientId) : State :=
  let links := s.servList.filter (· ≠ one)
  { s with sent := s.sent ++ links.map fun link => (link, ⟨(s.client source).name, .kill,
      [if s.hasUid link then (s.client target).shownId else (s.client target).name]⟩) }

/-- Who is killed: the holder of the nick, or whoever has had it lately. -/
def State.killTarget (s : State) (user : List Char) : Option (Option ClientId) :=
  (s.findClient user).map fun
    | some target => some target
    | none => if user.head? = some '.' then none else s.getHistory user killChaseTimeLimit

/-- The end of `ms_kill`, for a client. A local oper's `KILL` of a local client is not passed on. -/
def State.killUser (s : State) (clientP source target : ClientId) : Option State :=
  if (s.client target).localClient = false ∨ (s.client source).localClient = false ∨
      Umode.oper ∉ (s.client source).umodes then
    (s.relayKill clientP source target).exitKilled (some clientP) target
  else s.exitClient (some clientP) target

/-- `ms_kill`. The path of a client's `KILL` reads the name of its server, NULL or not. -/
def State.msKill (s : State) (clientP source : ClientId) (parv : List (List Char)) :
    Option State :=
  if param parv 1 = [] then some s
  else if (s.client source).status ≠ .server ∧ (s.client source).servptr = none then none
  else do
    match ← s.killTarget (param parv 1) with
    | none => some s
    | some target =>
      if (s.client target).status = .server ∨ (s.client target).status = .me then some s
      else s.killUser clientP source target

end Ircd.Nick
