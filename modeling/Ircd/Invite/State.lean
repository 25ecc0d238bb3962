import Ircd.Channel.Bans
import Ircd.Channel.Invites
import Ircd.Lib.TreeRoute
import Ircd.Send.Fanout

/-!
# INVITE

`m_invite` of `modules/m_invite.c` on one server, and the servers of a network between which its line
goes. LazyLinks, the replies and the notices to local ops are left out, and a send does not fail.
-/
namespace Ircd.Invite

open Bans (World)
open Chan (ClientId ChannelId isChanChar isChannelName param)

/-! ### One server -/

/-- `:%s INVITE %s :%s`. -/
structure Line where
  sender : List Char
  target : List Char
  channel : List Char
deriving DecidableEq

/-- What `m_invite` has found out when its checks are through. -/
structure Invitation where
  target : ClientId
  chptr : ChannelId
  vchan : ChannelId
  chop : Bool
deriving DecidableEq

/-- `find_person`. -/
def findPerson (s : Chan.State) (name : List Char) : Option ClientId :=
  (s.findClient name).filter fun c => (s.client c).isPerson

/-- The virtual channel that somebody invites to, and the channel above it. -/
def vchanFor (s : Chan.State) (source : ClientId) (chptr : ChannelId) : ChannelId :=
  if (s.channel chptr).hasVchans then (s.mapVchan chptr source).getD chptr else chptr

def rootOf (s : Chan.State) (chptr : ChannelId) : ChannelId := (s.channel chptr).rootChptr.getD chptr

/-- `m_invite` from there on. Only local clients must be on the channel. -/
def inviteTo (s : Chan.State) (source target : ClientId) (chptr vchan : ChannelId) : Option Invitation :=
  if (s.client source).mine ∧ ¬s.isMember source vchan then none
  else if (s.mapVchan chptr target).isSome then none
  else if s.isMember target vchan then none
  else if .inviteOnly ∈ (s.channel vchan).mode.mode then
    if (s.channel chptr).isChanOp source then some ⟨target, chptr, vchan, true⟩ else none
  else some ⟨target, chptr, vchan, false⟩

/-- The checks of `m_invite`. -/
def invitation (s : Chan.State) (source : ClientId) (parv : List (List Char)) : Option Invitation :=
  if param parv 2 = [] then none
  else if (s.client source).user = none then none
  else
    match findPerson s (param parv 1) with
    | none => none
    | some target =>
      if (param parv 2).all isChanChar = false then none
      else if isChannelName (param parv 2) = false then none
      else if (s.client target).localClient = false ∧ (param parv 2).head? = some '&' then none
      else
        (s.hashFindChannel (param parv 2)).bind fun chptr =>
          inviteTo s source target (rootOf s chptr) (vchanFor s source chptr)

/-- What a server changes as it sends: the stamps on clients, `current_serial` and the invitations. -/
structure Marks where
  serial : ClientId → ℕ
  currentSerial : ℕ
  invites : Chan.Invites

/-- The clients and channels, as the senders see them. -/
def sending (s : Chan.State) (m : Marks) : Send.State where
  client c :=
    { source := some (s.client c).source
      localClient := (s.client c).localClient
      server := (s.client c).status == .server
      registeredUser := (s.client c).status == .client
      fd := (s.client c).localClient
      dead := false
      serial := m.serial c
      caps := 0
      channel := (s.client c).channels
      users := [] }
  channel c := ⟨(s.channel c).chname, (s.channel c).members, (s.channel c).locMembers⟩
  servList := []
  lclientList := []
  currentSerial := m.currentSerial
  outcomes := []
  queued := []

/-- The end of `m_invite`: the invitation is noted where the target is local, and the line goes to the
links of the ops. It goes to the link of the target if that is the link it has come over. -/
def forward (s : Chan.State) (m : Marks) (clientP source : ClientId) (sender : List Char)
    (i : Invitation) : Option (Marks × List (ClientId × Line)) :=
  let mine := (s.client i.target).localClient
  let invites := if mine ∧ i.chop then m.invites.addInvite i.vchan i.target else m.invites
  let line : Line := ⟨sender, (s.client i.target).name, (s.channel i.vchan).chname⟩
  (Send.sendtoChannelRemote (Send.sendLinebuf 1) (sending s m) source .onlyChanopsHalfops 0 0
    i.chptr).map fun t =>
      let link := (s.client i.target).source
      let last := if mine = false ∧ (t.client link).serial ≠ t.currentSerial ∧ link = clientP then [link] else []
      (⟨fun c => (t.client c).serial, t.currentSerial, invites⟩,
        (t.queued.map Prod.fst ++ last).map fun link => (link, line))

/-- `m_invite`. -/
def mInvite (s : Chan.State) (m : Marks) (clientP source : ClientId) (parv : List (List Char)) :
    Option (Marks × List (ClientId × Line)) :=
  match invitation s source parv with
  | none => some (m, [])
  | some i => forward s m clientP source (param parv 0) i

/-- `parse`, for the prefix of a line from a server: whom it names. Nobody does if they lie in another
direction; `cancel_clients` only reports it. -/
def prefixed (s : Chan.State) (clientP : ClientId) (line : Line) : Option ClientId :=
  (s.findClient line.sender).filter fun source => (s.client source).source = clientP

/-- The parameters of `m_invite`, after `parse`. -/
def parameters (s : Chan.State) (source : ClientId) (line : Line) : List (List Char) :=
  [(s.client source).name, line.target, line.channel]

/-- A line from a server. -/
def receive (s : Chan.State) (m : Marks) (clientP : ClientId) (line : Line) :
    Option (Marks × List (ClientId × Line)) :=
  match prefixed s clientP line with
  | none => some (m, [])
  | some source => mInvite s m clientP source (parameters s source line)

/-- `m_invite` has taken the line. -/
def taken (s : Chan.State) (clientP : ClientId) (line : Line) : Bool :=
  (prefixed s clientP line).any fun source => (invitation s source (parameters s source line)).isSome

/-- `can_join`, with the invitations there are. -/
def canJoin (w : World) (m : Marks) (who : ClientId) (chptr : ChannelId) (key : List Char) :
    Option Bans.JoinError :=
  { w with invited := m.invites.links.right }.canJoin who chptr key

/-! ### The network -/

/-- Servers in a tree: the client that each one is for its neighbours, the server that each client is
on, and what each one knows. -/
structure Network (σ : Type) where
  graph : SimpleGraph σ
  tree : graph.IsTree
  link : σ → ClientId
  home : ClientId → σ
  world : σ → World

variable {σ : Type}

/-- The lines under way, with the server each comes from and the one it goes to, all that have gone
over a link, and the servers whose `m_invite` has taken one. -/
structure Wave (σ : Type) where
  marks : σ → Marks
  flying : List (σ × σ × Line)
  crossed : List (σ × σ)
  handled : List σ

/-- What a server has sent goes off to its neighbours. -/
def Wave.depart (f : Wave σ) [DecidableEq σ] (x : σ) (m : Marks) (next : List (σ × Line)) : Wave σ :=
  { f with
    marks := Function.update f.marks x m
    flying := f.flying ++ next.map fun n => (x, n)
    crossed := f.crossed ++ next.map fun n => (x, n.1) }

namespace Network

variable [DecidableEq σ] (net : Network σ)

/-- What has been sent to links goes to these servers. -/
def Reaches (out : List (ClientId × Line)) (next : List (σ × Line)) : Prop :=
  out = next.map fun n => (net.link n.1, n.2)

/-- Somebody invites: nothing is under way before. -/
inductive Begins (marks : σ → Marks) (source : ClientId) (parv : List (List Char)) : Wave σ → Prop
  | intro {m : Marks} {out : List (ClientId × Line)} {next : List (σ × Line)}
      (run : mInvite (net.world (net.home source)).net (marks (net.home source)) source source parv =
        some (m, out))
      (reaches : net.Reaches out next) :
      Begins marks source parv
        (Wave.depart ⟨marks, [], [], []⟩ (net.home source) m next)

/-- One of the lines under way arrives. -/
inductive Step : Wave σ → Wave σ → Prop
  | arrive {f : Wave σ} {before after : List (σ × σ × Line)} {x y : σ} {line : Line} {m : Marks}
      {out : List (ClientId × Line)} {next : List (σ × Line)}
      (flying : f.flying = before ++ (x, y, line) :: after)
      (run : receive (net.world y).net (f.marks y) (net.link x) line = some (m, out))
      (reaches : net.Reaches out next) :
      Step f ({ f with
        flying := before ++ after
        handled := if taken (net.world y).net (net.link x) line then f.handled ++ [y] else f.handled }.depart
          y m next)

def Run : Wave σ → Wave σ → Prop := Relation.ReflTransGen net.Step

end Network

end Ircd.Invite
