import Ircd.Channel.Membership

/-!
# Virtual channels

`src/vchannel.c`, less the texts for clients.
-/
namespace Ircd.Chan

/-- `IsVchan`. -/
def Channel.isVchan (ch : Channel) : Bool := ch.rootChptr.isSome

/-- `HasVchans`. -/
def Channel.hasVchans (ch : Channel) : Bool := !ch.vchanList.isEmpty

/-- `IsVchanTop`. -/
def Channel.isVchanTop (ch : Channel) : Bool := ch.rootChptr.isNone && ch.hasVchans

/-- `is_any_op`. -/
def Channel.isAnyOp (ch : Channel) (who : ClientId) : Bool := ch.isChanOp who || ch.isHalfOp who

/-- The first pair of `vchan_map` with the root channel. -/
def Client.vchanOf (client : Client) (root : ChannelId) : Option ChannelId :=
  (client.vchanMap.find? (·.1 = root)).map Prod.snd

/-- `map_vchan`. -/
def State.mapVchan (s : State) (chptr : ChannelId) (who : ClientId) : Option ChannelId :=
  if s.isMember who chptr then some chptr else (s.client who).vchanOf chptr

/-- `on_sub_vchan`. -/
def State.onSubVchan (s : State) (chptr : ChannelId) (who : ClientId) : Bool :=
  s.isMember who chptr || (s.client who).vchanMap.any (·.1 = chptr)

/-- `find_vchan`: by somebody who is on it, or by its id. -/
def State.findVchan (s : State) (chptr : ChannelId) (vkey : List Char) : Option ChannelId :=
  let key := vkey.tail
  ((s.findClient key).bind (s.mapVchan chptr)).or
    (if key.head? = some '!' then
      (chptr :: (s.channel chptr).vchanList).find? fun c => IrcEq (s.channel c).vchanId key
    else none)

/-- `vchan_invites`, for somebody who has been invited to these channels. -/
def State.vchanInvites (s : State) (chptr : ChannelId) (invited : List ChannelId) :
    Option ChannelId :=
  invited.find? fun c => c = chptr ∨ c ∈ (s.channel chptr).vchanList

/-- `select_vchan`. -/
def State.selectVchan (s : State) (root : ChannelId) (who : ClientId) (vkey : List Char)
    (invited : List ChannelId) : Option ChannelId :=
  if (s.channel root).isVchanTop then
    if s.onSubVchan root who then none
    else if vkey.head? = some '!' then
      if vkey.tail = [] then none else s.findVchan root vkey
    else s.vchanInvites root invited
  else if (s.channel root).isVchan then none
  else some root

/-- `add_vchan_to_client_cache`. -/
def State.addVchanToClientCache (s : State) (who : ClientId) (root vchan : ChannelId) : State :=
  if root = vchan then s
  else s.setClient who { s.client who with vchanMap := (root, vchan) :: (s.client who).vchanMap }

end Ircd.Chan
