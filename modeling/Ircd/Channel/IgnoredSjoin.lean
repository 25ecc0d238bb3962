import Ircd.Channel.Timestamps

/-!
# Ignored SJOINs

A SJOIN that brings nobody in is not relayed, and the texts in `ms_sjoin` call it ignored. By
then it may have created channels, linked them, and applied the timestamp rules.
-/
namespace Ircd.Chan

/-- What a channel keeps. -/
def Channel.trace (ch : Channel) :
    ℤ × Mode × Lists × Lists × Option ChannelId × List ChannelId :=
  (ch.channelts, ch.mode, ch.members, ch.locMembers, ch.rootChptr, ch.vchanList)

/-- No channel has been created, and those that exist have kept their timestamp, modes, members
and links. -/
structure State.NoTrace (s s' : State) : Prop where
  list : s'.globalChannelList = s.globalChannelList
  kept : ∀ c ∈ s.globalChannelList, (s'.channel c).trace = (s.channel c).trace

/-- Nobody has a rank. -/
def Channel.Unranked (ch : Channel) : Prop :=
  ∀ r, r ≠ .peon → ch.members r = [] ∧ ch.locMembers r = []

/-- The modes add nothing to those of the channel. -/
def Mode.Adds (mode new : Mode) : Prop :=
  new.mode ⊆ mode.mode ∧ new.limit ≤ mode.limit ∧ new.key ≤ mode.key

/-- The timestamp rules leave the channel alone. -/
def Channel.Settled (ch : Channel) (head : SjoinHead) : Prop :=
  if ch.users = 0 then
    head.nicks = [] ∨ head.newts = ch.channelts ∧ head.mode = ch.mode ∧ ch.Unranked
  else if ch.channelts = 0 ∨ head.newts = ch.channelts then
    ch.mode.Adds head.mode
  else
    head.newts ≠ 0 ∧ ch.channelts < head.newts

theorem State.NoTrace.refl (s : State) : s.NoTrace s := ⟨rfl, fun _ _ => rfl⟩

end Ircd.Chan
