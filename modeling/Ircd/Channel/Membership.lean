import Ircd.Channel.State

/-!
# Joining, leaving and changing rank

`add_user_to_channel`, `remove_user_from_channel` and `destroy_channel` of `src/channel.c`,
and `change_channel_membership` of `src/channel_mode.c`, in the build with `REQUIRE_OANDV`.
-/
namespace Ircd.Chan

/-- `MODE_CHANOP`. -/
def modeChanop : ℕ := 1

/-- `MODE_VOICE`. -/
def modeVoice : ℕ := 2

/-- `MODE_DEOPPED`. -/
def modeDeopped : ℕ := 4

/-- `MODE_HALFOP`. -/
def modeHalfop : ℕ := 8

abbrev Lists := Rank → List ClientId

/-- `dlinkAdd`. -/
def Lists.add (lists : Lists) (r : Rank) (who : ClientId) : Lists :=
  Function.update lists r (who :: lists r)

/-- `dlinkDelete` of the node that `find_user_link` has found. -/
def Lists.delete (lists : Lists) (r : Rank) (who : ClientId) : Lists :=
  Function.update lists r ((lists r).erase who)

/-- The first of the lists on which `find_user_link` finds the client. -/
def Lists.find (lists : Lists) (order : List Rank) (who : ClientId) : Option Rank :=
  order.find? fun r => decide (who ∈ lists r)

/-- `is_chan_op`. -/
def Channel.isChanOp (ch : Channel) (who : ClientId) : Bool :=
  decide (who ∈ ch.members .chanop) || decide (who ∈ ch.members .chanopVoiced)

/-- `is_half_op`. -/
def Channel.isHalfOp (ch : Channel) (who : ClientId) : Bool := decide (who ∈ ch.members .halfop)

/-- `is_voiced`. -/
def Channel.isVoiced (ch : Channel) (who : ClientId) : Bool :=
  decide (who ∈ ch.members .voiced) || decide (who ∈ ch.members .chanopVoiced)

/-- The `switch` of `add_user_to_channel`. It has no case for an op with voice. -/
def rankOfFlags (flags : ℕ) : Rank :=
  if flags = modeChanop then .chanop
  else if flags = modeHalfop then .halfop
  else if flags = modeVoice then .voiced
  else .peon

/-- `add_user_to_channel`. -/
def State.addUserToChannel (s : State) (chptr : ChannelId) (who : ClientId) (flags : ℕ) : State :=
  match (s.client who).user with
  | none => s
  | some user =>
    let ch := s.channel chptr
    let mine := (s.client who).mine
    let ch' := { ch with
      members := Lists.add ch.members (rankOfFlags flags) who
      locMembers := if mine then Lists.add ch.locMembers (rankOfFlags flags) who else ch.locMembers
      users := ch.users + 1
      locusers := if mine then ch.locusers + 1 else ch.locusers
      usersLast := s.currentTime }
    let user' := { user with channel := chptr :: user.channel, joined := user.joined + 1 }
    (s.setChannel chptr ch').setClient who { s.client who with user := some user' }

/-- `del_vchan_from_client_cache`. -/
def Client.delVchan (client : Client) (vchan : ChannelId) : Client :=
  { client with vchanMap := client.vchanMap.eraseP (·.2 = vchan) }

/-- The back link of a member, and the counter that goes with it. -/
def Client.leave (client : Client) (chptr : ChannelId) : Client :=
  { client with
    user := client.user.map fun user =>
      { user with channel := user.channel.erase chptr, joined := user.joined - 1 } }

/-- `delete_members`, which `destroy_channel` calls on eight of the ten lists. -/
def State.deleteMembers (s : State) (chptr : ChannelId) (list : List ClientId) : State :=
  list.foldl (fun s who =>
    let client := (s.client who).leave chptr
    s.setClient who
      (if (s.channel chptr).rootChptr.isSome then client.delVchan chptr else client)) s

def destroyedRanks : List Rank := [.chanop, .voiced, .peon, .halfop]

/-- `destroy_channel`. The top of a chain of virtual channels stays. -/
def State.destroyChannel (s : State) (chptr : ChannelId) : State :=
  let ch := s.channel chptr
  if ch.rootChptr.isNone && !ch.vchanList.isEmpty then s
  else
    let unlinked := match ch.rootChptr with
      | none => s
      | some root =>
        let top := s.channel root
        s.setChannel root { top with vchanList := top.vchanList.erase chptr }
    let lists := destroyedRanks.map ch.members ++ destroyedRanks.map ch.locMembers
    let left := lists.foldl (fun s list => s.deleteMembers chptr list) unlinked
    { left with globalChannelList := left.globalChannelList.erase chptr }

/-- `sub1_from_channel`. -/
def State.sub1FromChannel (s : State) (chptr : ChannelId) (perm : Bool) : State :=
  let ch := s.channel chptr
  let users := ch.users - 1
  if users ≤ 0 then
    let s' := s.setChannel chptr { ch with users := 0 }
    if perm = false ∨ ch.channelts + s.persistTime > s.currentTime then s'.destroyChannel chptr
    else s'
  else s.setChannel chptr { ch with users := users }

/-- The lists in the order in which `remove_user_from_channel` looks at them. -/
def removeOrder : List Rank := [.peon, .chanop, .chanopVoiced, .voiced, .halfop]

def removeLocOrder : List Rank := [.peon, .chanop, .voiced, .halfop, .chanopVoiced]

/-- `remove_user_from_channel`. -/
def State.removeUserFromChannel (s : State) (chptr : ChannelId) (who : ClientId) (perm : Bool) :
    State :=
  let client := s.client who
  let ch := s.channel chptr
  -- the last one out leaves a name behind, for a virtual channel
  let ch := if ch.users = 1 then { ch with vchanId := '!' :: client.name } else ch
  match Lists.find ch.members removeOrder who with
  | none => s.setChannel chptr ch
  | some r =>
    let ch := { ch with members := Lists.delete ch.members r who }
    -- a local member is looked up again, in another order
    match client.mine, Lists.find ch.locMembers removeLocOrder who with
    | true, none => s.setChannel chptr ch
    | mine, loc =>
      let ch := { ch with
        locMembers := match mine, loc with
          | true, some r => Lists.delete ch.locMembers r who
          | _, _ => ch.locMembers
        usersLast := s.currentTime
        locusers := if mine ∧ ch.locusers > 0 then ch.locusers - 1 else ch.locusers }
      let client := client.leave chptr
      let client := if ch.rootChptr.isSome then client.delVchan chptr else client
      ((s.setChannel chptr ch).setClient who client).sub1FromChannel chptr perm

/-- The lists in the order in which `change_channel_membership` looks at them. -/
def changeOrder : List Rank := [.peon, .voiced, .halfop, .chanop, .chanopVoiced]

/-- `change_channel_membership`, for the two lists of one rank. The comparison of the local
branches is with the list for all members, so a local member is moved there in any case. -/
def Channel.changeMembership (ch : Channel) (toRank : Rank) (who : ClientId) (mine : Bool) : Channel :=
  { ch with
    locMembers := match mine, Lists.find ch.locMembers changeOrder who with
      | true, some r => Lists.add (Lists.delete ch.locMembers r who) toRank who
      | _, _ => ch.locMembers
    members := match Lists.find ch.members changeOrder who with
      | some r => if r = toRank then ch.members else Lists.add (Lists.delete ch.members r who) toRank who
      | none => ch.members }

/-! ### The rank of a member -/

@[simp] theorem Lists.add_self (lists : Lists) (r : Rank) (who : ClientId) :
    Lists.add lists r who r = who :: lists r :=
  Function.update_self ..

theorem Lists.add_ne (lists : Lists) {r r' : Rank} (who : ClientId) (different : r' ≠ r) :
    Lists.add lists r who r' = lists r' :=
  Function.update_of_ne different ..

@[simp] theorem Lists.delete_self (lists : Lists) (r : Rank) (who : ClientId) :
    Lists.delete lists r who r = (lists r).erase who :=
  Function.update_self ..

theorem Lists.delete_ne (lists : Lists) {r r' : Rank} (who : ClientId) (different : r' ≠ r) :
    Lists.delete lists r who r' = lists r' :=
  Function.update_of_ne different ..

/-- A search through all five lists finds every client that is on one of them. -/
theorem Lists.find_eq_none {lists : Lists} {order : List Rank} (all : ∀ r, r ∈ order)
    {who : ClientId} : Lists.find lists order who = none ↔ ∀ r, who ∉ lists r := by
  unfold Lists.find
  rw [List.find?_eq_none]
  constructor
  · intro nowhere r member
    exact nowhere r (all r) (decide_eq_true member)
  · intro nowhere r _ found
    exact nowhere r (of_decide_eq_true found)

theorem Lists.mem_of_find {lists : Lists} {order : List Rank} {who : ClientId} {r : Rank}
    (found : Lists.find lists order who = some r) : who ∈ lists r := by
  have shown := List.find?_some found
  exact of_decide_eq_true shown

end Ircd.Chan
