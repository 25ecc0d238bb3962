import Ircd.Channel.ModeSteps
import Ircd.Channel.Timestamps
import Mathlib.Data.List.Perm.Basic

/-!
# The integrity of the member lists

What `do_channel_integrity_check` asserts: the lists of a channel, the back links of its
members and the counters agree. Each operation on the lists keeps this, except that a SJOIN
which takes the modes away moves a local op with voice to the wrong list.
-/
namespace Ircd.Chan

/-! ### Lists by rank -/

/-- All clients on the five lists. -/
def Lists.all (lists : Lists) : List ClientId := Rank.all.flatMap lists

theorem Lists.all_eq (lists : Lists) :
    lists.all = lists .chanop ++ (lists .chanopVoiced ++ (lists .halfop ++ (lists .voiced ++
      lists .peon))) := by
  simp [Lists.all, Rank.all]

theorem Lists.mem_all {lists : Lists} {who : ClientId} : who ∈ lists.all ↔ ∃ r, who ∈ lists r := by
  simp [Lists.all]

theorem Lists.add_all (lists : Lists) (r : Rank) (who : ClientId) :
    (lists.add r who).all.Perm (who :: lists.all) := by
  rw [List.perm_iff_count]
  intro u
  -- the client counts once more on the list of its rank, and on no other
  cases r <;> simp only [Lists.all_eq, Lists.add, Function.update, List.count_append,
    List.count_cons, reduceCtorEq, dite_false, dite_true] <;> omega

theorem Lists.delete_all {lists : Lists} {r : Rank} {who : ClientId} (member : who ∈ lists r) :
    (lists.delete r who).all.Perm (lists.all.erase who) := by
  rw [List.perm_iff_count]
  intro u
  have counted : (lists r).count who ≠ 0 := fun zero => (List.count_eq_zero.mp zero) member
  rw [List.count_erase]
  cases r <;> simp only [Lists.all_eq, Lists.delete, Function.update, List.count_append,
    List.count_erase, reduceCtorEq, dite_false, dite_true] <;> split <;> rename_i same <;>
    simp only [beq_iff_eq] at same <;> subst_vars <;> omega

theorem Lists.nodup_of_all {lists : Lists} (once : lists.all.Nodup) (r : Rank) : (lists r).Nodup :=
  (List.nodup_flatMap.mp once).1 r (Rank.mem_all r)

/-- Nobody is on two lists. -/
theorem Lists.rank_unique {lists : Lists} (once : lists.all.Nodup) {r r' : Rank} {who : ClientId}
    (member : who ∈ lists r) (member' : who ∈ lists r') : r = r' := by
  by_contra different
  have counted := List.nodup_iff_count_le_one.mp once who
  have one := List.one_le_count_iff.mpr member
  have two := List.one_le_count_iff.mpr member'
  rw [Lists.all_eq] at counted
  simp only [List.count_append] at counted
  cases r <;> cases r' <;> first | omega | exact different rfl

theorem Lists.find_eq {lists : Lists} (once : lists.all.Nodup) {order : List Rank}
    (complete : ∀ r, r ∈ order) {r : Rank} {who : ClientId} (member : who ∈ lists r) :
    lists.find order who = some r := by
  cases found : lists.find order who with
  | none => exact absurd member (Lists.find_eq_none complete |>.mp found r)
  | some r' => rw [Lists.rank_unique once (Lists.mem_of_find found) member]

theorem mem_changeOrder (r : Rank) : r ∈ changeOrder := by cases r <;> decide

theorem mem_removeOrder (r : Rank) : r ∈ removeOrder := by cases r <;> decide

theorem mem_removeLocOrder (r : Rank) : r ∈ removeLocOrder := by cases r <;> decide

/-! ### The local lists -/

/-- Each local list has the local clients of the list of its rank. -/
def Lists.LocalPart (mine : ClientId → Bool) (lists locals : Lists) : Prop :=
  ∀ r, (locals r).Perm ((lists r).filter mine)

theorem Lists.LocalPart.mem_iff {mine : ClientId → Bool} {lists locals : Lists}
    (part : lists.LocalPart mine locals) {r : Rank} {who : ClientId} :
    who ∈ locals r ↔ who ∈ lists r ∧ mine who = true := by
  rw [(part r).mem_iff, List.mem_filter]

theorem Lists.LocalPart.all {mine : ClientId → Bool} {lists locals : Lists}
    (part : lists.LocalPart mine locals) : locals.all.Perm (lists.all.filter mine) := by
  simp only [Lists.all_eq, List.filter_append]
  exact (part _).append ((part _).append ((part _).append ((part _).append (part _))))

theorem Lists.LocalPart.add {mine : ClientId → Bool} {lists locals : Lists}
    (part : lists.LocalPart mine locals) (r : Rank) (who : ClientId) :
    (lists.add r who).LocalPart mine (if mine who then locals.add r who else locals) := by
  intro r'
  by_cases here : r' = r
  · subst here
    rw [Lists.add_self]
    by_cases isMine : mine who = true
    · rw [if_pos isMine, Lists.add_self, List.filter_cons_of_pos isMine]
      exact (part r').cons who
    · rw [if_neg isMine, List.filter_cons_of_neg isMine]
      exact part r'
  · rw [Lists.add_ne _ _ here]
    split
    · rw [Lists.add_ne _ _ here]
      exact part r'
    · exact part r'

theorem Lists.LocalPart.delete {mine : ClientId → Bool} {lists locals : Lists}
    (part : lists.LocalPart mine locals) (r : Rank) (who : ClientId) :
    (lists.delete r who).LocalPart mine (if mine who then locals.delete r who else locals) := by
  intro r'
  by_cases here : r' = r
  · subst here
    rw [Lists.delete_self, ← List.erase_filter]
    by_cases isMine : mine who = true
    · rw [if_pos isMine, Lists.delete_self]
      exact (part r').erase who
    · rw [if_neg isMine, List.erase_of_not_mem fun member => isMine (List.mem_filter.mp member).2]
      exact part r'
  · rw [Lists.delete_ne _ _ here]
    split
    · rw [Lists.delete_ne _ _ here]
      exact part r'
    · exact part r'

/-! ### One channel -/

/-- The lists of a channel agree with its counters, with the local clients and with the clients
that have a back link to it. -/
structure Channel.Intact (ch : Channel) (mine : ClientId → Bool) (member : ClientId → Prop) :
    Prop where
  once : (Lists.all ch.members).Nodup
  back : ∀ u, member u ↔ u ∈ Lists.all ch.members
  locals : Lists.LocalPart mine ch.members ch.locMembers
  users : ch.users = (Lists.all ch.members).length
  locusers : ch.locusers = (Lists.all ch.locMembers).length

section OneChannel

variable {ch : Channel} {mine : ClientId → Bool} {member : ClientId → Prop}

theorem Channel.Intact.rank (intact : ch.Intact mine member) {who : ClientId} (isMember : member who) :
    ∃ r, who ∈ ch.members r :=
  Lists.mem_all.mp ((intact.back who).mp isMember)

theorem Channel.Intact.loc_once (intact : ch.Intact mine member) :
    (Lists.all ch.locMembers).Nodup :=
  intact.locals.all.nodup_iff.mpr (intact.once.filter mine)

theorem Channel.Intact.findLoc (intact : ch.Intact mine member) {order : List Rank}
    (complete : ∀ r, r ∈ order) {r : Rank} {who : ClientId} (onList : who ∈ ch.members r)
    (isMine : mine who = true) : Lists.find ch.locMembers order who = some r :=
  Lists.find_eq intact.loc_once complete (intact.locals.mem_iff.mpr ⟨onList, isMine⟩)

/-- A channel with the same lists and counters. -/
theorem Channel.Intact.congr {ch' : Channel} {member' : ClientId → Prop}
    (intact : ch.Intact mine member) (members : ch'.members = ch.members)
    (locMembers : ch'.locMembers = ch.locMembers) (users : ch'.users = ch.users)
    (locusers : ch'.locusers = ch.locusers) (same : ∀ u, member' u ↔ member u) :
    ch'.Intact mine member' where
  once := members ▸ intact.once
  back u := by rw [members, same, intact.back]
  locals := by rw [members, locMembers]; exact intact.locals
  users := by rw [users, members]; exact intact.users
  locusers := by rw [locusers, locMembers]; exact intact.locusers

/-- A move between two lists. -/
private theorem Lists.move_all {lists : Lists} {r : Rank} {who : ClientId} (onList : who ∈ lists r)
    (toRank : Rank) : (((lists.delete r who).add toRank who).all).Perm lists.all :=
  (Lists.add_all _ _ _).trans
    (((Lists.delete_all onList).cons who).trans
      (List.perm_cons_erase (Lists.mem_all.mpr ⟨r, onList⟩)).symm)

private theorem Lists.LocalPart.move {lists locals : Lists} (part : lists.LocalPart mine locals)
    (r toRank : Rank) (who : ClientId) :
    ((lists.delete r who).add toRank who).LocalPart mine
      (if mine who then (locals.delete r who).add toRank who else locals) := by
  have moved := (part.delete r who).add toRank who
  by_cases isMine : mine who = true
  · simpa only [if_pos isMine] using moved
  · simpa only [if_neg isMine] using moved

theorem Channel.changeMembership_members {ch : Channel} (once : (Lists.all ch.members).Nodup)
    {r : Rank} {who : ClientId} (onList : who ∈ ch.members r) (toRank : Rank) (isMine : Bool) :
    (ch.changeMembership toRank who isMine).members =
      if r = toRank then ch.members
      else Lists.add (Lists.delete ch.members r who) toRank who := by
  simp only [Channel.changeMembership, Lists.find_eq once mem_changeOrder onList]

theorem Channel.changeMembership_all {ch : Channel} (once : (Lists.all ch.members).Nodup)
    {r : Rank} {who : ClientId} (onList : who ∈ ch.members r) (toRank : Rank) (isMine : Bool) :
    (Lists.all (ch.changeMembership toRank who isMine).members).Perm (Lists.all ch.members) := by
  rw [Channel.changeMembership_members once onList]
  split
  · exact .refl _
  · exact Lists.move_all onList toRank

/-- `change_channel_membership` keeps the lists intact. -/
theorem Channel.Intact.changeMembership (intact : ch.Intact mine member) (toRank : Rank)
    {who : ClientId} (isMember : member who) :
    (ch.changeMembership toRank who (mine who)).Intact mine member := by
  obtain ⟨r, onList⟩ := intact.rank isMember
  have members := Channel.changeMembership_members intact.once onList toRank (mine who)
  have all := Channel.changeMembership_all intact.once onList toRank (mine who)
  -- the local lists change in the same way, also where the client stays on its list
  have locMembers : (ch.changeMembership toRank who (mine who)).locMembers =
      if mine who then Lists.add (Lists.delete ch.locMembers r who) toRank who
      else ch.locMembers := by
    by_cases isMine : mine who = true
    · simp only [Channel.changeMembership, isMine, intact.findLoc mem_changeOrder onList isMine,
        if_true]
    · simp [Channel.changeMembership, isMine]
  have part := intact.locals.move r toRank who
  have locals : Lists.LocalPart mine (ch.changeMembership toRank who (mine who)).members
      (ch.changeMembership toRank who (mine who)).locMembers := by
    rw [members, locMembers]
    by_cases stays : r = toRank
    · subst stays
      rw [if_pos rfl]
      intro r'
      refine (part r').trans (List.Perm.filter mine ?_)
      by_cases here : r' = r
      · subst here
        rw [Lists.add_self, Lists.delete_self]
        exact (List.perm_cons_erase onList).symm
      · rw [Lists.add_ne _ _ here, Lists.delete_ne _ _ here]
    · rw [if_neg stays]
      exact part
  refine ⟨all.nodup_iff.mpr intact.once, fun u => ?_, locals, ?_, ?_⟩
  · rw [intact.back, all.mem_iff]
  · rw [all.length_eq]
    exact intact.users
  · rw [locals.all.length_eq, (all.filter mine).length_eq, ← intact.locals.all.length_eq]
    exact intact.locusers

/-- Nobody is on the channel. -/
structure Channel.Deserted (ch : Channel) : Prop where
  members : ch.members = fun _ => []
  locMembers : ch.locMembers = fun _ => []
  users : ch.users = 0
  locusers : ch.locusers = 0

theorem Channel.Deserted.intact (deserted : ch.Deserted) (mine : ClientId → Bool)
    (nobody : ∀ u, ¬ member u) : ch.Intact mine member where
  once := by
    rw [deserted.members]
    exact List.nodup_nil
  back u := by
    rw [deserted.members]
    exact iff_of_false (nobody u) List.not_mem_nil
  locals r := by rw [deserted.members, deserted.locMembers]; exact .refl _
  users := by rw [deserted.members, deserted.users]; rfl
  locusers := by rw [deserted.locMembers, deserted.locusers]; rfl

end OneChannel

/-! ### All channels -/

/-- `MyClient`. -/
def State.mine (s : State) (who : ClientId) : Bool := (s.client who).mine

/-- Every channel that has been created is intact, and every client counts its channels. -/
structure State.Intact (s : State) : Prop where
  channels : ∀ c < s.nextChannel, (s.channel c).Intact s.mine fun u => c ∈ (s.client u).channels
  joined : ∀ u user, (s.client u).user = some user →
    user.channel.Nodup ∧ user.joined = user.channel.length
  sound : s.Sound

/-- Steps that leave the lists, the counters and the clients alone, but for new channels. -/
theorem State.Intact.congr {s s' : State} (intact : s.Intact) (sound : s'.Sound)
    (mine : s'.mine = s.mine) (users : ∀ u, (s'.client u).user = (s.client u).user)
    (same : ∀ c < s.nextChannel, (s'.channel c).members = (s.channel c).members ∧
      (s'.channel c).locMembers = (s.channel c).locMembers ∧
      (s'.channel c).users = (s.channel c).users ∧ (s'.channel c).locusers = (s.channel c).locusers)
    (fresh : ∀ c < s'.nextChannel, s.nextChannel ≤ c → (s'.channel c).Deserted) : s'.Intact where
  channels c below := by
    have channels : ∀ u, (s'.client u).channels = (s.client u).channels := fun u => by
      simp only [Client.channels, users]
    rw [mine]
    rcases Nat.lt_or_ge c s.nextChannel with old | new
    · obtain ⟨members, locMembers, count, locCount⟩ := same c old
      exact (intact.channels c old).congr members locMembers count locCount
        fun u => by rw [channels]
    · -- nobody is on a channel that has just been created
      have nobody : ∀ u, c ∉ (s.client u).channels := fun u on =>
        absurd (intact.sound.joined u c on) (Nat.not_lt.mpr new)
      refine (fresh c below new).intact s.mine fun u => ?_
      rw [channels]
      exact nobody u
  joined u user given := intact.joined u user (users u ▸ given)
  sound := sound

theorem Client.channels_of_user {client : Client} {user : User} (given : client.user = some user) :
    client.channels = user.channel := by
  simp [Client.channels, given]

/-- `add_user_to_channel` for somebody who is not on the channel. -/
theorem State.Intact.addUserToChannel {s : State} (intact : s.Intact) {chptr : ChannelId}
    (old : chptr < s.nextChannel) {who : ClientId} (outside : chptr ∉ (s.client who).channels)
    (flags : ℕ) : (s.addUserToChannel chptr who flags).Intact := by
  have joins := State.joins_addUserToChannel s chptr who flags
  cases given : (s.client who).user with
  | none =>
    simp only [State.addUserToChannel, given]
    exact intact
  | some user =>
    have client : ∀ u, (s.addUserToChannel chptr who flags).client u =
        if u = who then
          { s.client who with
            user := some { user with channel := chptr :: user.channel, joined := user.joined + 1 } }
        else s.client u := by
      intro u
      simp only [State.addUserToChannel, given]
      by_cases here : u = who
      · rw [if_pos here, here, State.setClient_client]
      · rw [if_neg here, State.setClient_client_ne _ _ here, State.setChannel_client]
    have mine : (s.addUserToChannel chptr who flags).mine = s.mine := by
      funext u
      simp only [State.mine, client]
      by_cases here : u = who
      · rw [if_pos here, here]
        rfl
      · rw [if_neg here]
    have channels : ∀ u, ((s.addUserToChannel chptr who flags).client u).channels =
        if u = who then chptr :: (s.client u).channels else (s.client u).channels := by
      intro u
      rw [client]
      by_cases here : u = who
      · rw [if_pos here, if_pos here, here, Client.channels_of_user given]
        rfl
      · rw [if_neg here, if_neg here]
    have next : (s.addUserToChannel chptr who flags).nextChannel = s.nextChannel := by
      rw [joins.same]
    refine ⟨fun c below => ?_, fun u user' given' => ?_, joins.sound old intact.sound⟩
    · rw [next] at below
      rw [mine]
      have before := intact.channels c below
      -- the channel that is joined has one member more, on one of its lists
      by_cases here : c = chptr
      · subst here
        have all := Lists.add_all (s.channel c).members (rankOfFlags flags) who
        have part := before.locals.add (rankOfFlags flags) who
        have absent : who ∉ Lists.all (s.channel c).members := fun on =>
          outside ((before.back who).mpr on)
        simp only [State.addUserToChannel, given, State.setClient_channel, State.setChannel_channel]
        refine ⟨?_, fun u => ?_, part, ?_, ?_⟩
        · exact all.nodup_iff.mpr (List.nodup_cons.mpr ⟨absent, before.once⟩)
        · have back := before.back u
          rw [all.mem_iff, List.mem_cons]
          have member := channels u
          simp only [State.addUserToChannel, given] at member
          rw [member, ← back]
          by_cases self : u = who
          · simp [self]
          · simp [self]
        · simp only [all.length_eq, List.length_cons, Nat.cast_add, Nat.cast_one, before.users]
        · have locAll := Lists.add_all (s.channel c).locMembers (rankOfFlags flags) who
          by_cases isMine : (s.client who).mine = true
          · simp only [isMine, if_true, locAll.length_eq, List.length_cons, Nat.cast_add,
              Nat.cast_one, before.locusers]
          · simp only [isMine, if_false, Bool.false_eq_true, before.locusers]
      · rw [joins.others c here]
        refine before.congr rfl rfl rfl rfl fun u => ?_
        rw [channels]
        split
        · simp [here]
        · rfl
    · rw [client] at given'
      by_cases here : u = who
      · rw [if_pos here] at given'
        obtain rfl := Option.some.inj given'
        obtain ⟨once, count⟩ := intact.joined who user given
        rw [Client.channels_of_user given] at outside
        refine ⟨List.nodup_cons.mpr ⟨outside, once⟩, ?_⟩
        simp only [count, List.length_cons, Nat.cast_add, Nat.cast_one]
      · rw [if_neg here] at given'
        exact intact.joined u user' given'

/-! ### Leaving -/

/-- The back link of a member that leaves. -/
theorem Client.leave_user {client : Client} {user : User} (given : client.user = some user)
    (chptr : ChannelId) : (client.leave chptr).user =
      some { user with channel := user.channel.erase chptr, joined := user.joined - 1 } := by
  simp [Client.leave, given]

/-- The loops over the members of an empty channel have nothing to do. -/
theorem State.destroyChannel_eq {s : State} {chptr : ChannelId}
    (empty : ∀ r, (s.channel chptr).members r = [] ∧ (s.channel chptr).locMembers r = []) :
    s.destroyChannel chptr =
      if (s.channel chptr).rootChptr = none ∧ (s.channel chptr).vchanList ≠ [] then s
      else { (match (s.channel chptr).rootChptr with
          | none => s
          | some root => s.setChannel root { s.channel root with
              vchanList := (s.channel root).vchanList.erase chptr }) with
        globalChannelList := s.globalChannelList.erase chptr } := by
  have lists : destroyedRanks.map (s.channel chptr).members ++
      destroyedRanks.map (s.channel chptr).locMembers = [[], [], [], [], [], [], [], []] := by
    simp [destroyedRanks, empty]
  have tops : ((s.channel chptr).rootChptr.isNone && !(s.channel chptr).vchanList.isEmpty) = true ↔
      (s.channel chptr).rootChptr = none ∧ (s.channel chptr).vchanList ≠ [] := by
    simp
  unfold State.destroyChannel
  dsimp only
  rw [lists]
  by_cases top : (s.channel chptr).rootChptr = none ∧ (s.channel chptr).vchanList ≠ []
  · rw [if_pos (tops.mpr top), if_pos top]
  · rw [if_neg fun stays => top (tops.mp stays), if_neg top]
    cases (s.channel chptr).rootChptr with
    | none => rfl
    | some root => rfl

/-- What the destruction of an empty channel leaves alone. -/
theorem State.destroyChannel_channel {s : State} {chptr : ChannelId}
    (empty : ∀ r, (s.channel chptr).members r = [] ∧ (s.channel chptr).locMembers r = []) :
    (∀ c ∈ (s.destroyChannel chptr).globalChannelList, c ∈ s.globalChannelList) ∧
      (s.destroyChannel chptr).useVchans = s.useVchans ∧
      (s.destroyChannel chptr).nextChannel = s.nextChannel ∧
      (s.destroyChannel chptr).client = s.client ∧
      ∀ c, ∃ list, (s.destroyChannel chptr).channel c = { s.channel c with vchanList := list } := by
  rw [State.destroyChannel_eq empty]
  split
  · exact ⟨fun _ => id, rfl, rfl, rfl, fun c => ⟨_, rfl⟩⟩
  · cases (s.channel chptr).rootChptr with
    | none => exact ⟨fun _ => List.mem_of_mem_erase, rfl, rfl, rfl, fun c => ⟨_, rfl⟩⟩
    | some root =>
      refine ⟨fun _ => List.mem_of_mem_erase, rfl, rfl, rfl, fun c => ?_⟩
      change ∃ list, (s.setChannel root _).channel c = _
      by_cases here : c = root
      · subst here
        exact ⟨_, State.setChannel_channel ..⟩
      · exact ⟨_, State.setChannel_channel_ne _ _ here⟩

/-- A channel on which nobody is can be destroyed. -/
theorem State.Intact.destroyChannel {s : State} (intact : s.Intact) {chptr : ChannelId}
    (empty : ∀ r, (s.channel chptr).members r = [] ∧ (s.channel chptr).locMembers r = []) :
    (s.destroyChannel chptr).Intact := by
  obtain ⟨list, -, next, client, channel⟩ := State.destroyChannel_channel empty
  refine intact.congr ⟨fun c member => ?_, fun u c on => ?_⟩ ?_ (fun u => ?_) (fun c _ => ?_)
    fun c below new => ?_
  · rw [next]
    exact intact.sound.below c (list c member)
  · rw [next]
    exact intact.sound.joined u c (client ▸ on)
  · unfold State.mine
    rw [client]
  · rw [client]
  · obtain ⟨vchanList, same⟩ := channel c
    rw [same]
    exact ⟨rfl, rfl, rfl, rfl⟩
  · rw [next] at below
    exact absurd below (Nat.not_lt.mpr new)

/-- A member is taken off the lists, and everything that counts it is told. -/
private theorem State.Intact.leave {s : State} (intact : s.Intact) {chptr : ChannelId}
    (old : chptr < s.nextChannel) {who : ClientId} {r : Rank}
    (onList : who ∈ (s.channel chptr).members r) (ch : Channel)
    (members : ch.members = Lists.delete (s.channel chptr).members r who)
    (locMembers : ch.locMembers =
      if s.mine who then Lists.delete (s.channel chptr).locMembers r who
      else (s.channel chptr).locMembers)
    (users : ch.users = (s.channel chptr).users - 1)
    (locusers : ch.locusers =
      if s.mine who then (s.channel chptr).locusers - 1 else (s.channel chptr).locusers)
    {client : Client} (mine : client.mine = s.mine who)
    (left : client.user = ((s.client who).leave chptr).user) :
    ((s.setChannel chptr ch).setClient who client).Intact := by
  have before := intact.channels chptr old
  have isMember : chptr ∈ (s.client who).channels :=
    (before.back who).mpr (Lists.mem_all.mpr ⟨r, onList⟩)
  obtain ⟨user, given⟩ : ∃ user, (s.client who).user = some user := by
    cases given : (s.client who).user with
    | none => simp [Client.channels, given] at isMember
    | some user => exact ⟨user, rfl⟩
  obtain ⟨once, count⟩ := intact.joined who user given
  have isMember' := isMember
  rw [Client.channels_of_user given] at isMember'
  rw [Client.leave_user given] at left
  have clients : ∀ u, ((s.setChannel chptr ch).setClient who client).client u =
      if u = who then client else s.client u := by
    intro u
    by_cases here : u = who
    · rw [if_pos here, here, State.setClient_client]
    · rw [if_neg here, State.setClient_client_ne _ _ here, State.setChannel_client]
  have sameMine : ((s.setChannel chptr ch).setClient who client).mine = s.mine := by
    funext u
    simp only [State.mine, clients]
    by_cases here : u = who
    · rw [if_pos here, here]
      exact mine
    · rw [if_neg here]
  have channels : ∀ u c, c ∈ (((s.setChannel chptr ch).setClient who client).client u).channels ↔
      c ∈ (s.client u).channels ∧ ¬ (u = who ∧ c = chptr) := by
    intro u c
    rw [clients]
    by_cases here : u = who
    · subst here
      rw [if_pos rfl, Client.channels_of_user left, Client.channels_of_user given, once.mem_erase_iff]
      tauto
    · rw [if_neg here]
      tauto
  refine ⟨fun c below => ?_, fun u user' given' => ?_, ⟨intact.sound.below, fun u c on => ?_⟩⟩
  · rw [sameMine, State.setClient_channel]
    -- the channel that is left counts one member less, and one local member less if it was one
    by_cases here : c = chptr
    · subst here
      rw [State.setChannel_channel]
      have all := Lists.delete_all onList
      have part := before.locals.delete r who
      have inAll : who ∈ Lists.all (s.channel c).members := Lists.mem_all.mpr ⟨r, onList⟩
      have positive := List.length_pos_of_mem inAll
      refine ⟨?_, fun u => ?_, ?_, ?_, ?_⟩
      · rw [members]
        exact all.nodup_iff.mpr (before.once.erase who)
      · rw [members, all.mem_iff, before.once.mem_erase_iff, channels, ← before.back u]
        tauto
      · rw [members, locMembers]
        exact part
      · rw [users, members, all.length_eq, List.length_erase_of_mem inAll, before.users]
        omega
      · rw [locusers, locMembers]
        by_cases isMine : s.mine who = true
        · have onLoc := before.locals.mem_iff.mpr ⟨onList, isMine⟩
          have inLoc : who ∈ Lists.all (s.channel c).locMembers := Lists.mem_all.mpr ⟨r, onLoc⟩
          have locPositive := List.length_pos_of_mem inLoc
          rw [if_pos isMine, if_pos isMine, (Lists.delete_all onLoc).length_eq,
            List.length_erase_of_mem inLoc, before.locusers]
          omega
        · rw [if_neg isMine, if_neg isMine]
          exact before.locusers
    · rw [State.setChannel_channel_ne _ _ here]
      refine (intact.channels c below).congr rfl rfl rfl rfl fun u => ?_
      rw [channels]
      tauto
  · rw [clients] at given'
    by_cases here : u = who
    · rw [if_pos here, left] at given'
      obtain rfl := Option.some.inj given'
      have positive := List.length_pos_of_mem isMember'
      refine ⟨once.erase chptr, ?_⟩
      simp only [List.length_erase_of_mem isMember', count]
      omega
    · rw [if_neg here] at given'
      exact intact.joined u user' given'
  · exact intact.sound.joined u c ((channels u c).mp on).1

private theorem State.setChannel_again (s : State) (chptr : ChannelId) (ch ch' : Channel)
    (who : ClientId) (client : Client) :
    ((s.setChannel chptr ch).setClient who client).setChannel chptr ch' =
      (s.setChannel chptr ch').setClient who client := by
  simp [State.setChannel, State.setClient]

/-- A member leaves: what the channel and the client are like then, but for the fate of the channel. -/
structure Leaves (s : State) (chptr : ChannelId) (who : ClientId) (t : State) : Prop where
  intact : t.Intact
  links : ∃ r locMembers locusers usersLast id, who ∈ (s.channel chptr).members r ∧
    t = (s.setChannel chptr { s.channel chptr with
        members := Lists.delete (s.channel chptr).members r who
        locMembers := locMembers
        users := (s.channel chptr).users - 1
        locusers := locusers
        usersLast := usersLast
        vchanId := id }).setClient who
      (if (s.channel chptr).rootChptr.isSome then ((s.client who).leave chptr).delVchan chptr
        else (s.client who).leave chptr)
  locMembers : ∀ r, ((t.channel chptr).locMembers r).Sublist ((s.channel chptr).locMembers r)

/-- A channel that has no users has nobody on its lists. -/
theorem Channel.Intact.empty {ch : Channel} {mine : ClientId → Bool} {member : ClientId → Prop}
    (intact : ch.Intact mine member) (users : ch.users = 0) (r : Rank) :
    ch.members r = [] ∧ ch.locMembers r = [] := by
  have empty : Lists.all ch.members = [] := by
    have count := intact.users
    exact List.length_eq_zero_iff.mp (by omega)
  have nobody : ∀ u, u ∉ ch.members r := fun u on => by
    have inAll := Lists.mem_all.mpr ⟨r, on⟩
    rw [empty] at inAll
    cases inAll
  exact ⟨List.eq_nil_iff_forall_not_mem.mpr nobody,
    List.eq_nil_iff_forall_not_mem.mpr fun u on => nobody u (intact.locals.mem_iff.mp on).1⟩

/-- The channel is destroyed if nobody is left on it and the time test of the source says so. -/
theorem State.sub1FromChannel_eq (s : State) (chptr : ChannelId) (perm : Bool)
    (positive : 0 < (s.channel chptr).users) :
    let t := s.setChannel chptr { s.channel chptr with users := (s.channel chptr).users - 1 }
    s.sub1FromChannel chptr perm =
      if (s.channel chptr).users - 1 = 0 ∧
          (perm = false ∨ (s.channel chptr).channelts + s.persistTime > s.currentTime) then t.destroyChannel chptr
      else t := by
  unfold State.sub1FromChannel
  dsimp only
  split
  next last =>
    have none : (s.channel chptr).users - 1 = 0 := by omega
    simp only [none, true_and]
  next more => rw [if_neg fun both => more (le_of_eq both.1)]

/-- All that `remove_user_from_channel` can do: who is not on the channel does not leave it, and
a channel is destroyed only when nobody is left on it. -/
theorem State.Intact.removeUserFromChannel_eq {s : State} (intact : s.Intact)
    {chptr : ChannelId} (old : chptr < s.nextChannel) (who : ClientId) (perm : Bool) :
    ((∀ r, who ∉ (s.channel chptr).members r) ∧ ∃ id, s.removeUserFromChannel chptr who perm =
      s.setChannel chptr { s.channel chptr with vchanId := id }) ∨
    ∃ t, Leaves s chptr who t ∧ s.removeUserFromChannel chptr who perm =
      if (t.channel chptr).users = 0 ∧
          (perm = false ∨ (t.channel chptr).channelts + t.persistTime > t.currentTime) then t.destroyChannel chptr
      else t := by
  have before := intact.channels chptr old
  -- the new id of a virtual channel does not matter
  obtain ⟨ch, same, id⟩ : ∃ ch, ch = (if (s.channel chptr).users = 1 then
      { s.channel chptr with vchanId := '!' :: (s.client who).name } else s.channel chptr) ∧
      ∃ id, ch = { s.channel chptr with vchanId := id } := by
    refine ⟨_, rfl, ?_⟩
    split <;> exact ⟨_, rfl⟩
  obtain ⟨id, rfl⟩ := id
  unfold State.removeUserFromChannel
  simp only [← same]
  cases found : Lists.find (s.channel chptr).members removeOrder who with
  | none => exact Or.inl ⟨(Lists.find_eq_none mem_removeOrder).mp found, id, rfl⟩
  | some r =>
    refine Or.inr ?_
    have onList := Lists.mem_of_find found
    -- the member is on the local list of the same rank
    have locs : (s.client who).mine = true →
        Lists.find (s.channel chptr).locMembers removeLocOrder who = some r ∧
          0 < (s.channel chptr).locusers := by
      intro isMine
      refine ⟨before.findLoc mem_removeLocOrder onList isMine, ?_⟩
      have onLoc := before.locals.mem_iff.mpr ⟨onList, isMine⟩
      have := List.length_pos_of_mem (Lists.mem_all.mpr ⟨r, onLoc⟩)
      rw [before.locusers]
      omega
    have positive : 0 < (s.channel chptr).users := by
      have := List.length_pos_of_mem (Lists.mem_all.mpr ⟨r, onList⟩)
      rw [before.users]
      omega
    have sublist : ∀ r', ((if s.mine who then Lists.delete (s.channel chptr).locMembers r who
        else (s.channel chptr).locMembers) r').Sublist ((s.channel chptr).locMembers r') := by
      intro r'
      split
      · by_cases here : r' = r
        · subst here
          rw [Lists.delete_self]
          exact List.erase_sublist
        · rw [Lists.delete_ne _ _ here]
      · exact .refl _
    have finish : ∀ (ch : Channel) (client : Client) (locMembers : Lists) (locusers usersLast : ℤ),
        locMembers = (if s.mine who then Lists.delete (s.channel chptr).locMembers r who
          else (s.channel chptr).locMembers) →
        locusers = (if s.mine who then (s.channel chptr).locusers - 1
          else (s.channel chptr).locusers) →
        ch = { s.channel chptr with
          members := Lists.delete (s.channel chptr).members r who
          locMembers := locMembers
          locusers := locusers
          usersLast := usersLast
          vchanId := id } →
        client = (if (s.channel chptr).rootChptr.isSome then
          ((s.client who).leave chptr).delVchan chptr else (s.client who).leave chptr) →
        ∃ t, Leaves s chptr who t ∧
          ((s.setChannel chptr ch).setClient who client).sub1FromChannel chptr perm =
            if (t.channel chptr).users = 0 ∧
                (perm = false ∨ (t.channel chptr).channelts + t.persistTime > t.currentTime) then t.destroyChannel chptr
            else t := by
      rintro ch client locMembers locusers usersLast rfl rfl rfl rfl
      have mine : (if (s.channel chptr).rootChptr.isSome then
          ((s.client who).leave chptr).delVchan chptr
          else (s.client who).leave chptr).mine = s.mine who := by
        split <;> rfl
      have left : (if (s.channel chptr).rootChptr.isSome then
          ((s.client who).leave chptr).delVchan chptr
          else (s.client who).leave chptr).user = ((s.client who).leave chptr).user := by
        split <;> rfl
      have counted := intact.leave old onList { s.channel chptr with
        members := Lists.delete (s.channel chptr).members r who
        locMembers := if s.mine who then Lists.delete (s.channel chptr).locMembers r who
          else (s.channel chptr).locMembers
        users := (s.channel chptr).users - 1
        locusers := if s.mine who then (s.channel chptr).locusers - 1
          else (s.channel chptr).locusers
        usersLast := usersLast
        vchanId := id } rfl rfl rfl rfl mine left
      refine ⟨_, ⟨counted, ⟨r, _, _, usersLast, id, onList, rfl⟩, fun r' => ?_⟩, ?_⟩
      · rw [State.setClient_channel, State.setChannel_channel]
        exact sublist r'
      · rw [State.setClient_channel, State.setChannel_channel]
        generalize (if (s.channel chptr).rootChptr.isSome then
          ((s.client who).leave chptr).delVchan chptr else (s.client who).leave chptr) = client
        have outcome := fun ch => State.sub1FromChannel_eq ((s.setChannel chptr ch).setClient
          who client) chptr perm
        simp only [State.setClient_channel, State.setChannel_channel, State.setChannel_again]
          at outcome
        exact outcome _ positive
    cases isMine : (s.client who).mine with
    | true =>
      obtain ⟨foundLoc, some⟩ := locs isMine
      simp only [foundLoc]
      refine finish _ _ _ _ s.currentTime rfl rfl ?_ rfl
      simp [State.mine, isMine, some]
    | false =>
      simp only
      refine finish _ _ _ _ s.currentTime rfl rfl ?_ rfl
      simp [State.mine, isMine]

/-- The same, without the time test. -/
theorem State.Intact.removeUserFromChannel_cases {s : State} (intact : s.Intact)
    {chptr : ChannelId} (old : chptr < s.nextChannel) (who : ClientId) (perm : Bool) :
    ((∀ r, who ∉ (s.channel chptr).members r) ∧ ∃ id, s.removeUserFromChannel chptr who perm =
      s.setChannel chptr { s.channel chptr with vchanId := id }) ∨
    ∃ t, Leaves s chptr who t ∧
      (s.removeUserFromChannel chptr who perm = t ∧ (perm = false → (t.channel chptr).users ≠ 0) ∨
        (t.channel chptr).users = 0 ∧
          s.removeUserFromChannel chptr who perm = t.destroyChannel chptr) := by
  refine (intact.removeUserFromChannel_eq old who perm).imp_right ?_
  rintro ⟨t, leaves, result⟩
  refine ⟨t, leaves, ?_⟩
  split at result
  next ends => exact Or.inr ⟨ends.1, result⟩
  next stays => exact Or.inl ⟨result, fun off none => stays ⟨none, Or.inl off⟩⟩

/-- `remove_user_from_channel`, for members and for others. -/
theorem State.Intact.removeUserFromChannel {s : State} (intact : s.Intact) {chptr : ChannelId}
    (old : chptr < s.nextChannel) (who : ClientId) (perm : Bool) :
    (s.removeUserFromChannel chptr who perm).Intact := by
  rcases intact.removeUserFromChannel_cases old who perm with
    ⟨-, id, same⟩ | ⟨t, leaves, ⟨same, -⟩ | ⟨users, destroyed⟩⟩
  · rw [same]
    refine intact.congr ⟨intact.sound.below, intact.sound.joined⟩ rfl (fun _ => rfl)
      (fun c _ => ?_) fun c below new => absurd below (Nat.not_lt.mpr new)
    by_cases here : c = chptr
    · subst here
      simp
    · simp [State.setChannel_channel_ne _ _ here]
  · rw [same]
    exact leaves.intact
  · rw [destroyed]
    refine leaves.intact.destroyChannel ((leaves.intact.channels chptr ?_).empty users)
    obtain ⟨-, -, -, -, -, -, rfl⟩ := leaves.links
    exact old

/-! ### MODE -/

theorem Channel.Intact.sameMembers {ch ch' : Channel} {mine : ClientId → Bool}
    {member : ClientId → Prop} (intact : ch.Intact mine member) (same : ch.SameMembers ch') :
    ch'.Intact mine member :=
  intact.congr same.1 same.2.1 same.2.2.1 same.2.2.2 fun _ => Iff.rfl

/-- A channel of its own is replaced by one that is intact. -/
theorem State.Intact.setChannel {s : State} (intact : s.Intact) {chptr : ChannelId} {ch : Channel}
    (replaced : ch.Intact s.mine fun u => chptr ∈ (s.client u).channels) :
    (s.setChannel chptr ch).Intact where
  channels c below := by
    by_cases here : c = chptr
    · subst here
      rw [State.setChannel_channel]
      exact replaced
    · rw [State.setChannel_channel_ne _ _ here]
      exact intact.channels c below
  joined := intact.joined
  sound := ⟨intact.sound.below, intact.sound.joined⟩

theorem State.Intact.mode {s s' : State} (intact : s.Intact) {m : ModeCommand}
    (old : m.chptr < s.nextChannel) (done : s.mode m = some s') : s'.Intact := by
  obtain ⟨changes, command, rfl⟩ := Option.map_eq_some_iff.mp done
  obtain ⟨r, letters, rfl⟩ := Option.map_eq_some_iff.mp command
  refine intact.setChannel (readLetters_keeps
    (P := fun y => y.ch.Intact s.mine fun u => m.chptr ∈ (s.client u).channels) ?_ letters
    (intact.channels m.chptr old))
  intro dir r c y change before
  rcases change.members with same | ⟨targ, toRank, member, moved⟩
  · exact before.sameMembers same
  · rw [moved]
    exact before.changeMembership toRank (of_decide_eq_true member)

/-! ### SJOIN -/

theorem Channel.deserted_emptyChannel (name : List Char) (now : ℤ) :
    (emptyChannel name now).Deserted :=
  ⟨rfl, rfl, rfl, rfl⟩

theorem State.Intact.create {s : State} (intact : s.Intact) (name : List Char) :
    (s.create name).Intact := by
  refine intact.congr (intact.sound.create name) rfl (fun _ => rfl) (fun c old => ?_)
    fun c below new => ?_
  · rw [State.create_channel_ne s name old]
    exact ⟨rfl, rfl, rfl, rfl⟩
  · have : c < s.nextChannel + 1 := below
    have newest : c = s.nextChannel := Nat.le_antisymm (Nat.le_of_lt_succ this) new
    rw [newest, State.create_channel]
    exact Channel.deserted_emptyChannel name s.currentTime

theorem State.Intact.addVchan {s : State} (intact : s.Intact) (top chptr : ChannelId) :
    (s.addVchan top chptr).Intact := by
  refine intact.congr ((s.linked_addVchan top chptr).sound intact.sound) rfl (fun _ => rfl)
    (fun c _ => ?_) fun c below new => absurd below (Nat.not_lt.mpr new)
  rw [State.addVchan_channel]
  exact ⟨rfl, rfl, rfl, rfl⟩

theorem State.Intact.setVchanId {s : State} (intact : s.Intact) (chptr : ChannelId)
    (id : List Char) : (s.setChannel chptr { s.channel chptr with vchanId := id }).Intact := by
  refine intact.congr ⟨intact.sound.below, intact.sound.joined⟩ rfl (fun _ => rfl) (fun c _ => ?_)
    fun c below new => absurd below (Nat.not_lt.mpr new)
  by_cases here : c = chptr
  · subst here
    rw [State.setChannel_channel]
    exact ⟨rfl, rfl, rfl, rfl⟩
  · rw [State.setChannel_channel_ne _ _ here]
    exact ⟨rfl, rfl, rfl, rfl⟩

theorem State.Intact.getOrCreateChannel {s s' : State} (intact : s.Intact) {name : List Char}
    {c : ChannelId} {isnew : Bool} (got : s.getOrCreateChannel name = some (s', c, isnew)) :
    s'.Intact := by
  rcases State.getOrCreateChannel_cases got with ⟨-, rfl, -⟩ | ⟨-, -, -, rfl⟩
  · exact intact
  · exact intact.create name

theorem Entered.intact {s s₂ : State} {head : SjoinHead} {chptr : ChannelId}
    {top : Option ChannelId} {isnew : Bool} (entered : Entered s head s₂ chptr top isnew)
    (intact : s.Intact) : s₂.Intact := by
  obtain ⟨s₁, got, link⟩ := entered.between
  have intact₁ := intact.getOrCreateChannel got
  have cases := s₁.linkVchan_cases chptr head.newts entered.hash_take
    (List.length_take_le _ _)
  rw [link] at cases
  change _ ∧ s₂ = _ ∨ _ ∧ ((∃ top' base, _ ∧ _ ∧ s₂ = _) ∨ ∃ base, _ ∧ _ ∧ s₂ = _) at cases
  rcases cases with ⟨-, rfl⟩ | ⟨-, ⟨top', base, -, -, rfl⟩ | ⟨base, -, -, rfl⟩⟩
  · exact intact₁
  · exact intact₁.addVchan top' chptr
  · exact ((intact₁.create base).addVchan s₁.nextChannel chptr).setVchanId chptr ['!']

/-- `remove_our_modes` when no local op has voice. -/
theorem Channel.Intact.removeOurModes {ch : Channel} {mine : ClientId → Bool}
    {member : ClientId → Prop} (intact : ch.Intact mine member)
    (spared : ch.locMembers .chanopVoiced = []) : ch.removeOurModes.Intact mine member := by
  have all : (Lists.all ch.removeOurModes.members).Perm (Lists.all ch.members) := by
    rw [List.perm_iff_count]
    intro u
    simp only [Lists.all_eq, Channel.removeOurModes, spared, List.count_append, List.count_nil]
    omega
  have locals : Lists.LocalPart mine ch.removeOurModes.members ch.removeOurModes.locMembers := by
    intro r
    cases r with
    | peon =>
      have voicedOps := intact.locals .chanopVoiced
      rw [spared] at voicedOps
      simp only [Channel.removeOurModes, spared, List.nil_append, List.filter_append,
        ← voicedOps.nil_eq]
      exact (intact.locals .voiced).append ((intact.locals .halfop).append
        ((intact.locals .chanop).append (intact.locals .peon)))
    | _ => exact .refl _
  refine ⟨all.nodup_iff.mpr intact.once, fun u => ?_, locals, ?_, ?_⟩
  · rw [intact.back, all.mem_iff]
  · rw [all.length_eq]
    exact intact.users
  · rw [locals.all.length_eq, (all.filter mine).length_eq, ← intact.locals.all.length_eq]
    exact intact.locusers

/-- The cache of virtual channels has nothing to do with the lists. -/
theorem State.Intact.vchanMap {s : State} (intact : s.Intact) (who : ClientId)
    (vchanMap : List (ChannelId × ChannelId)) :
    (s.setClient who { s.client who with vchanMap := vchanMap }).Intact := by
  have client : ∀ {α : Type} (f : Client → α), (∀ client list, f { client with vchanMap := list } =
      f client) → ∀ u, f ((s.setClient who { s.client who with vchanMap := vchanMap }).client u) =
        f (s.client u) := by
    intro α f same u
    by_cases here : u = who
    · rw [here, State.setClient_client, same]
    · rw [State.setClient_client_ne _ _ here]
  refine intact.congr ⟨intact.sound.below, fun u c on => intact.sound.joined u c ?_⟩
    (funext (client Client.mine fun _ _ => rfl)) (client Client.user fun _ _ => rfl)
    (fun _ _ => ⟨rfl, rfl, rfl, rfl⟩) fun c below new => absurd below (Nat.not_lt.mpr new)
  rwa [client Client.channels fun _ _ => rfl] at on

/-- One nick of the message. -/
theorem State.Intact.nickStep {l : NickLoop} (intact : l.state.Intact) {chptr : ChannelId}
    (old : chptr < l.state.nextChannel) (clientP : ClientId) (top : Option ChannelId)
    (keepNewModes : Bool) (nick : List Char) :
    (Chan.nickStep clientP chptr top keepNewModes l nick).state.Intact ∧
      (Chan.nickStep clientP chptr top keepNewModes l nick).state.nextChannel =
        l.state.nextChannel := by
  have next : ∀ who flags, (l.state.addUserToChannel chptr who flags).nextChannel =
      l.state.nextChannel := fun who flags => by
    rw [(State.joins_addUserToChannel l.state chptr who flags).same]
  unfold Chan.nickStep
  dsimp only
  cases l.state.findClient (readPrefixes keepNewModes nick).nick with
  | none => exact ⟨intact, rfl⟩
  | some target =>
    unfold takeNick
    dsimp only
    split
    · exact ⟨intact, rfl⟩
    · dsimp only
      split
      · exact ⟨intact, rfl⟩
      · rename_i outside
        have added := intact.addUserToChannel old
          (fun on => outside (decide_eq_true on) : chptr ∉ (l.state.client target).channels)
          (flagsOf keepNewModes (readPrefixes keepNewModes nick).fl)
        split
        · split
          · exact ⟨added, next _ _⟩
          · exact ⟨added.vchanMap target _, next _ _⟩
        · exact ⟨added, next _ _⟩

theorem State.Intact.nickLoop {l : NickLoop} (intact : l.state.Intact) {chptr : ChannelId}
    (old : chptr < l.state.nextChannel) (clientP : ClientId) (top : Option ChannelId)
    (keepNewModes : Bool) (nicks : List (List Char)) :
    (nicks.foldl (Chan.nickStep clientP chptr top keepNewModes) l).state.Intact := by
  induction nicks generalizing l with
  | nil => exact intact
  | cons nick nicks ih =>
    have first := intact.nickStep old clientP top keepNewModes nick
    rw [List.foldl_cons]
    exact ih first.1 (first.2.symm ▸ old)

/-- The message does not take the modes of a channel away on which a local op has voice. -/
def SjoinMessage.Spares (m : SjoinMessage) (s : State) : Prop :=
  ∀ head chptr, sjoinHead s m.source m.parv = some head →
    s.hashFindChannel (head.chname.take channelLen) = some chptr →
    head.newts ≠ 0 → (s.channel chptr).channelts ≠ 0 →
    head.newts < (s.channel chptr).channelts → (s.channel chptr).locMembers .chanopVoiced = []

/-- When the verdict takes the modes of the channel away. -/
theorem tsRules_lost {isnew : Bool} {users newts oldts : ℤ} {nicks : List Char} {verdict : Verdict}
    (rules : tsRules isnew users nicks newts oldts = some verdict)
    (lost : verdict.keepOurModes = false) :
    isnew = false ∧ (users = 0 ∨ newts ≠ 0 ∧ oldts ≠ 0 ∧ newts < oldts) := by
  unfold tsRules at rules
  split at rules
  · cases rules
    cases lost
  · rename_i old
    refine ⟨by simpa using old, ?_⟩
    split at rules
    · rename_i empty
      exact Or.inl empty.1
    · split at rules
      · cases rules
      · split at rules
        · cases rules
          cases lost
        · rename_i zero
          split at rules
          · cases rules
            cases lost
          · split at rules
            · rename_i less
              exact Or.inr ⟨fun none => zero (Or.inl none), fun none => zero (Or.inr none), less⟩
            · cases rules
              cases lost

/-- What a verdict does to the lists. -/
theorem Channel.Intact.judged {ch : Channel} {mine : ClientId → Bool} {member : ClientId → Prop}
    (intact : ch.Intact mine member) {verdict : Verdict} (new : Mode)
    (spared : verdict.keepOurModes = false → ch.locMembers .chanopVoiced = []) :
    (ch.judged verdict new).Intact mine member := by
  cases keep : verdict.keepOurModes with
  | true =>
    obtain ⟨members, locMembers⟩ := Channel.judged_members new keep
    refine intact.sameMembers ⟨members, locMembers, Channel.judged_users _ _ _, ?_⟩
    simp [Channel.judged, keep]
  | false =>
    have removed := intact.removeOurModes (spared keep)
    simp only [Channel.judged, keep, Bool.false_eq_true, if_false]
    exact removed.congr rfl rfl rfl rfl fun _ => Iff.rfl

/-- Where the verdict takes the modes of a channel away, it has no local op with voice. -/
theorem Entered.spared {s s₂ : State} {m : SjoinMessage} {head : SjoinHead} {chptr : ChannelId}
    {top : Option ChannelId} {isnew : Bool} (entered : Entered s head s₂ chptr top isnew) (sound : s.Sound)
    (intact : s₂.Intact) (read : sjoinHead s m.source m.parv = some head) (spares : m.Spares s) {verdict : Verdict}
    (rules : tsRules isnew (s₂.channel chptr).users head.nicks head.newts (s₂.channel chptr).channelts = some verdict)
    (lost : verdict.keepOurModes = false) : (s₂.channel chptr).locMembers .chanopVoiced = [] := by
  obtain ⟨-, old, -, -, ⟨root, list, id, found⟩, -⟩ := entered.cases sound
  obtain ⟨existed, empty | ⟨newts, oldts, less⟩⟩ := tsRules_lost rules lost
  · exact ((intact.channels chptr old).empty empty _).2
  · rcases found with ⟨-, name, equal⟩ | ⟨fresh, -⟩
    · rw [equal] at oldts less ⊢
      exact spares head chptr read name newts oldts less
    · rw [existed] at fresh
      cases fresh

theorem State.Intact.receive {s : State} (intact : s.Intact) {m : SjoinMessage}
    (spares : m.Spares s) : (s.receive m).Intact := by
  unfold State.receive
  cases read : sjoinHead s m.source m.parv with
  | none =>
    unfold State.msSjoin
    rw [read]
    exact intact
  | some head =>
    obtain ⟨s₂, chptr, top, isnew, entered, ⟨-, ignored⟩ | ⟨verdict, rules, judged⟩⟩ :=
      State.msSjoin_entered m.clientP read
    · rw [ignored]
      exact entered.intact intact
    · have intact₂ := entered.intact intact
      obtain ⟨-, old, -⟩ := entered.cases intact.sound
      have before := intact₂.channels chptr old
      have replaced : ((s₂.channel chptr).judged verdict head.mode).Intact s₂.mine
          fun u => chptr ∈ (s₂.client u).channels := by
        exact before.judged head.mode (entered.spared intact.sound intact₂ read spares rules)
      rw [judged]
      have intact₃ := intact₂.setChannel replaced
      unfold State.sjoinMembers
      dsimp only
      split
      · exact intact₃
      · exact State.Intact.nickLoop (l := ⟨_, [], [], 0, []⟩) intact₃ old m.clientP top _ _

/-- Nicks are put on the lists; nobody is taken off them. -/
theorem nickStep_members (clientP : ClientId) (chptr : ChannelId) (top : Option ChannelId)
    (keepNewModes : Bool) (l : NickLoop) (nick : List Char) (r : Rank) :
    ((l.state.channel chptr).members r).Sublist
      (((nickStep clientP chptr top keepNewModes l nick).state.channel chptr).members r) := by
  have added : ∀ who flags, ((l.state.channel chptr).members r).Sublist
      (((l.state.addUserToChannel chptr who flags).channel chptr).members r) := by
    intro who flags
    unfold State.addUserToChannel
    cases (l.state.client who).user with
    | none => exact .refl _
    | some user =>
      simp only [State.setClient_channel, State.setChannel_channel]
      by_cases here : r = rankOfFlags flags
      · subst here
        rw [Lists.add_self]
        exact List.sublist_cons_self _ _
      · rw [Lists.add_ne _ _ here]
  unfold nickStep
  dsimp only
  cases l.state.findClient (readPrefixes keepNewModes nick).nick with
  | none => exact .refl _
  | some target =>
    unfold takeNick
    dsimp only
    split
    · exact .refl _
    · dsimp only
      split
      · exact .refl _
      · split
        · split
          · exact added _ _
          · rw [State.setClient_channel]
            exact added _ _
        · exact added _ _

theorem nickLoop_members (clientP : ClientId) (chptr : ChannelId) (top : Option ChannelId)
    (keepNewModes : Bool) (l : NickLoop) (nicks : List (List Char)) (r : Rank) :
    ((l.state.channel chptr).members r).Sublist
      (((nicks.foldl (nickStep clientP chptr top keepNewModes) l).state.channel chptr).members r) := by
  induction nicks generalizing l with
  | nil => exact .refl _
  | cons nick nicks ih =>
    rw [List.foldl_cons]
    exact (nickStep_members clientP chptr top keepNewModes l nick r).trans (ih _)

/-- A local op with voice is on the list of peons twice after `remove_our_modes`. -/
theorem Channel.Intact.removeOurModes_twice {ch : Channel} {mine : ClientId → Bool}
    {member : ClientId → Prop} (intact : ch.Intact mine member)
    (hit : ch.locMembers .chanopVoiced ≠ []) : ¬ (ch.removeOurModes.members .peon).Nodup := by
  obtain ⟨who, onLoc⟩ := List.exists_mem_of_ne_nil _ hit
  have onList := (intact.locals.mem_iff.mp onLoc).1
  rw [List.nodup_iff_count_le_one]
  intro once
  have counted := once who
  have first := List.one_le_count_iff.mpr onLoc
  have second := List.one_le_count_iff.mpr onList
  simp only [Channel.removeOurModes, List.count_append] at counted
  omega

/-- A message that does not spare a local op with voice leaves the lists broken. -/
theorem State.Intact.broken {s : State} (intact : s.Intact) {m : SjoinMessage}
    (hits : ¬ m.Spares s) : ¬ (s.receive m).Intact := by
  unfold SjoinMessage.Spares at hits
  push Not at hits
  obtain ⟨head, chptr, read, name, newts, oldts, less, hit⟩ := hits
  obtain ⟨s₂, chptr', top, isnew, entered, outcome⟩ := State.msSjoin_entered m.clientP read
  obtain ⟨-, old, -, -, ⟨root, list, id, found⟩, -⟩ := entered.cases intact.sound
  obtain ⟨existed, same, equal⟩ : isnew = false ∧ chptr' = chptr ∧ s₂.channel chptr' =
      { s.channel chptr with rootChptr := root, vchanList := list, vchanId := id } := by
    rcases found with ⟨existed, name', equal⟩ | ⟨-, none, -⟩
    · rw [name] at name'
      obtain rfl := Option.some.inj name'
      exact ⟨existed, rfl, equal⟩
    · rw [name] at none
      cases none
  subst same
  have before := (entered.intact intact).channels chptr' old
  have hit' : (s₂.channel chptr').locMembers .chanopVoiced ≠ [] := by rwa [equal]
  -- the channel has users, and so the rules say that the modes are lost
  have users : (s₂.channel chptr').users ≠ 0 := fun none => hit' ((before.empty none _).2)
  have rules : tsRules isnew (s₂.channel chptr').users head.nicks head.newts
      (s₂.channel chptr').channelts = some ⟨head.newts, head.newts, false, true⟩ := by
    have oldts' : (s₂.channel chptr').channelts = (s.channel chptr').channelts := by rw [equal]
    unfold tsRules
    simp [existed, users, oldts', newts, oldts, less, less.ne]
  rcases outcome with ⟨none, -⟩ | ⟨verdict, rules', judged⟩
  · rw [rules] at none
    cases none
  · rw [rules] at rules'
    obtain rfl := Option.some.inj rules'
    have broken := before.removeOurModes_twice hit'
    -- what follows only adds to the list
    have grown : ((s₂.channel chptr').removeOurModes.members .peon).Sublist
        (((s.msSjoin m.clientP m.source m.parv).state.channel chptr').members .peon) := by
      rw [judged]
      have start : (((s₂.setChannel chptr' ((s₂.channel chptr').judged
          ⟨head.newts, head.newts, false, true⟩ head.mode)).channel chptr').members .peon) =
            (s₂.channel chptr').removeOurModes.members .peon := by
        rw [State.setChannel_channel]
        rfl
      rw [← start]
      unfold State.sjoinMembers
      dsimp only
      split
      · exact .refl _
      · exact nickLoop_members m.clientP chptr' top _ ⟨_, [], [], 0, []⟩ _ _
    intro after
    have next : chptr' < (s.receive m).nextChannel := by
      unfold State.receive
      rw [judged]
      unfold State.sjoinMembers
      dsimp only
      split
      · exact old
      · have joins := (nickLoop_round m.clientP chptr' top true (sjoinNicks head.nicks)
          ⟨s₂.setChannel chptr' ((s₂.channel chptr').judged ⟨head.newts, head.newts, false, true⟩
            head.mode), [], [], 0, []⟩).joins
        rw [joins.same]
        exact old
    have once := (after.channels chptr' next).once
    exact broken ((Lists.nodup_of_all once .peon).sublist grown)

/-! ### Runs -/

/-- What can happen to the lists of members. -/
inductive Event where
  | create (chname : List Char)
  | add (chptr : ChannelId) (who : ClientId) (flags : ℕ)
  | remove (chptr : ChannelId) (who : ClientId) (perm : Bool)
  | mode (m : ModeCommand)
  | sjoin (m : SjoinMessage)

/-- The state after an event; there is none where the server stops. -/
def State.handle (s : State) : Event → Option State
  | .create chname => (s.getOrCreateChannel chname).map Prod.fst
  | .add chptr who flags => some (s.addUserToChannel chptr who flags)
  | .remove chptr who perm => some (s.removeUserFromChannel chptr who perm)
  | .mode m => s.mode m
  | .sjoin m => some (s.receive m)

/-- What the callers see to: the channel exists, and nobody is added to it twice. -/
def Event.Called (s : State) : Event → Prop
  | .create _ => True
  | .add chptr who _ => chptr ∈ s.globalChannelList ∧ chptr ∉ (s.client who).channels
  | .remove chptr _ _ => chptr ∈ s.globalChannelList
  | .mode m => m.chptr ∈ s.globalChannelList
  | .sjoin _ => True

def Event.Spares (s : State) : Event → Prop
  | .sjoin m => m.Spares s
  | _ => True

/-- Every event of the run has the property in the state in which it happens. -/
def State.Along (P : State → Event → Prop) (s : State) : List Event → Prop
  | [] => True
  | e :: events => P s e ∧ ∀ s', s.handle e = some s' → s'.Along P events

instance (s : State) (e : Event) : Decidable (e.Called s) :=
  match e with
  | .create _ => .isTrue trivial
  | .add chptr who _ =>
    inferInstanceAs (Decidable (chptr ∈ s.globalChannelList ∧ chptr ∉ (s.client who).channels))
  | .remove chptr _ _ => inferInstanceAs (Decidable (chptr ∈ s.globalChannelList))
  | .mode m => inferInstanceAs (Decidable (m.chptr ∈ s.globalChannelList))
  | .sjoin _ => .isTrue trivial

theorem State.along_cons {P : State → Event → Prop} {s : State} {e : Event} {events : List Event} :
    s.Along P (e :: events) ↔ P s e ∧ ∀ s', s.handle e = some s' → s'.Along P events :=
  Iff.rfl

instance State.decidableAlong (P : State → Event → Prop) [∀ s e, Decidable (P s e)] (s : State) :
    ∀ events, Decidable (s.Along P events)
  | [] => .isTrue trivial
  | e :: events =>
    match stopped : s.handle e with
    | none => decidable_of_iff (P s e) (by simp [State.along_cons, stopped])
    | some s' =>
      have := State.decidableAlong P s' events
      decidable_of_iff (P s e ∧ s'.Along P events) (by simp [State.along_cons, stopped])

theorem State.Along.mono {P Q : State → Event → Prop} (weaker : ∀ s e, P s e → Q s e) {s : State}
    {events : List Event} (along : s.Along P events) : s.Along Q events := by
  induction events generalizing s with
  | nil => trivial
  | cons e events ih => exact ⟨weaker s e along.1, fun s' done => ih (along.2 s' done)⟩

/-- The event leads to an intact state. -/
def Event.Keeps (s : State) (e : Event) : Prop := ∀ s', s.handle e = some s' → s'.Intact

/-- A server that has just started: there are no channels. -/
structure State.Started (s : State) : Prop where
  channels : s.globalChannelList = []
  next : s.nextChannel = 0
  users : ∀ u user, (s.client u).user = some user → user.channel = [] ∧ user.joined = 0

theorem State.Started.intact {s : State} (started : s.Started) : s.Intact where
  channels c below := by
    rw [started.next] at below
    exact absurd below (Nat.not_lt_zero c)
  joined u user given := by
    obtain ⟨none, zero⟩ := started.users u user given
    rw [none, zero]
    exact ⟨List.nodup_nil, rfl⟩
  sound := by
    refine ⟨fun c member => ?_, fun u c on => ?_⟩
    · rw [started.channels] at member
      cases member
    · unfold Client.channels at on
      cases given : (s.client u).user with
      | none => simp [given] at on
      | some user => simp [given, (started.users u user given).1] at on

/-- One event keeps the lists intact if and only if it spares the local ops with voice. -/
theorem State.Intact.keeps_iff {s : State} (intact : s.Intact) {e : Event} (called : e.Called s) :
    e.Keeps s ↔ e.Spares s := by
  unfold Event.Keeps
  cases e with
  | create chname =>
    refine iff_of_true (fun s' done => ?_) trivial
    obtain ⟨⟨s₁, c, isnew⟩, got, rfl⟩ := Option.map_eq_some_iff.mp done
    exact intact.getOrCreateChannel got
  | add chptr who flags =>
    refine iff_of_true (fun s' done => ?_) trivial
    obtain rfl := Option.some.inj done
    exact intact.addUserToChannel (intact.sound.below _ called.1) called.2 flags
  | remove chptr who perm =>
    refine iff_of_true (fun s' done => ?_) trivial
    obtain rfl := Option.some.inj done
    exact intact.removeUserFromChannel (intact.sound.below _ called) who perm
  | mode m =>
    exact iff_of_true (fun s' done => intact.mode (intact.sound.below _ called) done) trivial
  | sjoin m =>
    constructor
    · intro keeps
      by_contra hits
      exact intact.broken hits (keeps _ rfl)
    · intro spares s' done
      obtain rfl := Option.some.inj done
      exact intact.receive spares

/-- A run passes through intact states only, if and only if no SJOIN in it takes the modes of a
channel away on which a local op has voice. -/
theorem along_keeps_iff {s : State} (started : s.Started) {events : List Event}
    (called : s.Along Event.Called events) :
    s.Along Event.Keeps events ↔ s.Along Event.Spares events := by
  have intact := started.intact
  clear started
  induction events generalizing s with
  | nil => exact Iff.rfl
  | cons e events ih =>
    obtain ⟨first, rest⟩ := called
    have step := intact.keeps_iff first
    constructor
    · rintro ⟨keeps, after⟩
      exact ⟨step.mp keeps, fun s' done => (ih (rest s' done) (keeps s' done)).mp (after s' done)⟩
    · rintro ⟨spares, after⟩
      have keeps := step.mpr spares
      exact ⟨keeps, fun s' done => (ih (rest s' done) (keeps s' done)).mpr (after s' done)⟩

/-- A local op gives himself voice, and a server has the channel from before that. -/
def takenModes : List Event :=
  [.create ['#', 'x'], .add 0 3 modeChanop, .mode ⟨3, 3, 0, [['+', 'v'], ['c']]⟩,
    .sjoin ⟨0, 0, [['s'], ['5'], ['#', 'x'], ['0'], ['@', 'a']]⟩]

theorem smallNetwork_started : smallNetwork.Started where
  channels := rfl
  next := rfl
  users u user given := by
    match u with
    | 0 => cases given
    | 1 => cases given; exact ⟨rfl, rfl⟩
    | 2 => cases given; exact ⟨rfl, rfl⟩
    | _ + 3 => cases given; exact ⟨rfl, rfl⟩

theorem along_keeps_iff_takenModes :
    smallNetwork.Along Event.Keeps takenModes ↔ smallNetwork.Along Event.Spares takenModes :=
  along_keeps_iff smallNetwork_started (by decide +kernel)

/-- The local op is on the list of peons twice. -/
theorem voiced_op_twice : smallNetwork.Started ∧ smallNetwork.Along Event.Called takenModes ∧
    ¬ smallNetwork.Along Event.Keeps takenModes := by
  refine ⟨smallNetwork_started, by decide +kernel, fun keeps => ?_⟩
  -- the first channel is enough to see it
  have once : smallNetwork.Along (fun s e => ∀ s' ∈ s.handle e,
      0 < s'.nextChannel → (Lists.all (s'.channel 0).members).Nodup) takenModes :=
    keeps.mono fun s e kept s' done created => ((kept s' done).channels 0 created).once
  revert once
  decide +kernel

end Ircd.Chan
