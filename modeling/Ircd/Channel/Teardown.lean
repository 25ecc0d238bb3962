import Ircd.Channel.Invites
import Ircd.Channel.Moves

/-!
# Channels that are destroyed

`destroy_channel` of `src/channel.c` takes a channel off everything that refers to it. The lists of members are
empty when it is called, but for one case: a leaf that is linked with LazyLinks drops a channel which only remote
clients are on. The ops with voice are on a list that `destroy_channel` leaves out.
-/
namespace Ircd.Chan

variable {s t : State} {chptr : ChannelId} {who : ClientId} {voices : Bool}

/-- `CLEANUP_CHANNELS_TIME`. -/
def cleanupChannelsTime : ℤ := 30 * 60

/-- `destroy_channel`, and the block is freed: the lists of members are gone with it. -/
def State.dropChannel (s : State) (chptr : ChannelId) : State :=
  if (s.channel chptr).rootChptr = none ∧ (s.channel chptr).vchanList ≠ [] then s.destroyChannel chptr
  else
    let destroyed := s.destroyChannel chptr
    destroyed.setChannel chptr { destroyed.channel chptr with
      members := fun _ => []
      locMembers := fun _ => []
      users := 0
      locusers := 0 }

/-- `cleanup_channels` drops the channel, though somebody is on it. -/
def State.Drops (s : State) (chptr : ChannelId) : Prop :=
  (s.channel chptr).isVchan = false ∧ (s.channel chptr).users ≠ 0 ∧
    cleanupChannelsTime ≤ s.currentTime - (s.channel chptr).usersLast ∧ (s.channel chptr).locusers = 0

instance (s : State) (chptr : ChannelId) : Decidable (s.Drops chptr) :=
  inferInstanceAs (Decidable (_ ∧ _ ∧ _ ∧ _))

/-- `cleanup_channels`, for one channel on a leaf whose uplink has `CAP_LL`. -/
def State.cleanupLeaf (s : State) (chptr : ChannelId) : State :=
  if s.Drops chptr then s.dropChannel chptr else s.cleanupChannel chptr

/-! ### The members go -/

/-- What `delete_members` does to a member. -/
def State.departed (s : State) (chptr : ChannelId) (client : Client) : Client :=
  if (s.channel chptr).rootChptr.isSome then (client.leave chptr).delVchan chptr else client.leave chptr

theorem State.deleteMembers_cons (s : State) (chptr : ChannelId) (who : ClientId) (list : List ClientId) :
    s.deleteMembers chptr (who :: list) =
      (s.setClient who (s.departed chptr (s.client who))).deleteMembers chptr list := rfl

theorem State.deleteMembers_eq (s : State) (chptr : ChannelId) {list : List ClientId} (once : list.Nodup) :
    s.deleteMembers chptr list =
      { s with client := fun u => if u ∈ list then s.departed chptr (s.client u) else s.client u } := by
  induction list generalizing s with
  | nil => simp [State.deleteMembers]
  | cons who list ih =>
    obtain ⟨absent, once⟩ := List.nodup_cons.mp once
    have same : ∀ client, (s.setClient who (s.departed chptr (s.client who))).departed chptr client =
        s.departed chptr client := fun _ => rfl
    rw [State.deleteMembers_cons, ih _ once]
    simp only [same]
    have clients : (fun u => if u ∈ list then
          s.departed chptr ((s.setClient who (s.departed chptr (s.client who))).client u)
        else (s.setClient who (s.departed chptr (s.client who))).client u) =
        fun u => if u ∈ who :: list then s.departed chptr (s.client u) else s.client u := by
      funext u
      by_cases here : u = who
      · subst here
        rw [if_neg absent, State.setClient_client, if_pos List.mem_cons_self]
      · rw [State.setClient_client_ne _ _ here]
        simp [here]
    rw [clients]
    rfl

theorem State.deleteMembers_clients (s : State) (chptr : ChannelId) (list : List ClientId) :
    ∃ client, s.deleteMembers chptr list = { s with client := client } := by
  induction list generalizing s with
  | nil => exact ⟨_, rfl⟩
  | cons who list ih =>
    obtain ⟨client, same⟩ := ih (s.setClient who (s.departed chptr (s.client who)))
    exact ⟨client, (State.deleteMembers_cons ..).trans same⟩

theorem Client.leave_channels (client : Client) (chptr : ChannelId) :
    (client.leave chptr).channels = client.channels.erase chptr := by
  unfold Client.channels Client.leave
  cases client.user with
  | none => rfl
  | some user => rfl

theorem State.departed_channels (s : State) (chptr : ChannelId) (client : Client) :
    (s.departed chptr client).channels = client.channels.erase chptr := by
  unfold State.departed
  split
  · exact Client.leave_channels client chptr
  · exact Client.leave_channels client chptr

theorem State.departed_mine (s : State) (chptr : ChannelId) (client : Client) :
    (s.departed chptr client).mine = client.mine := by
  unfold State.departed
  split <;> rfl

theorem State.departed_user (s : State) (chptr : ChannelId) (client : Client) :
    (s.departed chptr client).user = (client.leave chptr).user := by
  unfold State.departed
  split <;> rfl

theorem groups_departed (s : State) (chptr : ChannelId) (who : ClientId) :
    (s.setClient who (s.departed chptr (s.client who))).groups = s.groups.leave who chptr := by
  refine groups_congr rfl (fun _ => rfl) (fun _ => rfl) (fun u => ?_) fun u => ?_
  · rw [Groups.leave_on]
    by_cases here : u = who
    · rw [here, if_pos rfl, State.setClient_client, State.departed_channels]
      rfl
    · rw [State.setClient_client_ne _ _ here, if_neg here]
      rfl
  · rw [Groups.leave_cache]
    by_cases here : u = who
    · rw [here, if_pos rfl, State.setClient_client]
      unfold State.departed
      change _ = if (s.channel chptr).rootChptr.isSome = true then _ else _
      split
      · rfl
      · rfl
    · rw [State.setClient_client_ne _ _ here, if_neg here]
      rfl

theorem groups_deleteMembers (s : State) (chptr : ChannelId) (list : List ClientId) :
    (s.deleteMembers chptr list).groups = s.groups.evict list chptr := by
  induction list generalizing s with
  | nil => rfl
  | cons who list ih =>
    rw [State.deleteMembers_cons, ih, groups_departed]
    rfl

theorem State.deleteMembers_setChannel (s : State) (chptr : ChannelId) (list : List ClientId) {c : ChannelId}
    {ch : Channel} (root : ch.rootChptr = (s.channel c).rootChptr) :
    (s.setChannel c ch).deleteMembers chptr list = (s.deleteMembers chptr list).setChannel c ch := by
  induction list generalizing s with
  | nil => rfl
  | cons who list ih =>
    have same : ∀ client, (s.setChannel c ch).departed chptr client = s.departed chptr client := by
      intro client
      unfold State.departed
      by_cases here : chptr = c
      · rw [here, State.setChannel_channel, root]
      · rw [State.setChannel_channel_ne _ _ here]
    have commutes : (s.setChannel c ch).setClient who (s.departed chptr (s.client who)) =
        (s.setClient who (s.departed chptr (s.client who))).setChannel c ch := rfl
    rw [State.deleteMembers_cons, State.deleteMembers_cons, same, State.setChannel_client, commutes]
    exact ih (s.setClient who (s.departed chptr (s.client who))) root

/-- Those whom `destroy_channel` takes off a channel that has no local members. -/
def Channel.remote (ch : Channel) : List ClientId := destroyedRanks.flatMap ch.members

theorem Channel.Intact.remote_nodup {ch : Channel} {mine : ClientId → Bool} {member : ClientId → Prop}
    (intact : ch.Intact mine member) : ch.remote.Nodup := by
  refine List.nodup_flatMap.mpr ⟨fun r _ => Lists.nodup_of_all intact.once r, ?_⟩
  have ranks : destroyedRanks.Pairwise (· ≠ ·) := by decide
  refine ranks.imp fun different u on on' => ?_
  exact different (Lists.rank_unique intact.once on on')

theorem Channel.Intact.noLocals {ch : Channel} {mine : ClientId → Bool} {member : ClientId → Prop}
    (intact : ch.Intact mine member) (locusers : ch.locusers = 0) (r : Rank) : ch.locMembers r = [] := by
  have counted := intact.locusers
  rw [locusers] at counted
  have none : Lists.all ch.locMembers = [] := List.length_eq_zero_iff.mp (by omega)
  refine List.eq_nil_iff_forall_not_mem.mpr fun u on => ?_
  have inside : u ∈ Lists.all ch.locMembers := Lists.mem_all.mpr ⟨r, on⟩
  rw [none] at inside
  cases inside

/-- The members are taken off first, and then the channel. -/
theorem State.destroyChannel_remote (noLocals : ∀ r, (s.channel chptr).locMembers r = [])
    (goes : ¬((s.channel chptr).rootChptr = none ∧ (s.channel chptr).vchanList ≠ [])) :
    s.destroyChannel chptr = (s.deleteMembers chptr (s.channel chptr).remote).unlinkChannel chptr := by
  have stays : ((s.channel chptr).rootChptr.isNone && !(s.channel chptr).vchanList.isEmpty) = false := by
    rw [Bool.eq_false_iff]
    exact fun top => goes (by simpa using top)
  have lists : (destroyedRanks.map (s.channel chptr).members ++
      destroyedRanks.map (s.channel chptr).locMembers).flatten = (s.channel chptr).remote := by
    simp [destroyedRanks, noLocals, Channel.remote]
  have each : ∀ u : State, (destroyedRanks.map (s.channel chptr).members ++
      destroyedRanks.map (s.channel chptr).locMembers).foldl (fun s list => s.deleteMembers chptr list) u =
      u.deleteMembers chptr (s.channel chptr).remote := fun u => by
    rw [← lists, State.deleteMembers, List.foldl_flatten]
    rfl
  obtain ⟨client, left⟩ := s.deleteMembers_clients chptr (s.channel chptr).remote
  unfold State.destroyChannel State.unlinkChannel
  dsimp only
  rw [stays, if_neg Bool.false_ne_true, each]
  cases isRoot : (s.channel chptr).rootChptr with
  | none =>
    dsimp only
    rw [left]
    dsimp only
    rw [isRoot]
  | some root =>
    dsimp only
    rw [State.deleteMembers_setChannel _ _ _ (by rfl), left]
    dsimp only
    rw [isRoot]
    rfl

theorem State.unlinkChannel_channel (s : State) (chptr c : ChannelId) :
    ∃ list, (s.unlinkChannel chptr).channel c = { s.channel c with vchanList := list } := by
  unfold State.unlinkChannel
  cases (s.channel chptr).rootChptr with
  | none => exact ⟨_, rfl⟩
  | some root =>
    change ∃ list, (s.setChannel root _).channel c = _
    by_cases here : c = root
    · subst here
      exact ⟨_, State.setChannel_channel ..⟩
    · exact ⟨_, State.setChannel_channel_ne _ _ here⟩

theorem State.unlinkChannel_rest (s : State) (chptr : ChannelId) :
    (s.unlinkChannel chptr).client = s.client ∧ (s.unlinkChannel chptr).nextChannel = s.nextChannel ∧
      (s.unlinkChannel chptr).useVchans = s.useVchans ∧
      (s.unlinkChannel chptr).globalChannelList = s.globalChannelList.erase chptr := by
  unfold State.unlinkChannel
  cases (s.channel chptr).rootChptr with
  | none => exact ⟨rfl, rfl, rfl, rfl⟩
  | some root => exact ⟨rfl, rfl, rfl, rfl⟩

/-- A channel that is dropped, with everything that refers to it. The others stay. -/
structure Dropped (s : State) (chptr : ChannelId) (t : State) : Prop where
  list : t.globalChannelList = s.globalChannelList.erase chptr
  next : t.nextChannel = s.nextChannel
  vchans : t.useVchans = s.useVchans
  client : ∀ u, t.client u = if u ∈ (s.channel chptr).remote then s.departed chptr (s.client u) else s.client u
  deserted : (t.channel chptr).Deserted
  names : ∀ c, (t.channel c).chname = (s.channel c).chname ∧ (t.channel c).rootChptr = (s.channel c).rootChptr
  others : ∀ c ≠ chptr, (s.channel c).SameMembers (t.channel c)
  groups : t.groups = (s.groups.evict (s.channel chptr).remote chptr).destroy chptr

theorem State.Intact.dropped (intact : s.Intact) (old : chptr < s.nextChannel)
    (locusers : (s.channel chptr).locusers = 0)
    (goes : ¬((s.channel chptr).rootChptr = none ∧ (s.channel chptr).vchanList ≠ [])) :
    Dropped s chptr (s.dropChannel chptr) := by
  have before := intact.channels chptr old
  have taken := State.deleteMembers_eq s chptr before.remote_nodup
  have evicted := groups_deleteMembers s chptr (s.channel chptr).remote
  rw [State.dropChannel, if_neg goes, State.destroyChannel_remote (before.noLocals locusers) goes]
  generalize s.deleteMembers chptr (s.channel chptr).remote = d at taken evicted
  have channel : d.channel = s.channel := by rw [taken]
  have unlinked := d.unlinkChannel_channel chptr
  obtain ⟨client, next, vchans, list⟩ := d.unlinkChannel_rest chptr
  have linked : (d.unlinkChannel chptr).groups = (s.groups.evict (s.channel chptr).remote chptr).destroy chptr := by
    rw [← evicted]
    exact groups_unlinkChannel (by rw [channel]; exact goes)
  generalize d.unlinkChannel chptr = u at unlinked client next vchans list linked
  rw [channel] at unlinked
  constructor
  · rw [State.setChannel_globalChannelList, list, taken]
  · exact next.trans (by rw [taken])
  · exact vchans.trans (by rw [taken])
  · intro w
    rw [State.setChannel_client, client, taken]
  · rw [State.setChannel_channel]
    exact ⟨rfl, rfl, rfl, rfl⟩
  · intro c
    obtain ⟨subs, same⟩ := unlinked c
    by_cases here : c = chptr
    · subst here
      rw [State.setChannel_channel, same]
      exact ⟨rfl, rfl⟩
    · rw [State.setChannel_channel_ne _ _ here, same]
      exact ⟨rfl, rfl⟩
  · intro c here
    obtain ⟨subs, same⟩ := unlinked c
    rw [State.setChannel_channel_ne _ _ here, same]
    exact ⟨rfl, rfl, rfl, rfl⟩
  · exact (groups_setChannel (by rfl) (by rfl)).trans linked

theorem Dropped.channels (dropped : Dropped s chptr t) (u : ClientId) :
    (t.client u).channels = if u ∈ (s.channel chptr).remote then (s.client u).channels.erase chptr
      else (s.client u).channels := by
  rw [dropped.client]
  split
  · exact State.departed_channels ..
  · rfl

/-- Where no op has voice, everybody has left. -/
theorem Dropped.nobody (dropped : Dropped s chptr t) (intact : s.Intact) (old : chptr < s.nextChannel)
    (noVoiced : (s.channel chptr).members .chanopVoiced = []) (u : ClientId) : chptr ∉ (t.client u).channels := by
  intro on
  rw [dropped.channels] at on
  split at on
  · have once : (s.client u).channels.Nodup := by
      cases given : (s.client u).user with
      | none => simp [Client.channels, given]
      | some user =>
        rw [Client.channels_of_user given]
        exact (intact.joined u user given).1
    exact (once.mem_erase_iff.mp on).1 rfl
  next outside =>
    obtain ⟨r, onList⟩ := (intact.channels chptr old).rank on
    refine outside (List.mem_flatMap.mpr ⟨r, ?_, onList⟩)
    cases r with
    | chanopVoiced =>
      rw [noVoiced] at onList
      cases onList
    | _ => decide

/-- The lists are intact when the channel has gone. -/
theorem Dropped.intact (dropped : Dropped s chptr t) (intact : s.Intact) (old : chptr < s.nextChannel)
    (noVoiced : (s.channel chptr).members .chanopVoiced = []) : t.Intact := by
  have before := intact.channels chptr old
  have mine : t.mine = s.mine := by
    funext u
    rw [State.mine, dropped.client]
    split
    · exact State.departed_mine ..
    · rfl
  have others : ∀ u c, c ≠ chptr → (c ∈ (t.client u).channels ↔ c ∈ (s.client u).channels) := by
    intro u c other
    rw [dropped.channels]
    split
    · exact List.mem_erase_of_ne other
    · rfl
  refine ⟨fun c below => ?_, fun u user given => ?_, fun c member => ?_, fun u c on => ?_⟩
  · rw [dropped.next] at below
    rw [mine]
    by_cases here : c = chptr
    · subst here
      exact dropped.deserted.intact s.mine (dropped.nobody intact old noVoiced)
    · obtain ⟨members, locMembers, users, locals⟩ := dropped.others c here
      exact (intact.channels c below).congr members locMembers users locals fun u => others u c here
  · rw [dropped.client] at given
    split at given
    next isMember =>
      obtain ⟨r, -, onList⟩ := List.mem_flatMap.mp isMember
      have on : chptr ∈ (s.client u).channels := (before.back u).mpr (Lists.mem_all.mpr ⟨r, onList⟩)
      rw [State.departed_user] at given
      cases had : (s.client u).user with
      | none => simp [Client.channels, had] at on
      | some user₀ =>
        rw [Client.leave_user had] at given
        obtain rfl := Option.some.inj given
        obtain ⟨once, joined⟩ := intact.joined u user₀ had
        rw [Client.channels_of_user had] at on
        refine ⟨once.erase chptr, ?_⟩
        have fewer := List.length_erase_of_mem on
        have positive := List.length_pos_of_mem on
        dsimp only
        omega
    · exact intact.joined u user given
  · rw [dropped.next]
    rw [dropped.list] at member
    exact intact.sound.below c (List.mem_of_mem_erase member)
  · rw [dropped.next]
    by_cases here : c = chptr
    · subst here
      exact old
    · exact intact.sound.joined u c ((others u c here).mp on)

theorem State.InOrder.dropped (ordered : s.InOrder true) (listed : chptr ∈ s.globalChannelList)
    (noVoiced : (s.channel chptr).members .chanopVoiced = []) (dropped : Dropped s chptr t) : t.InOrder true := by
  have old := ordered.intact.sound.below chptr listed
  have nobody := dropped.nobody ordered.intact old noVoiced
  have fewer : ∀ c ∈ t.globalChannelList, c ∈ s.globalChannelList := fun c member => by
    rw [dropped.list] at member
    exact List.mem_of_mem_erase member
  refine ⟨dropped.intact ordered.intact old noVoiced, ?_, ordered.named.mono dropped.vchans fewer
    (fun c => (dropped.names c).1) fun c => (dropped.names c).2, Bool.noConfusion⟩
  rw [dropped.groups]
  refine (ordered.linked.evict _ chptr).destroy ?_ fun u on => ?_
  · rw [Groups.evict_all]
    exact listed
  · rw [← Groups.destroy_on, ← dropped.groups] at on
    exact nobody u on

/-! ### MODE -/

/-- The name and the links are the same. -/
def Channel.SameLinks (ch ch' : Channel) : Prop :=
  ch'.chname = ch.chname ∧ ch'.rootChptr = ch.rootChptr ∧ ch'.vchanList = ch.vchanList

theorem Change.links {x : ModeContext} {dir : Dir} {r : ModeRun} {y : Changes} {c : Char}
    (change : Change x dir r c y) : r.changes.ch.SameLinks y.ch := by
  have touches := change.touches
  generalize y.ch = ch at touches
  cases touches with
  | modes mode => exact ⟨rfl, rfl, rfl⟩
  | @masks type letter list n => cases type <;> exact ⟨rfl, rfl, rfl⟩
  | member isMember rank => exact ⟨rfl, rfl, rfl⟩

theorem State.InOrder.mode (ordered : s.InOrder true) {m : ModeCommand} (listed : m.chptr ∈ s.globalChannelList)
    (done : s.mode m = some t) : t.InOrder true := by
  have old := ordered.intact.sound.below m.chptr listed
  have intact := ordered.intact.mode old done
  obtain ⟨changes, command, rfl⟩ := Option.map_eq_some_iff.mp done
  obtain ⟨r, letters, rfl⟩ := Option.map_eq_some_iff.mp command
  have links : (s.channel m.chptr).SameLinks r.changes.ch :=
    readLetters_keeps (P := fun y => (s.channel m.chptr).SameLinks y.ch)
      (fun dir r c y change before =>
        ⟨change.links.1.trans before.1, change.links.2.1.trans before.2.1, change.links.2.2.trans before.2.2⟩)
      letters ⟨rfl, rfl, rfl⟩
  have replaced := intact.channels m.chptr old
  rw [State.setChannel_channel] at replaced
  exact ordered.setChannel replaced links.1 links.2.1 links.2.2 Bool.noConfusion

/-! ### Invitations -/

namespace Invites

variable {s : Invites}

theorem backed_delInvite (backed : s.links.Backed) (chptr : ChannelId) (who : ClientId) :
    (s.delInvite chptr who).links.Backed :=
  backed.unlink chptr who

theorem backed_addInvite (backed : s.links.Backed) (chptr : ChannelId) (who : ClientId) :
    (s.addInvite chptr who).links.Backed := by
  have once := backed.unlink chptr who
  have twice := once.unlink chptr who
  unfold addInvite delInvite
  dsimp only
  split
  · exact twice.link fun member => ((once.mem_unlink _ _ _ _).mp member).2 ⟨rfl, rfl⟩
  · exact once.link fun member => ((backed.mem_unlink _ _ _ _).mp member).2 ⟨rfl, rfl⟩

theorem addInvite_right_mem {chptr c : ChannelId} {who u : ClientId}
    (member : c ∈ (s.addInvite chptr who).links.right u) : c = chptr ∨ c ∈ s.links.right u := by
  by_cases here : u = who
  · subst here
    rw [addInvite_right] at member
    split at member
    · rcases List.mem_cons.mp member with same | before
      · exact Or.inl same
      · exact Or.inr (List.mem_of_mem_erase (List.mem_of_mem_erase before))
    · rcases List.mem_cons.mp member with same | before
      · exact Or.inl same
      · exact Or.inr (List.mem_of_mem_erase before)
  · right
    unfold addInvite delInvite Mirror.link Mirror.unlink at member
    dsimp only at member
    split at member
    · simpa [Function.update_of_ne here] using member
    · simpa [Function.update_of_ne here] using member

/-- The loop of `destroy_channel` runs until the list is empty. -/
theorem clear_left (chptr : ChannelId) {n : ℕ} {m : Mirror ChannelId ClientId} (length : (m.left chptr).length = n) :
    (clear chptr n m).left chptr = [] := by
  induction n generalizing m with
  | zero => exact List.length_eq_zero_iff.mp length
  | succ n ih =>
    rw [clear]
    cases list : m.left chptr with
    | nil => rw [list] at length; cases length
    | cons who rest =>
      refine ih ?_
      rw [list] at length
      simpa [Mirror.unlink, list] using length

theorem backed_clear (chptr : ChannelId) (n : ℕ) {m : Mirror ChannelId ClientId} (backed : m.Backed) :
    (clear chptr n m).Backed := by
  induction n generalizing m with
  | zero => exact backed
  | succ n ih =>
    rw [clear]
    split
    · exact backed
    · exact ih (backed.unlink _ _)

theorem clear_right (chptr : ChannelId) (n : ℕ) {m : Mirror ChannelId ClientId} (backed : m.Backed) {c : ChannelId}
    {who : ClientId} (member : c ∈ (clear chptr n m).right who) : c ∈ m.right who := by
  induction n generalizing m with
  | zero => exact member
  | succ n ih =>
    rw [clear] at member
    split at member
    · exact member
    · exact ((backed.mem_unlink _ _ _ _).mp (ih (backed.unlink _ _) member)).1

theorem backed_destroy (backed : s.links.Backed) (chptr : ChannelId) : (s.destroy chptr).links.Backed :=
  backed_clear chptr _ backed

theorem destroy_right (backed : s.links.Backed) {chptr c : ChannelId} {who : ClientId}
    (member : c ∈ (s.destroy chptr).links.right who) : c ∈ s.links.right who ∧ c ≠ chptr := by
  refine ⟨clear_right chptr _ backed member, ?_⟩
  rintro rfl
  have left := (backed_destroy backed c).back c who member
  rw [Invites.destroy, clear_left c rfl] at left
  cases left

theorem destroyAll (list : List ChannelId) (backed : s.links.Backed) :
    (list.foldl destroy s).links.Backed ∧ ∀ who, ∀ c ∈ (list.foldl destroy s).links.right who,
      c ∈ s.links.right who ∧ c ∉ list := by
  induction list generalizing s with
  | nil => exact ⟨backed, fun _ _ member => ⟨member, List.not_mem_nil⟩⟩
  | cons chptr list ih =>
    obtain ⟨after, members⟩ := ih (backed_destroy backed chptr)
    refine ⟨after, fun who c member => ?_⟩
    obtain ⟨inside, other⟩ := members who c member
    obtain ⟨before, different⟩ := destroy_right backed inside
    exact ⟨before, fun listed => (List.mem_cons.mp listed).elim different other⟩

theorem exit_links (backed : s.links.Backed) (who : ClientId) :
    (s.exit who).links.Backed ∧ ∀ u, ∀ c ∈ (s.exit who).links.right u, c ∈ s.links.right u := by
  have each : ∀ (list : List ChannelId) {m : Mirror ChannelId ClientId}, m.Backed →
      (list.foldl (fun m chptr => m.unlink chptr who) m).Backed ∧
        ∀ u, ∀ c ∈ (list.foldl (fun m chptr => m.unlink chptr who) m).right u, c ∈ m.right u := by
    intro list
    induction list with
    | nil => exact fun backed => ⟨backed, fun _ _ => id⟩
    | cons chptr list ih =>
      intro m backed
      obtain ⟨after, fewer⟩ := ih (backed.unlink chptr who)
      exact ⟨after, fun u c member => ((backed.mem_unlink _ _ _ _).mp (fewer u c member)).1⟩
  have forgets : ∀ {m : Mirror ChannelId ClientId}, m.Backed → (∀ u, ∀ c ∈ m.right u, c ∈ s.links.right u) →
      ∀ u, ∀ c ∈ Function.update m.right who [] u, c ∈ s.links.right u := by
    intro m _ fewer u c member
    rw [Function.update_apply] at member
    split at member
    · cases member
    · exact fewer u c member
  unfold Invites.exit
  dsimp only
  split
  · exact ⟨backed.forget who, forgets backed fun _ _ => id⟩
  · obtain ⟨after, fewer⟩ := each (s.links.right who) backed
    exact ⟨after.forget who, forgets after fewer⟩

end Invites

/-! ### Runs -/

/-- The channels, and the invitations to them. -/
structure World where
  chan : State
  invites : Invites

inductive Step where
  | move (m : Movement)
  | mode (m : ModeCommand)
  | cleanup (chptr : ChannelId)
  | invite (chptr : ChannelId) (who : ClientId)
  | uninvite (chptr : ChannelId) (who : ClientId)

/-- The channels come to be as in `t`. `destroy_channel` deletes the invitations to those that are gone. -/
def World.settle (w : World) (t : State) : World where
  chan := t
  invites := (w.chan.globalChannelList.filter (· ∉ t.globalChannelList)).foldl Invites.destroy w.invites

/-- `exit_one_client` deletes the invitations of the client after it has left its channels. -/
def World.uninviteLeaver (w : World) : Movement → World
  | .exit who => { w with invites := w.invites.exit who }
  | _ => w

def World.step (w : World) : Step → Option World
  | .move m => (w.chan.move m).map fun t => (w.settle t).uninviteLeaver m
  | .mode m => (w.chan.mode m).map w.settle
  | .cleanup chptr => some (w.settle (w.chan.cleanupLeaf chptr))
  | .invite chptr who => some { w with invites := w.invites.addInvite chptr who }
  | .uninvite chptr who => some { w with invites := w.invites.delInvite chptr who }

/-- What the callers see to: the channel exists. -/
def Step.Called (w : World) : Step → Prop
  | .move m => m.Called w.chan
  | .mode m => m.chptr ∈ w.chan.globalChannelList
  | .cleanup chptr | .invite chptr _ => chptr ∈ w.chan.globalChannelList
  | .uninvite _ _ => True

/-- A SJOIN fits to what is known of virtual channels, and does not take the modes of a channel away on which a local
op has voice. -/
def Step.Sane (w : World) : Step → Prop
  | .move m => m.Proper w.chan ∧ m.Spares w.chan
  | _ => True

/-- A channel that is dropped has no op with voice. -/
def Step.SparesVoiced (w : World) : Step → Prop
  | .cleanup chptr => w.chan.Drops chptr → (w.chan.channel chptr).vchanList = [] →
    (w.chan.channel chptr).members .chanopVoiced = []
  | _ => True

/-- Every step of the run has the property in the world in which it happens. -/
def World.Along (P : World → Step → Prop) (w : World) : List Step → Prop
  | [] => True
  | e :: steps => P w e ∧ ∀ w', w.step e = some w' → w'.Along P steps

instance (w : World) (e : Step) : Decidable (e.Called w) :=
  match e with
  | .move m =>
    match m with
    | .join who _ | .cjoin who _ _ => inferInstanceAs (Decidable ((w.chan.client who).user.isSome = true))
    | .cleanup chptr => inferInstanceAs (Decidable (chptr ∈ w.chan.globalChannelList))
    | .sjoin _ | .part _ _ | .kick _ _ _ | .join0 _ | .exit _ | .tick _ => .isTrue trivial
  | .mode m => inferInstanceAs (Decidable (m.chptr ∈ w.chan.globalChannelList))
  | .cleanup chptr | .invite chptr _ => inferInstanceAs (Decidable (chptr ∈ w.chan.globalChannelList))
  | .uninvite _ _ => .isTrue trivial

theorem World.along_cons {P : World → Step → Prop} {w : World} {e : Step} {steps : List Step} :
    w.Along P (e :: steps) ↔ P w e ∧ ∀ w', w.step e = some w' → w'.Along P steps :=
  Iff.rfl

instance World.decidableAlong (P : World → Step → Prop) [∀ w e, Decidable (P w e)] (w : World) :
    ∀ steps, Decidable (w.Along P steps)
  | [] => .isTrue trivial
  | e :: steps =>
    match stopped : w.step e with
    | none => decidable_of_iff (P w e) (by simp [World.along_cons, stopped])
    | some w' =>
      have := World.decidableAlong P w' steps
      decidable_of_iff (P w e ∧ w'.Along P steps) (by simp [World.along_cons, stopped])

theorem World.Along.mono {P Q : World → Step → Prop} (weaker : ∀ w e, P w e → Q w e) {w : World}
    {steps : List Step} (along : w.Along P steps) : w.Along Q steps := by
  induction steps generalizing w with
  | nil => trivial
  | cons e steps ih => exact ⟨weaker w e along.1, fun w' done => ih (along.2 w' done)⟩

/-- The channels are in order, and invitations are to channels that exist. -/
structure World.InOrder (w : World) : Prop where
  chan : w.chan.InOrder true
  backed : w.invites.links.Backed
  listed : ∀ u, ∀ chptr ∈ w.invites.links.right u, chptr ∈ w.chan.globalChannelList

variable {w w' : World}

theorem World.InOrder.settle (ordered : w.InOrder) (after : t.InOrder true) : (w.settle t).InOrder := by
  obtain ⟨backed, members⟩ := Invites.destroyAll (w.chan.globalChannelList.filter (· ∉ t.globalChannelList))
    ordered.backed
  refine ⟨after, backed, fun u c member => ?_⟩
  obtain ⟨before, stays⟩ := members u c member
  by_contra gone
  exact stays (List.mem_filter.mpr ⟨ordered.listed u c before, decide_eq_true gone⟩)

theorem State.InOrder.cleanupLeaf (ordered : s.InOrder true) (listed : chptr ∈ s.globalChannelList)
    (spares : s.Drops chptr → (s.channel chptr).vchanList = [] → (s.channel chptr).members .chanopVoiced = []) :
    (s.cleanupLeaf chptr).InOrder true := by
  unfold State.cleanupLeaf
  split
  next drops =>
    by_cases top : (s.channel chptr).rootChptr = none ∧ (s.channel chptr).vchanList ≠ []
    · rw [State.dropChannel, if_pos top]
      have stays : s.destroyChannel chptr = s := by
        unfold State.destroyChannel
        dsimp only
        rw [if_pos (by simpa using top)]
      rw [stays]
      exact ordered
    · have noRoot : (s.channel chptr).rootChptr = none := by simpa [Channel.isVchan] using drops.1
      have bare : (s.channel chptr).vchanList = [] := by
        by_contra subs
        exact top ⟨noRoot, subs⟩
      exact ordered.dropped listed (spares drops bare)
        (ordered.intact.dropped (ordered.intact.sound.below chptr listed) drops.2.2.2 top)
  · exact ordered.cleanupChannel listed

theorem World.InOrder.step (ordered : w.InOrder) {e : Step} (called : e.Called w) (sane : e.Sane w)
    (spares : e.SparesVoiced w) (done : w.step e = some w') : w'.InOrder := by
  cases e with
  | move m =>
    obtain ⟨t, moved, rfl⟩ := Option.map_eq_some_iff.mp done
    obtain ⟨t', moved', kept⟩ := ordered.chan.move called sane.1 fun _ => sane.2
    rw [moved] at moved'
    obtain rfl := Option.some.inj moved'
    have left := ordered.settle kept
    cases m with
    | exit who =>
      obtain ⟨backed, fewer⟩ := Invites.exit_links left.backed who
      exact ⟨left.chan, backed, fun u c member => left.listed u c (fewer u c member)⟩
    | _ => exact left
  | mode m =>
    obtain ⟨t, changed, rfl⟩ := Option.map_eq_some_iff.mp done
    exact ordered.settle (ordered.chan.mode called changed)
  | cleanup chptr =>
    obtain rfl := Option.some.inj done
    exact ordered.settle (ordered.chan.cleanupLeaf called spares)
  | invite chptr who =>
    obtain rfl := Option.some.inj done
    refine ⟨ordered.chan, Invites.backed_addInvite ordered.backed chptr who, fun u c member => ?_⟩
    rcases Invites.addInvite_right_mem member with rfl | before
    · exact called
    · exact ordered.listed u c before
  | uninvite chptr who =>
    obtain rfl := Option.some.inj done
    refine ⟨ordered.chan, Invites.backed_delInvite ordered.backed chptr who, fun u c member => ?_⟩
    exact ordered.listed u c ((ordered.backed.mem_unlink _ _ _ _).mp member).1

/-- A server that has just started, and nobody is invited. -/
structure World.Fresh (w : World) : Prop where
  chan : w.chan.Fresh
  invites : ∀ u, w.invites.links.right u = []

theorem World.Fresh.ordered (fresh : w.Fresh) : w.InOrder where
  chan := fresh.chan.ordered
  backed := by
    refine ⟨fun c u member => ?_, fun u => ?_⟩
    · rw [fresh.invites u] at member
      cases member
    · rw [fresh.invites u]
      exact List.nodup_nil
  listed u c member := by
    rw [fresh.invites u] at member
    cases member

end Ircd.Chan
