import Ircd.Channel.Integrity
import Ircd.Channel.Join
import Ircd.Lib.Groups

/-!
# The links of virtual channels

A virtual channel points to its root, the root lists it, and its members have it in their
`vchan_map`. What the operations do to this is what the operations on groups do.
-/
namespace Ircd.Chan

/-! ### Channels as groups -/

def State.groups (s : State) : Groups ChannelId ClientId where
  all := s.globalChannelList
  root c := (s.channel c).rootChptr
  subs c := (s.channel c).vchanList
  on u := (s.client u).channels
  cache u := (s.client u).vchanMap

variable {s t : State} {chptr top : ChannelId} {who : ClientId}

/-- No two channels have one name, and the name of a virtual channel leads to its root. -/
structure State.Named (s : State) : Prop where
  unique : ∀ c ∈ s.globalChannelList, ∀ d ∈ s.globalChannelList,
    IrcEq (s.channel c).chname (s.channel d).chname → c = d
  vchan : ∀ c ∈ s.globalChannelList, ∀ b, (s.channel c).rootChptr = some b →
    ∃ base suffix, s.splitVchan (s.channel c).chname = some (base, suffix) ∧
      IrcEq base.tail (s.channel b).chname

/-- The links are in order, and so are the lists of members. No local op has voice. -/
structure State.Rooted (s : State) : Prop where
  intact : s.Intact
  linked : s.groups.Linked
  named : s.Named
  plain : ∀ c < s.nextChannel, (s.channel c).locMembers .chanopVoiced = []

/-- The same where MODE is used too: then a local op may have voice. -/
structure State.InOrder (s : State) (voices : Bool) : Prop where
  intact : s.Intact
  linked : s.groups.Linked
  named : s.Named
  plain : voices = false → ∀ c < s.nextChannel, (s.channel c).locMembers .chanopVoiced = []

theorem State.rooted_iff : s.Rooted ↔ s.InOrder false :=
  ⟨fun rooted => ⟨rooted.intact, rooted.linked, rooted.named, fun _ => rooted.plain⟩,
    fun ordered => ⟨ordered.intact, ordered.linked, ordered.named, ordered.plain rfl⟩⟩

theorem State.Named.find (named : s.Named) {name : List Char} (listed : chptr ∈ s.globalChannelList)
    (equal : IrcEq name (s.channel chptr).chname) : s.hashFindChannel name = some chptr := by
  cases found : s.hashFindChannel name with
  | none =>
    have none := List.find?_eq_none.mp found chptr listed
    exact absurd (decide_eq_true equal) none
  | some c =>
    obtain ⟨member, same⟩ := State.hashFindChannel_some found
    rw [named.unique c member chptr listed (same.symm.trans equal)]

/-! ### Names up to case -/

theorem toUpper_underscore (c : Char) : (toUpper c != '_') = (c != '_') := by
  by_cases here : c = '_'
  · subst here
    rfl
  · have upper : toUpper c ≠ '_' := by
      unfold toUpper
      split
      next lower =>
        intro equal
        have least : 97 ≤ c.toNat := lower.1
        have most : c.toNat ≤ 126 := lower.2
        have value := congrArg Char.toNat equal
        rw [toNat_charOfNat _ (by omega)] at value
        have underscore : '_'.toNat = 95 := rfl
        omega
      · exact here
    rw [bne_iff_ne.mpr here, bne_iff_ne.mpr upper]

theorem splitLastUnderscore_map (name : List Char) :
    splitLastUnderscore (name.map toUpper) =
      (splitLastUnderscore name).map fun parts => (parts.1.map toUpper, parts.2.map toUpper) := by
  have comp : (fun c => c != '_') ∘ toUpper = fun c => c != '_' := funext toUpper_underscore
  have inside : '_' ∈ name.map toUpper ↔ '_' ∈ name := by
    constructor
    · intro member
      obtain ⟨c, here, equal⟩ := List.mem_map.mp member
      have same := toUpper_underscore c
      rw [equal] at same
      obtain rfl : c = '_' := by simpa using same.symm
      exact here
    · exact fun member => List.mem_map.mpr ⟨'_', member, rfl⟩
  unfold splitLastUnderscore
  by_cases member : '_' ∈ name
  · rw [if_pos (inside.mpr member), if_pos member, Option.map_some, ← List.map_reverse,
      List.dropWhile_map, List.takeWhile_map, comp, ← List.map_tail, ← List.map_reverse,
      ← List.map_reverse]
  · rw [if_neg fun upper => member (inside.mp upper), if_neg member, Option.map_none]

/-- Names that are equal up to case lead to one root. -/
theorem State.splitVchan_congr {name name' base suffix : List Char} (equal : IrcEq name name')
    (split : s.splitVchan name = some (base, suffix)) :
    ∃ base' suffix', s.splitVchan name' = some (base', suffix') ∧ IrcEq base.tail base'.tail := by
  unfold State.splitVchan at split ⊢
  split at split
  next vchan =>
    obtain ⟨second, use⟩ := vchan
    have second' : name'[1]? = some '#' := by
      have upper : (name.map toUpper)[1]? = (name'.map toUpper)[1]? := by rw [show name.map toUpper =
        name'.map toUpper from equal]
      rw [List.getElem?_map, List.getElem?_map, second] at upper
      obtain ⟨c, found, hash⟩ := Option.map_eq_some_iff.mp upper.symm
      rw [found, eq_of_toUpper (hash.trans rfl : toUpper c = '#') (by decide)]
    rw [if_pos ⟨second', use⟩]
    have mapped := splitLastUnderscore_map name
    rw [show name.map toUpper = name'.map toUpper from equal, splitLastUnderscore_map, split] at mapped
    obtain ⟨⟨base', suffix'⟩, found, parts⟩ := Option.map_eq_some_iff.mp mapped
    refine ⟨base', suffix', found, ?_⟩
    have bases : base'.map toUpper = base.map toUpper := (Prod.mk.inj parts).1
    rw [IrcEq, List.map_tail, List.map_tail, bases]
  · cases split

/-! ### What the operations do to the groups -/

theorem map_update {α β γ : Type*} [DecidableEq α] (f : α → β) (g : β → γ) (a : α) (b : β) :
    (fun c => g (Function.update f a b c)) = Function.update (fun c => g (f c)) a (g b) := by
  funext c
  by_cases here : c = a
  · subst here
    simp
  · simp [here]

/-- An update that leaves a part as it is. -/
theorem map_update_same {α β γ : Type*} [DecidableEq α] (f : α → β) (g : β → γ) {a : α} {b : β}
    (same : g b = g (f a)) : (fun c => g (Function.update f a b c)) = fun c => g (f c) := by
  rw [map_update, same]
  exact Function.update_eq_self a fun c => g (f c)

theorem groups_setChannel {ch : Channel} (root : ch.rootChptr = (s.channel chptr).rootChptr)
    (list : ch.vchanList = (s.channel chptr).vchanList) :
    (s.setChannel chptr ch).groups = s.groups := by
  unfold State.groups State.setChannel
  simp only [map_update_same s.channel Channel.rootChptr root,
    map_update_same s.channel Channel.vchanList list]

theorem groups_create (s : State) (name : List Char) :
    (s.create name).groups = s.groups.create s.nextChannel := by
  unfold State.groups State.create State.setChannel Groups.create
  simp only [map_update s.channel Channel.rootChptr, map_update s.channel Channel.vchanList]
  rfl

theorem groups_addVchan (s : State) (top chptr : ChannelId) :
    (s.addVchan top chptr).groups = s.groups.link top chptr := by
  have root : (fun c => ((s.addVchan top chptr).channel c).rootChptr) =
      Function.update (fun c => (s.channel c).rootChptr) chptr (some top) := by
    funext c
    rw [State.addVchan_channel]
    by_cases here : c = chptr
    · subst here
      simp
    · simp [here]
  have list : (fun c => ((s.addVchan top chptr).channel c).vchanList) =
      Function.update (fun c => (s.channel c).vchanList) top (chptr :: (s.channel top).vchanList) := by
    funext c
    rw [State.addVchan_channel]
    by_cases here : c = top
    · subst here
      simp
    · simp [here]
  unfold State.groups Groups.link
  rw [root, list]
  rfl

/-- Two states in which the channels and what the clients know of them are the same. -/
theorem groups_congr {w : Groups ChannelId ClientId} (all : s.globalChannelList = w.all)
    (root : ∀ c, (s.channel c).rootChptr = w.root c) (subs : ∀ c, (s.channel c).vchanList = w.subs c)
    (on : ∀ u, (s.client u).channels = w.on u) (cache : ∀ u, (s.client u).vchanMap = w.cache u) :
    s.groups = w := by
  unfold State.groups
  rw [all, funext root, funext subs, funext on, funext cache]

/-- A client enters a channel and, if that is a virtual one, remembers it. -/
theorem groups_enter {user : User} (given : (s.client who).user = some user) (flags : ℕ)
    {root : ChannelId} (link : (s.channel chptr).rootChptr = if root = chptr then none else some root) :
    ((s.addUserToChannel chptr who flags).addVchanToClientCache who root chptr).groups =
      s.groups.join who chptr := by
  have added : ∀ u, ((s.addUserToChannel chptr who flags).client u) = if u = who then
      { s.client who with
        user := some { user with channel := chptr :: user.channel, joined := user.joined + 1 } }
      else s.client u := by
    intro u
    simp only [State.addUserToChannel, given]
    by_cases here : u = who
    · rw [if_pos here, here, State.setClient_client]
    · rw [if_neg here, State.setClient_client_ne _ _ here, State.setChannel_client]
  have links : ∀ c, ((s.addUserToChannel chptr who flags).channel c).rootChptr =
      (s.channel c).rootChptr ∧ ((s.addUserToChannel chptr who flags).channel c).vchanList =
        (s.channel c).vchanList := by
    intro c
    simp only [State.addUserToChannel, given, State.setClient_channel]
    by_cases here : c = chptr
    · subst here
      rw [State.setChannel_channel]
      exact ⟨rfl, rfl⟩
    · rw [State.setChannel_channel_ne _ _ here]
      exact ⟨rfl, rfl⟩
  have list : (s.addUserToChannel chptr who flags).globalChannelList = s.globalChannelList := by
    simp only [State.addUserToChannel, given]
    rfl
  have self := added who
  rw [if_pos rfl] at self
  have entered : ∀ u, ((s.addUserToChannel chptr who flags).client u).channels =
      (s.groups.join who chptr).on u := by
    intro u
    rw [added, Groups.join_on]
    split
    · exact congrArg (chptr :: ·) (Client.channels_of_user given).symm
    · rfl
  unfold State.addVchanToClientCache
  by_cases isTop : root = chptr
  · rw [if_pos isTop] at link ⊢
    refine groups_congr list (fun c => (links c).1) (fun c => (links c).2) entered fun u => ?_
    -- nothing is remembered for a channel that is no virtual one
    have plain : s.groups.root chptr = none := link
    rw [added, Groups.join_cache, plain]
    split
    · rfl
    · rfl
  · rw [if_neg isTop] at link ⊢
    refine groups_congr list (fun c => (links c).1) (fun c => (links c).2) (fun u => ?_) fun u => ?_
    · rw [← entered u]
      by_cases here : u = who
      · subst here
        rw [State.setClient_client]
        rfl
      · rw [State.setClient_client_ne _ _ here]
    · have vchan : s.groups.root chptr = some root := link
      rw [Groups.join_cache, vchan]
      by_cases here : u = who
      · rw [here, if_pos rfl, State.setClient_client, self]
        rfl
      · rw [State.setClient_client_ne _ _ here, if_neg here, added, if_neg here]
        rfl

/-- A member leaves. -/
theorem groups_leave {t : State} (intact : s.Intact) (old : chptr < s.nextChannel)
    (leaves : Leaves s chptr who t) : t.groups = s.groups.leave who chptr := by
  obtain ⟨r, locMembers, locusers, usersLast, id, onList, rfl⟩ := leaves.links
  have isMember : chptr ∈ (s.client who).channels :=
    ((intact.channels chptr old).back who).mpr (Lists.mem_all.mpr ⟨r, onList⟩)
  obtain ⟨user, given⟩ : ∃ user, (s.client who).user = some user := by
    cases given : (s.client who).user with
    | none => simp [Client.channels, given] at isMember
    | some user => exact ⟨user, rfl⟩
  have links : ∀ (ch : Channel) (client : Client), ch.rootChptr = (s.channel chptr).rootChptr →
      ch.vchanList = (s.channel chptr).vchanList → ∀ c,
      (((s.setChannel chptr ch).setClient who client).channel c).rootChptr =
        (s.channel c).rootChptr ∧
      (((s.setChannel chptr ch).setClient who client).channel c).vchanList =
        (s.channel c).vchanList := by
    intro ch client root list c
    rw [State.setClient_channel]
    by_cases here : c = chptr
    · subst here
      rw [State.setChannel_channel]
      exact ⟨root, list⟩
    · rw [State.setChannel_channel_ne _ _ here]
      exact ⟨rfl, rfl⟩
  refine groups_congr rfl (fun c => (links _ _ (by rfl) (by rfl) c).1)
    (fun c => (links _ _ (by rfl) (by rfl) c).2)
    (fun u => ?_) fun u => ?_
  · rw [Groups.leave_on]
    by_cases here : u = who
    · have left := Client.leave_user given chptr
      rw [here, if_pos rfl, State.setClient_client]
      change _ = (s.client who).channels.erase chptr
      rw [Client.channels_of_user given]
      split
      · exact Client.channels_of_user left
      · exact Client.channels_of_user left
    · rw [State.setClient_client_ne _ _ here, if_neg here]
      rfl
  · rw [Groups.leave_cache]
    by_cases here : u = who
    · rw [here, if_pos rfl, State.setClient_client]
      change _ = if (s.channel chptr).rootChptr.isSome = true then _ else _
      split
      · rfl
      · rfl
    · rw [State.setClient_client_ne _ _ here, if_neg here]
      rfl

/-- A channel is taken off the list of its root and off the list of all channels. -/
def State.unlinkChannel (s : State) (chptr : ChannelId) : State :=
  { (match (s.channel chptr).rootChptr with
      | none => s
      | some root => s.setChannel root { s.channel root with
          vchanList := (s.channel root).vchanList.erase chptr }) with
    globalChannelList := s.globalChannelList.erase chptr }

theorem groups_unlinkChannel (goes : ¬((s.channel chptr).rootChptr = none ∧ (s.channel chptr).vchanList ≠ [])) :
    (s.unlinkChannel chptr).groups = s.groups.destroy chptr := by
  have goes' : ¬(s.groups.root chptr = none ∧ s.groups.subs chptr ≠ []) := goes
  rw [Groups.destroy, if_neg goes', State.unlinkChannel]
  cases isRoot : (s.channel chptr).rootChptr with
  | none =>
    have root : s.groups.root chptr = none := isRoot
    rw [root]
    rfl
  | some b =>
    have root : s.groups.root chptr = some b := isRoot
    rw [root]
    refine groups_congr rfl (fun c => ?_) (fun c => ?_) (fun _ => rfl) fun _ => rfl
    · change ((s.setChannel b _).channel c).rootChptr = (s.channel c).rootChptr
      by_cases here : c = b
      · rw [here, State.setChannel_channel]
      · rw [State.setChannel_channel_ne _ _ here]
    · change ((s.setChannel b _).channel c).vchanList =
        Function.update s.groups.subs b ((s.groups.subs b).erase chptr) c
      by_cases here : c = b
      · rw [here, State.setChannel_channel, Function.update_self]
        rfl
      · rw [State.setChannel_channel_ne _ _ here, Function.update_of_ne here]
        rfl

/-- A channel that is empty is destroyed. -/
theorem groups_destroy (empty : ∀ r, (s.channel chptr).members r = [] ∧
    (s.channel chptr).locMembers r = []) :
    (s.destroyChannel chptr).groups = s.groups.destroy chptr := by
  rw [State.destroyChannel_eq empty]
  by_cases top : (s.channel chptr).rootChptr = none ∧ (s.channel chptr).vchanList ≠ []
  · have top' : s.groups.root chptr = none ∧ s.groups.subs chptr ≠ [] := top
    rw [if_pos top, Groups.destroy, if_pos top']
  · rw [if_neg top]
    exact groups_unlinkChannel top

end Ircd.Chan
