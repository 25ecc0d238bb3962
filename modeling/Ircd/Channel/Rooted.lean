import Ircd.Channel.VchanLinks

/-!
# What keeps the links of virtual channels

Everything that adds a member to a channel, takes one off it, or creates, links or destroys a
channel. A SJOIN does so only if what it says of a virtual channel fits to what is known of it.
-/
namespace Ircd.Chan

variable {s t : State} {chptr top : ChannelId} {who : ClientId} {voices : Bool}

/-! ### What keeps the names -/

theorem State.Named.mono (named : s.Named) (vchans : t.useVchans = s.useVchans)
    (list : ∀ c ∈ t.globalChannelList, c ∈ s.globalChannelList)
    (names : ∀ c, (t.channel c).chname = (s.channel c).chname)
    (roots : ∀ c, (t.channel c).rootChptr = (s.channel c).rootChptr) : t.Named where
  unique c member d member' equal := by
    rw [names, names] at equal
    exact named.unique c (list c member) d (list d member') equal
  vchan c member b isRoot := by
    rw [roots] at isRoot
    obtain ⟨base, suffix, split, equal⟩ := named.vchan c (list c member) b isRoot
    refine ⟨base, suffix, ?_, ?_⟩
    · rw [names]
      unfold State.splitVchan at split ⊢
      rw [vchans]
      exact split
    · rw [names]
      exact equal

theorem State.hashFindChannel_none {name : List Char} (absent : s.hashFindChannel name = none)
    {c : ChannelId} (member : c ∈ s.globalChannelList) : ¬ IrcEq name (s.channel c).chname := by
  have none := List.find?_eq_none.mp absent c member
  exact fun equal => none (decide_eq_true equal)

/-! ### What keeps the links -/

/-- A channel is replaced by one with the same name, links and members. -/
theorem State.InOrder.setChannel (ordered : s.InOrder voices) {ch : Channel}
    (replaced : ch.Intact s.mine fun u => chptr ∈ (s.client u).channels)
    (name : ch.chname = (s.channel chptr).chname) (root : ch.rootChptr = (s.channel chptr).rootChptr)
    (list : ch.vchanList = (s.channel chptr).vchanList) (plain : voices = false → ch.locMembers .chanopVoiced = []) :
    (s.setChannel chptr ch).InOrder voices where
  intact := ordered.intact.setChannel replaced
  linked := by
    rw [groups_setChannel root list]
    exact ordered.linked
  named := by
    refine ordered.named.mono rfl (fun _ => id) (fun c => ?_) fun c => ?_
    · by_cases here : c = chptr
      · rw [here, State.setChannel_channel, name]
      · rw [State.setChannel_channel_ne _ _ here]
    · by_cases here : c = chptr
      · rw [here, State.setChannel_channel, root]
      · rw [State.setChannel_channel_ne _ _ here]
  plain none c below := by
    by_cases here : c = chptr
    · rw [here, State.setChannel_channel, plain none]
    · rw [State.setChannel_channel_ne _ _ here]
      exact ordered.plain none c below

/-- Everything else in a channel may change. -/
theorem State.InOrder.touch (ordered : s.InOrder voices) (chptr : ChannelId) (old : chptr < s.nextChannel)
    (ch : Channel) (same : (s.channel chptr).SameMembers ch) (name : ch.chname = (s.channel chptr).chname)
    (root : ch.rootChptr = (s.channel chptr).rootChptr)
    (list : ch.vchanList = (s.channel chptr).vchanList) : (s.setChannel chptr ch).InOrder voices := by
  refine ordered.setChannel ((ordered.intact.channels chptr old).sameMembers same) name root list fun none => ?_
  rw [same.2.1]
  exact ordered.plain none chptr old

theorem State.InOrder.create (ordered : s.InOrder voices) (name : List Char)
    (absent : s.hashFindChannel (name.take channelLen) = none) : (s.create name).InOrder voices := by
  have below := ordered.intact.sound.below
  have old : ∀ c ∈ s.globalChannelList, (s.create name).channel c = s.channel c := fun c member =>
    State.create_channel_ne s name (below c member)
  refine ⟨ordered.intact.create name, ?_, ⟨?_, ?_⟩, ?_⟩
  · rw [groups_create]
    exact ordered.linked.create fun member => Nat.lt_irrefl _ (below _ member)
  · intro c member d member' equal
    -- two channels that have been there, or the new one and one that has another name
    rcases List.mem_cons.mp member with rfl | before <;>
      rcases List.mem_cons.mp member' with rfl | before'
    · rfl
    · rw [State.create_channel, old d before'] at equal
      exact absurd equal (State.hashFindChannel_none absent before')
    · rw [State.create_channel, old c before] at equal
      exact absurd equal.symm (State.hashFindChannel_none absent before)
    · rw [old c before, old d before'] at equal
      exact ordered.named.unique c before d before' equal
  · intro c member b isRoot
    rcases List.mem_cons.mp member with rfl | before
    · rw [State.create_channel] at isRoot
      cases isRoot
    · rw [old c before] at isRoot
      obtain ⟨base, suffix, split, equal⟩ := ordered.named.vchan c before b isRoot
      refine ⟨base, suffix, ?_, ?_⟩
      · rw [old c before]
        exact split
      · rw [old b (ordered.linked.root c before b isRoot).1]
        exact equal
  · intro none c less
    rcases Nat.lt_succ_iff_lt_or_eq.mp less with before | rfl
    · rw [State.create_channel_ne s name before]
      exact ordered.plain none c before
    · rw [State.create_channel]
      rfl

/-- An empty channel that is no root comes under a root that its name leads to. -/
theorem State.InOrder.addVchan (ordered : s.InOrder voices) (topListed : top ∈ s.globalChannelList)
    (listed : chptr ∈ s.globalChannelList) (topFlat : (s.channel top).rootChptr = none)
    (noRoot : (s.channel chptr).rootChptr = none) (bare : (s.channel chptr).vchanList = [])
    (empty : (s.channel chptr).users = 0) {name base suffix : List Char}
    (isName : IrcEq name (s.channel chptr).chname) (split : s.splitVchan name = some (base, suffix))
    (equal : IrcEq base.tail (s.channel top).chname) (other : top ≠ chptr) :
    (s.addVchan top chptr).InOrder voices := by
  have old := ordered.intact.sound.below chptr listed
  have names : ∀ c, ((s.addVchan top chptr).channel c).chname = (s.channel c).chname := fun c => by
    rw [State.addVchan_channel]
  have before := ordered.intact.channels chptr old
  have nobody : ∀ u, chptr ∉ (s.client u).channels := fun u on => by
    obtain ⟨r, onList⟩ := Lists.mem_all.mp ((before.back u).mp on)
    rw [(before.empty empty r).1] at onList
    cases onList
  refine ⟨ordered.intact.addVchan top chptr, ?_, ⟨?_, ?_⟩, ?_⟩
  · rw [groups_addVchan]
    exact ordered.linked.link topListed listed other topFlat noRoot bare nobody
  · intro c member d member' same
    rw [names, names] at same
    exact ordered.named.unique c member d member' same
  · intro c member b isRoot
    rw [names, names]
    rw [State.addVchan_channel] at isRoot
    by_cases here : c = chptr
    · subst here
      rw [show (if c = c then some top else (s.channel c).rootChptr) = some top from if_pos rfl]
        at isRoot
      obtain rfl := Option.some.inj isRoot
      obtain ⟨base', suffix', split', same⟩ := State.splitVchan_congr isName split
      exact ⟨base', suffix', split', same.symm.trans equal⟩
    · exact ordered.named.vchan c member b (by simpa [here] using isRoot)
  · intro none c less
    rw [State.addVchan_channel]
    exact ordered.plain none c less

/-- A client that is not on a channel enters it. -/
theorem State.InOrder.enter (ordered : s.InOrder voices) {user : User} (given : (s.client who).user = some user)
    (listed : chptr ∈ s.globalChannelList) (outside : chptr ∉ (s.client who).channels) (flags : ℕ)
    {root : ChannelId} (link : (s.channel chptr).rootChptr = if root = chptr then none else some root) :
    ((s.addUserToChannel chptr who flags).addVchanToClientCache who root chptr).InOrder voices := by
  have old := ordered.intact.sound.below chptr listed
  have same : ∀ c, ((s.addUserToChannel chptr who flags).addVchanToClientCache who root chptr).channel c =
      (s.addUserToChannel chptr who flags).channel c := fun c => by
    unfold State.addVchanToClientCache
    split <;> rfl
  have parts : ∀ c, ((s.addUserToChannel chptr who flags).channel c).chname = (s.channel c).chname ∧
      ((s.addUserToChannel chptr who flags).channel c).rootChptr = (s.channel c).rootChptr ∧
      ((s.addUserToChannel chptr who flags).channel c).locMembers .chanopVoiced =
        (s.channel c).locMembers .chanopVoiced := by
    intro c
    simp only [State.addUserToChannel, given, State.setClient_channel]
    by_cases here : c = chptr
    · subst here
      rw [State.setChannel_channel]
      refine ⟨rfl, rfl, ?_⟩
      -- nobody comes in as an op with voice
      have other : Rank.chanopVoiced ≠ rankOfFlags flags := by
        unfold rankOfFlags
        split_ifs <;> decide
      dsimp only
      split
      · exact Lists.add_ne _ _ other
      · rfl
    · rw [State.setChannel_channel_ne _ _ here]
      exact ⟨rfl, rfl, rfl⟩
  have list : ((s.addUserToChannel chptr who flags).addVchanToClientCache who root
      chptr).globalChannelList = s.globalChannelList ∧
      ((s.addUserToChannel chptr who flags).addVchanToClientCache who root chptr).useVchans =
        s.useVchans ∧
      ((s.addUserToChannel chptr who flags).addVchanToClientCache who root chptr).nextChannel =
        s.nextChannel := by
    unfold State.addVchanToClientCache State.addUserToChannel
    simp only [given]
    split <;> exact ⟨rfl, rfl, rfl⟩
  refine ⟨?_, ?_, ordered.named.mono list.2.1 (fun c member => list.1 ▸ member)
    (fun c => ?_) fun c => ?_, fun none c less => ?_⟩
  · have added := ordered.intact.addUserToChannel old outside flags
    unfold State.addVchanToClientCache
    split
    · exact added
    · exact added.vchanMap who _
  · rw [groups_enter given flags link]
    exact ordered.linked.join listed outside
  · rw [same, (parts c).1]
  · rw [same, (parts c).2.1]
  · rw [list.2.2] at less
    rw [same, (parts c).2.2]
    exact ordered.plain none c less

/-- An empty channel is destroyed, unless it is a root. -/
theorem State.InOrder.destroyChannel (ordered : s.InOrder voices) (listed : chptr ∈ s.globalChannelList)
    (users : (s.channel chptr).users = 0) : (s.destroyChannel chptr).InOrder voices := by
  have old := ordered.intact.sound.below chptr listed
  have before := ordered.intact.channels chptr old
  have empty := before.empty users
  have nobody : ∀ u, chptr ∉ (s.client u).channels := fun u on => by
    obtain ⟨r, onList⟩ := Lists.mem_all.mp ((before.back u).mp on)
    rw [(empty r).1] at onList
    cases onList
  obtain ⟨list, vchans, next, -, channel⟩ := State.destroyChannel_channel empty
  refine ⟨ordered.intact.destroyChannel empty, ?_, ordered.named.mono vchans list (fun c => ?_)
    fun c => ?_, fun none c less => ?_⟩
  · rw [groups_destroy empty]
    exact ordered.linked.destroy listed nobody
  · obtain ⟨subs, equal⟩ := channel c
    rw [equal]
  · obtain ⟨subs, equal⟩ := channel c
    rw [equal]
  · obtain ⟨subs, equal⟩ := channel c
    rw [next] at less
    rw [equal]
    exact ordered.plain none c less

/-- A client is taken off a channel. What it is on is known afterwards. -/
theorem State.InOrder.remove (ordered : s.InOrder voices) (old : chptr < s.nextChannel) (who : ClientId)
    (perm : Bool) : (s.removeUserFromChannel chptr who perm).InOrder voices ∧
      (s.removeUserFromChannel chptr who perm).nextChannel = s.nextChannel ∧
      ((s.removeUserFromChannel chptr who perm).client who).channels =
        (s.client who).channels.erase chptr := by
  have before := ordered.intact.channels chptr old
  rcases ordered.intact.removeUserFromChannel_cases old who perm with
    ⟨nowhere, id, same⟩ | ⟨t, leaves, result⟩
  · rw [same]
    have outside : chptr ∉ (s.client who).channels := fun on => by
      obtain ⟨r, onList⟩ := before.rank on
      exact nowhere r onList
    exact ⟨ordered.touch chptr old _ ⟨rfl, rfl, rfl, rfl⟩ rfl rfl rfl, rfl, (List.erase_of_not_mem outside).symm⟩
  · have linked := ordered.linked.leave who chptr
    rw [← groups_leave ordered.intact old leaves] at linked
    have channels : (t.client who).channels = (s.client who).channels.erase chptr := by
      have left := congrFun (congrArg Groups.on (groups_leave ordered.intact old leaves)) who
      rw [Groups.leave_on, if_pos rfl] at left
      exact left
    obtain ⟨r, locMembers, locusers, usersLast, id, onList, equal⟩ := leaves.links
    have listed : chptr ∈ s.globalChannelList :=
      ordered.linked.on who chptr ((before.back who).mpr (Lists.mem_all.mpr ⟨r, onList⟩))
    have next : t.nextChannel = s.nextChannel := by
      rw [equal]
      rfl
    have list : t.globalChannelList = s.globalChannelList := by
      rw [equal]
      rfl
    have others : ∀ c, c ≠ chptr → t.channel c = s.channel c := fun c here => by
      rw [equal, State.setClient_channel, State.setChannel_channel_ne _ _ here]
    have self : (t.channel chptr).chname = (s.channel chptr).chname ∧
        (t.channel chptr).rootChptr = (s.channel chptr).rootChptr := by
      rw [equal, State.setClient_channel, State.setChannel_channel]
      exact ⟨rfl, rfl⟩
    -- the channel is still there, without the client
    have left : t.InOrder voices := by
      refine ⟨leaves.intact, linked, ordered.named.mono ?_ (fun c member => list ▸ member)
        (fun c => ?_) fun c => ?_, fun none c less => ?_⟩
      · rw [equal]
        rfl
      · by_cases here : c = chptr
        · rw [here, self.1]
        · rw [others c here]
      · by_cases here : c = chptr
        · rw [here, self.2]
        · rw [others c here]
      · by_cases here : c = chptr
        · subst here
          have fewer := leaves.locMembers .chanopVoiced
          rw [ordered.plain none c old] at fewer
          exact List.sublist_nil.mp fewer
        · rw [others c here]
          exact ordered.plain none c (next ▸ less)
    -- the last one out destroys the channel
    rcases result with ⟨same, -⟩ | ⟨users, destroyed⟩
    · rw [same]
      exact ⟨left, next, channels⟩
    · rw [destroyed]
      have empty := (leaves.intact.channels chptr (next.symm ▸ old)).empty users
      obtain ⟨-, -, next', client, -⟩ := State.destroyChannel_channel empty
      refine ⟨left.destroyChannel (list.symm ▸ listed) users, next'.trans next, ?_⟩
      rw [client]
      exact channels

/-! ### JOIN and CJOIN -/

theorem State.InOrder.mapVchan (ordered : s.InOrder voices) {root : ChannelId}
    (mapped : s.mapVchan root who = some chptr) :
    chptr ∈ (s.client who).channels ∧
      (chptr = root ∨ (s.channel chptr).rootChptr = some root) := by
  unfold State.mapVchan at mapped
  split at mapped
  next isMember =>
    obtain rfl := Option.some.inj mapped
    exact ⟨of_decide_eq_true isMember, Or.inl rfl⟩
  · unfold Client.vchanOf at mapped
    obtain ⟨⟨b, v⟩, found, rfl⟩ := Option.map_eq_some_iff.mp mapped
    have shown := List.find?_some found
    obtain rfl : b = root := of_decide_eq_true shown
    obtain ⟨on, isRoot⟩ := (ordered.linked.cache who b v).mp (List.mem_of_find?_eq_some found)
    exact ⟨on, Or.inr isRoot⟩

/-- The channel that a client is let into is the root or one of its virtual channels. -/
theorem State.InOrder.selectVchan (ordered : s.InOrder voices) {root : ChannelId}
    (listed : root ∈ s.globalChannelList) {vkey : List Char} {invited : List ChannelId}
    (selected : s.selectVchan root who vkey invited = some chptr) :
    chptr ∈ s.globalChannelList ∧
      (s.channel chptr).rootChptr = if root = chptr then none else some root := by
  have result : (s.channel root).rootChptr = none →
      (chptr = root ∨ chptr ∈ s.globalChannelList ∧ (s.channel chptr).rootChptr = some root) →
      chptr ∈ s.globalChannelList ∧
        (s.channel chptr).rootChptr = if root = chptr then none else some root := by
    rintro flat (rfl | ⟨member, isRoot⟩)
    · exact ⟨listed, by rw [if_pos rfl, flat]⟩
    · refine ⟨member, ?_⟩
      rw [if_neg, isRoot]
      rintro rfl
      rw [flat] at isRoot
      cases isRoot
  have sub : chptr ∈ (s.channel root).vchanList →
      chptr ∈ s.globalChannelList ∧ (s.channel chptr).rootChptr = some root :=
    (ordered.linked.subs root listed chptr).mp
  unfold State.selectVchan at selected
  split at selected
  next isTop =>
    have flat : (s.channel root).rootChptr = none := by
      have := (Bool.and_eq_true_iff.mp isTop).1
      exact Option.isNone_iff_eq_none.mp this
    refine result flat ?_
    split at selected
    · cases selected
    · split at selected
      · split at selected
        · cases selected
        · -- by somebody who is on it, or by its id
          unfold State.findVchan at selected
          rcases Option.or_eq_some_iff.mp selected with mapped | ⟨-, byId⟩
          · obtain ⟨who', -, mapped⟩ := Option.bind_eq_some_iff.mp mapped
            obtain ⟨on, rfl | isRoot⟩ := ordered.mapVchan mapped
            · exact Or.inl rfl
            · exact Or.inr ⟨ordered.linked.on who' chptr on, isRoot⟩
          · split at byId
            · rcases List.mem_cons.mp (List.mem_of_find?_eq_some byId) with rfl | member
              · exact Or.inl rfl
              · exact Or.inr (sub member)
            · cases byId
      · unfold State.vchanInvites at selected
        have shown := List.find?_some selected
        rcases of_decide_eq_true shown with rfl | member
        · exact Or.inl rfl
        · exact Or.inr (sub member)
  next notTop =>
    split at selected
    · cases selected
    next notVchan =>
      obtain rfl := Option.some.inj selected
      refine result ?_ (Or.inl rfl)
      unfold Channel.isVchan at notVchan
      simpa using notVchan

theorem State.enter_nextChannel {user : User} (given : (s.client who).user = some user) (flags : ℕ)
    {root : ChannelId} : ((s.addUserToChannel chptr who flags).addVchanToClientCache who root
      chptr).nextChannel = s.nextChannel := by
  unfold State.addVchanToClientCache State.addUserToChannel
  simp only [given]
  split <;> rfl

/-- The end of `m_join`. -/
theorem State.InOrder.enterChannel (ordered : s.InOrder voices) {user : User}
    (given : (s.client who).user = some user) (listed : chptr ∈ s.globalChannelList)
    (outside : chptr ∉ (s.client who).channels) {root : ChannelId}
    (link : (s.channel chptr).rootChptr = if root = chptr then none else some root) (op : Bool)
    (name : List Char) : (s.enterChannel who root chptr op name).InOrder voices := by
  unfold State.enterChannel
  dsimp only
  generalize (if op then modeChanop else 0) = flags
  have entered := ordered.enter given listed outside flags link
  split
  · refine entered.touch chptr ?_ _ ⟨rfl, rfl, rfl, rfl⟩ rfl rfl rfl
    rw [State.enter_nextChannel given]
    exact ordered.intact.sound.below chptr listed
  · exact entered

theorem State.InOrder.mJoin (ordered : s.InOrder voices) (person : (s.client who).user.isSome = true)
    (r : JoinRequest) : (s.mJoin who r).InOrder voices := by
  obtain ⟨user, given⟩ := Option.isSome_iff_exists.mp person
  unfold State.mJoin
  cases joins : s.joinTarget who r with
  | none => exact ordered
  | some target =>
    obtain ⟨t, root, chptr, op⟩ := target
    dsimp only
    obtain ⟨-, fits, ⟨rfl, found, selected, outside, -⟩ | ⟨absent, rfl, rfl, rfl, -⟩⟩ :=
      State.joinTarget_some joins
    · obtain ⟨listed, link⟩ := ordered.selectVchan (State.hashFindChannel_some found).1 selected
      exact ordered.enterChannel given listed outside link op r.name
    · have short : r.name.take channelLen = r.name := List.take_of_length_le fits
      have created := ordered.create r.name (by rw [short, absent])
      have given' : ((s.create r.name).client who).user = some user := given
      refine created.enterChannel given' List.mem_cons_self (fun on => ?_) ?_ op r.name
      · exact Nat.lt_irrefl _ (ordered.intact.sound.joined who _ on)
      · rw [State.create_channel, if_pos rfl]
        rfl

theorem splitLastUnderscore_append {suffix : List Char} (plain : '_' ∉ suffix) (base : List Char) :
    splitLastUnderscore (base ++ '_' :: suffix) = some (base, suffix) := by
  have all : ∀ c ∈ suffix.reverse, (c != '_') = true := fun c member => by
    rw [bne_iff_ne]
    rintro rfl
    exact plain (List.mem_reverse.mp member)
  have reversed : (base ++ '_' :: suffix).reverse = suffix.reverse ++ '_' :: base.reverse := by
    simp
  unfold splitLastUnderscore
  rw [if_pos (by simp), reversed, List.dropWhile_append_of_pos all, List.takeWhile_append_of_pos all]
  simp

/-- The name that a virtual channel gets leads back to the name of its root. -/
theorem State.splitVchan_vchanName (vchans : s.useVchans = true) {name : List Char}
    (hash : name.head? = some '#') (ts : ℤ) :
    ∃ base suffix, s.splitVchan (vchanName name ts) = some (base, suffix) ∧ base.tail = name := by
  have digits : '_' ∉ Nat.toDigits 10 (ts % 2 ^ 32).toNat := fun member => by
    have digit := Nat.isDigit_of_mem_toDigits (by decide) (by decide) member
    exact absurd digit (by decide)
  refine ⟨'#' :: '#' :: name.tail, Nat.toDigits 10 (ts % 2 ^ 32).toNat, ?_, ?_⟩
  · unfold State.splitVchan
    rw [if_pos ⟨rfl, vchans⟩]
    exact splitLastUnderscore_append digits ('#' :: '#' :: name.tail)
  · cases name with
    | nil => cases hash
    | cons c rest =>
      obtain rfl := Option.some.inj hash
      rfl

theorem vchanName_length {name : List Char} (short : name.length ≤ channelLen - 15) (ts : ℤ) :
    (vchanName name ts).length ≤ channelLen := by
  have digits : (Nat.toDigits 10 (ts % 2 ^ 32).toNat).length ≤ 10 :=
    Nat.toDigits_length _ _ _ (by decide) (by omega)
  have limit : channelLen = 200 := rfl
  simp only [vchanName, List.length_cons, List.length_append, List.length_tail]
  omega

/-- The end of `m_cjoin`. -/
theorem State.InOrder.opens (ordered : s.InOrder voices) {user : User}
    (given : (s.client who).user = some user) (listed : chptr ∈ s.globalChannelList)
    (outside : chptr ∉ (s.client who).channels) {root : ChannelId}
    (link : (s.channel chptr).rootChptr = if root = chptr then none else some root) :
    let entered := (s.addVchanToClientCache who root chptr).addUserToChannel chptr who modeChanop
    (entered.setChannel chptr (entered.channel chptr).opened).InOrder voices := by
  dsimp only
  rw [State.addVchanToClientCache_addUserToChannel given]
  refine (ordered.enter given listed outside modeChanop link).touch chptr ?_ _ ⟨rfl, rfl, rfl, rfl⟩
    rfl rfl rfl
  rw [State.enter_nextChannel given]
  exact ordered.intact.sound.below chptr listed

theorem State.InOrder.mCjoin (ordered : s.InOrder voices) (person : (s.client who).user.isSome = true)
    (name : List Char) (admitted : Bool) : (s.mCjoin who name admitted).InOrder voices := by
  obtain ⟨user, given⟩ := Option.isSome_iff_exists.mp person
  unfold State.mCjoin
  cases target : s.cjoinTarget who name admitted with
  | none => exact ordered
  | some pair =>
    obtain ⟨t, chptr⟩ := pair
    dsimp only
    obtain ⟨vchans, -, hash, root, found, cjoined⟩ := State.cjoinTarget_some target
    obtain ⟨listed, isName⟩ := State.hashFindChannel_some found
    obtain ⟨flat, short, rfl, ts, absent, rfl⟩ := State.cjoinChannel_some cjoined
    have uncut := List.take_of_length_le (vchanName_length short ts)
    obtain ⟨base, suffix, split, same⟩ := s.splitVchan_vchanName vchans hash ts
    have below := ordered.intact.sound.below root listed
    have old := State.create_channel_ne s (vchanName name ts) below
    have new := s.create_channel (vchanName name ts)
    have created := ordered.create (vchanName name ts) (by rw [uncut, absent])
    -- the new channel comes under the root
    have linked := created.addVchan (List.mem_cons_of_mem _ listed) List.mem_cons_self
      (by rw [old, flat]) (by rw [new]; rfl) (by rw [new]; rfl) (by rw [new]; rfl)
      (by
        rw [new]
        exact congrArg (List.map toUpper) uncut.symm)
      split
      (by
        rw [old, same]
        exact isName)
      (Nat.ne_of_lt below)
    have timed := linked.touch s.nextChannel (Nat.lt_succ_self _) {
      ((s.create (vchanName name ts)).addVchan root s.nextChannel).channel s.nextChannel with
      channelts := ts } ⟨rfl, rfl, rfl, rfl⟩ rfl rfl rfl
    refine timed.opens given List.mem_cons_self
      (fun on => Nat.lt_irrefl _ (ordered.intact.sound.joined who _ on)) ?_
    rw [State.setChannel_channel, State.addVchan_channel, if_pos rfl, if_neg (Nat.ne_of_lt below)]

/-! ### SJOIN -/

/-- The message brings somebody to its channel who is not on it yet. -/
def SjoinMessage.LetsIn (m : SjoinMessage) (s : State) (head : SjoinHead) : Prop :=
  ∃ nick ∈ sjoinNicks head.nicks, ∃ who,
    s.findClient (readPrefixes true nick).nick = some who ∧ s.accepts m.clientP who = true ∧
      ∀ chptr, s.hashFindChannel (head.chname.take channelLen) = some chptr →
        s.isMember who chptr = false

/-- What a message about a channel that looks virtual must be like: the channel is under its root
already; or the timestamp says that it is virtual, nobody is on it and it is no root, and what its
name leads to is not virtual itself; or the timestamp says that it is not virtual, and either its
name leads to nothing or nobody new comes in. -/
def SjoinMessage.Proper (m : SjoinMessage) (s : State) : Prop :=
  ∀ head, sjoinHead s m.source m.parv = some head →
    ∀ base suffix, s.splitVchan (head.chname.take channelLen) = some (base, suffix) →
      (∃ chptr top, s.hashFindChannel (head.chname.take channelLen) = some chptr ∧
        s.hashFindChannel base.tail = some top ∧ chptr ∈ (s.channel top).vchanList) ∨
      (head.newts = atol suffix ∧
        (∀ chptr, s.hashFindChannel (head.chname.take channelLen) = some chptr →
          (s.channel chptr).users = 0 ∧ (s.channel chptr).vchanList = []) ∧
        ∀ top, s.hashFindChannel base.tail = some top → (s.channel top).rootChptr = none) ∨
      (head.newts ≠ atol suffix ∧
        (s.hashFindChannel base.tail = none ∨ ¬ m.LetsIn s head))

/-- A nick of somebody who is accepted and not yet on the channel. -/
theorem nickStep_enters (clientP : ClientId) (chptr : ChannelId) (l : NickLoop) (nick : List Char)
    (found : l.state.findClient (readPrefixes true nick).nick = some who)
    (accepted : l.state.accepts clientP who = true) (outside : l.state.isMember who chptr = false)
    (root : Option ChannelId) (keepNewModes : Bool) :
    (nickStep clientP chptr root keepNewModes l nick).state =
      (l.state.addUserToChannel chptr who (flagsOf keepNewModes
        (readPrefixes keepNewModes nick).fl)).addVchanToClientCache who (root.getD chptr) chptr := by
  unfold nickStep takeNick
  simp only [readPrefixes_nick keepNewModes, found, accepted, outside, Bool.not_true,
    Bool.false_eq_true, if_false]
  cases root with
  | none => simp [State.addVchanToClientCache]
  | some root => rfl

/-- A nick brings one client in, or nobody. -/
theorem nickStep_state (clientP chptr : ClientId) (root : Option ChannelId) (keepNewModes : Bool)
    (l : NickLoop) (nick : List Char) :
    (nickStep clientP chptr root keepNewModes l nick).state = l.state ∨
      ∃ who, l.state.findClient (readPrefixes true nick).nick = some who ∧
        l.state.accepts clientP who = true ∧ l.state.isMember who chptr = false ∧
        (nickStep clientP chptr root keepNewModes l nick).state =
          (l.state.addUserToChannel chptr who (flagsOf keepNewModes
            (readPrefixes keepNewModes nick).fl)).addVchanToClientCache who (root.getD chptr)
              chptr := by
  cases found : l.state.findClient (readPrefixes true nick).nick with
  | none =>
    unfold nickStep
    simp only [readPrefixes_nick keepNewModes, found, true_or]
  | some who =>
    cases accepted : l.state.accepts clientP who with
    | false =>
      unfold nickStep takeNick
      simp only [readPrefixes_nick keepNewModes, found, accepted, Bool.not_false, if_true, true_or]
    | true =>
      cases outside : l.state.isMember who chptr with
      | true =>
        unfold nickStep takeNick
        simp only [readPrefixes_nick keepNewModes, found, accepted, outside, Bool.not_true,
          Bool.false_eq_true, if_false, if_true, true_or]
      | false =>
        exact Or.inr ⟨who, rfl, accepted, outside,
          nickStep_enters clientP chptr l nick found accepted outside root keepNewModes⟩

/-- The nicks, where the channel has the root that the message has found for it. -/
theorem State.InOrder.nickLoop (nicks : List (List Char)) {l : NickLoop} (ordered : l.state.InOrder voices)
    (listed : chptr ∈ l.state.globalChannelList) {root : Option ChannelId}
    (link : (l.state.channel chptr).rootChptr = root) (other : root ≠ some chptr)
    (clientP : ClientId) (keepNewModes : Bool) :
    (nicks.foldl (Chan.nickStep clientP chptr root keepNewModes) l).state.InOrder voices := by
  induction nicks generalizing l with
  | nil => exact ordered
  | cons nick nicks ih =>
    rw [List.foldl_cons]
    have joins := (nickLoop_round clientP chptr root keepNewModes [nick] l).joins
    rw [List.foldl_cons, List.foldl_nil] at joins
    have kept : ((Chan.nickStep clientP chptr root keepNewModes l nick).state.channel
        chptr).rootChptr = root := by
      obtain ⟨members, locMembers, users, locusers, last, here⟩ := joins.here
      rw [here]
      exact link
    refine ih ?_ (by rw [joins.same]; exact listed) kept
    rcases nickStep_state clientP chptr root keepNewModes l nick with
      same | ⟨who, found, accepted, outside, same⟩
    · rw [same]
      exact ordered
    · rw [same]
      obtain ⟨user, given⟩ : ∃ user, (l.state.client who).user = some user := by
        have person := (Bool.and_eq_true_iff.mp accepted).2
        exact Option.isSome_iff_exists.mp (Bool.and_eq_true_iff.mp person).2
      refine ordered.enter given listed (of_decide_eq_false outside) _ ?_
      rw [link]
      cases root with
      | none => exact (if_pos rfl).symm
      | some root => exact (if_neg fun same => other (congrArg some same)).symm

/-- The nicks, where all of them are on the channel already. -/
theorem nickLoop_same (nicks : List (List Char)) {l : NickLoop} (clientP : ClientId)
    (root : Option ChannelId) (keepNewModes : Bool)
    (nobody : ∀ nick ∈ nicks, ∀ who, l.state.findClient (readPrefixes true nick).nick = some who →
      l.state.accepts clientP who = true → l.state.isMember who chptr = true) :
    (nicks.foldl (nickStep clientP chptr root keepNewModes) l).state = l.state := by
  induction nicks generalizing l with
  | nil => rfl
  | cons nick nicks ih =>
    rw [List.foldl_cons]
    have same : (nickStep clientP chptr root keepNewModes l nick).state = l.state := by
      rcases nickStep_state clientP chptr root keepNewModes l nick with
        same | ⟨who, found, accepted, outside, -⟩
      · exact same
      · rw [nobody nick List.mem_cons_self who found accepted] at outside
        cases outside
    rw [ih, same]
    rw [same]
    exact fun nick member => nobody nick (List.mem_cons_of_mem _ member)

/-- The name of a virtual channel, in any spelling, leads to its root. -/
theorem State.InOrder.find_root (ordered : s.InOrder voices) (listed : chptr ∈ s.globalChannelList)
    {name base suffix : List Char} (isName : IrcEq name (s.channel chptr).chname)
    (split : s.splitVchan name = some (base, suffix)) {b : ChannelId}
    (isRoot : (s.channel chptr).rootChptr = some b) : s.hashFindChannel base.tail = some b := by
  obtain ⟨base', suffix', split', equal⟩ := ordered.named.vchan chptr listed b isRoot
  obtain ⟨base'', suffix'', split'', equal'⟩ := State.splitVchan_congr isName.symm split'
  rw [split] at split''
  obtain ⟨rfl, rfl⟩ := Prod.mk.inj (Option.some.inj split'')
  exact ordered.named.find (ordered.linked.root chptr listed b isRoot).1 (equal'.symm.trans equal)

/-- The part of `ms_sjoin` about virtual channels, where the message is proper. -/
theorem State.InOrder.linkVchan (ordered : s.InOrder voices) (listed : chptr ∈ s.globalChannelList)
    {name : List Char} (isName : IrcEq name (s.channel chptr).chname)
    (hash : name.head? = some '#') (short : name.length ≤ channelLen) {newts : ℤ} {nobody : Prop}
    (proper : ∀ base suffix, s.splitVchan name = some (base, suffix) →
      (∃ top, s.hashFindChannel base.tail = some top ∧ chptr ∈ (s.channel top).vchanList) ∨
      (newts = atol suffix ∧ (s.channel chptr).users = 0 ∧ (s.channel chptr).vchanList = [] ∧
        ∀ top, s.hashFindChannel base.tail = some top → (s.channel top).rootChptr = none) ∨
      (newts ≠ atol suffix ∧ (s.hashFindChannel base.tail = none ∨ nobody))) {root : Option ChannelId}
    (links : s.linkVchan chptr name newts = (t, root)) :
    t.InOrder voices ∧ chptr ∈ t.globalChannelList ∧
      ((t.channel chptr).rootChptr = root ∧ root ≠ some chptr ∨ nobody) := by
  have noRoot : ∀ base suffix, s.splitVchan name = some (base, suffix) →
      s.hashFindChannel base.tail = none → (s.channel chptr).rootChptr = none := by
    intro base suffix split absent
    cases isRoot : (s.channel chptr).rootChptr with
    | none => rfl
    | some b =>
      rw [ordered.find_root listed isName split isRoot] at absent
      cases absent
  unfold State.linkVchan at links
  cases split : s.splitVchan name with
  | none =>
    rw [split] at links
    obtain ⟨rfl, rfl⟩ := Prod.mk.inj links
    refine ⟨ordered, listed, Or.inl ⟨?_, fun same => by cases same⟩⟩
    cases isRoot : (s.channel chptr).rootChptr with
    | none => rfl
    | some b =>
      obtain ⟨base', suffix', split', -⟩ := ordered.named.vchan chptr listed b isRoot
      obtain ⟨base, suffix, split'', -⟩ := State.splitVchan_congr isName.symm split'
      rw [split] at split''
      cases split''
  | some parts =>
    obtain ⟨base, suffix⟩ := parts
    simp only [split] at links
    obtain ⟨nonempty, shorter⟩ := State.splitVchan_base split hash
    -- the root has a shorter name, and so it is another channel
    have others : ∀ top, s.hashFindChannel base.tail = some top → top ≠ chptr := by
      rintro top found rfl
      have lengths := IrcEq.length_eq ((State.hashFindChannel_some found).2.trans isName.symm)
      omega
    cases found : s.hashFindChannel base.tail with
    | some top =>
      simp only [found] at links
      have topListed := (State.hashFindChannel_some found).1
      split at links
      next adds =>
        obtain ⟨rfl, rfl⟩ := Prod.mk.inj links
        have other := others top found
        have isRoot : ((s.addVchan top chptr).channel chptr).rootChptr = some top := by
          rw [State.addVchan_channel, if_pos rfl]
        refine ⟨?_, listed, Or.inl ⟨isRoot, fun same => other (Option.some.inj same)⟩⟩
        rcases proper base suffix split with ⟨top', found', already⟩ | ⟨-, users, bare, flat⟩ | ⟨time, -⟩
        · rw [found] at found'
          obtain rfl := Option.some.inj found'
          exact absurd already adds.1
        · refine ordered.addVchan topListed listed (flat top found) ?_ bare users
            isName split (State.hashFindChannel_some found).2 other
          cases isRoot : (s.channel chptr).rootChptr with
          | none => rfl
          | some b =>
            have found' := ordered.find_root listed isName split isRoot
            rw [found] at found'
            obtain rfl := Option.some.inj found'
            exact absurd ((ordered.linked.subs top topListed chptr).mpr ⟨listed, isRoot⟩) adds.1
        · exact absurd adds.2 time
      next stays =>
        obtain ⟨rfl, rfl⟩ := Prod.mk.inj links
        refine ⟨ordered, listed, ?_⟩
        have already : chptr ∈ (s.channel top).vchanList →
            (s.channel chptr).rootChptr = some top ∧ some top ≠ some chptr := fun on =>
          ⟨((ordered.linked.subs top topListed chptr).mp on).2,
            fun same => others top found (Option.some.inj same)⟩
        rcases proper base suffix split with ⟨top', found', on⟩ | ⟨time, -⟩ | ⟨time, nothing | nobody⟩
        · rw [found] at found'
          obtain rfl := Option.some.inj found'
          exact Or.inl (already on)
        · refine Or.inl (already ?_)
          by_contra fresh
          exact stays ⟨fresh, time⟩
        · rw [found] at nothing
          cases nothing
        · exact Or.inr nobody
    | none =>
      simp only [found] at links
      split at links
      next time =>
        have uncut : base.tail.take channelLen = base.tail := List.take_of_length_le (by omega)
        have got : s.getOrCreateChannel base.tail =
            some (s.create base.tail, s.nextChannel, true) := by
          simp [State.getOrCreateChannel, nonempty, uncut, found]
        simp only [got] at links
        obtain ⟨rfl, rfl⟩ := Prod.mk.inj links
        have below := ordered.intact.sound.below chptr listed
        have old := State.create_channel_ne s base.tail below
        have new := s.create_channel base.tail
        have users : (s.channel chptr).users = 0 ∧ (s.channel chptr).vchanList = [] := by
          rcases proper base suffix split with ⟨top, found', -⟩ | ⟨-, users, bare, -⟩ | ⟨other, -⟩
          · rw [found] at found'
            cases found'
          · exact ⟨users, bare⟩
          · exact absurd time other
        have created := ordered.create base.tail (by rw [uncut, found])
        have linked := created.addVchan List.mem_cons_self (List.mem_cons_of_mem _ listed)
          (by rw [new]; rfl) (by rw [old, noRoot base suffix split found]) (by rw [old, users.2])
          (by rw [old, users.1]) (by rw [old]; exact isName) split
          (by
            rw [new]
            exact congrArg (List.map toUpper) uncut.symm)
          (Nat.ne_of_gt below)
        refine ⟨linked.touch chptr (below.trans (Nat.lt_succ_self _)) _ ⟨rfl, rfl, rfl, rfl⟩ rfl rfl
          rfl, List.mem_cons_of_mem _ listed, Or.inl ⟨?_, fun same => ?_⟩⟩
        · rw [State.setChannel_channel, State.addVchan_channel, if_pos rfl]
        · exact absurd (Option.some.inj same) (Nat.ne_of_gt below)
      next time =>
        obtain ⟨rfl, rfl⟩ := Prod.mk.inj links
        exact ⟨ordered, listed, Or.inl ⟨noRoot base suffix split found, fun same => by cases same⟩⟩

/-- What a proper message does before its verdict: the channel has the root that the message has
found for it, or nobody comes in. -/
theorem Entered.ordered {m : SjoinMessage} {head : SjoinHead} {root : Option ChannelId} {isnew : Bool}
    (entered : Entered s head t chptr root isnew) (ordered : s.InOrder voices)
    (read : sjoinHead s m.source m.parv = some head) (proper : m.Proper s) :
    t.InOrder voices ∧ chptr ∈ t.globalChannelList ∧
      ((t.channel chptr).rootChptr = root ∧ root ≠ some chptr ∨
        ∀ nick ∈ sjoinNicks head.nicks, ∀ who,
          s.findClient (readPrefixes true nick).nick = some who → s.accepts m.clientP who = true →
            s.isMember who chptr = true) := by
  obtain ⟨s₁, got, link⟩ := entered.between
  have hash := entered.hash_take
  have short : (head.chname.take channelLen).length ≤ channelLen := List.length_take_le _ _
  rcases State.getOrCreateChannel_cases got with ⟨rfl, rfl, found⟩ | ⟨rfl, absent, rfl, rfl⟩
  · obtain ⟨listed, isName⟩ := State.hashFindChannel_some found
    refine ordered.linkVchan listed isName hash short (fun base suffix split => ?_) link
    rcases proper head read base suffix split with
      ⟨chptr', top, found', foundTop, on⟩ | ⟨time, empty, flat⟩ | ⟨time, nothing | nobody⟩
    · rw [found] at found'
      obtain rfl := Option.some.inj found'
      exact Or.inl ⟨top, foundTop, on⟩
    · exact Or.inr (Or.inl ⟨time, (empty chptr found).1, (empty chptr found).2, flat⟩)
    · exact Or.inr (Or.inr ⟨time, Or.inl nothing⟩)
    · refine Or.inr (Or.inr ⟨time, Or.inr fun nick member who known accepted => ?_⟩)
      by_contra outside
      refine nobody ⟨nick, member, who, known, accepted, fun chptr' found' => ?_⟩
      rw [found] at found'
      obtain rfl := Option.some.inj found'
      exact Bool.eq_false_iff.mpr outside
  · have created := ordered.create head.chname absent
    refine created.linkVchan List.mem_cons_self (by rw [State.create_channel]; rfl) hash short
      (fun base suffix split => ?_) link
    have split' : s.splitVchan (head.chname.take channelLen) = some (base, suffix) := split
    -- the new channel is not what its name leads to
    have same : (s.create head.chname).hashFindChannel base.tail = s.hashFindChannel base.tail := by
      obtain ⟨-, shorter⟩ := State.splitVchan_base split hash
      rw [State.hashFindChannel_create ordered.intact.sound, if_neg]
      intro equal
      have lengths := IrcEq.length_eq equal
      omega
    rw [same, State.create_channel]
    rcases proper head read base suffix split' with
      ⟨chptr', top, found', -⟩ | ⟨time, -, flat⟩ | ⟨time, nothing | nobody⟩
    · rw [absent] at found'
      cases found'
    · refine Or.inr (Or.inl ⟨time, rfl, rfl, fun top foundTop => ?_⟩)
      rw [State.create_channel_ne s _ (ordered.intact.sound.below top
        (State.hashFindChannel_some foundTop).1)]
      exact flat top foundTop
    · exact Or.inr (Or.inr ⟨time, Or.inl nothing⟩)
    · refine Or.inr (Or.inr ⟨time, Or.inr fun nick member who known accepted => ?_⟩)
      refine absurd ⟨nick, member, who, known, accepted, fun chptr' found' => ?_⟩ nobody
      rw [absent] at found'
      cases found'

theorem Channel.judged_links (ch : Channel) (verdict : Verdict) (new : Mode) :
    (ch.judged verdict new).rootChptr = ch.rootChptr ∧
      (ch.judged verdict new).vchanList = ch.vchanList := by
  unfold Channel.judged
  dsimp only
  split <;> exact ⟨rfl, rfl⟩

theorem Channel.judged_plain {ch : Channel} (plain : ch.locMembers .chanopVoiced = [])
    (verdict : Verdict) (new : Mode) : (ch.judged verdict new).locMembers .chanopVoiced = [] := by
  unfold Channel.judged
  dsimp only
  split
  · exact plain
  · rfl

theorem State.InOrder.receive (ordered : s.InOrder voices) {m : SjoinMessage} (proper : m.Proper s)
    (spares : voices = true → m.Spares s) : (s.receive m).InOrder voices := by
  unfold State.receive
  cases read : sjoinHead s m.source m.parv with
  | none =>
    unfold State.msSjoin
    rw [read]
    exact ordered
  | some head =>
    obtain ⟨s₂, chptr, root, isnew, entered, ⟨-, ignored⟩ | ⟨verdict, rules, judged⟩⟩ :=
      State.msSjoin_entered m.clientP read
    · rw [ignored]
      exact (entered.ordered ordered read proper).1
    · obtain ⟨ordered₂, listed, comes⟩ := entered.ordered ordered read proper
      obtain ⟨-, old, client, table, -⟩ := entered.cases ordered.intact.sound
      have spared : verdict.keepOurModes = false → (s₂.channel chptr).locMembers .chanopVoiced = [] := fun lost => by
        cases voices with
        | false => exact ordered₂.plain rfl chptr old
        | true => exact entered.spared ordered.intact.sound ordered₂.intact read (spares rfl) rules lost
      have ordered₃ : (s₂.setChannel chptr ((s₂.channel chptr).judged verdict head.mode)).InOrder voices := by
        refine ordered₂.setChannel ((ordered₂.intact.channels chptr old).judged head.mode spared)
          (Channel.judged_chname _ _ _) (Channel.judged_links _ _ _).1 (Channel.judged_links _ _ _).2 fun none => ?_
        exact Channel.judged_plain (ordered₂.plain none chptr old) verdict head.mode
      have ordered₃Listed : chptr ∈ (s₂.setChannel chptr ((s₂.channel chptr).judged verdict
        head.mode)).globalChannelList := listed
      rw [judged]
      unfold State.sjoinMembers
      dsimp only
      split
      · exact ordered₃
      · rcases comes with ⟨link, other⟩ | nobody
        · have link₃ : ((s₂.setChannel chptr ((s₂.channel chptr).judged verdict head.mode)).channel
              chptr).rootChptr = root := by
            rw [State.setChannel_channel, (Channel.judged_links _ _ _).1, link]
          generalize s₂.setChannel chptr ((s₂.channel chptr).judged verdict head.mode) = s₃ at *
          exact State.InOrder.nickLoop (l := ⟨s₃, [], [], 0, []⟩) (sjoinNicks head.nicks) ordered₃
            ordered₃Listed link₃ other m.clientP _
        · rw [nickLoop_same]
          · exact ordered₃
          · intro nick member who known accepted
            have same : (s₂.setChannel chptr ((s₂.channel chptr).judged verdict head.mode)).client =
                s.client := client
            rw [State.isMember, same]
            refine nobody nick member who ?_ ?_
            · rw [← known]
              exact (State.findClient_congr same table _).symm
            · rw [← accepted]
              exact (State.accepts_congr same _ _).symm

end Ircd.Chan
