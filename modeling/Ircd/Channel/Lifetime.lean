import Ircd.Channel.Teardown

/-!
# How long a channel lasts

A channel that nobody is on is to be kept for a time (`persist_time`), and to go after that. The tests of
`sub1_from_channel` and of `cleanup_channels` are the wrong way round, and PART, KICK and `JOIN 0` do not test
at all.
-/
namespace Ircd.Chan

variable {s t : State} {chptr : ChannelId} {who : ClientId}

/-! ### What every step keeps -/

/-- The lists are intact, no channel is listed twice, no op has voice, and what points to virtual channels
points to blocks that have been in use. -/
structure State.Settled (s : State) : Prop where
  intact : s.Intact
  once : s.globalChannelList.Nodup
  plain : ∀ c < s.nextChannel, (s.channel c).members .chanopVoiced = []
  subs : ∀ c < s.nextChannel, ∀ v ∈ (s.channel c).vchanList, v < s.nextChannel
  maps : ∀ u, ∀ pair ∈ (s.client u).vchanMap, pair.2 < s.nextChannel

theorem State.Fresh.settled (fresh : s.Fresh) : s.Settled where
  intact := fresh.started.intact
  once := by
    rw [fresh.started.channels]
    exact List.nodup_nil
  plain c below := by
    rw [fresh.started.next] at below
    exact absurd below (Nat.not_lt_zero c)
  subs c below := by
    rw [fresh.started.next] at below
    exact absurd below (Nat.not_lt_zero c)
  maps u pair member := by
    rw [fresh.maps u] at member
    cases member

theorem State.Settled.below (settled : s.Settled) {c : ChannelId} (listed : c ∈ s.globalChannelList) :
    c < s.nextChannel :=
  settled.intact.sound.below c listed

theorem State.Settled.create (settled : s.Settled) (name : List Char) : (s.create name).Settled where
  intact := settled.intact.create name
  once := List.nodup_cons.mpr ⟨fun member => Nat.lt_irrefl _ (settled.below member), settled.once⟩
  plain c less := by
    rcases Nat.lt_succ_iff_lt_or_eq.mp less with before | rfl
    · rw [State.create_channel_ne s name before]
      exact settled.plain c before
    · rw [State.create_channel]
      rfl
  subs c less v member := by
    rcases Nat.lt_succ_iff_lt_or_eq.mp less with before | rfl
    · rw [State.create_channel_ne s name before] at member
      exact (settled.subs c before v member).trans (Nat.lt_succ_self _)
    · rw [State.create_channel] at member
      cases member
  maps u pair member := (settled.maps u pair member).trans (Nat.lt_succ_self _)

theorem State.Settled.addVchan (settled : s.Settled) (top : ChannelId) (old : chptr < s.nextChannel) :
    (s.addVchan top chptr).Settled where
  intact := settled.intact.addVchan top chptr
  once := settled.once
  plain c less := by
    rw [State.addVchan_channel]
    exact settled.plain c less
  subs c less v member := by
    rw [State.addVchan_channel] at member
    dsimp only at member
    split at member
    · rcases List.mem_cons.mp member with rfl | before
      · exact old
      · exact settled.subs c less v before
    · exact settled.subs c less v member
  maps := settled.maps

/-- A channel is replaced by one with the same members and virtual channels. -/
theorem State.Settled.setChannel (settled : s.Settled) {ch : Channel}
    (replaced : ch.Intact s.mine fun u => chptr ∈ (s.client u).channels)
    (list : ch.vchanList = (s.channel chptr).vchanList) (plain : ch.members .chanopVoiced = []) :
    (s.setChannel chptr ch).Settled where
  intact := settled.intact.setChannel replaced
  once := settled.once
  plain c less := by
    by_cases here : c = chptr
    · rw [here, State.setChannel_channel, plain]
    · rw [State.setChannel_channel_ne _ _ here]
      exact settled.plain c less
  subs c less v member := by
    by_cases here : c = chptr
    · rw [here, State.setChannel_channel, list, ← here] at member
      exact settled.subs c less v member
    · rw [State.setChannel_channel_ne _ _ here] at member
      exact settled.subs c less v member
  maps := settled.maps

/-- Everything else in a channel may change. -/
theorem State.Settled.touch (settled : s.Settled) (old : chptr < s.nextChannel) {ch : Channel}
    (same : (s.channel chptr).SameMembers ch) (list : ch.vchanList = (s.channel chptr).vchanList) :
    (s.setChannel chptr ch).Settled := by
  refine settled.setChannel ((settled.intact.channels chptr old).sameMembers same) list ?_
  rw [same.1]
  exact settled.plain chptr old

theorem State.Settled.addVchanToClientCache (settled : s.Settled) (who root : ChannelId)
    (old : chptr < s.nextChannel) : (s.addVchanToClientCache who root chptr).Settled := by
  unfold State.addVchanToClientCache
  split
  · exact settled
  · refine ⟨settled.intact.vchanMap who _, settled.once, settled.plain, settled.subs, fun u pair member => ?_⟩
    by_cases here : u = who
    · rw [here, State.setClient_client] at member
      rcases List.mem_cons.mp member with rfl | before
      · exact old
      · exact settled.maps who pair before
    · rw [State.setClient_client_ne _ _ here] at member
      exact settled.maps u pair member

/-- Nobody comes in as an op with voice. -/
theorem rankOfFlags_ne (flags : ℕ) : Rank.chanopVoiced ≠ rankOfFlags flags := by
  unfold rankOfFlags
  split_ifs <;> decide

theorem State.Settled.addUserToChannel (settled : s.Settled) (old : chptr < s.nextChannel)
    (outside : chptr ∉ (s.client who).channels) (flags : ℕ) : (s.addUserToChannel chptr who flags).Settled := by
  have intact := settled.intact.addUserToChannel old outside flags
  unfold State.addUserToChannel at intact ⊢
  cases given : (s.client who).user with
  | none => exact settled
  | some user =>
    simp only [given] at intact ⊢
    refine ⟨intact, settled.once, fun c less => ?_, fun c less v member => ?_, fun u pair member => ?_⟩
    · rw [State.setClient_channel]
      by_cases here : c = chptr
      · subst here
        rw [State.setChannel_channel]
        dsimp only
        rw [Lists.add_ne _ _ (rankOfFlags_ne flags)]
        exact settled.plain c old
      · rw [State.setChannel_channel_ne _ _ here]
        exact settled.plain c less
    · rw [State.setClient_channel] at member
      by_cases here : c = chptr
      · rw [here, State.setChannel_channel] at member
        exact settled.subs chptr old v member
      · rw [State.setChannel_channel_ne _ _ here] at member
        exact settled.subs c less v member
    · by_cases here : u = who
      · rw [here, State.setClient_client] at member
        exact settled.maps who pair member
      · rw [State.setClient_client_ne _ _ here] at member
        exact settled.maps u pair member

/-! ### Who enters a channel -/

/-- What a channel is kept with while nobody is on it: its modes and its lists of masks. -/
def Channel.terms (ch : Channel) : Mode × List Ban × List Ban × List Ban :=
  (ch.mode, ch.banlist, ch.exceptlist, ch.invexlist)

/-- No channel goes, and only one has its modes changed. -/
structure State.Enters (chptr : ChannelId) (s t : State) : Prop where
  settled : t.Settled
  list : ∀ c ∈ s.globalChannelList, c ∈ t.globalChannelList
  next : s.nextChannel ≤ t.nextChannel
  others : ∀ c < s.nextChannel, c ≠ chptr → (t.channel c).terms = (s.channel c).terms

theorem State.Enters.refl (settled : s.Settled) (chptr : ChannelId) : State.Enters chptr s s :=
  ⟨settled, fun _ => id, le_rfl, fun _ _ _ => rfl⟩

theorem State.Enters.trans {s₁ : State} (first : State.Enters chptr s s₁) (second : State.Enters chptr s₁ t) :
    State.Enters chptr s t where
  settled := second.settled
  list c listed := second.list c (first.list c listed)
  next := first.next.trans second.next
  others c less different :=
    (second.others c (less.trans_le first.next) different).trans (first.others c less different)

theorem State.Settled.enters_create (settled : s.Settled) (chptr : ChannelId) (name : List Char) :
    State.Enters chptr s (s.create name) where
  settled := settled.create name
  list _ := List.mem_cons_of_mem _
  next := Nat.le_succ _
  others c less _ := by rw [State.create_channel_ne s name less]

theorem State.Settled.enters_addVchan (settled : s.Settled) (top : ChannelId) (old : chptr < s.nextChannel)
    (other : ChannelId) : State.Enters other s (s.addVchan top chptr) where
  settled := settled.addVchan top old
  list _ := id
  next := le_rfl
  others c _ _ := by
    rw [State.addVchan_channel]
    rfl

/-- The channel itself may change in everything but its members and its virtual channels. -/
theorem State.Enters.touch (enters : State.Enters chptr s t) (old : chptr < t.nextChannel) {ch : Channel}
    (same : (t.channel chptr).SameMembers ch) (list : ch.vchanList = (t.channel chptr).vchanList) :
    State.Enters chptr s (t.setChannel chptr ch) where
  settled := enters.settled.touch old same list
  list := enters.list
  next := enters.next
  others c less different := by
    rw [State.setChannel_channel_ne _ _ different]
    exact enters.others c less different

theorem State.Settled.enters_addVchanToClientCache (settled : s.Settled) (who root : ChannelId)
    (old : chptr < s.nextChannel) (other : ChannelId) :
    State.Enters other s (s.addVchanToClientCache who root chptr) where
  settled := settled.addVchanToClientCache who root old
  list c listed := by
    unfold State.addVchanToClientCache
    split
    · exact listed
    · exact listed
  next := by
    unfold State.addVchanToClientCache
    split
    · exact le_rfl
    · exact le_rfl
  others c _ _ := by rw [State.addVchanToClientCache_channel]

theorem State.Settled.enters_addUserToChannel (settled : s.Settled) (old : chptr < s.nextChannel)
    (outside : chptr ∉ (s.client who).channels) (flags : ℕ) :
    State.Enters chptr s (s.addUserToChannel chptr who flags) := by
  have joins := State.joins_addUserToChannel s chptr who flags
  refine ⟨settled.addUserToChannel old outside flags, fun c listed => ?_, ?_, fun c _ different => ?_⟩
  · rw [joins.same]
    exact listed
  · rw [joins.same]
  · rw [joins.others c different]

/-- The end of `m_join`: somebody is on the channel then. -/
theorem State.Settled.enterChannel (settled : s.Settled) (person : (s.client who).user.isSome = true)
    (old : chptr < s.nextChannel) (outside : chptr ∉ (s.client who).channels) (root : ChannelId) (op : Bool)
    (name : List Char) : State.Enters chptr s (s.enterChannel who root chptr op name) ∧
      ((s.enterChannel who root chptr op name).channel chptr).users ≠ 0 := by
  obtain ⟨user, given⟩ := Option.isSome_iff_exists.mp person
  unfold State.enterChannel
  dsimp only
  generalize (if op then modeChanop else 0) = flags
  have added := settled.enters_addUserToChannel old outside flags
  have cached := added.trans
    (added.settled.enters_addVchanToClientCache who root (old.trans_le added.next) chptr)
  have users : (((s.addUserToChannel chptr who flags).addVchanToClientCache who root chptr).channel
      chptr).users ≠ 0 := by
    have count := (settled.intact.channels chptr old).users
    have more : ((s.addUserToChannel chptr who flags).channel chptr).users =
        (s.channel chptr).users + 1 := by
      simp only [State.addUserToChannel, given, State.setClient_channel, State.setChannel_channel]
    rw [State.addVchanToClientCache_channel, more]
    omega
  split
  · refine ⟨cached.touch (old.trans_le cached.next) ⟨rfl, rfl, rfl, rfl⟩ rfl, ?_⟩
    rw [State.setChannel_channel]
    exact users
  · exact ⟨cached, users⟩

/-- Whatever channel a client is let into has been in use. -/
theorem State.Settled.selectVchan (settled : s.Settled) {root : ChannelId} (old : root < s.nextChannel)
    {vkey : List Char} {invited : List ChannelId}
    (selected : s.selectVchan root who vkey invited = some chptr) : chptr < s.nextChannel := by
  have sub := settled.subs root old
  unfold State.selectVchan at selected
  split at selected
  · split at selected
    · cases selected
    · split at selected
      · split at selected
        · cases selected
        · -- by somebody who is on it, or by its id
          unfold State.findVchan at selected
          rcases Option.or_eq_some_iff.mp selected with mapped | ⟨-, byId⟩
          · obtain ⟨who', -, mapped⟩ := Option.bind_eq_some_iff.mp mapped
            unfold State.mapVchan at mapped
            split at mapped
            · cases mapped
              exact old
            · obtain ⟨pair, found, rfl⟩ := Option.map_eq_some_iff.mp mapped
              exact settled.maps who' pair (List.mem_of_find?_eq_some found)
          · split at byId
            · rcases List.mem_cons.mp (List.mem_of_find?_eq_some byId) with rfl | member
              · exact old
              · exact sub chptr member
            · cases byId
      · unfold State.vchanInvites at selected
        have shown := List.find?_some selected
        rcases of_decide_eq_true shown with rfl | member
        · exact old
        · exact sub chptr member
  · split at selected
    · cases selected
    · cases selected
      exact old

/-- JOIN lets somebody into a channel, or does nothing. -/
theorem State.Settled.mJoin (settled : s.Settled) (person : (s.client who).user.isSome = true)
    (r : JoinRequest) : ∃ chptr, State.Enters chptr s (s.mJoin who r) ∧
      (s.mJoin who r = s ∨ ((s.mJoin who r).channel chptr).users ≠ 0) := by
  unfold State.mJoin
  cases joins : s.joinTarget who r with
  | none => exact ⟨0, .refl settled 0, Or.inl rfl⟩
  | some target =>
    obtain ⟨t, root, chptr, op⟩ := target
    dsimp only
    obtain ⟨-, -, ⟨rfl, found, selected, outside, -⟩ | ⟨-, rfl, rfl, rfl, -⟩⟩ := State.joinTarget_some joins
    · have old := settled.selectVchan (settled.below (State.hashFindChannel_some found).1) selected
      obtain ⟨enters, users⟩ := settled.enterChannel person old outside root op r.name
      exact ⟨chptr, enters, Or.inr users⟩
    · have created := settled.enters_create s.nextChannel r.name
      have person' : ((s.create r.name).client who).user.isSome = true := person
      obtain ⟨enters, users⟩ := created.settled.enterChannel person' (Nat.lt_succ_self s.nextChannel)
        (fun on => Nat.lt_irrefl _ (settled.intact.sound.joined who _ on)) s.nextChannel op r.name
      exact ⟨s.nextChannel, created.trans enters, Or.inr users⟩

/-- CJOIN lets somebody into a channel that is new, or does nothing. -/
theorem State.Settled.mCjoin (settled : s.Settled) (person : (s.client who).user.isSome = true)
    (name : List Char) (admitted : Bool) : State.Enters s.nextChannel s (s.mCjoin who name admitted) := by
  obtain ⟨user, given⟩ := Option.isSome_iff_exists.mp person
  unfold State.mCjoin
  cases target : s.cjoinTarget who name admitted with
  | none => exact .refl settled _
  | some pair =>
    obtain ⟨t, chptr⟩ := pair
    obtain ⟨-, -, -, root, -, cjoined⟩ := State.cjoinTarget_some target
    obtain ⟨-, -, rfl, ts, -, rfl⟩ := State.cjoinChannel_some cjoined
    have new : s.nextChannel < (s.create (vchanName name ts)).nextChannel := Nat.lt_succ_self _
    have outside : s.nextChannel ∉ (s.client who).channels := fun on =>
      Nat.lt_irrefl _ (settled.intact.sound.joined who _ on)
    have created := settled.enters_create s.nextChannel (vchanName name ts)
    have linked := created.trans (created.settled.enters_addVchan root new s.nextChannel)
    unfold State.openVchan
    dsimp only
    generalize timed' : ((s.create (vchanName name ts)).addVchan root s.nextChannel).setChannel s.nextChannel _ = s₁
    have timed : State.Enters s.nextChannel s s₁ := by
      rw [← timed']
      exact linked.touch new ⟨rfl, rfl, rfl, rfl⟩ rfl
    have client : s₁.client = s.client := by
      rw [← timed']
      rfl
    have old : s.nextChannel < s₁.nextChannel := by
      rw [← timed']
      exact new
    rw [State.addVchanToClientCache_addUserToChannel (by rw [client, given])]
    have added := timed.trans (timed.settled.enters_addUserToChannel old (by rw [client]; exact outside) modeChanop)
    have still : s.nextChannel < (s₁.addUserToChannel s.nextChannel who modeChanop).nextChannel := by
      rw [(State.joins_addUserToChannel s₁ s.nextChannel who modeChanop).same]
      exact old
    have cached := added.trans
      (added.settled.enters_addVchanToClientCache who root still s.nextChannel)
    refine cached.touch ?_ ⟨rfl, rfl, rfl, rfl⟩ rfl
    exact still.trans_le (added.settled.enters_addVchanToClientCache who root still s.nextChannel).next

/-- The channel that a SJOIN is about, if there is one. -/
def SjoinMessage.target (m : SjoinMessage) (s : State) : Option ChannelId :=
  (sjoinHead s m.source m.parv).bind fun head => s.hashFindChannel (head.chname.take channelLen)

theorem Entered.enters {head : SjoinHead} {top : Option ChannelId} {isnew : Bool}
    (entered : Entered s head t chptr top isnew) (settled : s.Settled) :
    State.Enters chptr s t ∧ chptr < t.nextChannel := by
  obtain ⟨s₁, got, link⟩ := entered.between
  obtain ⟨first, old⟩ : State.Enters chptr s s₁ ∧ chptr < s₁.nextChannel := by
    rcases State.getOrCreateChannel_cases got with ⟨-, rfl, found⟩ | ⟨-, -, rfl, rfl⟩
    · exact ⟨.refl settled chptr, settled.below (State.hashFindChannel_some found).1⟩
    · exact ⟨settled.enters_create _ head.chname, Nat.lt_succ_self _⟩
  have cases := s₁.linkVchan_cases chptr head.newts entered.hash_take (List.length_take_le _ _)
  rw [link] at cases
  change _ ∧ t = _ ∨ _ ∧ ((∃ top' base, _ ∧ _ ∧ t = _) ∨ ∃ base, _ ∧ _ ∧ t = _) at cases
  rcases cases with ⟨-, rfl⟩ | ⟨-, ⟨top', base, -, -, rfl⟩ | ⟨base, -, -, rfl⟩⟩
  · exact ⟨first, old⟩
  · exact ⟨first.trans (first.settled.enters_addVchan top' old chptr), old⟩
  · -- the root is made for the message
    have created := first.trans (first.settled.enters_create chptr base)
    have still : chptr < (s₁.create base).nextChannel := old.trans (Nat.lt_succ_self _)
    have linked := created.trans (created.settled.enters_addVchan s₁.nextChannel still chptr)
    exact ⟨linked.touch still ⟨rfl, rfl, rfl, rfl⟩ rfl, still⟩

theorem State.Enters.nickLoop (clientP : ClientId) (root : Option ChannelId) (keepNewModes : Bool)
    (nicks : List (List Char)) {l : NickLoop} (enters : State.Enters chptr s l.state)
    (old : chptr < l.state.nextChannel) :
    State.Enters chptr s (nicks.foldl (nickStep clientP chptr root keepNewModes) l).state := by
  induction nicks generalizing l with
  | nil => exact enters
  | cons nick nicks ih =>
    rw [List.foldl_cons]
    have step : State.Enters chptr l.state (nickStep clientP chptr root keepNewModes l nick).state := by
      rcases nickStep_state clientP chptr root keepNewModes l nick with same | ⟨who, -, -, outside, same⟩
      · rw [same]
        exact .refl enters.settled chptr
      · rw [same]
        have added := enters.settled.enters_addUserToChannel old (of_decide_eq_false outside)
          (flagsOf keepNewModes (readPrefixes keepNewModes nick).fl)
        exact added.trans
          (added.settled.enters_addVchanToClientCache who _ (old.trans_le added.next) chptr)
    exact ih (enters.trans step) (old.trans_le step.next)

/-- A SJOIN changes the modes of the channel that it is about, if it changes any. -/
theorem State.Settled.receive (settled : s.Settled) (m : SjoinMessage) : ∃ chptr,
    State.Enters chptr s (s.receive m) ∧ (chptr ∈ s.globalChannelList → m.target s = some chptr) := by
  unfold State.receive SjoinMessage.target
  cases read : sjoinHead s m.source m.parv with
  | none =>
    unfold State.msSjoin
    rw [read]
    exact ⟨s.nextChannel, .refl settled _, fun listed => absurd (settled.below listed) (Nat.lt_irrefl _)⟩
  | some head =>
    obtain ⟨t, chptr, top, isnew, entered, outcome⟩ := State.msSjoin_entered m.clientP read
    obtain ⟨enters, old⟩ := entered.enters settled
    refine ⟨chptr, ?_, fun listed => ?_⟩
    · rcases outcome with ⟨-, ignored⟩ | ⟨verdict, -, judged⟩
      · rw [ignored]
        exact enters
      · have plain := enters.settled.plain chptr old
        have before := enters.settled.intact.channels chptr old
        have noLocal : (t.channel chptr).locMembers .chanopVoiced = [] := by
          have part := before.locals .chanopVoiced
          rw [plain, List.filter_nil] at part
          exact part.eq_nil
        have voiceless : ((t.channel chptr).judged verdict head.mode).members .chanopVoiced = [] := by
          unfold Channel.judged
          dsimp only
          split
          · exact plain
          · rfl
        have replaced := enters.settled.setChannel (before.judged head.mode fun _ => noLocal)
          (Channel.judged_links _ verdict head.mode).2 voiceless
        have judges : State.Enters chptr s
            (t.setChannel chptr ((t.channel chptr).judged verdict head.mode)) := by
          refine ⟨replaced, enters.list, enters.next, fun c less different => ?_⟩
          rw [State.setChannel_channel_ne _ _ different]
          exact enters.others c less different
        rw [judged]
        unfold State.sjoinMembers
        dsimp only
        split
        · exact judges
        · exact State.Enters.nickLoop (l := ⟨_, [], [], 0, []⟩) m.clientP top _ _ judges old
    · obtain ⟨-, -, -, -, ⟨_, _, _, ⟨-, found, -⟩ | ⟨-, -, rfl, -⟩⟩, -⟩ :=
        entered.cases settled.intact.sound
      · exact found
      · exact absurd (settled.below listed) (Nat.lt_irrefl _)

/-! ### Who leaves a channel -/

theorem Channel.isVchanTop_iff (ch : Channel) :
    ch.isVchanTop = true ↔ ch.rootChptr = none ∧ ch.vchanList ≠ [] := by
  simp [Channel.isVchanTop, Channel.hasVchans]

/-- Only one channel can have gone, and no modes have been changed. -/
structure State.Loses (s t : State) (chptr : ChannelId) (goes : Prop) : Prop where
  settled : t.Settled
  terms : ∀ c, (t.channel c).terms = (s.channel c).terms
  others : ∀ c ∈ s.globalChannelList, c ≠ chptr → c ∈ t.globalChannelList
  gone : chptr ∈ s.globalChannelList → (chptr ∈ t.globalChannelList ↔ ¬ goes)

theorem State.Settled.destroyChannel (settled : s.Settled) (old : chptr < s.nextChannel)
    (users : (s.channel chptr).users = 0) :
    s.Loses (s.destroyChannel chptr) chptr ((s.channel chptr).isVchanTop = false) := by
  have empty := (settled.intact.channels chptr old).empty users
  obtain ⟨-, -, next, client, channel⟩ := State.destroyChannel_channel empty
  have list : (s.destroyChannel chptr).globalChannelList =
      if (s.channel chptr).isVchanTop = true then s.globalChannelList else s.globalChannelList.erase chptr := by
    rw [State.destroyChannel_eq empty]
    by_cases top : (s.channel chptr).isVchanTop = true
    · rw [if_pos top, if_pos ((Channel.isVchanTop_iff _).mp top)]
    · rw [if_neg top, if_neg (mt (Channel.isVchanTop_iff _).mpr top)]
  have subs : ∀ c, ∀ v ∈ ((s.destroyChannel chptr).channel c).vchanList, v ∈ (s.channel c).vchanList := by
    intro c v
    rw [State.destroyChannel_eq empty]
    split
    · exact id
    · cases (s.channel chptr).rootChptr with
      | none => exact id
      | some root =>
        change v ∈ ((s.setChannel root _).channel c).vchanList → _
        by_cases here : c = root
        · rw [here, State.setChannel_channel]
          exact List.mem_of_mem_erase
        · rw [State.setChannel_channel_ne _ _ here]
          exact id
  refine ⟨⟨settled.intact.destroyChannel empty, ?_, fun c less => ?_, fun c less v member => ?_, ?_⟩,
    fun c => ?_, fun c listed different => ?_, fun listed => ?_⟩
  · rw [list]
    split
    · exact settled.once
    · exact settled.once.erase chptr
  · obtain ⟨_, equal⟩ := channel c
    rw [equal]
    exact settled.plain c (next ▸ less)
  · rw [next] at less ⊢
    exact settled.subs c less v (subs c v member)
  · rw [client, next]
    exact settled.maps
  · obtain ⟨_, equal⟩ := channel c
    rw [equal]
    rfl
  · rw [list]
    split
    · exact listed
    · exact (List.mem_erase_of_ne different).mpr listed
  · rw [list]
    split
    next top => simp [top, listed]
    next flat => simp [flat, settled.once.mem_erase_iff]

/-- What `sub1_from_channel` and `cleanup_channels` test: there is time left. -/
def State.Young (s : State) (c : ChannelId) : Prop := (s.channel c).channelts + s.persistTime > s.currentTime

instance (s : State) (c : ChannelId) : Decidable (s.Young c) := inferInstanceAs (Decidable (_ > _))

theorem State.Settled.removeUserFromChannel (settled : s.Settled) (on : chptr ∈ (s.client who).channels)
    (perm : Bool) : s.Loses (s.removeUserFromChannel chptr who perm) chptr ((s.channel chptr).users = 1 ∧
        (perm = false ∨ s.Young chptr) ∧ (s.channel chptr).isVchanTop = false) ∧
      ((s.removeUserFromChannel chptr who perm).client who).channels = (s.client who).channels.erase chptr := by
  have old := settled.intact.sound.joined who chptr on
  have before := settled.intact.channels chptr old
  rcases settled.intact.removeUserFromChannel_eq old who perm with ⟨nowhere, -⟩ | ⟨t, leaves, result⟩
  · obtain ⟨r, onList⟩ := before.rank on
    exact absurd onList (nowhere r)
  · have channels : (t.client who).channels = (s.client who).channels.erase chptr := by
      have left := congrFun (congrArg Groups.on (groups_leave settled.intact old leaves)) who
      rw [Groups.leave_on, if_pos rfl] at left
      exact left
    obtain ⟨r, locMembers, locusers, usersLast, id, onList, equal⟩ := leaves.links
    have others : ∀ c, c ≠ chptr → t.channel c = s.channel c := fun c here => by
      rw [equal, State.setClient_channel, State.setChannel_channel_ne _ _ here]
    have same : (t.channel chptr).users = (s.channel chptr).users - 1 ∧
        (t.channel chptr).terms = (s.channel chptr).terms ∧
        (t.channel chptr).isVchanTop = (s.channel chptr).isVchanTop ∧
        (t.channel chptr).vchanList = (s.channel chptr).vchanList ∧
        (t.Young chptr ↔ s.Young chptr) := by
      unfold State.Young
      rw [equal, State.setClient_channel, State.setChannel_channel]
      exact ⟨rfl, rfl, rfl, rfl, Iff.rfl⟩
    obtain ⟨users, terms, top, list, young⟩ := same
    have next : t.nextChannel = s.nextChannel ∧ t.globalChannelList = s.globalChannelList := by
      rw [equal]
      exact ⟨rfl, rfl⟩
    have left : t.Settled := by
      refine ⟨leaves.intact, next.2 ▸ settled.once, fun c less => ?_, fun c less v member => ?_, fun u pair member => ?_⟩
      · by_cases here : c = chptr
        · subst here
          have voiceless := settled.plain c old
          rw [equal, State.setClient_channel, State.setChannel_channel]
          by_cases listed : r = .chanopVoiced
          · subst listed
            rw [voiceless] at onList
            cases onList
          · exact (Lists.delete_ne _ _ (Ne.symm listed)).trans voiceless
        · rw [others c here]
          exact settled.plain c (next.1 ▸ less)
      · rw [next.1] at less ⊢
        by_cases here : c = chptr
        · rw [here, list, ← here] at member
          exact settled.subs c less v member
        · rw [others c here] at member
          exact settled.subs c less v member
      · rw [next.1]
        by_cases here : u = who
        · rw [here, equal, State.setClient_client] at member
          split at member
          · exact settled.maps who pair (List.mem_of_mem_eraseP member)
          · exact settled.maps who pair member
        · rw [equal, State.setClient_client_ne _ _ here] at member
          exact settled.maps u pair member
    have termsAll : ∀ c, (t.channel c).terms = (s.channel c).terms := fun c => by
      by_cases here : c = chptr
      · rw [here, terms]
      · rw [others c here]
    have test : (t.channel chptr).channelts + t.persistTime > t.currentTime ↔ s.Young chptr := young
    rw [result]
    split
    next ends =>
      obtain ⟨none, may⟩ := ends
      rw [test] at may
      have lost := left.destroyChannel (next.1.symm ▸ old) none
      have last : (s.channel chptr).users = 1 := by omega
      refine ⟨⟨lost.settled, fun c => (lost.terms c).trans (termsAll c), fun c listed => lost.others c (next.2 ▸ listed),
        fun listed => ?_⟩, ?_⟩
      · rw [lost.gone (next.2 ▸ listed), top]
        simp [last, may]
      · obtain ⟨-, -, -, client, -⟩ := State.destroyChannel_channel
          ((leaves.intact.channels chptr (next.1.symm ▸ old)).empty none)
        rw [client, channels]
    next stays =>
      refine ⟨⟨left, termsAll, fun c listed _ => next.2 ▸ listed, fun listed => ?_⟩, channels⟩
      rw [test] at stays
      refine iff_of_true (next.2 ▸ listed) fun goes => stays ⟨?_, goes.2.1⟩
      rw [users, goes.1]
      rfl

/-- What is left of a channel that has been dropped, and of the others. -/
theorem State.dropChannel_channel (noLocals : ∀ r, (s.channel chptr).locMembers r = [])
    (goes : (s.channel chptr).isVchanTop = false) (c : ChannelId) :
    ((s.dropChannel chptr).channel c).terms = (s.channel c).terms ∧
      ∀ v ∈ ((s.dropChannel chptr).channel c).vchanList, v ∈ (s.channel c).vchanList := by
  have goes' : ¬((s.channel chptr).rootChptr = none ∧ (s.channel chptr).vchanList ≠ []) := fun top => by
    rw [(Channel.isVchanTop_iff _).mpr top] at goes
    cases goes
  obtain ⟨client, taken⟩ := s.deleteMembers_clients chptr (s.channel chptr).remote
  have unlinked : ∀ d, (((s.deleteMembers chptr (s.channel chptr).remote).unlinkChannel chptr).channel d).terms =
        (s.channel d).terms ∧
      ∀ v ∈ (((s.deleteMembers chptr (s.channel chptr).remote).unlinkChannel chptr).channel d).vchanList,
        v ∈ (s.channel d).vchanList := by
    intro d
    rw [taken]
    unfold State.unlinkChannel
    dsimp only
    cases (s.channel chptr).rootChptr with
    | none => exact ⟨rfl, fun _ => id⟩
    | some root =>
      dsimp only
      by_cases here : d = root
      · subst here
        rw [State.setChannel_channel]
        exact ⟨rfl, fun _ => List.mem_of_mem_erase⟩
      · rw [State.setChannel_channel_ne _ _ here]
        exact ⟨rfl, fun _ => id⟩
  rw [State.dropChannel, if_neg goes', State.destroyChannel_remote noLocals goes']
  by_cases here : c = chptr
  · subst here
    rw [State.setChannel_channel]
    exact unlinked c
  · rw [State.setChannel_channel_ne _ _ here]
    exact unlinked c

theorem State.Settled.dropChannel (settled : s.Settled) (old : chptr < s.nextChannel)
    (locusers : (s.channel chptr).locusers = 0) (goes : (s.channel chptr).isVchanTop = false) :
    s.Loses (s.dropChannel chptr) chptr True := by
  have channel := State.dropChannel_channel
    ((settled.intact.channels chptr old).noLocals locusers) goes
  have dropped := settled.intact.dropped old locusers fun top => by
    rw [(Channel.isVchanTop_iff _).mpr top] at goes
    cases goes
  refine ⟨⟨dropped.intact settled.intact old (settled.plain chptr old), ?_, fun c less => ?_,
    fun c less v member => ?_, fun u pair member => ?_⟩, fun c => (channel c).1, fun c listed different => ?_,
    fun _ => ?_⟩
  · rw [dropped.list]
    exact settled.once.erase chptr
  · by_cases here : c = chptr
    · rw [here, dropped.deserted.members]
    · rw [(dropped.others c here).1]
      exact settled.plain c (dropped.next ▸ less)
  · rw [dropped.next] at less ⊢
    exact settled.subs c less v ((channel c).2 v member)
  · rw [dropped.next]
    rw [dropped.client] at member
    refine settled.maps u pair ?_
    split at member
    · unfold State.departed at member
      split at member
      · exact List.mem_of_mem_eraseP member
      · exact member
    · exact member
  · rw [dropped.list]
    exact (List.mem_erase_of_ne different).mpr listed
  · rw [dropped.list]
    exact iff_of_false (fun member => (settled.once.mem_erase_iff.mp member).1 rfl) (not_not_intro trivial)

theorem State.Settled.cleanupChannel (settled : s.Settled) (listed : chptr ∈ s.globalChannelList) :
    ∃ goes, s.Loses (s.cleanupChannel chptr) chptr goes ∧ ((s.channel chptr).isVchan = false →
      (goes ↔ (s.channel chptr).users = 0 ∧ s.Young chptr ∧ (s.channel chptr).isVchanTop = false)) := by
  have old := settled.below listed
  have stays : s.Loses s chptr False :=
    ⟨settled, fun _ => rfl, fun _ listed _ => listed, fun listed => iff_of_true listed id⟩
  have touched : s.Loses (s.setChannel chptr { s.channel chptr with usersLast := s.currentTime }) chptr False := by
    refine ⟨settled.touch old ⟨rfl, rfl, rfl, rfl⟩ rfl, fun c => ?_, fun _ listed _ => listed,
      fun listed => iff_of_true listed id⟩
    by_cases here : c = chptr
    · rw [here, State.setChannel_channel]
      rfl
    · rw [State.setChannel_channel_ne _ _ here]
  unfold State.cleanupChannel
  dsimp only
  split
  next isVchan =>
    have none : (s.channel chptr).isVchan = false → False := fun flat => by
      rw [isVchan] at flat
      cases flat
    split
    · split
      next users => exact ⟨_, settled.destroyChannel old users, fun flat => (none flat).elim⟩
      · exact ⟨_, touched, fun flat => (none flat).elim⟩
    · exact ⟨_, stays, fun flat => (none flat).elim⟩
  · split
    next users =>
      split
      next young =>
        have young' : s.Young chptr := young
        exact ⟨_, settled.destroyChannel old users, fun _ => by simp [users, young']⟩
      next expired =>
        have expired' : ¬ s.Young chptr := expired
        exact ⟨_, stays, fun _ => by simp [expired']⟩
    next users => exact ⟨_, touched, fun _ => by simp [users]⟩

/-- A leaf that is linked with LazyLinks drops channels which only remote clients are on, too. -/
theorem State.Settled.cleanupLeaf (settled : s.Settled) (listed : chptr ∈ s.globalChannelList) :
    ∃ goes, s.Loses (s.cleanupLeaf chptr) chptr goes ∧ ((s.channel chptr).isVchan = false →
      (goes ↔ ((s.channel chptr).users = 0 ∧ s.Young chptr ∨ s.Drops chptr) ∧
        (s.channel chptr).isVchanTop = false)) := by
  unfold State.cleanupLeaf
  split
  next drops =>
    cases top : (s.channel chptr).isVchanTop with
    | false => exact ⟨True, settled.dropChannel (settled.below listed) drops.2.2.2 top, fun _ => by simp [drops]⟩
    | true =>
      -- the root of others is left as it is
      have stays : s.dropChannel chptr = s := by
        have top' := (Channel.isVchanTop_iff _).mp top
        rw [State.dropChannel, if_pos top']
        unfold State.destroyChannel
        dsimp only
        rw [if_pos (by simpa using top')]
      rw [stays]
      exact ⟨False, ⟨settled, fun _ => rfl, fun _ listed _ => listed, fun listed => iff_of_true listed id⟩,
        fun _ => by simp⟩
  next keeps =>
    obtain ⟨goes, loses, test⟩ := settled.cleanupChannel listed
    refine ⟨goes, loses, fun flat => ?_⟩
    rw [test flat]
    simp [keeps, and_assoc]

/-! ### Histories -/

/-- What can happen to a channel: JOIN, CJOIN and SJOIN let somebody in; `remove_user_from_channel` takes
somebody off, with `perm` for those who exit and without it for PART, KICK and `JOIN 0`; `cleanup_channels`
comes to it, maybe on a leaf whose uplink has `CAP_LL`; and time passes. -/
inductive Passage where
  | join (who : ClientId) (r : JoinRequest)
  | cjoin (who : ClientId) (name : List Char) (admitted : Bool)
  | sjoin (m : SjoinMessage)
  | leave (chptr : ChannelId) (who : ClientId) (perm : Bool)
  | cleanup (chptr : ChannelId) (leaf : Bool)
  | tick (now : ℤ)

def State.pass (s : State) : Passage → State
  | .join who r => s.mJoin who r
  | .cjoin who name admitted => s.mCjoin who name admitted
  | .sjoin m => s.receive m
  | .leave chptr who perm => s.removeUserFromChannel chptr who perm
  | .cleanup chptr leaf => if leaf then s.cleanupLeaf chptr else s.cleanupChannel chptr
  | .tick now => { s with currentTime := now }

/-- What the callers see to: a person joins, who leaves is on the channel, and the channel that is cleaned up
is on the list. -/
def Passage.Called (s : State) : Passage → Prop
  | .join who _ => (s.client who).user.isSome = true
  | .cjoin who _ _ => (s.client who).user.isSome = true
  | .leave chptr who _ => chptr ∈ (s.client who).channels
  | .cleanup chptr _ => chptr ∈ s.globalChannelList
  | _ => True

/-- Everything in the history has the property in the state in which it happens. -/
def State.Through (P : State → Passage → Prop) (s : State) : List Passage → Prop
  | [] => True
  | p :: passages => P s p ∧ (s.pass p).Through P passages

def State.passes (s : State) (passages : List Passage) : State := passages.foldl State.pass s

/-- The last member leaves the channel, or `cleanup_channels` finds nobody on it. -/
def Passage.Due (s : State) (c : ChannelId) : Passage → Prop
  | .leave chptr _ _ => chptr = c ∧ (s.channel c).users = 1
  | .cleanup chptr _ => chptr = c ∧ (s.channel c).users = 0
  | _ => False

/-- A leaf drops the channel, though somebody is on it. -/
def Passage.Drops (s : State) (c : ChannelId) : Passage → Prop
  | .cleanup chptr true => chptr = c ∧ s.Drops c
  | _ => False

/-- A SJOIN for the channel, which may bring other modes. -/
def Passage.Sets (s : State) (c : ChannelId) : Passage → Prop
  | .sjoin m => m.target s = some c
  | _ => False

/-- The time for which the channel is to be kept is over. -/
def State.Expired (s : State) (c : ChannelId) : Prop := (s.channel c).channelts + s.persistTime < s.currentTime

instance (s : State) (c : ChannelId) : Decidable (s.Expired c) := inferInstanceAs (Decidable (_ < _))

/-- The channel lasts as long as it should: when nobody is on it any more it goes if and only if its time is
over, it does not go otherwise, and while it is empty its modes stay. -/
structure Passage.Lasts (s : State) (p : Passage) (c : ChannelId) : Prop where
  ends : p.Due s c → (c ∈ (s.pass p).globalChannelList ↔ ¬ s.Expired c)
  stays : ¬ p.Due s c → ¬ p.Drops s c → c ∈ (s.pass p).globalChannelList
  terms : ¬ p.Sets s c → c ∈ (s.pass p).globalChannelList → ((s.pass p).channel c).users = 0 →
    ((s.pass p).channel c).terms = (s.channel c).terms

/-- Every channel that is not virtual lasts as long as it should. -/
def Passage.Lifetimes (s : State) (p : Passage) : Prop :=
  ∀ c ∈ s.globalChannelList, (s.channel c).isVchan = false → p.Lasts s c

/-- The last member leaves at the right time, or the empty channel is looked at then: a root of virtual channels
before its time is over, any other channel after that with PART, KICK and `JOIN 0`, and in the very second
otherwise. -/
def Passage.Timely (s : State) (c : ChannelId) (p : Passage) : Prop :=
  if (s.channel c).isVchanTop = true then ¬ s.Expired c
  else
    match p with
    | .leave _ _ false => s.Expired c
    | _ => s.currentTime = (s.channel c).channelts + s.persistTime

def Passage.InTime (s : State) (p : Passage) : Prop :=
  ∀ c ∈ s.globalChannelList, (s.channel c).isVchan = false → p.Due s c → p.Timely s c

/-! ### One step -/

/-- A step that lets somebody in ends no channel. -/
theorem State.Enters.lasts (enters : State.Enters chptr s t) {p : Passage} (next : s.pass p = t)
    (due : ∀ c, ¬ p.Due s c)
    (here : chptr ∈ s.globalChannelList → ¬ p.Sets s chptr → (t.channel chptr).users = 0 →
      (t.channel chptr).terms = (s.channel chptr).terms) (settled : s.Settled) : p.Lifetimes s := by
  subst next
  intro c listed _
  refine ⟨fun isDue => absurd isDue (due c), fun _ _ => enters.list c listed, fun sets _ users => ?_⟩
  by_cases same : c = chptr
  · subst same
    exact here listed sets users
  · exact enters.others c (settled.below listed) same

/-- A step that takes somebody off, or looks at a channel, can end that channel only. -/
theorem State.Loses.lasts_iff {goes : Prop} {p : Passage} (loses : s.Loses (s.pass p) chptr goes)
    (due : ∀ c, p.Due s c → c = chptr)
    (goes_iff : (s.channel chptr).isVchan = false → p.Due s chptr →
      ((¬ goes ↔ ¬ s.Expired chptr) ↔ p.Timely s chptr))
    (kept : (s.channel chptr).isVchan = false → ¬ p.Due s chptr → ¬ p.Drops s chptr → ¬ goes) :
    p.Lifetimes s ↔ p.InTime s := by
  constructor
  · intro lasts c listed flat isDue
    obtain rfl := due c isDue
    refine (goes_iff flat isDue).mp ?_
    rw [← loses.gone listed]
    exact (lasts c listed flat).ends isDue
  · intro timely c listed flat
    refine ⟨fun isDue => ?_, fun notDue keeps => ?_, fun _ _ _ => loses.terms c⟩
    · obtain rfl := due c isDue
      rw [loses.gone listed]
      exact (goes_iff flat isDue).mpr (timely c listed flat isDue)
    · by_cases here : c = chptr
      · subst here
        exact (loses.gone listed).mpr (kept flat notDue keeps)
      · exact loses.others c listed here

/-- What the test of the source comes to: it is right in one second. -/
theorem State.young_iff_expired (s : State) (c : ChannelId) :
    (s.Young c ↔ s.Expired c) ↔ s.currentTime = (s.channel c).channelts + s.persistTime := by
  unfold State.Young State.Expired
  omega

theorem Passage.inTime_iff (settled : s.Settled) {p : Passage} (called : p.Called s) :
    p.Lifetimes s ↔ p.InTime s := by
  -- only leaving and cleaning up make a channel due
  have never : (∀ c, ¬ p.Due s c) → p.InTime s := fun due c _ _ isDue => absurd isDue (due c)
  cases p with
  | join who r =>
    obtain ⟨chptr, enters, outcome⟩ := settled.mJoin called r
    refine iff_of_true (enters.lasts rfl (fun _ => id) (fun _ _ users => ?_) settled) (never fun _ => id)
    rcases outcome with same | someone
    · rw [same]
    · exact absurd users someone
  | cjoin who name admitted =>
    refine iff_of_true ((settled.mCjoin called name admitted).lasts rfl (fun _ => id) (fun listed => ?_) settled)
      (never fun _ => id)
    exact absurd (settled.below listed) (Nat.lt_irrefl _)
  | sjoin m =>
    obtain ⟨chptr, enters, about⟩ := settled.receive m
    exact iff_of_true (enters.lasts rfl (fun _ => id) (fun listed sets => absurd (about listed) sets) settled)
      (never fun _ => id)
  | leave chptr who perm =>
    obtain ⟨loses, -⟩ := settled.removeUserFromChannel called perm
    refine State.Loses.lasts_iff (p := .leave chptr who perm) loses (fun c isDue => isDue.1.symm)
      (fun _ isDue => ?_) fun _ notDue _ goes => notDue ⟨rfl, goes.1⟩
    rw [not_iff_not]
    unfold Passage.Timely
    cases top : (s.channel chptr).isVchanTop with
    | true => simp
    | false =>
      cases perm with
      | false => simp [isDue.2]
      | true => simpa [isDue.2] using s.young_iff_expired chptr
  | cleanup chptr leaf =>
    obtain ⟨goes, loses, test⟩ : ∃ goes, s.Loses (s.pass (.cleanup chptr leaf)) chptr goes ∧
        ((s.channel chptr).isVchan = false →
          (goes ↔ ((s.channel chptr).users = 0 ∧ s.Young chptr ∨ leaf = true ∧ s.Drops chptr) ∧
            (s.channel chptr).isVchanTop = false)) := by
      cases leaf with
      | true => simpa [State.pass] using settled.cleanupLeaf called
      | false => simpa [State.pass, and_assoc] using settled.cleanupChannel called
    refine loses.lasts_iff (fun c isDue => isDue.1.symm) (fun flat isDue => ?_) fun flat notDue keeps goes => ?_
    · -- nobody is on it, and so it is not dropped
      have keeps : ¬ s.Drops chptr := fun drops => drops.2.1 isDue.2
      rw [not_iff_not, test flat]
      unfold Passage.Timely
      cases top : (s.channel chptr).isVchanTop with
      | true => simp
      | false => simpa [isDue.2, keeps] using s.young_iff_expired chptr
    · rcases ((test flat).mp goes).1 with ⟨empty, -⟩ | ⟨isLeaf, drops⟩
      · exact notDue ⟨rfl, empty⟩
      · subst isLeaf
        exact keeps ⟨rfl, drops⟩
  | tick now =>
    refine iff_of_true (fun c listed _ => ⟨False.elim, fun _ _ => listed, fun _ _ _ => rfl⟩) (never fun _ => id)

theorem State.Settled.pass (settled : s.Settled) {p : Passage} (called : p.Called s) : (s.pass p).Settled := by
  cases p with
  | join who r =>
    obtain ⟨chptr, enters, -⟩ := settled.mJoin called r
    exact enters.settled
  | cjoin who name admitted => exact (settled.mCjoin called name admitted).settled
  | sjoin m =>
    obtain ⟨chptr, enters, -⟩ := settled.receive m
    exact enters.settled
  | leave chptr who perm => exact (settled.removeUserFromChannel called perm).1.settled
  | cleanup chptr leaf =>
    cases leaf with
    | true =>
      obtain ⟨_, loses, -⟩ := settled.cleanupLeaf called
      exact loses.settled
    | false =>
      obtain ⟨_, loses, -⟩ := settled.cleanupChannel called
      exact loses.settled
  | tick now =>
    obtain ⟨⟨channels, joined, below, onOld⟩, once, plain, subs, maps⟩ := settled
    exact ⟨⟨channels, joined, below, onOld⟩, once, plain, subs, maps⟩

/-! ### What the commands are made of -/

/-- A client leaves its channels one after the other. -/
theorem State.Settled.leaves (settled : s.Settled) (who : ClientId) (perm : Bool) (list : List ChannelId)
    (same : (s.client who).channels = list) :
    s.Through (fun s p => p.Called s) (list.map fun c => .leave c who perm) := by
  induction list generalizing s with
  | nil => trivial
  | cons chptr list ih =>
    have on : chptr ∈ (s.client who).channels := by
      rw [same]
      exact List.mem_cons_self
    obtain ⟨loses, channels⟩ := settled.removeUserFromChannel on perm
    refine ⟨on, ih loses.settled ?_⟩
    rw [same, List.erase_cons_head] at channels
    exact channels

theorem State.Settled.doJoin0 (settled : s.Settled) (who : ClientId) (list : List ChannelId)
    (same : (s.client who).channels = list) :
    s.doJoin0 who list.length = some (s.passes (list.map fun c => .leave c who false)) := by
  induction list generalizing s with
  | nil =>
    rw [List.length_nil, State.doJoin0, if_pos same]
    rfl
  | cons chptr list ih =>
    have on : chptr ∈ (s.client who).channels := by
      rw [same]
      exact List.mem_cons_self
    obtain ⟨loses, channels⟩ := settled.removeUserFromChannel on false
    rw [same, List.erase_cons_head] at channels
    rw [List.length_cons, State.doJoin0, same]
    exact ih loses.settled channels

theorem State.Through.append {P : State → Passage → Prop} {xs ys : List Passage} (first : s.Through P xs)
    (second : (s.passes xs).Through P ys) : s.Through P (xs ++ ys) := by
  induction xs generalizing s with
  | nil => exact second
  | cons p xs ih => exact ⟨first.1, ih first.2 second⟩

theorem State.Settled.passes (settled : s.Settled) {passages : List Passage}
    (called : s.Through (fun s p => p.Called s) passages) : (s.passes passages).Settled := by
  induction passages generalizing s with
  | nil => exact settled
  | cons p passages ih => exact ih (settled.pass called.1) called.2

/-! ### Whole histories -/

/-- In a whole history every channel lasts as long as it should, if and only if whatever finds a channel empty
comes at the right time. -/
theorem lifetimes_iff (fresh : s.Fresh) {passages : List Passage} (called : s.Through (fun s p => p.Called s) passages) :
    s.Through (fun s p => p.Lifetimes s) passages ↔ s.Through (fun s p => p.InTime s) passages := by
  have settled := fresh.settled
  clear fresh
  induction passages generalizing s with
  | nil => exact Iff.rfl
  | cons p passages ih => exact and_congr (Passage.inTime_iff settled called.1) (ih called.2 (settled.pass called.1))

/-- The small network, where a channel is to be kept for half an hour. -/
def persistentNetwork : State := { smallNetwork with persistTime := 1800 }

theorem persistentNetwork_fresh : persistentNetwork.Fresh where
  started := ⟨rfl, rfl, smallNetwork_started.users⟩
  maps u := by
    match u with
    | 0 | 1 | 2 | _ + 3 => rfl

instance (s : State) (p : Passage) : Decidable (p.Called s) :=
  match p with
  | .join who _ => inferInstanceAs (Decidable ((s.client who).user.isSome = true))
  | .cjoin who _ _ => inferInstanceAs (Decidable ((s.client who).user.isSome = true))
  | .sjoin _ => .isTrue trivial
  | .leave chptr who _ => inferInstanceAs (Decidable (chptr ∈ (s.client who).channels))
  | .cleanup chptr _ => inferInstanceAs (Decidable (chptr ∈ s.globalChannelList))
  | .tick _ => .isTrue trivial

instance State.decidableThrough (P : State → Passage → Prop) [∀ s p, Decidable (P s p)] (s : State) :
    ∀ passages, Decidable (s.Through P passages)
  | [] => .isTrue trivial
  | p :: passages =>
    have := State.decidableThrough P (s.pass p) passages
    inferInstanceAs (Decidable (P s p ∧ (s.pass p).Through P passages))

/-- A client makes a channel and exits in the second in which its time is over. -/
def punctualExit : List Passage := [.join 3 ⟨['#', 'a'], [], [], true⟩, .tick 2800, .leave 0 3 true]

theorem lifetimes_iff_punctualExit :
    persistentNetwork.Through (fun s p => p.Lifetimes s) punctualExit ↔
      persistentNetwork.Through (fun s p => p.InTime s) punctualExit :=
  lifetimes_iff persistentNetwork_fresh (by decide +kernel)

/-- A client makes a channel and exits after a minute; another one makes a channel and exits after a day. -/
def twoExits : List Passage :=
  [.join 3 ⟨['#', 'a'], [], [], true⟩, .tick 1060, .leave 0 3 true,
    .join 4 ⟨['#', 'b'], [], [], true⟩, .tick 87460, .leave 1 4 true, .cleanup 1 false]

/-- The young channel goes, and the old one stays. -/
theorem young_goes_old_stays : persistentNetwork.Fresh ∧
    persistentNetwork.Through (fun s p => p.Called s) twoExits ∧
    (persistentNetwork.passes twoExits).globalChannelList = [1] ∧
    ¬ persistentNetwork.Through (fun s p => p.Lifetimes s) twoExits := by
  refine ⟨persistentNetwork_fresh, by decide +kernel, by decide +kernel, fun lasts => ?_⟩
  have kept := (lasts.2.2.1 0 (by decide +kernel) (by decide +kernel)).ends ⟨rfl, by decide +kernel⟩
  exact absurd (kept.mpr (by decide +kernel)) (by decide +kernel)

/-! ### Runs of commands -/

/-- `cleanup_channels`. -/
def State.cleanupChannels (s : State) (leaf : Bool) : State :=
  s.globalChannelList.foldl (fun s chptr => if leaf then s.cleanupLeaf chptr else s.cleanupChannel chptr) s

/-- `cleanup_channels` comes to every channel that is on the list. -/
theorem State.Settled.cleanupChannels (settled : s.Settled) (leaf : Bool) :
    s.Through (fun s p => p.Called s) (s.globalChannelList.map fun c => .cleanup c leaf) ∧
      s.cleanupChannels leaf = s.passes (s.globalChannelList.map fun c => .cleanup c leaf) := by
  refine ⟨?_, by rw [State.passes, List.foldl_map]; rfl⟩
  have each : ∀ (list : List ChannelId) (s : State), s.Settled → list.Nodup → (∀ c ∈ list, c ∈ s.globalChannelList) →
      s.Through (fun s p => p.Called s) (list.map fun c => .cleanup c leaf) := by
    intro list
    induction list with
    | nil => exact fun _ _ _ _ => trivial
    | cons chptr list ih =>
      intro s settled once listed
      obtain ⟨absent, once⟩ := List.nodup_cons.mp once
      have here := listed chptr List.mem_cons_self
      obtain ⟨goes, loses⟩ : ∃ goes, s.Loses (s.pass (.cleanup chptr leaf)) chptr goes := by
        cases leaf with
        | true => exact (settled.cleanupLeaf here).imp fun _ => And.left
        | false => exact (settled.cleanupChannel here).imp fun _ => And.left
      refine ⟨here, ih _ loses.settled once fun c member => ?_⟩
      -- a channel that has gone does not come again
      refine loses.others c (listed c (List.mem_cons_of_mem _ member)) ?_
      rintro rfl
      exact absent member
  exact each _ s settled settled.once fun _ => id

theorem persistentNetwork_cleanupChannels :
    let s := persistentNetwork.pass (.join 3 ⟨['#', 'a'], [], [], true⟩)
    s.Through (fun s p => p.Called s) [.cleanup 0 true] ∧ s.cleanupChannels true = s.passes [.cleanup 0 true] :=
  (persistentNetwork_fresh.settled.pass (p := .join 3 ⟨['#', 'a'], [], [], true⟩) rfl).cleanupChannels true

end Ircd.Chan
