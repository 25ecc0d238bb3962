import Ircd.Channel.Sjoin
import Mathlib.Data.List.Find
import Mathlib.Data.List.TakeWhile

/-!
# What the stages of SJOIN do

One lemma for each stage of `ms_sjoin`, which says all that the stage can do to the state.
The theorems about SJOIN use these and do not look into the stages.
-/
namespace Ircd.Chan

/-- What the block heap guarantees: the next block is not in use. -/
structure State.Sound (s : State) : Prop where
  below : ∀ c ∈ s.globalChannelList, c < s.nextChannel
  joined : ∀ u, ∀ c ∈ (s.client u).channels, c < s.nextChannel

/-! ### Finding channels -/

theorem State.hashFindChannel_some {s : State} {name : List Char} {c : ChannelId}
    (found : s.hashFindChannel name = some c) :
    c ∈ s.globalChannelList ∧ IrcEq name (s.channel c).chname := by
  unfold State.hashFindChannel at found
  have shown := List.find?_some found
  exact ⟨List.mem_of_find?_eq_some found, of_decide_eq_true shown⟩

/-- Names that are equal up to case find the same channel. -/
theorem State.hashFindChannel_congr_name (s : State) {name name' : List Char}
    (equal : IrcEq name name') : s.hashFindChannel name = s.hashFindChannel name' := by
  unfold State.hashFindChannel
  apply List.find?_congr
  intro c _
  exact decide_eq_decide.mpr equal.congr_left

theorem State.hashFindChannel_congr {s s' : State}
    (list : s'.globalChannelList = s.globalChannelList)
    (names : ∀ c ∈ s.globalChannelList, (s'.channel c).chname = (s.channel c).chname)
    (name : List Char) : s'.hashFindChannel name = s.hashFindChannel name := by
  unfold State.hashFindChannel
  rw [list]
  apply List.find?_congr
  intro c member
  rw [names c member]

theorem State.create_channel_ne (s : State) (chname : List Char) {c : ChannelId}
    (old : c < s.nextChannel) : (s.create chname).channel c = s.channel c :=
  State.setChannel_channel_ne s _ (Nat.ne_of_lt old)

@[simp] theorem State.create_channel (s : State) (chname : List Char) :
    (s.create chname).channel s.nextChannel = emptyChannel chname s.currentTime :=
  State.setChannel_channel s _ _

theorem State.Sound.create {s : State} (sound : s.Sound) (chname : List Char) :
    (s.create chname).Sound where
  below c member := by
    rcases List.mem_cons.mp member with rfl | old
    · exact Nat.lt_succ_self _
    · exact (sound.below c old).trans (Nat.lt_succ_self _)
  joined u c member := (sound.joined u c member).trans (Nat.lt_succ_self _)

/-- After a channel has been created, it is the one found under its name. -/
theorem State.hashFindChannel_create {s : State} (sound : s.Sound) (chname name : List Char) :
    (s.create chname).hashFindChannel name =
      if IrcEq name (chname.take channelLen) then some s.nextChannel else s.hashFindChannel name := by
  have rest : s.globalChannelList.find? (fun c => IrcEq name ((s.create chname).channel c).chname) =
      s.hashFindChannel name := by
    apply List.find?_congr
    intro c member
    rw [State.create_channel_ne s chname (sound.below c member)]
  have first : ((s.create chname).channel s.nextChannel).chname = chname.take channelLen := by
    rw [State.create_channel]
    rfl
  unfold State.hashFindChannel
  rw [show (s.create chname).globalChannelList = s.nextChannel :: s.globalChannelList from rfl,
    List.find?_cons, first, rest]
  by_cases equal : IrcEq name (chname.take channelLen) <;> simp [equal, State.hashFindChannel]

theorem State.getOrCreateChannel_cases {s s' : State} {chname : List Char} {c : ChannelId}
    {isnew : Bool} (got : s.getOrCreateChannel chname = some (s', c, isnew)) :
    (isnew = false ∧ s' = s ∧ s.hashFindChannel (chname.take channelLen) = some c) ∨
      (isnew = true ∧ s.hashFindChannel (chname.take channelLen) = none ∧ c = s.nextChannel ∧
        s' = s.create chname) := by
  unfold State.getOrCreateChannel at got
  split at got
  · cases got
  · cases found : s.hashFindChannel (chname.take channelLen) with
    | some c' =>
      rw [found] at got
      cases got
      exact Or.inl ⟨rfl, rfl, rfl⟩
    | none =>
      rw [found] at got
      cases got
      exact Or.inr ⟨rfl, rfl, rfl, rfl⟩

/-! ### Virtual channels -/

theorem splitLastUnderscore_eq {name base suffix : List Char}
    (split : splitLastUnderscore name = some (base, suffix)) : name = base ++ '_' :: suffix := by
  unfold splitLastUnderscore at split
  split at split
  · rename_i member
    obtain ⟨rfl, rfl⟩ := Prod.mk.inj (Option.some.inj split)
    have some : name.reverse.dropWhile (· != '_') ≠ [] := by
      rw [Ne, List.dropWhile_eq_nil_iff]
      intro all
      have := all '_' (List.mem_reverse.mpr member)
      exact absurd this (by decide)
    have head : (name.reverse.dropWhile (· != '_')).head some = '_' := by
      simpa using List.head_dropWhile_not (· != '_') some
    have cut := List.takeWhile_append_dropWhile (p := (· != '_')) (l := name.reverse)
    rw [← List.cons_head_tail some, head] at cut
    have reversed := congrArg List.reverse cut
    simpa using reversed.symm
  · cases split

/-- The base name of a virtual channel begins with a `#` of its own. -/
theorem State.splitVchan_base {s : State} {chname base suffix : List Char}
    (split : s.splitVchan chname = some (base, suffix)) (hash : chname.head? = some '#') :
    base.tail ≠ [] ∧ base.tail.length + 2 ≤ chname.length := by
  unfold State.splitVchan at split
  split at split
  · rename_i vchan
    obtain rfl := splitLastUnderscore_eq split
    obtain ⟨second, -⟩ := vchan
    match base with
    | [] => exact absurd hash (by simp)
    | [x] => exact absurd second (by simp)
    | x :: y :: rest => simp
  · cases split

theorem State.addVchan_channel (s : State) (top chptr c : ChannelId) :
    (s.addVchan top chptr).channel c = { s.channel c with
      rootChptr := if c = chptr then some top else (s.channel c).rootChptr
      vchanList := if c = top then chptr :: (s.channel c).vchanList else (s.channel c).vchanList } := by
  unfold State.addVchan
  by_cases isVchan : c = chptr <;> by_cases isTop : c = top
  · subst isVchan isTop
    simp
  · subst isVchan
    simp [State.setChannel_channel_ne _ _ isTop, isTop]
  · subst isTop
    simp [State.setChannel_channel_ne _ _ isVchan, isVchan]
  · simp [State.setChannel_channel_ne _ _ isVchan, State.setChannel_channel_ne _ _ isTop, isVchan,
      isTop]

/-- What linking virtual channels leaves alone. -/
structure State.Linked (s s' : State) : Prop where
  same : s' = { s with
    channel := s'.channel
    globalChannelList := s'.globalChannelList
    nextChannel := s'.nextChannel }
  channel : ∀ c < s.nextChannel, ∃ root list id,
    s'.channel c = { s.channel c with rootChptr := root, vchanList := list, vchanId := id }
  list : s'.globalChannelList = s.globalChannelList ∧ s'.nextChannel = s.nextChannel ∨
    s'.globalChannelList = s.nextChannel :: s.globalChannelList ∧
      s'.nextChannel = s.nextChannel + 1

theorem State.Linked.refl (s : State) : s.Linked s :=
  ⟨rfl, fun _ _ => ⟨_, _, _, rfl⟩, Or.inl ⟨rfl, rfl⟩⟩

theorem State.linked_addVchan (s : State) (top chptr : ChannelId) :
    s.Linked (s.addVchan top chptr) where
  same := rfl
  channel c _ := ⟨_, _, _, s.addVchan_channel top chptr c⟩
  list := Or.inl ⟨rfl, rfl⟩

theorem State.linked_create (s : State) (name : List Char) (chptr : ChannelId) (id : List Char) :
    let linked := (s.create name).addVchan s.nextChannel chptr
    s.Linked (linked.setChannel chptr { linked.channel chptr with vchanId := id }) where
  same := rfl
  channel c old := by
    have equal := (s.create name).addVchan_channel s.nextChannel chptr c
    rw [State.create_channel_ne s name old] at equal
    by_cases isVchan : c = chptr
    · subst isVchan
      exact ⟨_, _, _, by rw [State.setChannel_channel, equal]⟩
    · exact ⟨_, _, _, by rw [State.setChannel_channel_ne _ _ isVchan, equal]⟩
  list := Or.inr ⟨rfl, rfl⟩

/-- The message links its channel to a root channel, which may have to be created. -/
def State.Links (s : State) (chptr : ChannelId) (chname : List Char) (newts : ℤ) : Prop :=
  ∃ base suffix, s.splitVchan chname = some (base, suffix) ∧ newts = atol suffix ∧
    ∀ top, s.hashFindChannel base.tail = some top → chptr ∉ (s.channel top).vchanList

/-- All that linking can do. -/
theorem State.linkVchan_cases (s : State) (chptr : ChannelId) {chname : List Char} (newts : ℤ)
    (hash : chname.head? = some '#') (short : chname.length ≤ channelLen) :
    ¬ s.Links chptr chname newts ∧ (s.linkVchan chptr chname newts).1 = s ∨
      s.Links chptr chname newts ∧
        ((∃ top base, s.hashFindChannel base = some top ∧ chptr ∉ (s.channel top).vchanList ∧
          (s.linkVchan chptr chname newts).1 = s.addVchan top chptr) ∨
        ∃ base, base.length + 2 ≤ chname.length ∧ s.hashFindChannel base = none ∧
          let linked := (s.create base).addVchan s.nextChannel chptr
          (s.linkVchan chptr chname newts).1 =
            linked.setChannel chptr { linked.channel chptr with vchanId := ['!'] }) := by
  unfold State.linkVchan State.Links
  cases split : s.splitVchan chname with
  | none => exact Or.inl ⟨by simp, rfl⟩
  | some parts =>
    obtain ⟨base, suffix⟩ := parts
    obtain ⟨nonempty, shorter⟩ := State.splitVchan_base split hash
    have uncut : base.tail.take channelLen = base.tail := List.take_of_length_le (by omega)
    cases found : s.hashFindChannel base.tail with
    | some top =>
      by_cases both : chptr ∉ (s.channel top).vchanList ∧ newts = atol suffix
      · refine Or.inr ⟨⟨base, suffix, rfl, both.2, ?_⟩, Or.inl ⟨top, base.tail, found, both.1, ?_⟩⟩
        · intro top' found'
          rw [found] at found'
          cases found'
          exact both.1
        · simp [found, both]
      · refine Or.inl ⟨?_, by simp only [found, if_neg both]⟩
        rintro ⟨base', suffix', equal, time, fresh⟩
        cases equal
        exact both ⟨fresh top found, time⟩
    | none =>
      have created : s.getOrCreateChannel base.tail = some (s.create base.tail, s.nextChannel, true) := by
        simp [State.getOrCreateChannel, nonempty, uncut, found]
      by_cases time : newts = atol suffix
      · refine Or.inr ⟨⟨base, suffix, rfl, time, ?_⟩, Or.inr ⟨base.tail, shorter, found, ?_⟩⟩
        · intro top found'
          rw [found] at found'
          cases found'
        · simp [found, time, created]
      · refine Or.inl ⟨?_, by simp only [found, if_neg time]⟩
        rintro ⟨base', suffix', equal, time', -⟩
        cases equal
        exact time time'

theorem State.linked_linkVchan (s : State) (chptr : ChannelId) {chname : List Char} (newts : ℤ)
    (hash : chname.head? = some '#') (short : chname.length ≤ channelLen) :
    s.Linked (s.linkVchan chptr chname newts).1 := by
  rcases s.linkVchan_cases chptr newts hash short with
    ⟨-, same⟩ | ⟨-, ⟨top, base, -, -, linked⟩ | ⟨base, -, -, linked⟩⟩
  · rw [same]
    exact State.Linked.refl s
  · rw [linked]
    exact s.linked_addVchan top chptr
  · rw [linked]
    exact s.linked_create base chptr ['!']

theorem State.Linked.sound {s s' : State} (linked : s.Linked s') (sound : s.Sound) : s'.Sound where
  below c member := by
    rcases linked.list with ⟨list, next⟩ | ⟨list, next⟩
    · rw [next]
      exact sound.below c (list ▸ member)
    · rw [next]
      rcases List.mem_cons.mp (list ▸ member) with rfl | old
      · exact Nat.lt_succ_self _
      · exact (sound.below c old).trans (Nat.lt_succ_self _)
  joined u c member := by
    rw [show s'.client = s.client by rw [linked.same]] at member
    have below := sound.joined u c member
    rcases linked.list with ⟨-, next⟩ | ⟨-, next⟩
    · rw [next]
      exact below
    · rw [next]
      exact below.trans (Nat.lt_succ_self _)

/-- A root channel that is created has a shorter name than the channel of the message. -/
theorem State.linkVchan_hashFindChannel {s : State} (sound : s.Sound) (chptr : ChannelId)
    {chname name : List Char} (newts : ℤ) (hash : chname.head? = some '#')
    (short : chname.length ≤ channelLen) (equal : IrcEq name chname) :
    (s.linkVchan chptr chname newts).1.hashFindChannel name = s.hashFindChannel name := by
  rcases s.linkVchan_cases chptr newts hash short with
    ⟨-, same⟩ | ⟨-, ⟨top, base, -, -, linked⟩ | ⟨base, shorter, -, linked⟩⟩
  · rw [same]
  · rw [linked]
    apply State.hashFindChannel_congr
    · rfl
    · intro c _
      rw [State.addVchan_channel]
  · rw [linked]
    have names : ∀ c, (((s.create base).addVchan s.nextChannel chptr).channel c).chname =
        ((s.create base).channel c).chname := fun c => by rw [State.addVchan_channel]
    have same : ((((s.create base).addVchan s.nextChannel chptr)).setChannel chptr
        { ((s.create base).addVchan s.nextChannel chptr).channel chptr with
          vchanId := ['!'] }).hashFindChannel name = (s.create base).hashFindChannel name := by
      apply State.hashFindChannel_congr
      · rfl
      · intro c _
        by_cases here : c = chptr
        · subst here
          rw [State.setChannel_channel]
          exact names c
        · rw [State.setChannel_channel_ne _ _ here]
          exact names c
    rw [same, State.hashFindChannel_create sound, if_neg]
    intro found
    have lengths := IrcEq.length_eq found
    have cut := List.length_take_le channelLen base
    have uncut : base.take channelLen = base := List.take_of_length_le (by omega)
    rw [uncut, IrcEq.length_eq equal] at lengths
    omega

/-! ### The verdict -/

@[simp] theorem Channel.judged_chname (ch : Channel) (verdict : Verdict) (new : Mode) :
    (ch.judged verdict new).chname = ch.chname := by
  unfold Channel.judged
  dsimp only
  split <;> rfl

@[simp] theorem Channel.judged_users (ch : Channel) (verdict : Verdict) (new : Mode) :
    (ch.judged verdict new).users = ch.users := by
  unfold Channel.judged
  dsimp only
  split <;> rfl

@[simp] theorem Channel.judged_channelts (ch : Channel) (verdict : Verdict) (new : Mode) :
    (ch.judged verdict new).channelts = verdict.channelts := by
  unfold Channel.judged
  dsimp only
  split <;> rfl

@[simp] theorem Channel.judged_mode (ch : Channel) (verdict : Verdict) (new : Mode) :
    (ch.judged verdict new).mode = finalMode verdict ch.mode new := by
  unfold Channel.judged
  dsimp only
  split <;> rfl

theorem Channel.judged_members {ch : Channel} {verdict : Verdict} (new : Mode)
    (keep : verdict.keepOurModes = true) :
    (ch.judged verdict new).members = ch.members ∧
      (ch.judged verdict new).locMembers = ch.locMembers := by
  unfold Channel.judged
  simp [keep]

theorem State.hashFindChannel_judged (s : State) (chptr : ChannelId) (verdict : Verdict)
    (new : Mode) (name : List Char) :
    (s.setChannel chptr ((s.channel chptr).judged verdict new)).hashFindChannel name =
      s.hashFindChannel name := by
  apply State.hashFindChannel_congr
  · rfl
  · intro c _
    by_cases here : c = chptr
    · subst here
      rw [State.setChannel_channel, Channel.judged_chname]
    · rw [State.setChannel_channel_ne _ _ here]

/-! ### The nicks -/

/-- What joining a channel leaves alone. -/
structure State.Joins (chptr : ChannelId) (s s' : State) : Prop where
  same : s' = { s with client := s'.client, channel := s'.channel }
  others : ∀ c, c ≠ chptr → s'.channel c = s.channel c
  here : ∃ members locMembers users locusers last, s'.channel chptr = { s.channel chptr with
    members := members
    locMembers := locMembers
    users := users
    locusers := locusers
    usersLast := last }
  identity : ∀ u, ∃ user vchanMap,
    s'.client u = { s.client u with user := user, vchanMap := vchanMap } ∧
      user.map User.id = (s.client u).user.map User.id
  channels : ∀ u, ∀ c ∈ (s'.client u).channels, c ∈ (s.client u).channels ∨ c = chptr

theorem State.Joins.refl (chptr : ChannelId) (s : State) : State.Joins chptr s s :=
  ⟨rfl, fun _ _ => rfl, ⟨_, _, _, _, _, rfl⟩, fun _ => ⟨_, _, rfl, rfl⟩, fun _ _ => Or.inl⟩

theorem State.Joins.trans {chptr : ChannelId} {s s' s'' : State} (first : State.Joins chptr s s')
    (second : State.Joins chptr s' s'') : State.Joins chptr s s'' where
  same := by rw [second.same, first.same]
  others c different := (second.others c different).trans (first.others c different)
  here := by
    obtain ⟨_, _, _, _, _, equal⟩ := first.here
    obtain ⟨_, _, _, _, _, equal'⟩ := second.here
    exact ⟨_, _, _, _, _, by rw [equal', equal]⟩
  identity u := by
    obtain ⟨_, _, equal, ids⟩ := first.identity u
    obtain ⟨user, vchanMap, equal', ids'⟩ := second.identity u
    rw [equal] at equal' ids'
    exact ⟨user, vchanMap, equal', ids'.trans ids⟩
  channels u c member := by
    rcases second.channels u c member with old | here
    · exact first.channels u c old
    · exact Or.inr here

theorem State.Joins.sound {chptr : ChannelId} {s s' : State} (joins : State.Joins chptr s s')
    (old : chptr < s.nextChannel) (sound : s.Sound) : s'.Sound where
  below := by
    rw [joins.same]
    exact sound.below
  joined u c member := by
    have next : s'.nextChannel = s.nextChannel := by rw [joins.same]
    rw [next]
    rcases joins.channels u c member with before | rfl
    · exact sound.joined u c before
    · exact old

theorem State.Joins.hashFindChannel {chptr : ChannelId} {s s' : State}
    (joins : State.Joins chptr s s') (name : List Char) :
    s'.hashFindChannel name = s.hashFindChannel name := by
  refine State.hashFindChannel_congr (by rw [joins.same]) (fun c _ => ?_) name
  by_cases here : c = chptr
  · subst here
    obtain ⟨_, _, _, _, _, equal⟩ := joins.here
    rw [equal]
  · rw [joins.others c here]

theorem State.joins_addUserToChannel (s : State) (chptr : ChannelId) (who : ClientId) (flags : ℕ) :
    State.Joins chptr s (s.addUserToChannel chptr who flags) := by
  unfold State.addUserToChannel
  cases given : (s.client who).user with
  | none => exact State.Joins.refl chptr s
  | some user =>
    refine ⟨rfl, fun c different => ?_, ⟨_, _, _, _, _, State.setChannel_channel s _ _⟩,
      fun u => ?_, fun u c => ?_⟩
    · exact State.setChannel_channel_ne s _ different
    · by_cases here : u = who
      · subst here
        exact ⟨_, _, State.setClient_client _ _ _, by rw [given]; rfl⟩
      · exact ⟨_, _, by rw [State.setClient_client_ne _ _ here, State.setChannel_client], rfl⟩
    · by_cases here : u = who
      · subst here
        simp [Client.channels, given, or_comm]
      · rw [State.setClient_client_ne _ _ here, State.setChannel_client]
        exact Or.inl

theorem State.joins_vchanMap (s : State) (chptr : ChannelId) (who : ClientId)
    (vchanMap : List (ChannelId × ChannelId)) :
    State.Joins chptr s (s.setClient who { s.client who with vchanMap := vchanMap }) := by
  refine ⟨rfl, fun _ _ => rfl, ⟨_, _, _, _, _, rfl⟩, fun u => ?_, fun u c => ?_⟩
  · by_cases here : u = who
    · subst here
      exact ⟨_, _, by rw [State.setClient_client], rfl⟩
    · exact ⟨_, _, by rw [State.setClient_client_ne _ _ here], rfl⟩
  · by_cases here : u = who
    · subst here
      rw [State.setClient_client]
      exact Or.inl
    · rw [State.setClient_client_ne _ _ here]
      exact Or.inl

theorem State.Joins.findClient {chptr : ChannelId} {s s' : State} (joins : State.Joins chptr s s')
    (name : List Char) : s'.findClient name = s.findClient name := by
  have table : s'.clientTable = s.clientTable := by rw [joins.same]
  unfold State.findClient
  rw [table]
  split <;> apply List.find?_congr <;> intro u _
  · obtain ⟨user, vchanMap, equal, ids⟩ := joins.identity u
    rw [equal, ids]
  · obtain ⟨user, vchanMap, equal, ids⟩ := joins.identity u
    rw [equal]

theorem State.Joins.accepts {chptr : ChannelId} {s s' : State} (joins : State.Joins chptr s s')
    (clientP target : ClientId) : s'.accepts clientP target = s.accepts clientP target := by
  obtain ⟨user, vchanMap, equal, ids⟩ := joins.identity target
  have person : user.isSome = (s.client target).user.isSome := by
    simpa using congrArg Option.isSome ids
  simp only [State.accepts, Client.isPerson, equal, person]

/-- The nick, less its prefix, is that of a person behind the link. -/
def State.acceptsNick (s : State) (clientP : ClientId) (nick : List Char) : Bool :=
  (s.findClient (readPrefixes true nick).nick).any (s.accepts clientP)

theorem State.Joins.acceptsNick {chptr : ChannelId} {s s' : State} (joins : State.Joins chptr s s')
    (clientP : ClientId) (nick : List Char) :
    s'.acceptsNick clientP nick = s.acceptsNick clientP nick := by
  unfold State.acceptsNick
  rw [joins.findClient]
  congr 1
  funext target
  exact joins.accepts clientP target

private theorem readPrefix_nick (keepNewModes : Bool) {p q : Prefixed} (same : p.nick = q.nick) :
    (readPrefix keepNewModes p).nick = (readPrefix true q).nick := by
  unfold readPrefix
  rw [same]
  split <;> simp [same]

@[simp] theorem readPrefixes_nick (keepNewModes : Bool) (nick : List Char) :
    (readPrefixes keepNewModes nick).nick = (readPrefixes true nick).nick :=
  readPrefix_nick keepNewModes (readPrefix_nick keepNewModes rfl)

/-- A channel that somebody is in has users. -/
def State.Occupied (s : State) (chptr : ChannelId) : Prop :=
  0 ≤ (s.channel chptr).users ∧
    ((∃ u, chptr ∈ (s.client u).channels) → 0 < (s.channel chptr).users)

/-- What one round of the loop over the nicks does. -/
structure NickRound (clientP : ClientId) (chptr : ChannelId) (accepted : ℕ) (l l' : NickLoop) :
    Prop where
  joins : State.Joins chptr l.state l'.state
  people : l'.people = l.people + accepted
  idle : accepted = 0 → l'.state = l.state
  grows : (l.state.channel chptr).users ≤ (l'.state.channel chptr).users
  occupied : l.state.Occupied chptr → l'.state.Occupied chptr ∧
    (0 < accepted → 0 < (l'.state.channel chptr).users)

private theorem addUserToChannel_users (s : State) (chptr : ChannelId) (who : ClientId) (flags : ℕ)
    (some : (s.client who).user.isSome = true) :
    ((s.addUserToChannel chptr who flags).channel chptr).users = (s.channel chptr).users + 1 := by
  obtain ⟨user, given⟩ := Option.isSome_iff_exists.mp some
  simp [State.addUserToChannel, given]

private theorem takeNick_round (clientP : ClientId) (chptr : ChannelId) (top : Option ChannelId)
    (fl : ℕ) (target : ClientId) (l : NickLoop) :
    NickRound clientP chptr (if l.state.accepts clientP target then 1 else 0) l
      (takeNick clientP chptr top fl target l) := by
  unfold takeNick
  cases accepted : l.state.accepts clientP target with
  | false =>
    exact ⟨State.Joins.refl _ _, rfl, fun _ => rfl, le_rfl, fun occupied => ⟨occupied, by simp⟩⟩
  | true =>
    have person : (l.state.client target).user.isSome = true := by
      simp only [State.accepts, Client.isPerson, Bool.and_eq_true] at accepted
      exact accepted.2.2
    cases member : l.state.isMember target chptr with
    | true =>
      refine ⟨State.Joins.refl _ _, rfl, by simp, le_rfl, fun occupied => ⟨occupied, fun _ => ?_⟩⟩
      exact occupied.2 ⟨target, by simpa [State.isMember] using member⟩
    | false =>
      have joins := State.joins_addUserToChannel l.state chptr target fl
      have users := addUserToChannel_users l.state chptr target fl person
      have more : l.state.Occupied chptr →
          0 < ((l.state.addUserToChannel chptr target fl).channel chptr).users := by
        intro occupied
        have := occupied.1
        omega
      -- the entry in the client's cache of virtual channels does not matter here
      have round : ∀ s', State.Joins chptr (l.state.addUserToChannel chptr target fl) s' →
          s'.channel = (l.state.addUserToChannel chptr target fl).channel →
          NickRound clientP chptr 1 l { l with state := s', people := l.people + 1 } := by
        intro s' after channel
        refine ⟨joins.trans after, rfl, by simp, ?_, fun occupied => ⟨⟨?_, ?_⟩, ?_⟩⟩
        · simp only [channel]
          omega
        · simp only [channel]
          exact (more occupied).le
        · simp only [channel]
          exact fun _ => more occupied
        · simp only [channel]
          exact fun _ => more occupied
      simp only [Bool.not_true, Bool.false_eq_true, if_false, if_true]
      cases top with
      | none => exact round _ (State.Joins.refl _ _) rfl
      | some root =>
        by_cases self : root = chptr
        · simp only [self, if_true]
          exact round _ (State.Joins.refl _ _) rfl
        · simp only [self, if_false]
          exact round _ (State.joins_vchanMap _ _ _ _) rfl

private theorem nickStep_round (clientP : ClientId) (chptr : ChannelId) (top : Option ChannelId)
    (keepNewModes : Bool) (l : NickLoop) (nick : List Char) :
    NickRound clientP chptr (if l.state.acceptsNick clientP nick then 1 else 0) l
      (nickStep clientP chptr top keepNewModes l nick) := by
  unfold nickStep State.acceptsNick
  simp only [readPrefixes_nick keepNewModes]
  cases found : l.state.findClient (readPrefixes true nick).nick with
  | none =>
    exact ⟨State.Joins.refl _ _, rfl, fun _ => rfl, le_rfl, fun occupied => ⟨occupied, by simp⟩⟩
  | some target =>
    obtain ⟨joins, people, idle, grows, occupied⟩ := takeNick_round clientP chptr top
      (flagsOf keepNewModes (readPrefixes keepNewModes nick).fl) target
      { l with
        hops := l.hops ++ (readPrefixes keepNewModes nick).hops ++
          (readPrefixes true nick).nick ++ [' ']
        nhops := l.nhops ++ (readPrefixes keepNewModes nick).nhops ++
          (readPrefixes true nick).nick ++ [' '] }
    exact ⟨joins, people, idle, grows, occupied⟩

/-- The loop over the nicks: as many people as there are accepted nicks. -/
theorem nickLoop_round (clientP : ClientId) (chptr : ChannelId) (top : Option ChannelId)
    (keepNewModes : Bool) (nicks : List (List Char)) (l : NickLoop) :
    NickRound clientP chptr (nicks.countP (l.state.acceptsNick clientP)) l
      (nicks.foldl (nickStep clientP chptr top keepNewModes) l) := by
  induction nicks generalizing l with
  | nil =>
    exact ⟨State.Joins.refl _ _, rfl, fun _ => rfl, le_rfl, fun occupied => ⟨occupied, by simp⟩⟩
  | cons nick nicks ih =>
    have first := nickStep_round clientP chptr top keepNewModes l nick
    have rest := ih (nickStep clientP chptr top keepNewModes l nick)
    have same : (nickStep clientP chptr top keepNewModes l nick).state.acceptsNick clientP =
        l.state.acceptsNick clientP := funext (first.joins.acceptsNick clientP)
    rw [same] at rest
    rw [List.foldl_cons, List.countP_cons]
    refine ⟨first.joins.trans rest.joins, ?_, fun none => ?_, first.grows.trans rest.grows,
      fun occupied => ⟨(rest.occupied (first.occupied occupied).1).1, fun some => ?_⟩⟩
    · rw [rest.people, first.people]
      omega
    · rw [rest.idle (by omega), first.idle (by omega)]
    · by_cases later : 0 < nicks.countP (l.state.acceptsNick clientP)
      · exact (rest.occupied (first.occupied occupied).1).2 later
      · exact lt_of_lt_of_le ((first.occupied occupied).2 (by omega)) rest.grows

/-- A message that is not too long takes its nicks one by one. -/
theorem State.sjoinMembers_state (s : State) (clientP source : ClientId) (parv : List (List Char))
    (head : SjoinHead) (chptr : ChannelId) (top : Option ChannelId) (verdict : Verdict)
    (short : (s.relayHeader source chptr parv (head.chname.take channelLen) verdict).length <
      longSjoin) :
    let l := (sjoinNicks head.nicks).foldl (nickStep clientP chptr top verdict.keepNewModes)
      ⟨s, [], [], 0, []⟩
    (s.sjoinMembers clientP source parv head chptr top verdict).state = l.state ∧
      (s.sjoinMembers clientP source parv head chptr top verdict).people = l.people := by
  unfold State.sjoinMembers
  rw [if_neg (not_le.mpr short)]
  exact ⟨rfl, rfl⟩

theorem State.sjoinMembers_round (s : State) (clientP source : ClientId) (parv : List (List Char))
    (head : SjoinHead) (chptr : ChannelId) (top : Option ChannelId) (verdict : Verdict)
    (short : (s.relayHeader source chptr parv (head.chname.take channelLen) verdict).length <
      longSjoin) :
    ∃ l, NickRound clientP chptr ((sjoinNicks head.nicks).countP (s.acceptsNick clientP))
        ⟨s, [], [], 0, []⟩ l ∧
      (s.sjoinMembers clientP source parv head chptr top verdict).state = l.state ∧
      (s.sjoinMembers clientP source parv head chptr top verdict).people = l.people :=
  ⟨_, nickLoop_round clientP chptr top verdict.keepNewModes (sjoinNicks head.nicks)
    ⟨s, [], [], 0, []⟩, s.sjoinMembers_state clientP source parv head chptr top verdict short⟩

/-! ### The stages together -/

theorem sjoinHead_some {s : State} {source : ClientId} {parv : List (List Char)} {head : SjoinHead}
    (read : sjoinHead s source parv = some head) :
    (s.client source).status ≠ .client ∧ (param parv 2).head? = some '#' ∧
      head.chname = param parv 2 ∧ head.newts = atol (param parv 1) ∧
      ∃ args, readModes parv (param parv 3) noMode 0 = some (head.mode, args) := by
  unfold sjoinHead at read
  split at read
  · cases read
  · rename_i enough
    split at read
    · cases read
    · rename_i channelName
      obtain ⟨⟨mode, args⟩, modes, rfl⟩ := Option.map_eq_some_iff.mp read
      have hash : (param parv 2).head? = some '#' :=
        Classical.not_not.mp fun other => channelName (Or.inl other)
      exact ⟨fun client => enough (Or.inl client), hash, rfl, rfl, args, modes⟩

/-- The part of a message before its verdict: the channel is found or created and linked. -/
structure Entered (s : State) (head : SjoinHead) (s₂ : State) (chptr : ChannelId)
    (top : Option ChannelId) (isnew : Bool) : Prop where
  between : ∃ s₁, s.getOrCreateChannel head.chname = some (s₁, chptr, isnew) ∧
    s₁.linkVchan chptr (head.chname.take channelLen) head.newts = (s₂, top)
  hash : head.chname.head? = some '#'

theorem State.msSjoin_entered {s : State} (clientP : ClientId) {source : ClientId} {parv : List (List Char)}
    {head : SjoinHead} (read : sjoinHead s source parv = some head) :
    ∃ s₂ chptr top isnew, Entered s head s₂ chptr top isnew ∧
      ((tsRules isnew (s₂.channel chptr).users head.nicks head.newts
          (s₂.channel chptr).channelts = none ∧ s.msSjoin clientP source parv = .ignored s₂) ∨
        ∃ verdict, tsRules isnew (s₂.channel chptr).users head.nicks head.newts
            (s₂.channel chptr).channelts = some verdict ∧
          s.msSjoin clientP source parv =
            (s₂.setChannel chptr ((s₂.channel chptr).judged verdict head.mode)).sjoinMembers
              clientP source parv head chptr top verdict) := by
  obtain ⟨-, hash, name, -, -⟩ := sjoinHead_some read
  rw [← name] at hash
  have nonempty : head.chname ≠ [] := by
    intro empty
    rw [empty] at hash
    cases hash
  obtain ⟨⟨s₁, chptr, isnew⟩, got⟩ : ∃ got, s.getOrCreateChannel head.chname = some got := by
    unfold State.getOrCreateChannel
    rw [if_neg nonempty]
    split <;> exact ⟨_, rfl⟩
  obtain ⟨⟨s₂, top⟩, link⟩ :
      ∃ linked, s₁.linkVchan chptr (head.chname.take channelLen) head.newts = linked := ⟨_, rfl⟩
  refine ⟨s₂, chptr, top, isnew, ⟨⟨s₁, got, link⟩, hash⟩, ?_⟩
  unfold State.msSjoin
  simp only [read, got, link]
  split
  · rename_i rules
    exact Or.inl ⟨rules, rfl⟩
  · rename_i verdict rules
    exact Or.inr ⟨verdict, rules, rfl⟩

theorem Entered.hash_take {s s₂ : State} {head : SjoinHead} {chptr : ChannelId}
    {top : Option ChannelId} {isnew : Bool} (entered : Entered s head s₂ chptr top isnew) :
    (head.chname.take channelLen).head? = some '#' := by
  have hash := entered.hash
  cases shape : head.chname with
  | nil =>
    rw [shape] at hash
    cases hash
  | cons c text =>
    rw [shape] at hash
    exact hash

/-- What the part before the verdict does. The channel of the message has been there, or is
empty. -/
theorem Entered.cases {s s₂ : State} {head : SjoinHead} {chptr : ChannelId}
    {top : Option ChannelId} {isnew : Bool} (entered : Entered s head s₂ chptr top isnew)
    (sound : s.Sound) :
    s₂.Sound ∧ chptr < s₂.nextChannel ∧ s₂.client = s.client ∧ s₂.clientTable = s.clientTable ∧
      (∃ root list id,
        (isnew = false ∧ s.hashFindChannel (head.chname.take channelLen) = some chptr ∧
          s₂.channel chptr =
            { s.channel chptr with rootChptr := root, vchanList := list, vchanId := id }) ∨
        (isnew = true ∧ s.hashFindChannel (head.chname.take channelLen) = none ∧
          chptr = s.nextChannel ∧ s₂.channel chptr =
            { emptyChannel head.chname s.currentTime with
              rootChptr := root, vchanList := list, vchanId := id })) ∧
      ∀ name, IrcEq name (head.chname.take channelLen) → s₂.hashFindChannel name = some chptr := by
  obtain ⟨s₁, got, link⟩ := entered.between
  have short : (head.chname.take channelLen).length ≤ channelLen := List.length_take_le _ _
  have linked := s₁.linked_linkVchan chptr head.newts entered.hash_take short
  rw [link] at linked
  change s₁.Linked s₂ at linked
  have client : s₂.client = s₁.client := by rw [linked.same]
  have table : s₂.clientTable = s₁.clientTable := by rw [linked.same]
  have lookup := fun (name : List Char) (sound₁ : s₁.Sound)
      (equal : IrcEq name (head.chname.take channelLen)) =>
    State.linkVchan_hashFindChannel sound₁ chptr head.newts entered.hash_take short equal
  rw [link] at lookup
  rcases State.getOrCreateChannel_cases got with ⟨rfl, rfl, found⟩ | ⟨rfl, absent, rfl, rfl⟩
  · have old := sound.below chptr (State.hashFindChannel_some found).1
    obtain ⟨root, list, id, equal⟩ := linked.channel chptr old
    refine ⟨linked.sound sound, ?_, client, table, ⟨root, list, id, Or.inl ⟨rfl, found, equal⟩⟩,
      fun name same => ?_⟩
    · rcases linked.list with ⟨-, next⟩ | ⟨-, next⟩ <;> rw [next]
      · exact old
      · exact old.trans (Nat.lt_succ_self _)
    · rw [lookup name sound same, s₁.hashFindChannel_congr_name same, found]
  · have sound₁ := sound.create head.chname
    have old : s.nextChannel < (s.create head.chname).nextChannel := Nat.lt_succ_self _
    obtain ⟨root, list, id, equal⟩ := linked.channel s.nextChannel old
    rw [State.create_channel] at equal
    refine ⟨linked.sound sound₁, ?_, client, table,
      ⟨root, list, id, Or.inr ⟨rfl, absent, rfl, equal⟩⟩, fun name same => ?_⟩
    · rcases linked.list with ⟨-, next⟩ | ⟨-, next⟩ <;> rw [next]
      · exact old
      · exact old.trans (Nat.lt_succ_self _)
    · rw [lookup name sound₁ same, State.hashFindChannel_create sound, if_pos same]

end Ircd.Chan
