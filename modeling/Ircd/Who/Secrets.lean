import Ircd.Who.Whois
import Ircd.Numbers
import Mathlib.Data.Finset.Card
import Mathlib.Data.Fintype.EquivFin

/-!
# Secret channels in WHO and WHOIS

Two networks that differ only in the secret channels that a requester is not on. All forms of WHO and WHOIS give the
requester the same replies in both, except for WHO with a nick whose loop over the channels runs to its end: the reply
then shows the last channel of all.
-/
namespace Ircd.Who

open Ircd.Chan (ircMatch collapse Rank)
open Ircd.Routing (ClientId)

/-- All channels but the secret ones that the requester is not on. -/
def Network.seen (net : Network) (source : ClientId) (chptr : ChannelId) : Bool :=
  !(net.channel chptr).secret || net.isMember source chptr

/-- The networks differ only in which secret channels there are that the requester is not on, who is on these, and where
they stand among the channels of a client. -/
structure Alike (source : ClientId) (a b : Network) : Prop where
  table : a.toTable = b.toTable
  hideServers : a.hideServers = b.hideServers
  networkName : a.networkName = b.networkName
  networkDesc : a.networkDesc = b.networkDesc
  currentTime : a.currentTime = b.currentTime
  lazyLeaf : a.lazyLeaf = b.lazyLeaf
  detail : a.detail = b.detail
  channelTable : a.channelTable.filter (a.seen source) = b.channelTable.filter (b.seen source)
  channel : ∀ c ∈ a.channelTable, a.seen source c = true → a.channel c = b.channel c
  channels : ∀ who, (a.channels who).filter (a.seen source) = (b.channels who).filter (b.seen source)

/-- What a requester asks. A text for WHOIS has no wildcards in front of the first comma. -/
inductive Query
  | who (mask : Option (List Char)) (serverOper : Bool)
  | whois (text : List Char) (glob : Bool) (plain : ∀ c ∈ text.takeWhile (· != ','), c ≠ '*' ∧ c ≠ '?')

/-- The replies to a query. -/
def Network.replies (net : Network) (source : ClientId) (marked : ClientId → Bool) : Query → List Reply
  | .who mask serverOper => (net.mWho source mask serverOper marked).1
  | .whois text glob _ => net.doWhois source text glob

namespace Network

variable {net : Network} {source target : ClientId} {c : ChannelId}

/-- The loop of `/who nick` is left at such a channel. -/
def stops (net : Network) (source target : ClientId) (chptr : ChannelId) : Bool :=
  net.isMember source chptr || (!(net.detail target).invisible && (net.channel chptr).pub)

theorem seen_of_pub (pub : (net.channel c).pub = true) : net.seen source c = true := by
  unfold Channel.pub at pub
  rw [decide_eq_true_eq] at pub
  simp [seen, Channel.secret, pub.2]

theorem seen_of_stops (stop : net.stops source target c = true) : net.seen source c = true := by
  unfold stops at stop
  rw [Bool.or_eq_true, Bool.and_eq_true] at stop
  rcases stop with member | ⟨-, pub⟩
  · simp [seen, member]
  · exact seen_of_pub pub

theorem seen_of_showChannel (shows : net.showChannel source c = true) : net.seen source c = true := by
  unfold showChannel at shows
  rw [Bool.or_eq_true] at shows
  rcases shows with pub | member
  · exact seen_of_pub pub
  · simp [seen, member]

/-- The loop is left at the first channel that it may show; without one it ends with the last channel. -/
theorem whoNickLoop_eq (l : List ChannelId) (chptr : Option ChannelId) :
    net.whoNickLoop source (net.detail target).invisible chptr l =
      ((l.find? (net.stops source target)).or l.getLast?).or chptr := by
  induction l generalizing chptr with
  | nil => simp [whoNickLoop]
  | cons c l ih =>
    have last : (c :: l).getLast? = l.getLast?.or (some c) := by
      rw [List.getLast?_cons]
      cases l.getLast? <;> rfl
    cases stop : net.stops source target c with
    | true =>
      have out : net.whoNickLoop source (net.detail target).invisible chptr (c :: l) = some c := by
        unfold stops at stop
        rw [whoNickLoop]
        cases invis : (net.detail target).invisible <;> cases member : net.isMember source c <;> simp_all
      rw [out, List.find?_cons_of_pos stop]
      rfl
    | false =>
      have on : net.whoNickLoop source (net.detail target).invisible chptr (c :: l) =
          net.whoNickLoop source (net.detail target).invisible (some c) l := by
        unfold stops at stop
        rw [whoNickLoop]
        cases invis : (net.detail target).invisible <;> cases member : net.isMember source c <;> simp_all
      rw [on, ih, List.find?_cons_of_neg (by simp [stop]), last]
      cases l.find? (net.stops source target) <;> cases l.getLast? <;> rfl

end Network

namespace Alike

variable {source : ClientId} {a b : Network} {who : ClientId} {c : ChannelId}

theorem mem_table (alike : Alike source a b) (seen : a.seen source c = true) (known : c ∈ a.channelTable) :
    c ∈ b.channelTable ∧ b.seen source c = true := by
  have member : c ∈ a.channelTable.filter (a.seen source) := List.mem_filter.mpr ⟨known, seen⟩
  rw [alike.channelTable] at member
  exact List.mem_filter.mp member

theorem symm (alike : Alike source a b) : Alike source b a where
  table := alike.table.symm
  hideServers := alike.hideServers.symm
  networkName := alike.networkName.symm
  networkDesc := alike.networkDesc.symm
  currentTime := alike.currentTime.symm
  lazyLeaf := alike.lazyLeaf.symm
  detail := alike.detail.symm
  channelTable := alike.channelTable.symm
  channel c known seen := by
    have member : c ∈ b.channelTable.filter (b.seen source) := List.mem_filter.mpr ⟨known, seen⟩
    rw [← alike.channelTable] at member
    obtain ⟨known', seen'⟩ := List.mem_filter.mp member
    exact (alike.channel c known' seen').symm
  channels who := (alike.channels who).symm

/-! ### The clients, and the channels that are seen -/

theorem isPerson (alike : Alike source a b) : a.isPerson who = b.isPerson who := by
  simp only [Network.isPerson, alike.table, alike.detail]

theorem answers (alike : Alike source a b) (mask : Option (List Char)) : a.answers mask who = b.answers mask who := by
  simp only [Network.answers, alike.table, alike.detail]

theorem own_channels (alike : Alike source a b) : a.channels source = b.channels source := by
  have all : ∀ net : Network, (net.channels source).filter (net.seen source) = net.channels source := by
    intro net
    apply List.filter_eq_self.mpr
    intro c on
    simp [Network.seen, Network.isMember, on]
  rw [← all a, alike.channels, all b]

theorem isMember (alike : Alike source a b) : a.isMember source c = b.isMember source c := by
  rw [Network.isMember, Network.isMember, alike.own_channels]

/-- A channel of somebody's that is seen is the same channel. -/
theorem channel_of_seen (alike : Alike source a b) (on : c ∈ a.channels who) (seen : a.seen source c = true) :
    a.channel c = b.channel c :=
  alike.channel c (a.exists_ who c on) seen

theorem own_channel (alike : Alike source a b) (on : c ∈ a.channels source) : a.channel c = b.channel c :=
  alike.channel_of_seen on (by simp [Network.seen, Network.isMember, on])

theorem memberLists (alike : Alike source a b) : a.memberLists source = b.memberLists source := by
  unfold Network.memberLists
  rw [← alike.own_channels]
  apply List.flatMap_congr
  intro c on
  rw [alike.own_channel on]

/-! ### The same replies -/

theorem doWho (alike : Alike source a b) : a.doWho source = b.doWho source := by
  funext target chname opFlags
  simp only [Network.doWho, alike.table, alike.detail, alike.hideServers]

theorem whoCommonChannel (alike : Alike source a b) (mask : Option (List Char)) (serverOper : Bool)
    (chain : List ClientId) (w : Scan) :
    a.whoCommonChannel mask serverOper chain w = b.whoCommonChannel mask serverOper chain w := by
  induction chain generalizing w with
  | nil => rfl
  | cons target chain ih =>
    simp only [Network.whoCommonChannel, ih, alike.detail, alike.answers]

theorem whoVisible (alike : Alike source a b) (mask : Option (List Char)) (serverOper : Bool)
    (list : List ClientId) (w : Scan) :
    a.whoVisible mask serverOper list w = b.whoVisible mask serverOper list w := by
  induction list generalizing w with
  | nil => rfl
  | cons target list ih =>
    simp only [Network.whoVisible, ih, alike.isPerson, alike.detail, alike.answers]

theorem whoGlobal (alike : Alike source a b) (mask : Option (List Char)) (serverOper : Bool)
    (marked : ClientId → Bool) :
    a.whoGlobal source mask serverOper marked = b.whoGlobal source mask serverOper marked := by
  unfold Network.whoGlobal
  rw [Network.whoChannels_eq, Network.whoChannels_eq, alike.memberLists, alike.whoVisible, alike.table]
  simp only [alike.whoCommonChannel]

theorem whoMask (alike : Alike source a b) (mask : Option (List Char)) (serverOper : Bool)
    (marked : ClientId → Bool) (end_ : List Char) :
    a.whoMask source mask serverOper marked end_ = b.whoMask source mask serverOper marked end_ := by
  unfold Network.whoMask
  rw [alike.whoGlobal, alike.doWho]

theorem doWhoList (alike : Alike source a b) (ch : Channel) (flags : Flags) (chname : List Char)
    (peons chanops halfops voiced chanopsVoiced : List ClientId) :
    a.doWhoList source ch flags chname peons chanops halfops voiced chanopsVoiced =
      b.doWhoList source ch flags chname peons chanops halfops voiced chanopsVoiced := by
  induction peons, chanops, halfops, voiced, chanopsVoiced using Network.doWhoList.induct source ch flags with
  | case1 peons chanops halfops voiced chanopsVoiced empty =>
    unfold Network.doWhoList
    rw [if_pos empty, if_pos empty]
  | case2 peons chanops halfops voiced chanopsVoiced some_ ih =>
    unfold Network.doWhoList
    rw [if_neg some_, if_neg some_, ih, alike.doWho]

theorem doWhoOnChannel (alike : Alike source a b) (same : a.channel c = b.channel c) (chname : List Char) :
    a.doWhoOnChannel source c chname = b.doWhoOnChannel source c chname := by
  unfold Network.doWhoOnChannel
  rw [same]
  exact alike.doWhoList ..

/-- A name of a channel that is seen is found in both, or in neither. -/
theorem hashFindChannel (alike : Alike source a b) {name : List Char} (found : a.hashFindChannel name = some c)
    (seen : a.seen source c = true) : b.hashFindChannel name = some c := by
  obtain ⟨known, isName⟩ : c ∈ a.channelTable ∧ IrcEq name (a.channel c).chname := by
    unfold Network.hashFindChannel at found
    exact ⟨List.mem_of_find?_eq_some found, by simpa using List.find?_some found⟩
  obtain ⟨known', -⟩ := alike.mem_table seen known
  rw [alike.channel c known seen] at isName
  have someFound : (b.hashFindChannel name).isSome := by
    rw [Network.hashFindChannel, List.find?_isSome]
    exact ⟨c, known', by simpa using isName⟩
  obtain ⟨d, found'⟩ := Option.isSome_iff_exists.mp someFound
  rw [found']
  -- there is one channel of the name
  unfold Network.hashFindChannel at found'
  have isName' : IrcEq name (b.channel d).chname := by simpa using List.find?_some found'
  rw [b.named d (List.mem_of_find?_eq_some found') c known' (isName'.symm.trans isName)]

/-- What a law that only seen channels meet leaves of somebody's channels. -/
theorem filter_channels (alike : Alike source a b) {p q : ChannelId → Bool}
    (seenP : ∀ c, p c = true → a.seen source c = true) (seenQ : ∀ c, q c = true → b.seen source c = true)
    (same : ∀ c, a.channel c = b.channel c → p c = q c) (target : ClientId) :
    (a.channels target).filter p = (b.channels target).filter q := by
  have within : ∀ (l : List ChannelId) (p seen : ChannelId → Bool), (∀ c, p c = true → seen c = true) →
      l.filter p = (l.filter seen).filter p := by
    intro l p seen seenP
    rw [List.filter_filter]
    apply List.filter_congr
    intro c _
    cases holds : p c with
    | true => simp [seenP c holds]
    | false => rfl
  rw [within _ p _ seenP, within _ q _ seenQ, ← alike.channels]
  apply List.filter_congr
  intro c member
  obtain ⟨on, seen⟩ := List.mem_filter.mp member
  exact same c (alike.channel_of_seen on seen)

/-- The first channel at which the loop of `/who nick` is left is the same. -/
theorem find_stops (alike : Alike source a b) (target : ClientId) :
    (a.channels target).find? (a.stops source target) = (b.channels target).find? (b.stops source target) := by
  have same : ∀ c, a.channel c = b.channel c → a.stops source target c = b.stops source target c := by
    intro c same
    simp only [Network.stops, alike.isMember, alike.detail, same]
  rw [← List.head?_filter, ← List.head?_filter, alike.filter_channels (fun _ => Network.seen_of_stops)
    (fun _ => Network.seen_of_stops) same]

theorem showChannels (alike : Alike source a b) (target : ClientId) :
    (a.channels target).filter (a.showChannel source) = (b.channels target).filter (b.showChannel source) := by
  apply alike.filter_channels (fun _ => Network.seen_of_showChannel) (fun _ => Network.seen_of_showChannel)
  intro c same
  simp only [Network.showChannel, alike.isMember, same]

theorem whoTarget (alike : Alike source a b) (mask : List Char) (serverOper : Bool) :
    a.whoTarget mask serverOper = b.whoTarget mask serverOper := by
  unfold Network.whoTarget
  simp only [alike.table, alike.isPerson, alike.detail]

/-- A nick whose loop is left before its end. -/
theorem whoNick (alike : Alike source a b) {target : ClientId}
    (safe : target = source ∨ ((a.channels target).find? (a.stops source target)).isSome) :
    a.whoNick source target = b.whoNick source target := by
  have stop : a.whoNickLoop source (a.detail target).invisible none (a.channels target) =
      b.whoNickLoop source (b.detail target).invisible none (b.channels target) := by
    rw [Network.whoNickLoop_eq, Network.whoNickLoop_eq, ← alike.find_stops]
    cases found : (a.channels target).find? (a.stops source target) with
    | some c => rfl
    | none =>
      rw [found] at safe
      obtain rfl : target = source := by simpa using safe
      rw [alike.own_channels]
  unfold Network.whoNick
  rw [← stop]
  cases shown : a.whoNickLoop source (a.detail target).invisible none (a.channels target) with
  | none => simp only [alike.doWho]
  | some c =>
    have same : a.channel c = b.channel c := by
      rw [Network.whoNickLoop_eq, Option.or_none] at shown
      rcases safe with rfl | leaves
      · apply alike.own_channel
        rcases Option.or_eq_some_iff.mp shown with found | ⟨-, last⟩
        · exact List.mem_of_find?_eq_some found
        · exact List.mem_of_getLast? last
      · obtain ⟨d, found⟩ := Option.isSome_iff_exists.mp leaves
        rw [found] at shown
        cases shown
        exact alike.channel_of_seen (List.mem_of_find?_eq_some found)
          (Network.seen_of_stops (List.find?_some found))
    simp only [same, alike.doWho]

/-- Of a channel that is not seen a WHO says nothing. -/
theorem whoChannel_unseen {net : Network} {name : List Char} (found : net.hashFindChannel name = some c)
    (unseen : net.seen source c = false) : net.whoChannel source name = [] := by
  unfold Network.seen at unseen
  rw [Bool.or_eq_false_iff] at unseen
  unfold Network.whoChannel
  rw [found]
  simp [unseen]

/-- A WHO for a channel. -/
theorem whoChannel (alike : Alike source a b) (mask : List Char) :
    a.whoChannel source mask = b.whoChannel source mask := by
  have hit : ∀ {a b : Network}, Alike source a b → ∀ {c}, a.hashFindChannel mask = some c → a.seen source c = true →
      a.whoChannel source mask = b.whoChannel source mask := by
    intro a b alike c found seen
    have same : a.channel c = b.channel c := alike.channel c (List.mem_of_find?_eq_some found) seen
    unfold Network.whoChannel
    rw [found, alike.hashFindChannel found seen]
    simp only [alike.isMember, same, alike.doWhoOnChannel same]
  -- a channel that is not seen, and none
  have miss : ∀ net : Network, (∀ c, net.hashFindChannel mask = some c → net.seen source c = false) →
      net.whoChannel source mask = [] := by
    intro net unseen
    cases found : net.hashFindChannel mask with
    | none => simp [Network.whoChannel, found]
    | some c => exact whoChannel_unseen found (unseen c found)
  by_cases seenA : ∃ c, a.hashFindChannel mask = some c ∧ a.seen source c = true
  · obtain ⟨c, found, seen⟩ := seenA
    exact hit alike found seen
  · by_cases seenB : ∃ c, b.hashFindChannel mask = some c ∧ b.seen source c = true
    · obtain ⟨c, found, seen⟩ := seenB
      exact (hit alike.symm found seen).symm
    · simp only [not_exists, not_and, Bool.not_eq_true] at seenA seenB
      rw [miss a seenA, miss b seenB]

/-! ### WHOIS -/

theorem whoisChannelsLoop (alike : Alike source a b) (target : ClientId) (l : List ChannelId)
    (same : ∀ c ∈ l, a.channel c = b.channel c) (w : ChannelLines) :
    a.whoisChannelsLoop source target l w = b.whoisChannelsLoop source target l w := by
  induction l generalizing w with
  | nil => rfl
  | cons c l ih =>
    have here := same c List.mem_cons_self
    have head : a.whoisHead source target = b.whoisHead source target := by
      simp only [Network.whoisHead, alike.table]
    have channel : a.whoisChannel source target c = b.whoisChannel source target c := by
      simp only [Network.whoisChannel, here]
    have shows : a.showChannel source c = b.showChannel source c := by
      simp only [Network.showChannel, alike.isMember, here]
    simp only [Network.whoisChannelsLoop, head, channel, shows, here,
      ih fun c member => same c (List.mem_cons_of_mem _ member)]

theorem whoisPerson (alike : Alike source a b) (target : ClientId) (glob : Bool) :
    a.whoisPerson source target glob = b.whoisPerson source target glob := by
  have channels : a.whoisChannels source target = b.whoisChannels source target := by
    unfold Network.whoisChannels
    rw [a.whoisChannelsLoop_filter, b.whoisChannelsLoop_filter, ← alike.showChannels, alike.whoisChannelsLoop]
    · simp only [Network.whoisHead, alike.table]
    · intro c member
      obtain ⟨on, shows⟩ := List.mem_filter.mp member
      exact alike.channel_of_seen on (Network.seen_of_showChannel shows)
  unfold Network.whoisPerson
  simp only [channels, alike.table, alike.detail, alike.hideServers, alike.networkName, alike.networkDesc,
    alike.currentTime]

theorem doWhois (alike : Alike source a b) (text : List Char) (glob : Bool) :
    a.doWhois source text glob = b.doWhois source text glob := by
  have single : ∀ target glob, a.singleWhois source target false glob = b.singleWhois source target false glob := by
    intro target glob
    unfold Network.singleWhois
    simp only [alike.table, alike.detail, alike.whoisPerson, Bool.not_false, Bool.or_true, Bool.true_or, if_true]
  unfold Network.doWhois
  simp only [single, alike.table, alike.lazyLeaf, alike.isPerson, Network.myClient]

/-! ### All queries -/

theorem mWho (alike : Alike source a b) (mask : Option (List Char)) (serverOper : Bool) (marked : ClientId → Bool)
    (safe : ∀ target, a.whoNickTarget mask serverOper = some target →
      target = source ∨ ((a.channels target).find? (a.stops source target)).isSome) :
    (a.mWho source mask serverOper marked).1 = (b.mWho source mask serverOper marked).1 := by
  cases mask with
  | none => simp only [Network.mWho, alike.whoMask]
  | some mask =>
    unfold Network.whoNickTarget at safe
    unfold Network.mWho
    simp only [Option.bind_some] at safe ⊢
    split
    · rfl
    next text =>
    split
    next star =>
      -- the requester's own first channel
      rw [← alike.own_channels]
      cases first : (a.channels source).head? with
      | none => rfl
      | some c =>
        have same := alike.own_channel (List.mem_of_head? first)
        simp only [alike.doWhoOnChannel same]
    next star =>
    split
    · simp only [alike.whoChannel]
    next name =>
    rw [if_neg (by simp [text, star, name])] at safe
    rw [← alike.whoTarget]
    cases found : a.whoTarget (collapse mask) serverOper with
    | some target => simp only [alike.whoNick (safe target found)]
    | none => simp only [alike.whoMask]

end Alike

/-- A query that says nothing about secret channels: a WHO with a nick is about the requester, or about somebody who has a
channel that may be shown. -/
def Safe (net : Network) (source : ClientId) : Query → Prop
  | .who mask serverOper => ∀ target, net.whoNickTarget mask serverOper = some target →
    target = source ∨ ∃ c ∈ net.channels target, net.stops source target c = true
  | .whois .. => True

theorem Alike.replies {source : ClientId} {a b : Network} (alike : Alike source a b) (marked : ClientId → Bool)
    (q : Query) (safe : Safe a source q) : a.replies source marked q = b.replies source marked q := by
  cases q with
  | who mask serverOper =>
    apply alike.mWho
    intro target about
    exact (safe target about).imp_right fun ⟨c, on, stop⟩ => List.find?_isSome.mpr ⟨c, on, stop⟩
  | whois text glob plain => exact alike.doWhois text glob

/-! ### A channel that tells -/

/-- The name of a channel with a number. -/
def channelName (n : ℕ) : List Char := '#' :: Nat.toDigits 10 n

theorem channelName_injective {m n : ℕ} (same : IrcEq (channelName m) (channelName n)) : m = n := by
  have upper : ∀ k, (Nat.toDigits 10 k).map toUpper = Nat.toDigits 10 k := by
    intro k
    have still : ∀ c ∈ Nat.toDigits 10 k, toUpper c = id c := by
      intro c member
      have digit := (allDigits_toDigits k).2 c member
      unfold Char.isDigit at digit
      simp only [Bool.and_eq_true, decide_eq_true_eq] at digit
      unfold toUpper
      rw [if_neg]
      · rfl
      · rintro ⟨letter, -⟩
        exact absurd (UInt32.le_trans (Char.le_def.mp letter) digit.2) (by decide)
    rw [List.map_congr_left still, List.map_id]
  have digits : Nat.toDigits 10 m = Nat.toDigits 10 n := by
    have tails := (List.cons.inj same).2
    rwa [← upper m, ← upper n]
  rw [← @Nat.ofDigitChars_ten_toDigits m, digits, Nat.ofDigitChars_ten_toDigits]

/-- There are more names than channels. -/
theorem exists_channelName (net : Network) :
    ∃ n, ∀ c ∈ net.channelTable, ¬ IrcEq (net.channel c).chname (channelName n) := by
  by_contra none_
  push Not at none_
  choose owner known isName using none_
  obtain ⟨m, -, n, -, differ, same⟩ := Finset.exists_ne_map_eq_of_card_lt_of_maps_to
    (s := Finset.range (net.channelTable.length + 1)) (t := net.channelTable.toFinset) (f := owner)
    (by rw [Finset.card_range]; exact Nat.lt_succ_of_le (List.toFinset_card_le _))
    (by intro n _; simpa using known n)
  apply differ
  have first := isName m
  rw [same] at first
  exact channelName_injective (first.symm.trans (isName n))

/-- A secret channel with one person on it. -/
def secretChannel (n : ℕ) (target : ClientId) : Channel :=
  ⟨channelName n, {.secret}, fun rank => if rank = .peon then [target] else []⟩

theorem mem_secretChannel {n : ℕ} {target who : ClientId} {rank : Rank}
    (member : who ∈ (secretChannel n target).members rank) : who = target := by
  by_cases peon : rank = .peon
  · simpa [secretChannel, peon] using member
  · simp [secretChannel, peon] at member

/-- A secret channel that is not there yet, with somebody on it who joins it last. -/
def Network.withSecret (net : Network) (target : ClientId) (chptr : ChannelId) (n : ℕ)
    (new : chptr ∉ net.channelTable) (unnamed : ∀ c ∈ net.channelTable, ¬ IrcEq (net.channel c).chname (channelName n))
    (person : net.isPerson target = true) (listed : target ∈ net.globalClientList) : Network :=
  { net with
    channel := Function.update net.channel chptr (secretChannel n target)
    channelTable := chptr :: net.channelTable
    channels := Function.update net.channels target (net.channels target ++ [chptr])
    named := by
      intro c known d known' same
      by_cases first : c = chptr
      · by_cases second : d = chptr
        · rw [first, second]
        · have old : d ∈ net.channelTable := by simpa [second] using known'
          rw [first, Function.update_self, Function.update_of_ne second] at same
          exact absurd same.symm (unnamed d old)
      · have old : c ∈ net.channelTable := by simpa [first] using known
        by_cases second : d = chptr
        · rw [second, Function.update_self, Function.update_of_ne first] at same
          exact absurd same (unnamed c old)
        · have old' : d ∈ net.channelTable := by simpa [second] using known'
          rw [Function.update_of_ne first, Function.update_of_ne second] at same
          exact net.named c old d old' same
    exists_ := by
      intro who c on
      by_cases same : who = target
      · subst same
        rw [Function.update_self, List.mem_append, List.mem_singleton] at on
        rcases on with on | rfl
        · exact List.mem_cons_of_mem _ (net.exists_ who c on)
        · exact List.mem_cons_self
      · rw [Function.update_of_ne same] at on
        exact List.mem_cons_of_mem _ (net.exists_ who c on)
    linked := by
      intro who c known
      by_cases here : c = chptr
      · subst here
        have members : (∃ rank, who ∈ (secretChannel n target).members rank) ↔ who = target := by
          constructor
          · rintro ⟨rank, member⟩
            exact mem_secretChannel member
          · rintro rfl
            exact ⟨.peon, by simp [secretChannel]⟩
        rw [Function.update_self, members]
        by_cases same : who = target
        · simp [same]
        · rw [Function.update_of_ne same]
          exact ⟨fun on => absurd (net.exists_ who c on) new, fun is => absurd is same⟩
      · have known' : c ∈ net.channelTable := by simpa [here] using known
        rw [Function.update_of_ne here, ← net.linked who c known']
        by_cases same : who = target
        · subst same
          simp [here]
        · rw [Function.update_of_ne same]
    people := by
      intro c known rank who member
      by_cases here : c = chptr
      · subst here
        rw [Function.update_self] at member
        obtain rfl := mem_secretChannel member
        unfold Network.isPerson at person
        rw [decide_eq_true_eq] at person
        exact ⟨person.1, person.2, listed⟩
      · rw [Function.update_of_ne here] at member
        exact net.people c (by simpa [here] using known) rank who member }

section Telling

variable {net : Network} {source target : ClientId} {chptr : ChannelId} {n : ℕ}
  {new : chptr ∉ net.channelTable} {unnamed : ∀ c ∈ net.channelTable, ¬ IrcEq (net.channel c).chname (channelName n)}
  {person : net.isPerson target = true} {listed : target ∈ net.globalClientList}

/-- Who is not the person on it does not see the channel. -/
theorem unseen_withSecret (other : target ≠ source) :
    (net.withSecret target chptr n new unnamed person listed).seen source chptr = false := by
  have absent : chptr ∉ net.channels source := fun on => new (net.exists_ source chptr on)
  simp [Network.seen, Network.isMember, Network.withSecret, Function.update_of_ne other.symm, absent, secretChannel,
    Channel.secret]

/-- The other channels are seen as before. -/
theorem seen_withSecret (other : target ≠ source) {c : ChannelId} (known : c ∈ net.channelTable) :
    (net.withSecret target chptr n new unnamed person listed).seen source c = net.seen source c := by
  have differ : c ≠ chptr := fun same => new (same ▸ known)
  simp [Network.seen, Network.isMember, Network.withSecret, Function.update_of_ne other.symm,
    Function.update_of_ne differ]

theorem alike_withSecret (other : target ≠ source) :
    Alike source net (net.withSecret target chptr n new unnamed person listed) where
  table := rfl
  hideServers := rfl
  networkName := rfl
  networkDesc := rfl
  currentTime := rfl
  lazyLeaf := rfl
  detail := rfl
  channelTable := by
    have unseen : (net.withSecret target chptr n new unnamed person listed).seen source chptr = false :=
      unseen_withSecret other
    change _ = (chptr :: net.channelTable).filter _
    rw [List.filter_cons_of_neg (by simp [unseen])]
    exact List.filter_congr fun c known => (seen_withSecret other known).symm
  channel c known _ := by
    have differ : c ≠ chptr := fun same => new (same ▸ known)
    exact (Function.update_of_ne differ ..).symm
  channels who := by
    have same : (net.channels who).filter ((net.withSecret target chptr n new unnamed person listed).seen source) =
        (net.channels who).filter (net.seen source) :=
      List.filter_congr fun c on => seen_withSecret other (net.exists_ who c on)
    by_cases is : who = target
    · subst is
      have chans : (net.withSecret who chptr n new unnamed person listed).channels who = net.channels who ++ [chptr] :=
        Function.update_self ..
      rw [chans, List.filter_append, same, List.filter_cons_of_neg (by simp [unseen_withSecret other]),
        List.filter_nil, List.append_nil]
    · have chans : (net.withSecret target chptr n new unnamed person listed).channels who = net.channels who :=
        Function.update_of_ne is ..
      rw [chans, same]

/-- The loop of `/who nick` comes to the channel, if nothing stops it before. -/
theorem whoNickLoop_withSecret (other : target ≠ source) (on : ∀ c ∈ net.channels target, net.stops source target c = false) :
    let b := net.withSecret target chptr n new unnamed person listed
    b.whoNickLoop source (b.detail target).invisible none (b.channels target) = some chptr := by
  intro b
  have chans : b.channels target = net.channels target ++ [chptr] := Function.update_self ..
  have unseen : b.seen source chptr = false := unseen_withSecret other
  have none_ : (b.channels target).find? (b.stops source target) = none := by
    rw [← (alike_withSecret other).find_stops, List.find?_eq_none]
    intro c member
    simp [on c member]
  rw [Network.whoNickLoop_eq, none_, chans, List.getLast?_concat]
  rfl

end Telling

/-- The channel that a reply to WHO names. -/
def Reply.chname : Reply → List Char
  | .whoReply chname .. => chname
  | _ => []

@[simp] theorem Network.doWho_chname (net : Network) (source target : ClientId) (chname : Option (List Char))
    (opFlags : List Char) : (net.doWho source target chname opFlags).chname = chname.getD ['*'] := by
  unfold doWho
  split <;> rfl

theorem Network.whoNick_chname (net : Network) (source target : ClientId) : (net.whoNick source target).chname =
    ((net.whoNickLoop source (net.detail target).invisible none (net.channels target)).map fun c =>
      (net.channel c).chname).getD ['*'] := by
  unfold whoNick
  split
  next found =>
    rw [found]
    dsimp only
    split_ifs <;> simp
  next found =>
    rw [found]
    simp

theorem Network.mWho_nick {net : Network} {source target : ClientId} {mask : Option (List Char)} {serverOper : Bool}
    {marked : ClientId → Bool} (about : net.whoNickTarget mask serverOper = some target) :
    ∃ end_, (net.mWho source mask serverOper marked).1 = [net.whoNick source target, .endOfWho end_] := by
  cases mask with
  | none => cases about
  | some mask =>
    unfold whoNickTarget at about
    unfold mWho
    simp only [Option.bind_some] at about ⊢
    split at about
    · cases about
    next other =>
    simp only [not_or] at other
    rw [if_neg other.1, if_neg other.2.1, if_neg other.2.2, about]
    exact ⟨collapse mask, rfl⟩

theorem Network.mem_of_whoNickTarget {net : Network} {target : ClientId} {mask : Option (List Char)} {serverOper : Bool}
    (about : net.whoNickTarget mask serverOper = some target) :
    net.isPerson target = true ∧ target ∈ net.globalClientList := by
  cases mask with
  | none => cases about
  | some mask =>
    unfold whoNickTarget whoTarget at about
    simp only [Option.bind_some] at about
    split at about
    · cases about
    obtain ⟨found, holds⟩ := Option.filter_eq_some_iff.mp about
    rw [Bool.and_eq_true] at holds
    refine ⟨holds.1, net.hashed target ?_⟩
    unfold Routing.Table.findClient at found
    split at found
    · exact .inr (List.mem_of_find?_eq_some found)
    · exact .inl (List.mem_of_find?_eq_some found)

theorem Alike.whoNickTarget {source : ClientId} {a b : Network} (alike : Alike source a b) (mask : Option (List Char))
    (serverOper : Bool) : a.whoNickTarget mask serverOper = b.whoNickTarget mask serverOper := by
  unfold Network.whoNickTarget
  simp only [alike.whoTarget]

/-- The replies to a query are the same in all networks that are alike to the requester, exactly if the query is safe. -/
theorem replies_iff (a : Network) (source : ClientId) (marked : ClientId → Bool) (q : Query) :
    (∀ b, Alike source a b → a.replies source marked q = b.replies source marked q) ↔ Safe a source q := by
  constructor
  · intro same
    cases q with
    | whois => trivial
    | who mask serverOper =>
      intro target about
      by_contra unsafe_
      simp only [not_or, not_exists, not_and, Bool.not_eq_true] at unsafe_
      obtain ⟨other, on⟩ := unsafe_
      obtain ⟨person, listed⟩ := Network.mem_of_whoNickTarget about
      obtain ⟨chptr, new⟩ := Infinite.exists_notMem_finset a.channelTable.toFinset
      rw [List.mem_toFinset] at new
      obtain ⟨n, unnamed⟩ := exists_channelName a
      have alike : Alike source a (a.withSecret target chptr n new unnamed person listed) := alike_withSecret other
      have replies := same _ alike
      obtain ⟨_, plain⟩ : ∃ end_, (a.mWho source mask serverOper marked).1 =
        [a.whoNick source target, .endOfWho end_] := Network.mWho_nick about
      rw [alike.whoNickTarget] at about
      obtain ⟨_, told⟩ : ∃ end_, ((a.withSecret target chptr n new unnamed person listed).mWho source mask
        serverOper marked).1 = [(a.withSecret target chptr n new unnamed person listed).whoNick source target,
          .endOfWho end_] := Network.mWho_nick about
      unfold Network.replies at replies
      simp only [plain, told, List.cons.injEq] at replies
      -- the reply names the new channel, which the other one cannot
      have names := congrArg Reply.chname replies.1
      rw [Network.whoNick_chname, Network.whoNick_chname, whoNickLoop_withSecret other on] at names
      have tells : ((a.withSecret target chptr n new unnamed person listed).channel chptr).chname = channelName n := by
        simp [Network.withSecret, secretChannel]
      rw [Option.map_some, Option.getD_some, tells, Network.whoNickLoop_eq, Option.or_none] at names
      cases last : ((a.channels target).find? (a.stops source target)).or (a.channels target).getLast? with
      | none =>
        rw [last] at names
        simp [channelName] at names
      | some c =>
        rw [last] at names
        have member : c ∈ a.channels target := by
          rcases Option.or_eq_some_iff.mp last with found | ⟨-, found⟩
          · exact List.mem_of_find?_eq_some found
          · exact List.mem_of_getLast? found
        apply unnamed c (a.exists_ target c member)
        have name : (a.channel c).chname = channelName n := names
        rw [name]
        exact IrcEq.refl _
  · intro safe b alike
    exact alike.replies marked q safe

/-- Two people on one server, and no channels. -/
def pair : Network where
  client who := ⟨if who = 0 then ['a'] else if who = 1 then ['b'] else ['m', 'e'], [],
    if who < 2 then .client else .me, who, true, false⟩
  me := 2
  globalClientList := [1, 0, 2]
  clientTable := [1, 0, 2]
  idTable := []
  detail who := ⟨['u'], ['h'], ['i'], 2, 0, false, false, false, 0, if who < 2 then some ⟨none, 0⟩ else none⟩
  channels _ := []
  channel _ := ⟨[], ∅, fun _ => []⟩
  channelTable := []
  hideServers := false
  networkName := ['n']
  networkDesc := ['d']
  currentTime := 1000
  lazyLeaf := false
  isMe := rfl
  last := rfl
  nodup := by decide
  own _ _ := rfl
  direct _ := rfl
  hashed who member := by simpa using member
  named c known := by cases known
  exists_ who c on := by cases on
  linked who c known := by cases known
  people c known := by cases known

/-- The second of the two joins `#7`, which is secret: `/who b` then tells the first about it. -/
theorem pair_tells : ¬ ∀ source a b, Alike source a b → ∀ marked q,
    a.replies source marked q = b.replies source marked q := by
  intro all
  have alike : Alike 0 pair (pair.withSecret 1 0 7 (by decide) (by decide) rfl (by decide)) :=
    alike_withSecret (by decide)
  have same := all 0 pair _ alike (fun _ => false) (.who (some ['b']) false)
  revert same
  decide

end Ircd.Who
