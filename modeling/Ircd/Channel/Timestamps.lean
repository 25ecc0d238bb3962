import Ircd.Channel.SjoinSteps
import Ircd.Lib.OldestWins
import Ircd.Numbers

/-!
# Timestamps

SJOINs for one channel that is in use act on its timestamp and modes as the join of
`OldestWins`. The SJOIN that creates the channel merges its modes with those of an empty
channel, and its limit may be negative: then the order of arrival shows.
-/
namespace Ircd.Chan

/-! ### The merge of modes -/

theorem Mode.merge_limit (old new : Mode) : (old.merge new).limit = max old.limit new.limit := by
  unfold Mode.merge
  dsimp only
  split <;> omega

theorem Mode.merge_key (old new : Mode) : (old.merge new).key = max old.key new.key := by
  unfold Mode.merge
  dsimp only
  split
  · rename_i less
    exact (max_eq_left less.le).symm
  · rename_i more
    exact (max_eq_right (not_lt.mp more)).symm

instance : Std.Commutative Mode.merge where
  comm a b := by
    apply Mode.ext
    · exact Finset.union_comm _ _
    · rw [Mode.merge_limit, Mode.merge_limit, max_comm]
    · rw [Mode.merge_key, Mode.merge_key, max_comm]

instance : Std.Associative Mode.merge where
  assoc a b c := by
    apply Mode.ext
    · exact (Finset.union_assoc _ _ _).symm
    · simp only [Mode.merge_limit, max_assoc]
    · simp only [Mode.merge_key, max_assoc]

theorem Mode.merge_self (mode : Mode) : mode.merge mode = mode := by
  apply Mode.ext
  · exact Finset.union_self _
  · rw [Mode.merge_limit, max_self]
  · rw [Mode.merge_key, max_self]

/-- The modes of an empty channel add the limit 0. -/
theorem Mode.noMode_merge (mode : Mode) : noMode.merge mode = mode ↔ 0 ≤ mode.limit := by
  constructor
  · intro same
    have limit := congrArg Mode.limit same
    rw [Mode.merge_limit] at limit
    exact limit ▸ le_max_left _ _
  · intro positive
    apply Mode.ext
    · exact Finset.union_empty _
    · rw [Mode.merge_limit]
      exact max_eq_right positive
    · rw [Mode.merge_key]
      exact max_eq_right (not_lt.mp (List.not_lt_nil _))

/-! ### The length of the header -/

theorem Mode.length_letters_le (mode : Mode) : mode.letters.length ≤ 10 := by
  have simple := List.length_filterMap_le
    (fun entry : SimpleMode × Char => if entry.1 ∈ mode.mode then some entry.2 else none) modeLetters
  have seven : modeLetters.length = 7 := rfl
  unfold Mode.letters
  simp only [List.length_append, List.length_cons]
  split <;> split <;> simp only [List.length_cons, List.length_nil] <;> omega

theorem Mode.length_params_le (mode : Mode) (shown : Bool) : (mode.params shown).length ≤ 35 := by
  have limit := length_printD_le mode.limit_int.1 mode.limit_int.2
  have key := mode.key_len
  unfold keyLen at key
  unfold Mode.params
  split
  · split <;> simp only [List.length_append, List.length_cons, List.length_nil] <;> omega
  · simp

theorem length_sjoinHeader (name : List Char) (ts : ℤ) (chname letters params : List Char) :
    (sjoinHeader name ts chname letters params).length ≤
      name.length + chname.length + letters.length + params.length + 23 := by
  have number := length_printLu_le (ts % 2 ^ 64).toNat
  unfold sjoinHeader
  simp only [List.length_append, List.length_cons, List.length_nil]
  omega

/-- No SJOIN is too long when the sender is known under its own name. -/
theorem State.relayHeader_short (s : State) (source : ClientId) (chptr : ChannelId)
    (parv : List (List Char)) (chname : List Char) (verdict : Verdict)
    (sender : (param parv 0).length ≤ hostLen) :
    (s.relayHeader source chptr parv (chname.take channelLen) verdict).length < longSjoin := by
  have name : (chname.take channelLen).length ≤ 200 := List.length_take_le channelLen chname
  unfold hostLen at sender
  unfold longSjoin State.relayHeader
  have letters := (s.channel chptr).mode.length_letters_le
  dsimp only
  split
  · have params := (s.channel chptr).mode.length_params_le
      (s.isMember source chptr || (s.client source).status == .server)
    have header := length_sjoinHeader (param parv 0) verdict.tstosend (chname.take channelLen)
      (s.channel chptr).mode.letters ((s.channel chptr).mode.params
        (s.isMember source chptr || (s.client source).status == .server))
    omega
  · have header := length_sjoinHeader (param parv 0) verdict.tstosend (chname.take channelLen)
      ['0'] []
    simp only [List.length_cons, List.length_nil] at header
    omega

/-! ### One message -/

/-- A SJOIN with the link it comes over and its sender. -/
structure SjoinMessage where
  clientP : ClientId
  source : ClientId
  parv : List (List Char)

def State.receive (s : State) (m : SjoinMessage) : State :=
  (s.msSjoin m.clientP m.source m.parv).state

/-- The timestamp and the modes that a message brings. -/
def SjoinMessage.brings (m : SjoinMessage) : ℤ × Mode :=
  (atol (param m.parv 1), ((readModes m.parv (param m.parv 3) noMode 0).map Prod.fst).getD noMode)

/-- The timestamp and the modes of the channel of that name. -/
def State.settings (s : State) (name : List Char) : Option (ℤ × Mode) :=
  (s.hashFindChannel name).map fun c => ((s.channel c).channelts, (s.channel c).mode)

/-- A SJOIN for the channel of that name, with a timestamp and a nick that is accepted. -/
structure SjoinMessage.For (m : SjoinMessage) (s : State) (name : List Char) : Prop where
  sender : param m.parv 0 = (s.client m.source).name
  channel : IrcEq name ((param m.parv 2).take channelLen)
  time : m.brings.1 ≠ 0
  nick : ∃ head, sjoinHead s m.source m.parv = some head ∧
    ∃ nick ∈ sjoinNicks head.nicks, s.acceptsNick m.clientP nick = true

/-- The channel of that name is absent, or somebody is in it and it has a timestamp. -/
structure State.Ready (s : State) (name : List Char) : Prop where
  sound : s.Sound
  inUse : ∀ c, s.hashFindChannel name = some c →
    0 < (s.channel c).users ∧ (s.channel c).channelts ≠ 0


theorem State.findClient_congr {s s' : State} (client : s'.client = s.client)
    (table : s'.clientTable = s.clientTable) (name : List Char) :
    s'.findClient name = s.findClient name := by
  unfold State.findClient
  rw [client, table]

theorem State.accepts_congr {s s' : State} (client : s'.client = s.client)
    (clientP target : ClientId) : s'.accepts clientP target = s.accepts clientP target := by
  unfold State.accepts
  rw [client]

theorem State.acceptsNick_congr {s s' : State} (client : s'.client = s.client)
    (table : s'.clientTable = s.clientTable) (clientP : ClientId) (nick : List Char) :
    s'.acceptsNick clientP nick = s.acceptsNick clientP nick := by
  unfold State.acceptsNick State.accepts
  rw [State.findClient_congr client table, client]

theorem sjoinHead_congr {s s' : State} {source : ClientId}
    (status : (s'.client source).status = (s.client source).status) (parv : List (List Char)) :
    sjoinHead s' source parv = sjoinHead s source parv := by
  unfold sjoinHead
  rw [status]

/-- What one message for the channel does to its timestamp and modes. -/
def arrive : Option (ℤ × Mode) → ℤ × Mode → Option (ℤ × Mode)
  | none, x => some (OldestWins.boost Mode.merge noMode x)
  | some old, x => some (OldestWins.join Mode.merge old x)

/-- For a channel in use, the timestamp rules are a join. -/
private theorem judged_join (ch : Channel) (nicks : List Char) {newts : ℤ} (new : Mode)
    (used : 0 < ch.users) (older : ch.channelts ≠ 0) (newer : newts ≠ 0) :
    ∃ verdict, tsRules false ch.users nicks newts ch.channelts = some verdict ∧
      (verdict.channelts, finalMode verdict ch.mode new) =
        OldestWins.join Mode.merge (ch.channelts, ch.mode) (newts, new) ∧
      (ch.channelts = newts → verdict.keepOurModes = true ∧ verdict.keepNewModes = true) := by
  have users : ch.users ≠ 0 := used.ne'
  unfold tsRules
  simp only [Bool.false_eq_true, if_false, users, false_and, newer, older, or_self]
  rcases lt_trichotomy newts ch.channelts with less | equal | more
  · refine ⟨_, by rw [if_neg less.ne, if_pos less], ?_, fun equal => absurd equal less.ne'⟩
    rw [OldestWins.join_of_gt Mode.merge less]
    rfl
  · refine ⟨_, by rw [if_pos equal], ?_, fun _ => ⟨rfl, rfl⟩⟩
    rw [OldestWins.join_of_eq Mode.merge equal.symm]
    rfl
  · refine ⟨_, by rw [if_neg more.ne', if_neg more.not_gt], ?_, fun equal => absurd equal more.ne⟩
    rw [OldestWins.join_of_lt Mode.merge more]
    rfl

/-- The nicks come in behind the verdict and leave the timestamp and the modes alone. -/
private theorem nicks_ready {s : State} {name : List Char} (m : SjoinMessage) (head : SjoinHead)
    {chptr : ChannelId} (top : Option ChannelId) (verdict : Verdict) (sound : s.Sound)
    (old : chptr < s.nextChannel) (found : s.hashFindChannel name = some chptr)
    (occupied : s.Occupied chptr) (time : (s.channel chptr).channelts ≠ 0)
    (sender : (param m.parv 0).length ≤ hostLen)
    (nick : ∃ nick ∈ sjoinNicks head.nicks, s.acceptsNick m.clientP nick = true) :
    let s' := (s.sjoinMembers m.clientP m.source m.parv head chptr top verdict).state
    State.Joins chptr s s' ∧ s'.Ready name ∧
      s'.settings name = some ((s.channel chptr).channelts, (s.channel chptr).mode) := by
  obtain ⟨l, round, state, -⟩ := s.sjoinMembers_round m.clientP m.source m.parv head chptr top
    verdict (s.relayHeader_short m.source chptr m.parv head.chname verdict sender)
  intro s'
  have joins : State.Joins chptr s s' := by
    rw [show s' = l.state from state]
    exact round.joins
  obtain ⟨_, _, _, _, _, here⟩ := joins.here
  have found' : s'.hashFindChannel name = some chptr := (joins.hashFindChannel name).trans found
  have some : 0 < (sjoinNicks head.nicks).countP (s.acceptsNick m.clientP) :=
    List.countP_pos_iff.mpr nick
  have users : 0 < (s'.channel chptr).users := by
    rw [show s' = l.state from state]
    exact (round.occupied occupied).2 some
  refine ⟨joins, ⟨joins.sound old sound, fun c equal => ?_⟩, ?_⟩
  · obtain rfl : chptr = c := Option.some.inj (found'.symm.trans equal)
    exact ⟨users, by rw [here]; exact time⟩
  · unfold State.settings
    rw [found', Option.map_some, here]

/-- A message for the channel, up to its nicks: the channel has been found or created, and the
verdict is there. -/
structure Judged (s : State) (name : List Char) (m : SjoinMessage) (head : SjoinHead) (s₂ : State)
    (chptr : ChannelId) (top : Option ChannelId) (verdict : Verdict) : Prop where
  read : sjoinHead s m.source m.parv = some head
  brings : m.brings = (head.newts, head.mode)
  sound : s₂.Sound
  old : chptr < s₂.nextChannel
  client : s₂.client = s.client
  table : s₂.clientTable = s.clientTable
  found : s₂.hashFindChannel name = some chptr
  place : s.hashFindChannel name = some chptr ∨
    s.hashFindChannel name = none ∧ chptr = s.nextChannel
  members : (s₂.channel chptr).members =
    ((s.hashFindChannel name).map fun c => (s.channel c).members).getD fun _ => []
  occupied : s₂.Occupied chptr
  settings : some (verdict.channelts, finalMode verdict (s₂.channel chptr).mode head.mode) =
    arrive (s.settings name) m.brings
  time : verdict.channelts ≠ 0
  keeps : (∀ x, s.settings name = some x → x.1 = head.newts) →
    verdict.keepOurModes = true ∧ verdict.keepNewModes = true
  result : s.receive m =
    ((s₂.setChannel chptr ((s₂.channel chptr).judged verdict head.mode)).sjoinMembers m.clientP
      m.source m.parv head chptr top verdict).state

theorem State.Ready.judged {s : State} {name : List Char} (ready : s.Ready name)
    {m : SjoinMessage} (fits : m.For s name) :
    ∃ head s₂ chptr top verdict, Judged s name m head s₂ chptr top verdict := by
  obtain ⟨head, read, nick⟩ := fits.nick
  obtain ⟨-, -, chname, newts, args, modes⟩ := sjoinHead_some read
  have brings : m.brings = (head.newts, head.mode) := by
    unfold SjoinMessage.brings
    rw [modes, newts]
    rfl
  have time : head.newts ≠ 0 := by
    have nonzero := fits.time
    rwa [brings] at nonzero
  have channel : IrcEq name (head.chname.take channelLen) := chname ▸ fits.channel
  obtain ⟨s₂, chptr, top, isnew, entered, result⟩ := State.msSjoin_entered m.clientP read
  obtain ⟨sound, old, client, table, ⟨root, list, id, before⟩, found⟩ := entered.cases ready.sound
  -- all but the verdict is the same for a channel in use and for a new one
  have judged : ∀ verdict, tsRules isnew (s₂.channel chptr).users head.nicks head.newts
        (s₂.channel chptr).channelts = some verdict →
      s.receive m = ((s₂.setChannel chptr ((s₂.channel chptr).judged verdict head.mode)).sjoinMembers
        m.clientP m.source m.parv head chptr top verdict).state := by
    intro verdict rules
    rcases result with ⟨none, -⟩ | ⟨verdict', rules', result⟩
    · rw [rules] at none
      cases none
    · rw [rules] at rules'
      obtain rfl := Option.some.inj rules'
      exact congrArg SjoinResult.state result
  rcases before with ⟨rfl, there, equal⟩ | ⟨rfl, absent, rfl, equal⟩
  · have there' := (s.hashFindChannel_congr_name channel).trans there
    obtain ⟨used, older⟩ := ready.inUse chptr there'
    obtain ⟨verdict, rules, join, keeps⟩ :=
      judged_join (s.channel chptr) head.nicks head.mode used older time
    refine ⟨head, s₂, chptr, top, verdict, read, brings, sound, old, client, table,
      found name channel, Or.inl there', ?_, ?_, ?_, ?_, fun same => ?_, judged verdict ?_⟩
    · rw [there', equal]
      rfl
    · unfold State.Occupied
      rw [equal]
      exact ⟨used.le, fun _ => used⟩
    · rw [brings, State.settings, there', equal]
      exact congrArg some join
    · have first := congrArg Prod.fst join
      rw [OldestWins.join_fst] at first
      dsimp only at first
      rcases min_choice (s.channel chptr).channelts head.newts with left | right
      · rw [first, left]
        exact older
      · rw [first, right]
        exact time
    · exact keeps (same _ (by rw [State.settings, there', Option.map_some]))
    · rw [equal]
      exact rules
  · have absent' := (s.hashFindChannel_congr_name channel).trans absent
    refine ⟨head, s₂, s.nextChannel, top, _, read, brings, sound, old, client, table,
      found name channel, Or.inr ⟨absent', rfl⟩, ?_, ?_, ?_, time, fun _ => ⟨rfl, rfl⟩,
      judged _ rfl⟩
    · rw [absent', equal]
      rfl
    · unfold State.Occupied
      rw [equal]
      refine ⟨le_rfl, fun inside => ?_⟩
      obtain ⟨u, member⟩ := inside
      rw [client] at member
      exact absurd (ready.sound.joined u _ member) (lt_irrefl _)
    · rw [brings, State.settings, absent', equal]
      rfl

/-- One message for the channel. -/
theorem State.Ready.receive {s : State} {name : List Char} (ready : s.Ready name)
    {m : SjoinMessage} (fits : m.For s name) :
    (s.receive m).Ready name ∧ (s.receive m).settings name = arrive (s.settings name) m.brings ∧
      ∀ m' : SjoinMessage, m'.For s name → m'.For (s.receive m) name := by
  obtain ⟨head, s₂, chptr, top, verdict, judged⟩ := ready.judged fits
  -- the nicks come in behind the verdict
  let s₃ := s₂.setChannel chptr ((s₂.channel chptr).judged verdict head.mode)
  have accepts : ∀ clientP nick, s₃.acceptsNick clientP nick = s.acceptsNick clientP nick :=
    State.acceptsNick_congr judged.client judged.table
  have sender : (param m.parv 0).length ≤ hostLen := by
    rw [fits.sender]
    exact (s.client m.source).name_len
  have here : s₃.channel chptr = (s₂.channel chptr).judged verdict head.mode :=
    State.setChannel_channel _ _ _
  have nick : ∃ nick ∈ sjoinNicks head.nicks, s₃.acceptsNick m.clientP nick = true := by
    obtain ⟨head', read, nick⟩ := fits.nick
    obtain rfl := Option.some.inj (judged.read.symm.trans read)
    simpa only [accepts] using nick
  obtain ⟨joins, ready', settings⟩ := nicks_ready m head top verdict
    (show s₃.Sound from ⟨judged.sound.below, judged.sound.joined⟩) judged.old
    ((s₂.hashFindChannel_judged chptr verdict head.mode name).trans judged.found)
    (by unfold State.Occupied; rw [here, Channel.judged_users]; exact judged.occupied)
    (by rw [here, Channel.judged_channelts]; exact judged.time) sender nick
  rw [← judged.result] at joins ready' settings
  refine ⟨ready', ?_, fun m' fits' => ?_⟩
  · rw [settings, here, Channel.judged_channelts, Channel.judged_mode]
    exact judged.settings
  · obtain ⟨user, vchanMap, same, -⟩ := joins.identity m'.source
    have same' : (s.receive m).client m'.source =
      { s.client m'.source with user := user, vchanMap := vchanMap } := by
      rw [same]
      simp only [s₃, State.setChannel_client, judged.client]
    refine ⟨?_, fits'.channel, fits'.time, ?_⟩
    · rw [same']
      exact fits'.sender
    · obtain ⟨head', read', nick'⟩ := fits'.nick
      refine ⟨head', ?_, ?_⟩
      · exact (sjoinHead_congr (by rw [same']) m'.parv).trans read'
      · simpa only [joins.acceptsNick, accepts] using nick'

/-! ### A run of messages -/

theorem State.Ready.foldl_receive {s : State} {name : List Char} (ready : s.Ready name)
    {ms : List SjoinMessage} (fits : ∀ m ∈ ms, m.For s name) :
    (ms.foldl State.receive s).settings name =
      (ms.map SjoinMessage.brings).foldl arrive (s.settings name) := by
  induction ms generalizing s with
  | nil => rfl
  | cons m ms ih =>
    obtain ⟨ready', settings, others⟩ := ready.receive (fits m (by simp))
    have rest := ih ready' fun m' member => others m' (fits m' (List.mem_cons_of_mem _ member))
    rw [List.foldl_cons, rest, settings, List.map_cons, List.foldl_cons]

private theorem foldl_arrive_some (old : ℤ × Mode) (l : List (ℤ × Mode)) :
    l.foldl arrive (some old) = some (l.foldl (OldestWins.join Mode.merge) old) := by
  induction l generalizing old with
  | nil => rfl
  | cons x l ih =>
    rw [List.foldl_cons, List.foldl_cons]
    exact ih _

private theorem foldl_arrive_none (l : List (ℤ × Mode)) :
    l.foldl arrive none = OldestWins.foldFirst Mode.merge noMode l := by
  cases l with
  | nil => rfl
  | cons x l =>
    rw [List.foldl_cons]
    exact foldl_arrive_some _ l

/-- Any number of copies joins like one. -/
private theorem foldl_join_replicate (x y : ℤ × Mode) (n : ℕ) :
    (List.replicate (n + 1) y).foldl (OldestWins.join Mode.merge) x =
      OldestWins.join Mode.merge x y := by
  have self : OldestWins.join Mode.merge y y = y := by
    rw [OldestWins.join_of_eq Mode.merge rfl, Mode.merge_self]
  induction n with
  | zero => rfl
  | succ n ih =>
    rw [List.replicate_succ', List.foldl_append, ih, List.foldl_cons, List.foldl_nil,
      OldestWins.join_assoc, self]

/-- The channel is there, or all messages are equally old, or one of the oldest has a limit
that is not negative. -/
def State.Confluent (s : State) (name : List Char) (ms : List SjoinMessage) : Prop :=
  (s.settings name).isSome = true ∨ (∀ m ∈ ms, ∀ m' ∈ ms, m.brings.1 = m'.brings.1) ∨
    ∃ m ∈ ms, (∀ m' ∈ ms, m.brings.1 ≤ m'.brings.1) ∧ 0 ≤ m.brings.2.limit

private theorem foldFirst_perm_iff_brings (ms : List SjoinMessage) :
    (∀ l', l'.Perm (ms.map SjoinMessage.brings) →
      OldestWins.foldFirst Mode.merge noMode l' =
        OldestWins.foldFirst Mode.merge noMode (ms.map SjoinMessage.brings)) ↔
      (∀ m ∈ ms, ∀ m' ∈ ms, m.brings.1 = m'.brings.1) ∨
        ∃ m ∈ ms, (∀ m' ∈ ms, m.brings.1 ≤ m'.brings.1) ∧ 0 ≤ m.brings.2.limit := by
  cases result : OldestWins.oldest Mode.merge (ms.map SjoinMessage.brings) with
  | none =>
    obtain rfl : ms = [] := by
      cases ms with
      | nil => rfl
      | cons m ms => cases result
    simp
  | some r =>
    obtain ⟨oldest, below⟩ := OldestWins.oldest_fst Mode.merge result
    have limit := OldestWins.oldest_snd Mode.merge (P := fun mode => 0 ≤ mode.limit)
      (fun a b => by rw [Mode.merge_limit, le_max_iff]) result
    rw [OldestWins.foldFirst_perm_iff Mode.merge noMode result, Mode.noMode_merge, limit]
    simp only [List.mem_map, exists_exists_and_eq_and, forall_exists_index, and_imp,
      forall_apply_eq_imp_iff₂] at oldest below ⊢
    obtain ⟨first, member, equal⟩ := oldest
    constructor
    · rintro (same | ⟨m, inside, old, positive⟩)
      · exact Or.inl fun m inside m' inside' => (same m inside).trans (same m' inside').symm
      · exact Or.inr ⟨m, inside, fun m' inside' => old ▸ below m' inside', positive⟩
    · rintro (same | ⟨m, inside, old, positive⟩)
      · exact Or.inl fun m inside => (same m inside first member).trans equal
      · refine Or.inr ⟨m, inside, le_antisymm ?_ (below m inside), positive⟩
        exact equal ▸ old first member

/-- The order in which SJOINs for a channel arrive does not matter exactly when the channel is
there, or they are all equally old, or one of the oldest has a limit that is not negative.
Servers that both have the channel agree after each has burst it to the other. -/
theorem receive_perm_iff {s : State} {name : List Char} (ready : s.Ready name)
    {ms : List SjoinMessage} (fits : ∀ m ∈ ms, m.For s name) :
    ((∀ ms' : List SjoinMessage, ms'.Perm ms → (ms'.foldl State.receive s).settings name =
      (ms.foldl State.receive s).settings name) ↔ s.Confluent name ms) ∧
    ∀ (s' : State) (ms' : List SjoinMessage) (x y : ℤ × Mode), s'.Ready name →
      (∀ m ∈ ms', m.For s' name) → s.settings name = some x → s'.settings name = some y →
      ms ≠ [] → (∀ m ∈ ms, m.brings = y) → ms' ≠ [] → (∀ m ∈ ms', m.brings = x) →
      (ms.foldl State.receive s).settings name = (ms'.foldl State.receive s').settings name := by
  constructor
  · have run : ∀ ms' : List SjoinMessage, ms'.Perm ms → (ms'.foldl State.receive s).settings name =
        (ms'.map SjoinMessage.brings).foldl arrive (s.settings name) := fun ms' same =>
      ready.foldl_receive fun m member => fits m (same.subset member)
    unfold State.Confluent
    cases settings : s.settings name with
    | some old =>
      refine iff_of_true (fun ms' same => ?_) (Or.inl rfl)
      rw [run ms' same, run ms (List.Perm.refl ms), settings, foldl_arrive_some, foldl_arrive_some,
        OldestWins.foldl_perm Mode.merge (same.map _)]
    | none =>
      simp only [Option.isSome_none, Bool.false_eq_true, false_or]
      rw [← foldFirst_perm_iff_brings]
      constructor
      · intro agree l' same
        -- a permutation of what the messages bring is one of the messages
        obtain ⟨ms', rfl, same'⟩ : Relation.Comp (· = List.map SjoinMessage.brings ·) List.Perm l' ms :=
          (congrFun (congrFun (List.eq_map_comp_perm SjoinMessage.brings) l') ms).mpr same
        have equal := agree ms' same'
        rw [run ms' same', run ms (List.Perm.refl ms), settings, foldl_arrive_none,
          foldl_arrive_none] at equal
        exact equal
      · intro agree ms' same
        rw [run ms' same, run ms (List.Perm.refl ms), settings, foldl_arrive_none,
          foldl_arrive_none]
        exact agree _ (same.map _)
  · intro s' ms' x y ready' fits' here there some₁ all₁ some₂ all₂
    have copies : ∀ (l : List SjoinMessage) (z : ℤ × Mode), l ≠ [] → (∀ m ∈ l, m.brings = z) →
        ∃ n, l.map SjoinMessage.brings = List.replicate (n + 1) z := by
      intro l z nonempty all
      refine ⟨l.length - 1, List.eq_replicate_iff.mpr ⟨?_, by simpa using all⟩⟩
      have := List.length_pos_iff.mpr nonempty
      rw [List.length_map]
      omega
    obtain ⟨n, brings⟩ := copies ms y some₁ all₁
    obtain ⟨n', brings'⟩ := copies ms' x some₂ all₂
    rw [ready.foldl_receive fits, ready'.foldl_receive fits', here, there, foldl_arrive_some,
      foldl_arrive_some, brings, brings', foldl_join_replicate, foldl_join_replicate,
      OldestWins.join_comm]

theorem smallNetwork_ready (name : List Char) : smallNetwork.Ready name where
  sound := by
    refine ⟨by simp [smallNetwork], fun u c => ?_⟩
    rcases u with _ | _ | _ | u <;> simp [smallNetwork, Client.channels, Client.server, Client.person]
  inUse := by simp [smallNetwork, State.hashFindChannel]

/-- The server sends the person 1 to `#c`. -/
def sjoinOf (ts limit : List Char) : SjoinMessage :=
  ⟨0, 0, [['s'], ts, ['#', 'c'], ['+', 'l'], limit, ['@', 'a']]⟩

theorem sjoinOf_for (ts limit : List Char) (time : atol ts ≠ 0) :
    (sjoinOf ts limit).For smallNetwork ['#', 'c'] where
  sender := rfl
  channel := rfl
  time := time
  nick := by
    refine ⟨⟨['#', 'c'], atol ts, noMode.setLimit (atol limit), ['@', 'a']⟩, rfl, ['@', 'a'], ?_, ?_⟩
    · exact List.mem_singleton.mpr rfl
    · exact (by decide +kernel : smallNetwork.acceptsNick 0 ['@', 'a'] = true)

/-- Two SJOINs that arrive in either order. -/
theorem receive_perm_iff_two :
    ((∀ ms' : List SjoinMessage, ms'.Perm [sjoinOf ['1'] ['5'], sjoinOf ['2'] ['7']] →
      (ms'.foldl State.receive smallNetwork).settings ['#', 'c'] =
        ([sjoinOf ['1'] ['5'], sjoinOf ['2'] ['7']].foldl State.receive smallNetwork).settings
          ['#', 'c']) ↔
      smallNetwork.Confluent ['#', 'c'] [sjoinOf ['1'] ['5'], sjoinOf ['2'] ['7']]) :=
  (receive_perm_iff (smallNetwork_ready ['#', 'c']) (by
    simp only [List.mem_cons, List.not_mem_nil, or_false, forall_eq_or_imp, forall_eq]
    exact ⟨sjoinOf_for _ _ (by decide), sjoinOf_for _ _ (by decide)⟩)).1

/-- The older of two SJOINs has the limit −5. It is dropped when that SJOIN creates the channel,
and stays when it comes second. -/
theorem negative_limit_order :
    smallNetwork.Ready ['#', 'c'] ∧ (sjoinOf ['1'] ['-', '5']).For smallNetwork ['#', 'c'] ∧
      (sjoinOf ['2'] ['7']).For smallNetwork ['#', 'c'] ∧
      [sjoinOf ['2'] ['7'], sjoinOf ['1'] ['-', '5']].Perm
        [sjoinOf ['1'] ['-', '5'], sjoinOf ['2'] ['7']] ∧
      ([sjoinOf ['1'] ['-', '5'], sjoinOf ['2'] ['7']].foldl State.receive smallNetwork).settings
        ['#', 'c'] = some (1, noMode) ∧
      ([sjoinOf ['2'] ['7'], sjoinOf ['1'] ['-', '5']].foldl State.receive smallNetwork).settings
        ['#', 'c'] = some (1, noMode.setLimit (-5)) ∧ noMode ≠ noMode.setLimit (-5) := by
  refine ⟨smallNetwork_ready _, sjoinOf_for _ _ (by decide), sjoinOf_for _ _ (by decide),
    List.Perm.swap _ _ _, ?_, ?_, ?_⟩ <;> decide +kernel

end Ircd.Chan
