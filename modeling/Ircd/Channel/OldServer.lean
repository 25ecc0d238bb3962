import Ircd.Channel.BurstRoundTrip
import Ircd.Channel.ModeLines
import Ircd.Channel.Relay

/-!
# A server that has no halfops

What a server without `CAP_HOPS` shows of a channel that it is sent by `ts_burst_channel`, by the
relay of `ms_sjoin` and by `send_cap_mode_changes`. It takes every line at its word: who comes with `@` is
an op, and `+o` and `-o` are done. In all else it is like this server, and the nicks lead it to the same clients.
-/
namespace Ircd.Chan

/-! ### What it shows -/

/-- The timestamp, once there has been a line about the channel, and the ops. -/
structure Shown where
  ts : Option ℤ
  op : ClientId → Bool

def Shown.nothing : Shown := ⟨none, fun _ => false⟩

def Shown.setOp (v : Shown) (who : ClientId) (op : Bool) : Shown :=
  { v with op := Function.update v.op who op }

/-- A nick of a SJOIN line. -/
def Shown.enter (s : State) (keepNewModes : Bool) (v : Shown) (nick : List Char) : Shown :=
  let p := readPrefixes keepNewModes nick
  match s.findClient p.nick with
  | none => v
  | some who => if keepNewModes = true ∧ p.fl &&& modeChanop ≠ 0 then v.setOp who true else v

/-- A SJOIN line, of which this is the timestamp and the nicks. -/
def Shown.sjoin (s : State) (v : Shown) (ts : ℤ) (nicks : List Char) : Shown :=
  match tsRules v.ts.isNone 1 nicks ts (v.ts.getD 0) with
  | none => v
  | some verdict =>
    (sjoinNicks nicks).foldl (Shown.enter s verdict.keepNewModes)
      ⟨some verdict.channelts, if verdict.keepOurModes then v.op else fun _ => false⟩

/-- A change of a rank. -/
def Shown.change (s : State) (v : Shown) (change : Dir × Char × List Char) : Shown :=
  match change, s.findClient change.2.2 with
  | (dir, 'o', _), some who => v.setOp who (dir = .add)
  | _, _ => v

/-- What it shows behind the burst of a channel. The nicks of a line stand behind its header. -/
def State.burstShown (s : State) (c : ChannelId) : Shown :=
  let ch := s.channel c
  let header := sjoinHeader s.meName ch.channelts ch.chname ch.mode.letters (ch.mode.params true)
  (s.tsBurstChannel ch false).foldl (fun v line => v.sjoin s ch.channelts (line.drop header.length)) .nothing

/-! ### What happens -/

/-- The server: the link to it, and the combination of capabilities that it is counted under. -/
structure OldServer where
  link : ClientId
  cap : Finset Cap
  nocap : Finset Cap
  noHops : .hops ∉ cap

/-- The channel here, and there. -/
structure Sides where
  state : State
  shown : Shown

/-- What this server is told: a SJOIN of another server, or a MODE. -/
inductive Heard where
  | sjoin (clientP source : ClientId) (parv : List (List Char))
  | mode (m : ModeCommand)

/-- A MODE line up to the letters. -/
def State.modeHeader (s : State) (source : ClientId) (chptr : ChannelId) (cap : Finset Cap) : List Char :=
  let client := s.client source
  let sender := match client.user with
    | some user => if .uid ∈ cap ∧ user.id.head? = some '.' then user.id else client.name
    | none => client.name
  [':'] ++ sender ++ [' ', 'M', 'O', 'D', 'E', ' '] ++ (s.channel chptr).chname ++ [' ']

/-- The MODE changes ranks only. What comes over a link is not from a local client. -/
def ModeCommand.ofRanks (m : ModeCommand) (s : State) (peer : OldServer) (c : ChannelId) : Bool :=
  m.chptr == c && ((m.parv.headD []).all fun l => l == '+' || l == '-' || l == '=' || rankLetters.contains l) &&
    (m.clientP != peer.link || !(s.client m.source).mine)

/-- A SJOIN of another server is relayed, and a MODE is carried out and passed on. If the old server has sent the
MODE, it has done what the line says. -/
def Sides.after (peer : OldServer) (c : ChannelId) (x : Sides) : Heard → Option Sides
  | .sjoin clientP source parv =>
    let result := x.state.msSjoin clientP source parv
    match x.state.sjoinStart source parv, result.relay with
    | some start, some (_, nhops) =>
      if clientP ≠ peer.link ∧ start.chptr = c then
        -- the line has the nicks behind its header
        let nicks := nhops.drop (start.header source parv).length
        some ⟨result.state, x.shown.sjoin x.state start.verdict.tstosend nicks⟩
      else none
    | _, _ => none
  | .mode m =>
    if m.ofRanks x.state peer c then
      (x.state.setChannelMode m).map fun y =>
        let header := x.state.modeHeader m.source c peer.cap
        let lines := sendCapModeChanges header peer.cap peer.nocap y.minus y.plus
        let changes :=
          if m.clientP = peer.link then readRanks (m.parv.headD []) .add m.parv.tail
          else lines.flatMap ModeLine.told
        ⟨x.state.setChannel c y.ch, changes.foldl (Shown.change x.state) x.shown⟩
    else none

def Sides.run (peer : OldServer) (c : ChannelId) (x : Sides) (list : List Heard) : Option Sides :=
  list.foldlM (fun x heard => x.after peer c heard) x

/-! ### What must not happen -/

/-- A nick with these flags is told with an `@`. -/
def toldOp (fl : ℕ) : Bool := fl &&& modeChanop != 0 || fl &&& modeHalfop != 0

/-- A nick of a SJOIN that is told with an `@`. If he is in the channel, he is an op or a halfop already; if not, he
comes over the right link, and the prefix makes him one. -/
def nickFits (clientP : ClientId) (c : ChannelId) (s : State) (nick : List Char) : Bool :=
  let p := readPrefixes true nick
  match s.findClient p.nick with
  | none => true
  | some target =>
    !toldOp p.fl ||
      if s.isMember target c then (s.channel c).isChanOp target || (s.channel c).isHalfOp target
      else s.accepts clientP target && (p.fl == modeChanop || p.fl == modeHalfop)

/-- The rounds of the loop over the nicks, where the prefixes count. -/
def nicksFit (clientP : ClientId) (c : ChannelId) (top : Option ChannelId) : NickLoop → List (List Char) → Bool
  | _, [] => true
  | l, nick :: nicks =>
    nickFits clientP c l.state nick && nicksFit clientP c top (nickStep clientP c top true l nick) nicks

/-- Whom the old server shows as op is an op or a halfop here, and it shows every op. -/
def Sides.Right (c : ChannelId) (x : Sides) : Prop :=
  (∀ u, x.shown.op u = true → ((x.state.channel c).isChanOp u || (x.state.channel c).isHalfOp u) = true) ∧
    ∀ u, (x.state.channel c).isChanOp u = true → x.shown.op u = true

/-! ### The nicks of a relayed line -/

/-- The flags of a prefix. -/
def prefixFlags (before : List Char) : ℕ :=
  before.foldl (fun fl c => fl ||| if c = '@' then modeChanop else if c = '+' then modeVoice else modeHalfop) 0

/-- The prefix for servers without halfops. -/
def toldPrefix (before : List Char) : List Char := before.map fun c => if c = '%' then '@' else c

/-- A nick from which no prefix is read. -/
def Unprefixed (nick : List Char) : Prop := ∀ c ∈ nick.head?, isPrefixChar c = false

theorem isPrefixChar_iff {c : Char} : isPrefixChar c = true ↔ c = '@' ∨ c = '+' ∨ c = '%' := by
  simp [isPrefixChar, or_assoc]

theorem Unprefixed.readPrefix {p : Prefixed} (stop : Unprefixed p.nick) (keepNewModes : Bool) :
    Chan.readPrefix keepNewModes p = p := by
  rcases readPrefix_cases keepNewModes p with ⟨c, nick, isPrefix, shape, -⟩ | ⟨-, same⟩
  · rw [shape] at stop
    have noPrefix := stop c rfl
    rw [isPrefix] at noPrefix
    cases noPrefix
  · exact same

/-- A prefix of one or two characters is read as what it is. -/
theorem readPrefixes_append {before nick : List Char} (two : before.length ≤ 2)
    (all : ∀ c ∈ before, isPrefixChar c = true) (stop : Unprefixed nick) (keepNewModes : Bool) :
    readPrefixes keepNewModes (before ++ nick) = ⟨prefixFlags before, if keepNewModes then before else [],
      if keepNewModes then toldPrefix before else [], nick⟩ := by
  have self : ∀ fl hops nhops, readPrefix keepNewModes ⟨fl, hops, nhops, nick⟩ = ⟨fl, hops, nhops, nick⟩ :=
    fun _ _ _ => Unprefixed.readPrefix stop keepNewModes
  have one : ∀ c, isPrefixChar c = true → ∀ fl hops nhops rest,
      readPrefix keepNewModes ⟨fl, hops, nhops, c :: rest⟩ =
        ⟨fl ||| if c = '@' then modeChanop else if c = '+' then modeVoice else modeHalfop,
          if keepNewModes then hops ++ [c] else hops,
          if keepNewModes then nhops ++ [if c = '%' then '@' else c] else nhops, rest⟩ := by
    intro c isPrefix fl hops nhops rest
    rcases isPrefixChar_iff.mp isPrefix with rfl | rfl | rfl <;> rfl
  unfold readPrefixes
  match before, two, all with
  | [], _, _ =>
    rw [List.nil_append, self, self]
    cases keepNewModes <;> rfl
  | [c], _, all =>
    rw [List.singleton_append, one c (all c (by simp)), self]
    cases keepNewModes <;> rfl
  | [c, d], _, all =>
    rw [List.cons_append, List.singleton_append, one c (all c (by simp)), one d (all d (by simp))]
    cases keepNewModes <;> rfl

/-- Every nick has a prefix, if an empty one. -/
theorem readPrefixes_split (nick : List Char) : ∃ before, before.length ≤ 2 ∧
    (∀ c ∈ before, isPrefixChar c = true) ∧ nick = before ++ (readPrefixes true nick).nick := by
  unfold readPrefixes
  rcases readPrefix_cases true ⟨0, [], [], nick⟩ with ⟨c, rest, isPrefix, shape, nick₁, -⟩ | ⟨-, same⟩
  · rcases readPrefix_cases true (readPrefix true ⟨0, [], [], nick⟩) with
      ⟨d, rest', isPrefix', shape', nick₂, -⟩ | ⟨-, same'⟩
    · refine ⟨[c, d], le_rfl, ?_, ?_⟩
      · simp [isPrefix, isPrefix']
      · rw [nick₂]
        rw [nick₁] at shape'
        rw [shape'] at shape
        exact shape
    · refine ⟨[c], by simp, by simpa using isPrefix, ?_⟩
      rw [same', nick₁]
      exact shape
  · exact ⟨[], by simp, by simp, by rw [same, same]; rfl⟩

/-- A nick as it is told, less the space behind it. -/
def toldNick (keepNewModes : Bool) (nick : List Char) : List Char :=
  (readPrefixes keepNewModes nick).nhops ++ (readPrefixes true nick).nick

/-- The reader finds the same client, with an `@` if he was told as an op. -/
theorem readPrefixes_toldNick {nick : List Char} (stop : Unprefixed (readPrefixes true nick).nick)
    (keepNewModes : Bool) :
    (readPrefixes keepNewModes nick).fl = (readPrefixes true nick).fl ∧
      (readPrefixes true (toldNick keepNewModes nick)).nick = (readPrefixes true nick).nick ∧
      ((readPrefixes true (toldNick keepNewModes nick)).fl &&& modeChanop ≠ 0 ↔
        keepNewModes = true ∧ toldOp (readPrefixes true nick).fl = true) := by
  obtain ⟨before, two, all, split⟩ := readPrefixes_split nick
  unfold toldNick
  generalize (readPrefixes true nick).nick = rest at stop split
  subst split
  rw [readPrefixes_append two all stop, readPrefixes_append two all stop]
  have told : ∀ c ∈ toldPrefix before, isPrefixChar c = true := by
    intro c member
    obtain ⟨d, inside, rfl⟩ := List.mem_map.mp member
    split
    · rfl
    · exact all d inside
  have length : (toldPrefix before).length ≤ 2 := by
    rw [toldPrefix, List.length_map]
    exact two
  have flags : prefixFlags (toldPrefix before) &&& modeChanop ≠ 0 ↔ toldOp (prefixFlags before) = true := by
    match before, two, all with
    | [], _, _ => decide
    | [c], _, all => rcases isPrefixChar_iff.mp (all c (by simp)) with rfl | rfl | rfl <;> decide
    | [c, d], _, all =>
      rcases isPrefixChar_iff.mp (all c (by simp)) with rfl | rfl | rfl <;>
        rcases isPrefixChar_iff.mp (all d (by simp)) with rfl | rfl | rfl <;> decide
  refine ⟨rfl, ?_⟩
  cases keepNewModes with
  | false =>
    have bare : readPrefixes true rest = ⟨0, [], [], rest⟩ := by
      have self : readPrefix true ⟨0, [], [], rest⟩ = ⟨0, [], [], rest⟩ := Unprefixed.readPrefix stop true
      unfold readPrefixes
      rw [self, self]
    dsimp only
    rw [if_neg (by decide), List.nil_append, bare]
    exact ⟨rfl, fun flag => absurd (Nat.zero_and _) flag, fun never => absurd never.1 (by decide)⟩
  | true =>
    dsimp only
    rw [if_pos rfl, readPrefixes_append length told stop]
    exact ⟨rfl, flags.trans (and_iff_right rfl).symm⟩

/-! ### The clients -/

/-- The clients have names that lead to them, and whoever is on a channel is one of them. -/
structure State.Addressed (s : State) : Prop where
  found : ∀ u ∈ s.clientTable, s.findClient (s.client u).name = some u
  nick : ∀ u ∈ s.clientTable, IsNick (s.client u).name
  undotted : ∀ u ∈ s.clientTable, (s.client u).name.head? ≠ some '.'
  listed : ∀ u c, s.isMember u c = true → u ∈ s.clientTable

theorem State.mem_of_findClient {s : State} {name : List Char} {u : ClientId} (found : s.findClient name = some u) :
    u ∈ s.clientTable := by
  unfold State.findClient at found
  split at found
  · exact List.mem_of_find?_eq_some found
  · exact List.mem_of_find?_eq_some found

/-- What leads to a client has no prefix. -/
theorem State.Addressed.unprefixed {s : State} (addressed : s.Addressed) {name : List Char} {u : ClientId}
    (found : s.findClient name = some u) : name ≠ [] ∧ Unprefixed name := by
  have listed := State.mem_of_findClient found
  unfold State.findClient at found
  split at found
  next dot =>
    refine ⟨?_, fun c first => ?_⟩
    · rintro rfl
      cases dot
    · rw [dot] at first
      obtain rfl := Option.some.inj first
      rfl
  next =>
    have equal : IrcEq name (s.client u).name := by simpa using List.find?_some found
    obtain ⟨nonempty, -, noAt, noPlus, noPercent⟩ := addressed.nick u listed
    generalize (s.client u).name = nick at equal nonempty noAt noPlus noPercent
    cases name with
    | nil =>
      cases nick with
      | nil => exact absurd rfl nonempty
      | cons d nick => cases equal
    | cons c name =>
      refine ⟨List.cons_ne_nil _ _, fun c' first => ?_⟩
      obtain rfl := Option.some.inj first
      cases nick with
      | nil => exact absurd rfl nonempty
      | cons d nick =>
        -- a prefix has no upper or lower case
        have upper : toUpper c = toUpper d := (List.cons.inj equal).1
        rw [← Bool.not_eq_true, isPrefixChar_iff]
        rintro (rfl | rfl | rfl)
        · exact noAt (congrArg some (eq_of_toUpper upper.symm (by decide)))
        · exact noPlus (congrArg some (eq_of_toUpper upper.symm (by decide)))
        · exact noPercent (congrArg some (eq_of_toUpper upper.symm (by decide)))

theorem State.Joins.addressed {c : ChannelId} {s s' : State} (joins : State.Joins c s s') (addressed : s.Addressed)
    (listed : ∀ u, s'.isMember u c = true → u ∈ s.clientTable) : s'.Addressed := by
  have table : s'.clientTable = s.clientTable := by rw [joins.same]
  have name : ∀ u, (s'.client u).name = (s.client u).name := by
    intro u
    obtain ⟨user, vchanMap, equal, -⟩ := joins.identity u
    rw [equal]
  refine ⟨fun u member => ?_, fun u member => ?_, fun u member => ?_, fun u d isMember => ?_⟩
  · rw [name, joins.findClient]
    exact addressed.found u (table ▸ member)
  · rw [name]
    exact addressed.nick u (table ▸ member)
  · rw [name]
    exact addressed.undotted u (table ▸ member)
  · rw [table]
    rcases joins.channels u d (of_decide_eq_true isMember) with before | rfl
    · exact addressed.listed u d (decide_eq_true before)
    · exact listed u isMember

/-! ### The loop over the nicks -/

theorem Lists.mem_add {lists : Lists} {r r' : Rank} {who u : ClientId} :
    u ∈ Lists.add lists r who r' ↔ u ∈ lists r' ∨ r' = r ∧ u = who := by
  by_cases same : r' = r
  · subst same
    rw [Lists.add_self, List.mem_cons]
    tauto
  · rw [Lists.add_ne _ _ same]
    tauto

/-- What a round does to the lists of the channel. -/
theorem nickStep_lists_members (clientP : ClientId) (c : ChannelId) (top : Option ChannelId) (keepNewModes : Bool)
    {l : NickLoop} {nick : List Char} {target : ClientId}
    (found : l.state.findClient (readPrefixes true nick).nick = some target) :
    ((nickStep clientP c top keepNewModes l nick).state.channel c).members =
      if l.state.accepts clientP target = true ∧ l.state.isMember target c = false then
        Lists.add (l.state.channel c).members (rankOfFlags (flagsOf keepNewModes (readPrefixes keepNewModes nick).fl))
          target
      else (l.state.channel c).members := by
  unfold nickStep takeNick
  simp only [readPrefixes_nick, found]
  cases accepted : l.state.accepts clientP target with
  | false => simp
  | true =>
    cases member : l.state.isMember target c with
    | true => simp
    | false =>
      have person : (l.state.client target).user.isSome = true := by
        simp only [State.accepts, Client.isPerson, Bool.and_eq_true] at accepted
        exact accepted.2.2
      have added := (addUserToChannel_members l.state c target
        (flagsOf keepNewModes (readPrefixes keepNewModes nick).fl) person).1
      simp only [Bool.not_true, Bool.false_eq_true, if_false, and_self, if_true]
      cases top with
      | none => exact added
      | some root =>
        dsimp only
        split
        · exact added
        · exact added

/-- A round leaves everybody alone who is not found. -/
theorem nickStep_unknown (clientP : ClientId) (c : ChannelId) (top : Option ChannelId) (keepNewModes : Bool)
    {l : NickLoop} {nick : List Char} (unknown : l.state.findClient (readPrefixes true nick).nick = none) :
    (nickStep clientP c top keepNewModes l nick).state = l.state := by
  unfold nickStep
  simp only [readPrefixes_nick, unknown]

theorem Channel.isChanOp_of_add {ch ch' : Channel} {r : Rank} {who : ClientId}
    (members : ch'.members = Lists.add ch.members r who) (u : ClientId) :
    ch'.isChanOp u = (ch.isChanOp u || decide (u = who) && r.letters.o) := by
  rw [Bool.eq_iff_iff]
  simp only [Channel.isChanOp, members, Lists.mem_add, Bool.or_eq_true, Bool.and_eq_true, decide_eq_true_eq]
  cases r <;> simp [Rank.letters] <;> tauto

theorem Channel.isHalfOp_of_add {ch ch' : Channel} {r : Rank} {who : ClientId}
    (members : ch'.members = Lists.add ch.members r who) (u : ClientId) :
    ch'.isHalfOp u = (ch.isHalfOp u || decide (u = who) && r.letters.h) := by
  rw [Bool.eq_iff_iff]
  simp only [Channel.isHalfOp, members, Lists.mem_add, Bool.or_eq_true, Bool.and_eq_true, decide_eq_true_eq]
  cases r <;> simp [Rank.letters]

@[simp] theorem Shown.setOp_op (v : Shown) (who : ClientId) (op : Bool) (u : ClientId) :
    (v.setOp who op).op u = if u = who then op else v.op u :=
  Function.update_apply ..

/-- What the reader makes of a nick that is told. -/
theorem State.Addressed.enter_toldNick {s : State} (addressed : s.Addressed) {nick : List Char} {target : ClientId}
    (found : s.findClient (readPrefixes true nick).nick = some target) (keepNewModes : Bool) (v : Shown) :
    v.enter s true (toldNick keepNewModes nick) =
      if keepNewModes = true ∧ toldOp (readPrefixes true nick).fl = true then v.setOp target true else v := by
  obtain ⟨-, same, flag⟩ := readPrefixes_toldNick (addressed.unprefixed found).2 keepNewModes
  unfold Shown.enter
  dsimp only
  rw [same, found]
  dsimp only
  exact if_congr ((and_iff_right rfl).trans flag) rfl rfl

theorem rankOfFlags_o {fl : ℕ} (op : (rankOfFlags fl).letters.o = true) : fl = modeChanop := by
  unfold rankOfFlags at op
  split at op
  · assumption
  · split at op
    · cases op
    · split at op <;> cases op

section Loop

variable {s : State} {clientP : ClientId} {c : ChannelId} {top : Option ChannelId} {keepNewModes : Bool}
  {l : NickLoop} {v : Shown}

/-- A known nick is taken here and told there. -/
theorem right_nickStep (addressed : s.Addressed) (joins : State.Joins c s l.state) {nick : List Char}
    {target : ClientId} (found : s.findClient (readPrefixes true nick).nick = some target)
    (fits : keepNewModes = true → nickFits clientP c l.state nick = true) (right : Sides.Right c ⟨l.state, v⟩) :
    Sides.Right c ⟨(nickStep clientP c top keepNewModes l nick).state,
      v.enter s true (toldNick keepNewModes nick)⟩ := by
  have found' : l.state.findClient (readPrefixes true nick).nick = some target := by
    rw [joins.findClient, found]
  have flags := (readPrefixes_toldNick (addressed.unprefixed found).2 keepNewModes).1
  have members := nickStep_lists_members clientP c top keepNewModes found'
  rw [addressed.enter_toldNick found]
  rw [flags] at members
  unfold nickFits at fits
  simp only [found'] at fits
  generalize (readPrefixes true nick).fl = fl at members fits ⊢
  obtain ⟨known, shown⟩ := right
  by_cases added : l.state.accepts clientP target = true ∧ l.state.isMember target c = false
  · rw [if_pos added] at members
    have op := Channel.isChanOp_of_add members
    have halfop := Channel.isHalfOp_of_add members
    cases keepNewModes with
    | false =>
      -- he has lost his prefix
      rw [rankOfFlags_lost] at op halfop
      simp only [Rank.letters, Bool.and_false, Bool.or_false] at op halfop
      rw [if_neg fun both => absurd both.1 (by decide)]
      refine ⟨fun u => ?_, fun u => ?_⟩
      · rw [op, halfop]
        exact known u
      · rw [op]
        exact shown u
    | true =>
      have fits := fits rfl
      rw [added.1, added.2] at fits
      rw [show flagsOf true fl = fl from rfl] at op halfop
      by_cases told : toldOp fl = true
      · have ranked : (rankOfFlags fl).letters.o = true ∨ (rankOfFlags fl).letters.h = true := by
          simp only [told, Bool.not_true, Bool.false_or, Bool.false_eq_true, if_false, Bool.true_and,
            Bool.or_eq_true, beq_iff_eq] at fits
          rcases fits with rfl | rfl
          · exact Or.inl rfl
          · exact Or.inr rfl
        rw [if_pos ⟨rfl, told⟩]
        refine ⟨fun u shows => ?_, fun u isOp => ?_⟩
        · rw [op, halfop]
          by_cases self : u = target
          · rcases ranked with ranked | ranked <;> simp [self, ranked]
          · rw [Shown.setOp_op, if_neg self] at shows
            simpa [self] using known u shows
        · rw [Shown.setOp_op]
          split
          · rfl
          next other =>
            rw [op] at isOp
            exact shown u (by simpa [other] using isOp)
      · have noOp : (rankOfFlags fl).letters.o = false := by
          rw [← Bool.not_eq_true]
          intro isOp
          rw [rankOfFlags_o isOp] at told
          exact told rfl
        rw [if_neg fun both => told both.2]
        refine ⟨fun u shows => ?_, fun u isOp => ?_⟩
        · have before := known u shows
          rw [op, halfop, noOp]
          simp only [Bool.or_eq_true] at before ⊢
          rcases before with isOp | isHalfop
          · exact Or.inl (Or.inl isOp)
          · exact Or.inr (Or.inl isHalfop)
        · rw [op, noOp, Bool.and_false, Bool.or_false] at isOp
          exact shown u isOp
  · rw [if_neg added] at members
    have op : ∀ u, ((nickStep clientP c top keepNewModes l nick).state.channel c).isChanOp u =
        (l.state.channel c).isChanOp u := by
      intro u
      simp only [Channel.isChanOp, members]
    have halfop : ∀ u, ((nickStep clientP c top keepNewModes l nick).state.channel c).isHalfOp u =
        (l.state.channel c).isHalfOp u := by
      intro u
      simp only [Channel.isHalfOp, members]
    refine ⟨fun u shows => ?_, fun u isOp => ?_⟩
    · rw [op, halfop]
      by_cases told : keepNewModes = true ∧ toldOp fl = true
      · rw [if_pos told, Shown.setOp_op] at shows
        split at shows
        next self =>
          -- he was in the channel, and has his rank from earlier
          subst self
          have fits := fits told.1
          rw [told.2, Bool.not_true, Bool.false_or] at fits
          split at fits
          · exact fits
          next outside =>
            rw [Bool.and_eq_true] at fits
            exact absurd ⟨fits.1, Bool.eq_false_iff.mpr outside⟩ added
        · exact known u shows
      · rw [if_neg told] at shows
        exact known u shows
    · rw [op] at isOp
      split
      · rw [Shown.setOp_op]
        split
        · rfl
        · exact shown u isOp
      · exact shown u isOp

theorem enter_ts (s : State) (keepNewModes : Bool) (v : Shown) (nick : List Char) :
    (v.enter s keepNewModes nick).ts = v.ts := by
  unfold Shown.enter
  dsimp only
  split
  · rfl
  · split <;> rfl

theorem foldl_enter_ts (s : State) (keepNewModes : Bool) (v : Shown) (nicks : List (List Char)) :
    (nicks.foldl (Shown.enter s keepNewModes) v).ts = v.ts := by
  induction nicks generalizing v with
  | nil => rfl
  | cons nick nicks ih => rw [List.foldl_cons, ih, enter_ts]

/-- The loop over the nicks here, and over the nicks of the relayed line there. -/
theorem right_nickLoop (addressed : s.Addressed) (joins : State.Joins c s l.state) {nicks : List (List Char)}
    (fits : keepNewModes = true → nicksFit clientP c top l nicks = true) (right : Sides.Right c ⟨l.state, v⟩) :
    Sides.Right c ⟨(nicks.foldl (nickStep clientP c top keepNewModes) l).state,
      ((nicks.filter s.knowsNick).map (toldNick keepNewModes)).foldl (Shown.enter s true) v⟩ := by
  induction nicks generalizing l v with
  | nil => exact right
  | cons nick nicks ih =>
    have round := nickLoop_round clientP c top keepNewModes [nick] l
    rw [List.foldl_cons, List.foldl_nil] at round
    have first : keepNewModes = true → nickFits clientP c l.state nick = true :=
      fun keeps => (Bool.and_eq_true_iff.mp (fits keeps)).1
    have rest : keepNewModes = true →
        nicksFit clientP c top (nickStep clientP c top keepNewModes l nick) nicks = true := by
      rintro rfl
      exact (Bool.and_eq_true_iff.mp (fits rfl)).2
    rw [List.foldl_cons, List.filter_cons]
    cases found : s.findClient (readPrefixes true nick).nick with
    | none =>
      have unknown : s.knowsNick nick = false := by
        unfold State.knowsNick
        rw [found]
        rfl
      have idle := nickStep_unknown clientP c top keepNewModes ((joins.findClient _).trans found)
      rw [unknown, if_neg (by decide)]
      exact ih (joins.trans round.joins) rest (by rw [idle]; exact right)
    | some target =>
      have known : s.knowsNick nick = true := by
        unfold State.knowsNick
        rw [found]
        rfl
      rw [known, if_pos rfl, List.map_cons, List.foldl_cons]
      exact ih (joins.trans round.joins) rest (right_nickStep addressed joins found first right)

/-- The loop takes clients that are found. -/
theorem nickLoop_listed (intact : l.state.Intact) (old : c < l.state.nextChannel)
    (listed : ∀ u, l.state.isMember u c = true → u ∈ l.state.clientTable) (nicks : List (List Char)) :
    ∀ u, (nicks.foldl (nickStep clientP c top keepNewModes) l).state.isMember u c = true →
      u ∈ l.state.clientTable := by
  induction nicks generalizing l with
  | nil => exact listed
  | cons nick nicks ih =>
    obtain ⟨intact', next⟩ := intact.nickStep old clientP top keepNewModes nick
    have round := nickLoop_round clientP c top keepNewModes [nick] l
    rw [List.foldl_cons, List.foldl_nil] at round
    have table : (nickStep clientP c top keepNewModes l nick).state.clientTable = l.state.clientTable := by
      rw [round.joins.same]
    rw [List.foldl_cons, ← table]
    refine ih intact' (next.symm ▸ old) fun u isMember => ?_
    rw [table]
    cases found : l.state.findClient (readPrefixes true nick).nick with
    | none =>
      rw [nickStep_unknown clientP c top keepNewModes found] at isMember
      exact listed u isMember
    | some target =>
      have back := (intact'.channels c (next.symm ▸ old)).back u
      obtain ⟨r, onList⟩ := Lists.mem_all.mp (back.mp (of_decide_eq_true isMember))
      rw [nickStep_lists_members clientP c top keepNewModes found] at onList
      have before : ∀ r, u ∈ (l.state.channel c).members r → u ∈ l.state.clientTable := fun r member =>
        listed u (decide_eq_true (((intact.channels c old).back u).mpr (Lists.mem_all.mpr ⟨r, member⟩)))
      split at onList
      · rcases Lists.mem_add.mp onList with was | ⟨-, rfl⟩
        · exact before r was
        · exact State.mem_of_findClient found
      · exact before r onList

end Loop

end Ircd.Chan
