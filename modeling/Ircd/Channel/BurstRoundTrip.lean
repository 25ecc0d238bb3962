import Ircd.Channel.BurstLines

/-!
# A burst and what comes of it

The receiver of a burst joins the timestamp and modes of every line, and puts the members of
every line on the list of their prefix. The prefix `@+` leads to the list of peons, and a
negative limit is lost.
-/
namespace Ircd.Chan

/-- The members of the channel of that name. -/
def State.roster (s : State) (name : List Char) : Option Lists :=
  (s.hashFindChannel name).map fun c => (s.channel c).members

/-! ### The nicks of a line -/

theorem addUserToChannel_members (s : State) (chptr : ChannelId) (who : ClientId)
    (flags : ℕ) (person : (s.client who).user.isSome = true) :
    ((s.addUserToChannel chptr who flags).channel chptr).members =
        Lists.add (s.channel chptr).members (rankOfFlags flags) who ∧
      ∀ other, other ≠ who →
        (s.addUserToChannel chptr who flags).client other = s.client other := by
  obtain ⟨user, given⟩ := Option.isSome_iff_exists.mp person
  unfold State.addUserToChannel
  simp only [given]
  refine ⟨?_, fun other different => ?_⟩
  · rw [State.setClient_channel, State.setChannel_channel]
  · rw [State.setClient_client_ne _ _ different, State.setChannel_client]

/-- A nick that is known and not yet in the channel is put on the list of its prefix. -/
private theorem nickStep_adds {clientP : ClientId} {chptr : ChannelId} (top : Option ChannelId)
    {l : NickLoop} {nick : List Char} {target : ClientId}
    (found : l.state.findClient (readPrefixes true nick).nick = some target)
    (accepted : l.state.accepts clientP target = true)
    (fresh : chptr ∉ (l.state.client target).channels) :
    ((nickStep clientP chptr top true l nick).state.channel chptr).members =
        Lists.add (l.state.channel chptr).members
          (rankOfFlags (flagsOf true (readPrefixes true nick).fl)) target ∧
      ∀ other, other ≠ target →
        (nickStep clientP chptr top true l nick).state.client other = l.state.client other := by
  have person : (l.state.client target).user.isSome = true := by
    simp only [State.accepts, Client.isPerson, Bool.and_eq_true] at accepted
    exact accepted.2.2
  have member : l.state.isMember target chptr = false := by simpa [State.isMember] using fresh
  have added := addUserToChannel_members l.state chptr target
    (flagsOf true (readPrefixes true nick).fl) person
  unfold nickStep takeNick
  simp only [found, accepted, member, Bool.not_true, Bool.false_eq_true, if_false]
  cases top with
  | none => exact added
  | some root =>
    by_cases self : root = chptr
    · simp only [self, if_true]
      exact added
    · simp only [self, if_false]
      refine ⟨added.1, fun other different => ?_⟩
      rw [State.setClient_client_ne _ _ different]
      exact added.2 other different

/-- The lists with more members in front of one of them. -/
def Lists.addAll (lists : Lists) (r : Rank) (whos : List ClientId) : Lists :=
  whos.foldl (fun lists who => Lists.add lists r who) lists

theorem Lists.addAll_perm (lists : Lists) (r q : Rank) (whos : List ClientId) :
    (Lists.addAll lists r whos q).Perm ((if r = q then whos else []) ++ lists q) := by
  induction whos generalizing lists with
  | nil => simp [Lists.addAll]
  | cons who whos ih =>
    refine (ih (Lists.add lists r who)).trans ?_
    by_cases here : r = q
    · subst here
      simp only [if_true, Lists.add_self, List.cons_append]
      exact List.perm_middle
    · simp only [if_neg here, List.nil_append, Lists.add_ne lists who (Ne.symm here)]
      exact List.Perm.refl _

/-- A line of nicks that are known and not yet in the channel. -/
private theorem nickLoop_adds {clientP : ClientId} {chptr : ChannelId} (top : Option ChannelId)
    (r : Rank) (name : ClientId → List Char) {peer : ClientId → ClientId} {whos : List ClientId}
    {l : NickLoop} (nicks : ∀ who ∈ whos, IsNick (name who))
    (found : ∀ who ∈ whos, l.state.findClient (name who) = some (peer who) ∧
      l.state.accepts clientP (peer who) = true)
    (fresh : ∀ who ∈ whos, chptr ∉ (l.state.client (peer who)).channels)
    (apart : (whos.map peer).Nodup) :
    let l' := ((whos.map name).map (opFlagOf r ++ ·)).foldl (nickStep clientP chptr top true) l
    (l'.state.channel chptr).members =
        Lists.addAll (l.state.channel chptr).members (receivedRank r) (whos.map peer) ∧
      ∀ other, other ∉ whos.map peer → l'.state.client other = l.state.client other := by
  induction whos generalizing l with
  | nil => exact ⟨rfl, fun _ _ => rfl⟩
  | cons who whos ih =>
    obtain ⟨nick, rank⟩ := readPrefixes_opFlag r (nicks who (by simp))
    obtain ⟨known, accepted⟩ := found who (by simp)
    obtain ⟨members, clients⟩ := nickStep_adds top (nick.symm ▸ known) accepted (fresh who (by simp))
    have joins := (nickLoop_round clientP chptr top true [opFlagOf r ++ name who] l).joins
    rw [List.foldl_cons, List.foldl_nil] at joins
    obtain ⟨first, rest⟩ := List.nodup_cons.mp apart
    have others : ∀ u ∈ whos, peer u ≠ peer who := by
      intro u inside equal
      exact first (equal ▸ List.mem_map_of_mem inside)
    rw [rank] at members
    obtain ⟨members', clients'⟩ := ih (l := nickStep clientP chptr top true l (opFlagOf r ++ name who))
      (fun u inside => nicks u (by simp [inside]))
      (fun u inside => by
        rw [joins.findClient, joins.accepts]
        exact found u (by simp [inside]))
      (fun u inside => by
        rw [clients _ (others u inside)]
        exact fresh u (by simp [inside]))
      rest
    refine ⟨?_, fun other outside => ?_⟩
    · rw [List.map_cons, List.map_cons, List.foldl_cons, members', members]
      rfl
    · simp only [List.map_cons, List.mem_cons, not_or] at outside
      rw [List.map_cons, List.map_cons, List.foldl_cons, clients' other outside.2,
        clients other outside.1]

/-! ### One line -/

/-- The nicks of the members `whos` of the list `r`. -/
abbrev State.nicksOf (s : State) (r : Rank) (whos : List ClientId) : List Char :=
  nickText (opFlagOf r) (whos.map fun who => (s.client who).name)

/-- The line with these members. -/
def State.burstLine (s : State) (ch : Channel) (r : Rank) (whos : List ClientId) : List Char :=
  sjoinHeader s.meName ch.channelts ch.chname ch.mode.letters (ch.mode.params true) ++
    s.nicksOf r whos

/-- A channel that can be sent, of a server with a proper name. -/
structure State.Bursts (s : State) (ch : Channel) : Prop where
  sendable : Sendable ch.channelts ch.chname ch.mode
  nicks : ∀ r, ∀ who ∈ ch.members r, IsNick (s.client who).name
  spaceless : ' ' ∉ s.meName
  named : s.meName ≠ []
  short : s.meName.length ≤ hostLen

/-- The reader of a burst of the server `s`, which knows the clients `whos` of that server as the
clients `peer` behind the link. -/
structure Reading (t : State) (name : List Char) (link : ClientId) (s : State)
    (peer : ClientId → ClientId) (whos : List ClientId) : Prop where
  ready : t.Ready name
  server : t.findClient s.meName = some link ∧ (t.client link).status = .server ∧
    (t.client link).source = link
  known : ∀ who ∈ whos, t.findClient (s.client who).name = some (peer who) ∧
    t.accepts link (peer who) = true
  fresh : ∀ c, t.hashFindChannel name = some c →
    ∀ who ∈ whos, c ∉ (t.client (peer who)).channels
  apart : (whos.map peer).Nodup

/-- The message that the reader makes of a line. -/
def burstMessage (t : State) (link : ClientId) (ch : Channel) (nicks : List Char) : SjoinMessage :=
  ⟨link, link, (t.client link).name ::
    (burstParams ch.channelts ch.chname ch.mode ++ [nicks])⟩

private theorem burstMessage_modes (t : State) (link : ClientId) (ch : Channel)
    (nicks : List Char) :
    readModes (burstMessage t link ch nicks).parv ch.mode.letters noMode 0 =
      some (ch.mode, (ch.mode.limitArg ++ ch.mode.keyArg).length) := by
  have parv : (burstMessage t link ch nicks).parv =
      [(t.client link).name, printLu (ch.channelts % 2 ^ 64).toNat, ch.chname, ch.mode.letters] ++
        (ch.mode.limitArg ++ (ch.mode.keyArg ++ [nicks])) := by
    simp [burstMessage, burstParams]
  rw [parv]
  exact readModes_letters ch.mode rfl nicks

private theorem atol_channelts {ch : Channel} (low : 1 ≤ ch.channelts)
    (high : ch.channelts ≤ 4294967295) :
    atol (printLu (ch.channelts % 2 ^ 64).toNat) = ch.channelts := by
  rw [atol_printLu (by omega)]
  omega

theorem sjoinHead_burstMessage {t : State} {link : ClientId} {ch : Channel}
    (server : (t.client link).status = .server)
    (sendable : Sendable ch.channelts ch.chname ch.mode) (nicks : List Char) :
    sjoinHead t link (burstMessage t link ch nicks).parv =
      some ⟨ch.chname, ch.channelts, ch.mode, nicks⟩ := by
  obtain ⟨⟨low, high⟩, hash, chars, -⟩ := sendable
  have chname : param (burstMessage t link ch nicks).parv 2 = ch.chname := rfl
  have time : param (burstMessage t link ch nicks).parv 1 =
    printLu (ch.channelts % 2 ^ 64).toNat := rfl
  have letters : param (burstMessage t link ch nicks).parv 3 = ch.mode.letters := rfl
  have last : param (burstMessage t link ch nicks).parv
      (4 + (ch.mode.limitArg ++ ch.mode.keyArg).length) = nicks := by
    have parv : (burstMessage t link ch nicks).parv =
        ([(t.client link).name, printLu (ch.channelts % 2 ^ 64).toNat, ch.chname,
          ch.mode.letters] ++ (ch.mode.limitArg ++ ch.mode.keyArg)) ++ [nicks] := by
      simp [burstMessage, burstParams]
    have behind := param_append ([(t.client link).name, printLu (ch.channelts % 2 ^ 64).toNat,
      ch.chname, ch.mode.letters] ++ (ch.mode.limitArg ++ ch.mode.keyArg)) [nicks] 0
    rw [← parv, List.length_append] at behind
    exact behind
  unfold sjoinHead
  rw [if_neg, chname, if_neg (by simp [hash, chars]), letters, burstMessage_modes, Option.map_some]
  dsimp only
  rw [time, atol_channelts low high, last]
  rw [not_or]
  refine ⟨by rw [server]; decide, ?_⟩
  simp only [burstMessage, burstParams, List.length_cons, List.length_append, List.length_nil]
  omega

private theorem putmsg_burstLine {s : State} {ch : Channel} {r : Rank} {whos : List ClientId}
    (nonempty : whos ≠ []) (fits : (s.burstLine ch r whos).length ≤ 510) :
    putmsg (s.burstLine ch r whos) = s.burstLine ch r whos := by
  refine putmsg_eq fits ?_
  obtain ⟨front, who, rfl⟩ : ∃ front who, whos = front ++ [who] :=
    ⟨whos.dropLast, whos.getLast nonempty, (List.dropLast_append_getLast nonempty).symm⟩
  simp [State.burstLine, nickText]

private theorem Reading.sender {t s : State} {ch : Channel} {name : List Char} {link : ClientId}
    {peer : ClientId → ClientId} {whos : List ClientId}
    (reading : Reading t name link s peer whos) (bursts : s.Bursts ch) :
    t.sender link s.meName = some link := by
  obtain ⟨known, server, self⟩ := reading.server
  unfold State.sender
  rw [if_neg (by simp [bursts.named, server]), known]
  simp [self]

/-- The reader of a line makes that message of it. -/
private theorem readSjoin_line {t s : State} {ch : Channel} {link : ClientId} {r : Rank}
    {peer : ClientId → ClientId} {rest whos : List ClientId} (bursts : s.Bursts ch)
    (reading : Reading t ch.chname link s peer rest) (nonempty : whos ≠ [])
    (fits : (s.burstLine ch r whos).length ≤ 510) (key : ch.mode.key.head? ≠ some ':') :
    t.readSjoin link (putmsg (s.burstLine ch r whos)) = t.receive (burstMessage t link ch (s.nicksOf r whos)) := by
  rw [putmsg_burstLine nonempty fits]
  unfold State.readSjoin State.burstLine
  rw [parseLine_sjoin bursts.spaceless bursts.sendable]
  dsimp only
  rw [reading.sender bursts, if_neg key]
  exact if_pos (IrcEq.refl _)

private theorem burstMessage_for {t : State} {link : ClientId} {ch : Channel}
    (server : (t.client link).status = .server)
    (sendable : Sendable ch.channelts ch.chname ch.mode) {text : List Char}
    (nick : ∃ nick ∈ sjoinNicks text, t.acceptsNick link nick = true) :
    (burstMessage t link ch text).brings = (ch.channelts, ch.mode) ∧
      (burstMessage t link ch text).For t ch.chname := by
  have uncut : ch.chname.take channelLen = ch.chname := List.take_of_length_le ch.chname_len
  obtain ⟨low, high⟩ := sendable.time
  have brings : (burstMessage t link ch text).brings = (ch.channelts, ch.mode) := by
    unfold SjoinMessage.brings
    rw [show param (burstMessage t link ch text).parv 3 = ch.mode.letters from rfl,
      burstMessage_modes]
    exact Prod.ext (atol_channelts low high) rfl
  refine ⟨brings, rfl, ?_, ?_, ⟨_, sjoinHead_burstMessage server sendable text, nick⟩⟩
  · rw [show param (burstMessage t link ch text).parv 2 = ch.chname from rfl, uncut]
    exact IrcEq.refl _
  · rw [brings]
    exact ne_of_gt low

/-- The nicks of a line, as the reader cuts them. -/
private theorem sjoinNicks_line {s : State} (r : Rank) {whos : List ClientId} (nonempty : whos ≠ [])
    (nicks : ∀ who ∈ whos, IsNick (s.client who).name) :
    sjoinNicks (s.nicksOf r whos) =
      (whos.map fun who => (s.client who).name).map (opFlagOf r ++ ·) := by
  apply sjoinNicks_nickText
  · cases r <;> decide
  · simpa using nonempty
  · simpa using nicks

private theorem Reading.accepts_nick {t s : State} {name : List Char} {link : ClientId} (r : Rank)
    {peer : ClientId → ClientId} {whos rest : List ClientId}
    (reading : Reading t name link s peer (whos ++ rest)) (nonempty : whos ≠ [])
    (nicks : ∀ who ∈ whos, IsNick (s.client who).name) :
    ∃ nick ∈ sjoinNicks (s.nicksOf r whos), t.acceptsNick link nick = true := by
  obtain ⟨who, member⟩ := List.exists_mem_of_ne_nil whos nonempty
  refine ⟨opFlagOf r ++ (s.client who).name, ?_, ?_⟩
  · rw [sjoinNicks_line r nonempty nicks]
    exact List.mem_map_of_mem (List.mem_map_of_mem member)
  · obtain ⟨known, accepted⟩ := reading.known who (by simp [member])
    unfold State.acceptsNick
    rw [(readPrefixes_opFlag r (nicks who member)).1, known]
    exact accepted

/-- The nicks of a line come in; those of the later lines stay out. -/
private theorem Reading.nicks {t s : State} {name : List Char} {link : ClientId} (t' : State)
    (chptr : ChannelId) (top : Option ChannelId) (r : Rank) {peer : ClientId → ClientId}
    {whos rest : List ClientId} (reading : Reading t name link s peer (whos ++ rest)) (nonempty : whos ≠ [])
    (nicks : ∀ who ∈ whos, IsNick (s.client who).name)
    (place : t.hashFindChannel name = some chptr ∨
      t.hashFindChannel name = none ∧ chptr = t.nextChannel)
    (client : t'.client = t.client) (table : t'.clientTable = t.clientTable) :
    let l := (sjoinNicks (s.nicksOf r whos)).foldl (nickStep link chptr top true)
      ⟨t', [], [], 0, []⟩
    State.Joins chptr t' l.state ∧
      (l.state.channel chptr).members =
        Lists.addAll (t'.channel chptr).members (receivedRank r) (whos.map peer) ∧
      ∀ who ∈ rest, chptr ∉ (l.state.client (peer who)).channels := by
  have absent : ∀ who ∈ whos ++ rest, chptr ∉ (t'.client (peer who)).channels := by
    intro who member inside
    rw [client] at inside
    rcases place with there | ⟨-, rfl⟩
    · exact reading.fresh chptr there who member inside
    · exact absurd (reading.ready.sound.joined _ _ inside) (lt_irrefl _)
  have apart := reading.apart
  rw [List.map_append, List.nodup_append] at apart
  obtain ⟨apart, -, disjoint⟩ := apart
  have known : ∀ who ∈ whos, t'.findClient (s.client who).name = some (peer who) ∧
      t'.accepts link (peer who) = true := by
    intro who member
    rw [State.findClient_congr client table, State.accepts_congr client]
    exact reading.known who (by simp [member])
  obtain ⟨members, clients⟩ := nickLoop_adds top r (fun who => (s.client who).name)
    (l := ⟨t', [], [], 0, []⟩) nicks known (fun who member => absent who (by simp [member])) apart
  rw [sjoinNicks_line r nonempty nicks]
  refine ⟨(nickLoop_round link chptr top true _ ⟨t', [], [], 0, []⟩).joins, members, ?_⟩
  intro who member
  have outside : peer who ∉ whos.map peer := fun inside =>
    disjoint _ inside _ (List.mem_map_of_mem member) rfl
  rw [clients _ outside]
  exact absent who (by simp [member])

/-- What one line does to the reader. -/
theorem Reading.line {t s : State} {ch : Channel} {link : ClientId} (r : Rank)
    {peer : ClientId → ClientId} {whos rest : List ClientId} (bursts : s.Bursts ch)
    (reading : Reading t ch.chname link s peer (whos ++ rest)) (nonempty : whos ≠ [])
    (nicks : ∀ who ∈ whos, IsNick (s.client who).name)
    (fits : (s.burstLine ch r whos).length ≤ 510) (key : ch.mode.key.head? ≠ some ':')
    (same : ∀ x, t.settings ch.chname = some x → x.1 = ch.channelts) :
    let t' := t.readSjoin link (putmsg (s.burstLine ch r whos))
    Reading t' ch.chname link s peer rest ∧
      t'.settings ch.chname = arrive (t.settings ch.chname) (ch.channelts, ch.mode) ∧
      t'.roster ch.chname = some (Lists.addAll ((t.roster ch.chname).getD fun _ => [])
        (receivedRank r) (whos.map peer)) := by
  obtain ⟨found, server, self⟩ := reading.server
  intro t'
  have message : t' = _ := readSjoin_line (r := r) bursts reading nonempty fits key
  obtain ⟨brings, fitting⟩ := burstMessage_for server bursts.sendable
    (reading.accepts_nick r nonempty nicks)
  -- the nicks come in behind the verdict, which leaves the members as they are
  obtain ⟨head, s₂, chptr, top, verdict, judged⟩ := reading.ready.judged fitting
  obtain rfl := Option.some.inj
    (judged.read.symm.trans (sjoinHead_burstMessage server bursts.sendable _))
  obtain ⟨keepOurs, keepNew⟩ := judged.keeps same
  generalize state : s₂.setChannel chptr ((s₂.channel chptr).judged verdict ch.mode) = s₃
    at judged
  have here : s₃.channel chptr = (s₂.channel chptr).judged verdict ch.mode := by
    rw [← state]
    exact State.setChannel_channel _ _ _
  have client : s₃.client = t.client := by
    rw [← state]
    exact judged.client
  have table : s₃.clientTable = t.clientTable := by
    rw [← state]
    exact judged.table
  have found₃ : s₃.hashFindChannel ch.chname = some chptr := by
    rw [← state, State.hashFindChannel_judged]
    exact judged.found
  obtain ⟨joins, members, outside⟩ := reading.nicks s₃ chptr top r nonempty nicks judged.place
    client table
  have taken := (s₃.sjoinMembers_state link link (burstMessage t link ch (s.nicksOf r whos)).parv
    ⟨ch.chname, ch.channelts, ch.mode, s.nicksOf r whos⟩ chptr top verdict
    (s₃.relayHeader_short link chptr _ ch.chname verdict (t.client link).name_len)).1
  have result := judged.result
  rw [state, ← message] at result
  rw [keepNew] at taken
  replace result := result.trans taken
  dsimp only at result
  rw [← result] at joins members outside
  clear taken result
  have found' : t'.hashFindChannel ch.chname = some chptr :=
    (joins.hashFindChannel ch.chname).trans found₃
  obtain ⟨ready', settings, -⟩ := reading.ready.receive fitting
  rw [← message] at ready' settings
  rw [brings] at settings
  obtain ⟨user, vchanMap, identity, -⟩ := joins.identity link
  refine ⟨⟨ready', ⟨?_, ?_, ?_⟩, fun who member => ⟨?_, ?_⟩, fun c equal who member => ?_, ?_⟩,
    settings, ?_⟩
  · rw [joins.findClient, State.findClient_congr client table]
    exact found
  · rw [identity, client]
    exact server
  · rw [identity, client]
    exact self
  · rw [joins.findClient, State.findClient_congr client table]
    exact (reading.known who (by simp [member])).1
  · rw [joins.accepts, State.accepts_congr client]
    exact (reading.known who (by simp [member])).2
  · obtain rfl := Option.some.inj (found'.symm.trans equal)
    exact outside who member
  · have apart := reading.apart
    rw [List.map_append, List.nodup_append] at apart
    exact apart.2.1
  · rw [State.roster, found', Option.map_some, members, here,
      (Channel.judged_members ch.mode keepOurs).1, judged.members]
    rfl

/-! ### All lines -/

private theorem merge_noMode_merge (mode : Mode) :
    (noMode.merge mode).merge mode = noMode.merge mode := by
  have assoc : (noMode.merge mode).merge mode = noMode.merge (mode.merge mode) :=
    Std.Associative.assoc noMode mode mode
  rw [assoc, Mode.merge_self]

/-- The members that come onto the list `q`. -/
def receivedOn (peer : ClientId → ClientId) (q : Rank) (lines : List (Rank × List ClientId)) :
    List ClientId :=
  lines.flatMap fun line => if receivedRank line.1 = q then line.2.map peer else []

/-- Lines that can be sent. -/
def State.Lines (s : State) (ch : Channel) (lines : List (Rank × List ClientId)) : Prop :=
  ∀ line ∈ lines, line.2 ≠ [] ∧ (∀ who ∈ line.2, IsNick (s.client who).name) ∧
    (s.burstLine ch line.1 line.2).length ≤ 510

/-- The lines are read in order. -/
def State.readLines (t : State) (link : ClientId) (lines : List (List Char)) : State :=
  lines.foldl (fun t line => t.readSjoin link (putmsg line)) t

theorem Reading.run {t s : State} {ch : Channel} {link : ClientId} {peer : ClientId → ClientId}
    {lines : List (Rank × List ClientId)} (bursts : s.Bursts ch)
    (reading : Reading t ch.chname link s peer (lines.flatMap Prod.snd))
    (sendable : s.Lines ch lines) (key : ch.mode.key.head? ≠ some ':')
    (before : t.settings ch.chname = none ∨
      t.settings ch.chname = some (ch.channelts, noMode.merge ch.mode)) :
    (lines ≠ [] → (t.readLines link (lines.map fun line => s.burstLine ch line.1 line.2)).settings
      ch.chname = some (ch.channelts, noMode.merge ch.mode)) ∧
      ∀ q, (((t.readLines link (lines.map fun line => s.burstLine ch line.1 line.2)).roster
          ch.chname).getD (fun _ => []) q).Perm
        (receivedOn peer q lines ++ (t.roster ch.chname).getD (fun _ => []) q) := by
  induction lines generalizing t with
  | nil => exact ⟨fun none => absurd rfl none, fun q => List.Perm.refl _⟩
  | cons line lines ih =>
    obtain ⟨nonempty, nicks, fits⟩ := sendable line (by simp)
    have same : ∀ x, t.settings ch.chname = some x → x.1 = ch.channelts := by
      intro x there
      rcases before with absent | present
      · rw [absent] at there
        cases there
      · rw [present] at there
        cases there
        rfl
    obtain ⟨reading', settings, roster⟩ := reading.line line.1 bursts nonempty nicks fits key same
    rw [List.map_cons, State.readLines, List.foldl_cons, ← State.readLines]
    generalize t.readSjoin link (putmsg (s.burstLine ch line.1 line.2)) = t₁
      at reading' settings roster
    -- the first line settles the timestamp and the modes
    have settled : t₁.settings ch.chname = some (ch.channelts, noMode.merge ch.mode) := by
      rw [settings]
      rcases before with absent | present
      · rw [absent]
        rfl
      · have join : OldestWins.join Mode.merge (ch.channelts, noMode.merge ch.mode)
            (ch.channelts, ch.mode) = (ch.channelts, (noMode.merge ch.mode).merge ch.mode) :=
          OldestWins.join_of_eq Mode.merge rfl
        rw [present, arrive, join, merge_noMode_merge]
    obtain ⟨last, members⟩ := ih reading'
      (fun line' member => sendable line' (by simp [member])) (Or.inr settled)
    refine ⟨fun _ => ?_, fun q => (members q).trans ?_⟩
    · cases lines with
      | nil => exact settled
      | cons next lines => exact last (by simp)
    · rw [roster, Option.getD_some]
      have added := Lists.addAll_perm ((t.roster ch.chname).getD fun _ => []) (receivedRank line.1) q
        (line.2.map peer)
      refine (added.append_left (receivedOn peer q lines)).trans ?_
      rw [← List.append_assoc]
      refine List.Perm.append_right _ (List.perm_append_comm.trans ?_)
      unfold receivedOn
      rw [List.flatMap_cons]

/-- The lines of a burst: the members of each list, cut. -/
theorem State.tsBurstChannel_lines {s : State} {ch : Channel} (bursts : s.Bursts ch) :
    ∃ chunks : Rank → List (List ClientId), (∀ r, (chunks r).flatten = ch.members r) ∧
      s.Lines ch (Rank.all.flatMap fun r => (chunks r).map (Prod.mk r)) ∧
      s.tsBurstChannel ch true = (Rank.all.flatMap fun r => (chunks r).map (Prod.mk r)).map
        fun line => s.burstLine ch line.1 line.2 := by
  have header : (sjoinHeader s.meName ch.channelts ch.chname ch.mode.letters
      (ch.mode.params true)).length ≤ 331 := by
    have length := length_sjoinHeader s.meName ch.channelts ch.chname ch.mode.letters
      (ch.mode.params true)
    have name := bursts.short
    have chname := ch.chname_len
    have letters := ch.mode.length_letters_le
    have params := ch.mode.length_params_le true
    unfold hostLen at name
    unfold channelLen at chname
    omega
  have each : ∀ r, ∃ chunks : List (List ClientId), chunks.flatten = ch.members r ∧
      (∀ chunk ∈ chunks, chunk ≠ [] ∧ (s.burstLine ch r chunk).length ≤ 510) ∧
      s.sendMembers ch.mode.letters (ch.mode.params true) ch (ch.members r) (opFlagOf r) =
        chunks.map (s.burstLine ch r) := by
    intro r
    have flag : (opFlagOf r).length ≤ 2 := by cases r <;> decide
    have empty : nickText (opFlagOf r) (([] : List ClientId).map fun who => (s.client who).name) =
        [] := rfl
    obtain ⟨chunks, flat, lines, equal⟩ := sendLoop_lines header flag
      (fun who => (s.client who).name) (fun who => (s.client who).name_len) (ch.members r) []
      (by rw [empty, List.append_nil]; unfold bufSize; omega)
    exact ⟨chunks, flat, lines, equal⟩
  choose chunks flat lines equal using each
  refine ⟨chunks, flat, ?_, ?_⟩
  · intro line member
    obtain ⟨r, -, inside⟩ := List.mem_flatMap.mp member
    obtain ⟨chunk, listed, rfl⟩ := List.mem_map.mp inside
    obtain ⟨nonempty, fits⟩ := lines r chunk listed
    refine ⟨nonempty, fun who here => bursts.nicks r who ?_, fits⟩
    rw [← flat r]
    exact List.mem_flatten.mpr ⟨chunk, listed, here⟩
  · unfold State.tsBurstChannel
    rw [if_neg (by simp [bursts.sendable.hash])]
    have sent : ∀ r, s.sendMembers ch.mode.letters (ch.mode.params true) ch (ch.members r)
        (opFlagOf r) = ((chunks r).map (Prod.mk r)).map fun line => s.burstLine ch line.1 line.2 := by
      intro r
      rw [equal r, List.map_map]
      rfl
    simp only [Rank.all, List.flatMap_cons, List.flatMap_nil, List.append_nil, List.map_append,
      ← sent, opFlagOf, if_true, List.append_assoc]

/-- Lines with a key that begins with a colon are ignored. -/
private theorem readLines_colon {t s : State} {ch : Channel} {link : ClientId}
    {peer : ClientId → ClientId} {whos : List ClientId} (bursts : s.Bursts ch)
    (reading : Reading t ch.chname link s peer whos) {lines : List (Rank × List ClientId)}
    (sendable : s.Lines ch lines) (colon : ch.mode.key.head? = some ':') :
    t.readLines link (lines.map fun line => s.burstLine ch line.1 line.2) = t := by
  have key : ch.mode.key ≠ [] := by
    intro empty
    rw [empty] at colon
    cases colon
  have ignored : ∀ line ∈ lines,
      t.readSjoin link (putmsg (s.burstLine ch line.1 line.2)) = t := by
    intro line member
    obtain ⟨nonempty, -, fits⟩ := sendable line member
    rw [putmsg_burstLine nonempty fits]
    unfold State.readSjoin State.burstLine
    rw [parseLine_sjoin bursts.spaceless bursts.sendable]
    dsimp only
    rw [reading.sender bursts, if_pos colon]
    dsimp only
    rw [if_pos (IrcEq.refl _)]
    have none : sjoinHead t link ((t.client link).name ::
        ([printLu (ch.channelts % 2 ^ 64).toNat, ch.chname, ch.mode.letters] ++ ch.mode.limitArg ++
          [ch.mode.key.tail ++ ' ' :: ':' :: s.nicksOf line.1 line.2])) = none := by
      have four : [(t.client link).name, printLu (ch.channelts % 2 ^ 64).toNat, ch.chname,
          ch.mode.letters].length = 4 := rfl
      have modes := readModes_letters_none ch.mode four key
        (ch.mode.key.tail ++ ' ' :: ':' :: s.nicksOf line.1 line.2)
      unfold sjoinHead
      split
      · rfl
      · split
        · rfl
        · rw [List.append_assoc]
          exact congrArg _ modes
    unfold State.msSjoin
    rw [none]
    rfl
  unfold State.readLines
  induction lines with
  | nil => rfl
  | cons line lines ih =>
    rw [List.map_cons, List.foldl_cons, ignored line (by simp)]
    exact ih (fun l member => sendable l (by simp [member]))
      fun l member => ignored l (by simp [member])

private theorem receivedOn_chunks {ch : Channel} (peer : ClientId → ClientId)
    {chunks : Rank → List (List ClientId)} (flat : ∀ r, (chunks r).flatten = ch.members r)
    (q : Rank) :
    receivedOn peer q (Rank.all.flatMap fun r => (chunks r).map (Prod.mk r)) =
      Rank.all.flatMap fun r => if receivedRank r = q then (ch.members r).map peer else [] := by
  have each : ∀ r, ((chunks r).map (Prod.mk r)).flatMap (fun line =>
      if receivedRank line.1 = q then line.2.map peer else []) =
        if receivedRank r = q then (ch.members r).map peer else [] := by
    intro r
    rw [← flat r, List.flatMap_map]
    by_cases here : receivedRank r = q
    · simp only [here, if_true]
      rw [List.flatMap_def, List.map_flatten]
    · simp [here]
  unfold receivedOn
  rw [List.flatMap_assoc]
  simp only [each]

/-- The channel has the timestamp and the modes, and every member is on its list. -/
def RoundTrip (ch : Channel) (peer : ClientId → ClientId) (t : State) : Prop :=
  t.settings ch.chname = some (ch.channelts, ch.mode) ∧
    ∀ r, ((t.roster ch.chname).getD (fun _ => []) r).Perm ((ch.members r).map peer)

/-- A burst brings the channel over as it is exactly when nobody in it is an op with voice,
somebody is in it, the limit is not negative, and the key does not begin with a colon. -/
theorem roundTrip_iff {s t : State} {ch : Channel} {link : ClientId} {peer : ClientId → ClientId}
    (bursts : s.Bursts ch)
    (reading : Reading t ch.chname link s peer (Rank.all.flatMap ch.members))
    (absent : t.hashFindChannel ch.chname = none) :
    RoundTrip ch peer (t.readLines link (s.tsBurstChannel ch true)) ↔
      ch.members .chanopVoiced = [] ∧ (∃ r, ch.members r ≠ []) ∧ 0 ≤ ch.mode.limit ∧
        ch.mode.key.head? ≠ some ':' := by
  obtain ⟨chunks, flat, lines, equal⟩ := State.tsBurstChannel_lines bursts
  have before : t.settings ch.chname = none := by rw [State.settings, absent]; rfl
  have roster : (t.roster ch.chname).getD (fun _ => []) = fun _ => [] := by
    rw [State.roster, absent]
    rfl
  have all : (Rank.all.flatMap fun r => (chunks r).map (Prod.mk r)).flatMap Prod.snd =
      Rank.all.flatMap ch.members := by
    rw [List.flatMap_assoc]
    congr 1
    funext r
    rw [← flat r, List.flatMap_map]
    exact List.flatMap_id
  have received := receivedOn_chunks peer flat
  rw [equal]
  generalize Rank.all.flatMap (fun r => (chunks r).map (Prod.mk r)) = sent at lines all received
  rw [← all] at reading
  by_cases colon : ch.mode.key.head? = some ':'
  · refine iff_of_false (fun same => ?_) fun right => right.2.2.2 colon
    rw [readLines_colon bursts reading lines colon, RoundTrip, before] at same
    cases same.1
  · obtain ⟨settings, members⟩ := reading.run bursts lines colon (Or.inl before)
    have peers : ∀ q, (((t.readLines link (sent.map fun line =>
        s.burstLine ch line.1 line.2)).roster ch.chname).getD (fun _ => []) q).Perm
        (Rank.all.flatMap fun r => if receivedRank r = q then (ch.members r).map peer else []) := by
      intro q
      rw [← received q]
      simpa [roster] using members q
    have some_iff : sent ≠ [] ↔ ∃ r, ch.members r ≠ [] := by
      constructor
      · intro nonempty
        obtain ⟨line, member⟩ := List.exists_mem_of_ne_nil sent nonempty
        obtain ⟨who, inside⟩ := List.exists_mem_of_ne_nil line.2 (lines line member).1
        have listed : who ∈ sent.flatMap Prod.snd := List.mem_flatMap.mpr ⟨line, member, inside⟩
        rw [all] at listed
        obtain ⟨r, -, here⟩ := List.mem_flatMap.mp listed
        exact ⟨r, List.ne_nil_of_mem here⟩
      · rintro ⟨r, nonempty⟩ rfl
        obtain ⟨who, here⟩ := List.exists_mem_of_ne_nil _ nonempty
        have listed : who ∈ Rank.all.flatMap ch.members :=
          List.mem_flatMap.mpr ⟨r, Rank.mem_all r, here⟩
        rw [← all] at listed
        cases listed
    constructor
    · rintro ⟨same, ranks⟩
      have nonempty : sent ≠ [] := by
        rintro rfl
        rw [List.map_nil] at same
        exact absurd (before.symm.trans same) (by simp)
      rw [settings nonempty] at same
      refine ⟨?_, some_iff.mp nonempty, ?_, colon⟩
      · have none := (peers .chanopVoiced).symm.trans (ranks .chanopVoiced)
        simpa [Rank.all, receivedRank] using none.symm
      · exact (Mode.noMode_merge ch.mode).mp (congrArg Prod.snd (Option.some.inj same))
    · rintro ⟨none, member, positive, -⟩
      refine ⟨?_, fun q => (peers q).trans ?_⟩
      · rw [settings (some_iff.mpr member), (Mode.noMode_merge ch.mode).mpr positive]
      · cases q <;> simp [Rank.all, receivedRank, none]

/-- The server `s` itself, with the people it has introduced. -/
def smallSender : State := { smallNetwork with meName := ['s'] }

/-- The channel `#c` with these members. -/
def smallChannel (members : Rank → List ClientId) : Channel :=
  { emptyChannel ['#', 'c'] 5 with members := members }

theorem smallSender_bursts {members : Rank → List ClientId} (known : ∀ r, ∀ who ∈ members r, who = 1) :
    smallSender.Bursts (smallChannel members) where
  sendable :=
    ⟨(by decide : (1 : ℤ) ≤ 5 ∧ (5 : ℤ) ≤ 4294967295), rfl,
      (by decide : ['#', 'c'].all isChanChar = true), List.not_mem_nil⟩
  nicks r who member := by
    obtain rfl := known r who member
    exact ⟨by decide, by decide, by decide⟩
  spaceless := by decide
  named := by decide
  short := by decide

theorem smallNetwork_reading : Reading smallNetwork ['#', 'c'] 0 smallSender id [1] where
  ready := smallNetwork_ready _
  server := by decide +kernel
  known := by
    simp only [List.mem_singleton, forall_eq]
    decide +kernel
  fresh := by simp [smallNetwork, State.hashFindChannel]
  apart := by decide

theorem roundTrip_iff_op :
    RoundTrip (smallChannel fun | .chanop => [1] | _ => []) id (smallNetwork.readLines 0
      (smallSender.tsBurstChannel (smallChannel fun | .chanop => [1] | _ => []) true)) ↔
      ([] : List ClientId) = [] ∧ (∃ r, (smallChannel fun | .chanop => [1] | _ => []).members r ≠ []) ∧
        (0 : ℤ) ≤ 0 ∧ ([] : List Char).head? ≠ some ':' :=
  roundTrip_iff (smallSender_bursts (by intro r; cases r <;> simp)) smallNetwork_reading rfl

/-- An op with voice arrives as a peon. -/
theorem voiced_op_demoted :
    smallSender.Bursts (smallChannel fun | .chanopVoiced => [1] | _ => []) ∧
      Reading smallNetwork ['#', 'c'] 0 smallSender id [1] ∧
      ((smallNetwork.readLines 0 (smallSender.tsBurstChannel
        (smallChannel fun | .chanopVoiced => [1] | _ => []) true)).roster ['#', 'c']).map
          (fun lists => Rank.all.map lists) = some [[], [], [], [], [1]] ∧
      ¬ RoundTrip (smallChannel fun | .chanopVoiced => [1] | _ => []) id (smallNetwork.readLines 0
        (smallSender.tsBurstChannel (smallChannel fun | .chanopVoiced => [1] | _ => []) true)) := by
  have received : ((smallNetwork.readLines 0 (smallSender.tsBurstChannel
      (smallChannel fun | .chanopVoiced => [1] | _ => []) true)).roster ['#', 'c']).map
        (fun lists => Rank.all.map lists) = some [[], [], [], [], [1]] := by
    decide +kernel
  refine ⟨smallSender_bursts (by intro r; cases r <;> simp), smallNetwork_reading, received, ?_⟩
  rintro ⟨-, ranks⟩
  obtain ⟨lists, there, equal⟩ := Option.map_eq_some_iff.mp received
  have voicedOps := ranks .chanopVoiced
  change (((smallNetwork.readLines 0 (smallSender.tsBurstChannel
    (smallChannel fun | .chanopVoiced => [1] | _ => []) true)).roster ['#', 'c']).getD
      (fun _ => []) .chanopVoiced).Perm [1] at voicedOps
  rw [there, Option.getD_some] at voicedOps
  simp only [Rank.all, List.map_cons, List.map_nil, List.cons.injEq] at equal
  rw [equal.2.1] at voicedOps
  exact absurd voicedOps.length_eq (by decide)

end Ircd.Chan
