import Ircd.Channel.SjoinSteps

/-!
# The nicks that SJOIN passes on

`ms_sjoin` fills the nick lists for the other servers ahead of its checks. Here the lists are
compared with the nicks it takes as members.
-/
namespace Ircd.Chan

/-- What is fixed when the loop over the nicks begins. -/
structure SjoinStart where
  state : State
  head : SjoinHead
  chptr : ChannelId
  top : Option ChannelId
  verdict : Verdict

/-- `ms_sjoin` up to the loop over the nicks. -/
def State.sjoinStart (s : State) (source : ClientId) (parv : List (List Char)) :
    Option SjoinStart :=
  match sjoinHead s source parv with
  | none => none
  | some head =>
    match s.getOrCreateChannel head.chname with
    | none => none
    | some (s₁, chptr, isnew) =>
      let (s₂, top) := s₁.linkVchan chptr (head.chname.take channelLen) head.newts
      let ch := s₂.channel chptr
      (tsRules isnew ch.users head.nicks head.newts ch.channelts).map fun verdict =>
        ⟨s₂.setChannel chptr (ch.judged verdict head.mode), head, chptr, top, verdict⟩

/-- The header of the lines for other servers. -/
def SjoinStart.header (start : SjoinStart) (source : ClientId) (parv : List (List Char)) :
    List Char :=
  start.state.relayHeader source start.chptr parv (start.head.chname.take channelLen) start.verdict

/-- The nicks of the loop that are counted as people. -/
def takenNicks (clientP : ClientId) (chptr : ChannelId) (top : Option ChannelId)
    (keepNewModes : Bool) : NickLoop → List (List Char) → List (List Char)
  | _, [] => []
  | l, nick :: nicks =>
    let l' := nickStep clientP chptr top keepNewModes l nick
    (if l'.people = l.people then [] else [nick]) ++
      takenNicks clientP chptr top keepNewModes l' nicks

def SjoinStart.taken (start : SjoinStart) (clientP : ClientId) : List (List Char) :=
  takenNicks clientP start.chptr start.top start.verdict.keepNewModes ⟨start.state, [], [], 0, []⟩
    (sjoinNicks start.head.nicks)

def isPrefixChar (c : Char) : Bool := c == '@' || c == '+' || c == '%'

/-- The prefix a nick arrives with: two characters at most. -/
def nickPrefix (nick : List Char) : List Char := (nick.take 2).takeWhile isPrefixChar

/-- A member as a server with or without `CAP_HOPS` should be told it. -/
def shownNick (hops keepNewModes : Bool) (nick : List Char) : List Char :=
  (if keepNewModes then
    (nickPrefix nick).map fun c => if c = '%' ∧ hops = false then '@' else c
  else []) ++ nick.drop (nickPrefix nick).length ++ [' ']

/-- The line other servers should get: the members that have been taken, in order. -/
def SjoinStart.relayText (start : SjoinStart) (clientP source : ClientId) (parv : List (List Char))
    (hops : Bool) : List Char :=
  start.header source parv ++ [' '] ++
    (start.taken clientP).flatMap (shownNick hops start.verdict.keepNewModes)

/-- The nick, less its prefix, is that of a known client. -/
def State.knowsNick (s : State) (nick : List Char) : Bool :=
  (s.findClient (readPrefixes true nick).nick).isSome

/-! ### The prefix of a nick -/

/-- A round that finds a prefix takes one character over; otherwise it does nothing. -/
theorem readPrefix_cases (keepNewModes : Bool) (p : Prefixed) :
    (∃ c nick, isPrefixChar c = true ∧ p.nick = c :: nick ∧
      (readPrefix keepNewModes p).nick = nick ∧
      (readPrefix keepNewModes p).hops = (if keepNewModes then p.hops ++ [c] else p.hops) ∧
      (readPrefix keepNewModes p).nhops =
        (if keepNewModes then p.nhops ++ [if c = '%' then '@' else c] else p.nhops)) ∨
    (p.nick.head?.all fun c => !isPrefixChar c) = true ∧ readPrefix keepNewModes p = p := by
  unfold readPrefix
  split
  · rename_i nick shape
    exact Or.inl ⟨'@', nick, rfl, shape, rfl, rfl, rfl⟩
  · rename_i nick shape
    exact Or.inl ⟨'+', nick, rfl, shape, rfl, rfl, rfl⟩
  · rename_i nick shape
    exact Or.inl ⟨'%', nick, rfl, shape, rfl, rfl, rfl⟩
  · rename_i noOp noVoice noHalfop
    refine Or.inr ⟨?_, rfl⟩
    cases shape : p.nick with
    | nil => rfl
    | cons c nick =>
      have op : c ≠ '@' := fun equal => noOp nick (equal ▸ shape)
      have voice : c ≠ '+' := fun equal => noVoice nick (equal ▸ shape)
      have halfop : c ≠ '%' := fun equal => noHalfop nick (equal ▸ shape)
      simp [isPrefixChar, op, voice, halfop]

/-- What a nick has in the two lists is what servers should be told. -/
theorem readPrefixes_shown (keepNewModes : Bool) (nick : List Char) :
    (readPrefixes keepNewModes nick).hops ++ (readPrefixes keepNewModes nick).nick ++ [' '] =
        shownNick true keepNewModes nick ∧
      (readPrefixes keepNewModes nick).nhops ++ (readPrefixes keepNewModes nick).nick ++ [' '] =
        shownNick false keepNewModes nick := by
  unfold readPrefixes
  rcases readPrefix_cases keepNewModes ⟨0, [], [], nick⟩ with
    ⟨c, rest, isPrefix, shape, nick₁, hops₁, nhops₁⟩ | ⟨noPrefix, same⟩
  · rcases readPrefix_cases keepNewModes (readPrefix keepNewModes ⟨0, [], [], nick⟩) with
      ⟨d, rest', isPrefix', shape', nick₂, hops₂, nhops₂⟩ | ⟨noPrefix', same'⟩
    · rw [nick₁] at shape'
      obtain rfl : nick = c :: d :: rest' := by rw [← shape']; exact shape
      rw [nick₂, hops₂, nhops₂, hops₁, nhops₁]
      cases keepNewModes <;> simp [shownNick, nickPrefix, isPrefix, isPrefix']
    · rw [nick₁] at noPrefix'
      obtain rfl : nick = c :: rest := shape
      rw [same', nick₁, hops₁, nhops₁]
      cases rest with
      | nil => cases keepNewModes <;> simp [shownNick, nickPrefix, isPrefix]
      | cons d rest =>
        have isNot : isPrefixChar d = false := by simpa using noPrefix'
        cases keepNewModes <;> simp [shownNick, nickPrefix, isPrefix, isNot]
  · rw [same, same]
    cases nick with
    | nil => simp [shownNick, nickPrefix]
    | cons c rest =>
      have isNot : isPrefixChar c = false := by simpa using noPrefix
      simp [shownNick, nickPrefix, isNot]

theorem shownNick_ne_nil (hops keepNewModes : Bool) (nick : List Char) :
    shownNick hops keepNewModes nick ≠ [] := by
  simp [shownNick]

/-! ### The loop -/

theorem State.Joins.knowsNick {chptr : ChannelId} {s s' : State} (joins : State.Joins chptr s s')
    (nick : List Char) : s'.knowsNick nick = s.knowsNick nick := by
  unfold State.knowsNick
  rw [joins.findClient]

/-- A nick goes to both lists if it is known. -/
private theorem nickStep_lists (clientP : ClientId) (chptr : ChannelId) (top : Option ChannelId)
    (keepNewModes : Bool) (l : NickLoop) (nick : List Char) :
    (nickStep clientP chptr top keepNewModes l nick).hops =
        l.hops ++ (if l.state.knowsNick nick then shownNick true keepNewModes nick else []) ∧
      (nickStep clientP chptr top keepNewModes l nick).nhops =
        l.nhops ++ if l.state.knowsNick nick then shownNick false keepNewModes nick else [] := by
  obtain ⟨hops, nhops⟩ := readPrefixes_shown keepNewModes nick
  unfold nickStep State.knowsNick
  rw [← hops, ← nhops]
  simp only [readPrefixes_nick keepNewModes]
  cases found : l.state.findClient (readPrefixes true nick).nick with
  | none => simp
  | some target =>
    simp only [takeNick, Option.isSome_some, if_true]
    split <;> simp [List.append_assoc]

/-- The loop keeps to the clients of the state it begins with. -/
theorem nickLoop_lists (clientP : ClientId) (chptr : ChannelId) (top : Option ChannelId)
    (keepNewModes : Bool) (nicks : List (List Char)) (l : NickLoop) :
    let l' := nicks.foldl (nickStep clientP chptr top keepNewModes) l
    l'.hops = l.hops ++ (nicks.filter l.state.knowsNick).flatMap (shownNick true keepNewModes) ∧
      l'.nhops = l.nhops ++ (nicks.filter l.state.knowsNick).flatMap (shownNick false keepNewModes) ∧
      takenNicks clientP chptr top keepNewModes l nicks = nicks.filter (l.state.acceptsNick clientP) := by
  induction nicks generalizing l with
  | nil => simp [takenNicks]
  | cons nick nicks ih =>
    have round := nickLoop_round clientP chptr top keepNewModes [nick] l
    rw [List.foldl_cons, List.foldl_nil] at round
    obtain ⟨hops, nhops⟩ := nickStep_lists clientP chptr top keepNewModes l nick
    obtain ⟨hops', nhops', taken'⟩ := ih (nickStep clientP chptr top keepNewModes l nick)
    rw [funext round.joins.knowsNick, hops] at hops'
    rw [funext round.joins.knowsNick, nhops] at nhops'
    rw [funext (round.joins.acceptsNick clientP)] at taken'
    have people := round.people
    rw [List.countP_singleton] at people
    refine ⟨?_, ?_, ?_⟩
    · rw [List.foldl_cons, hops', List.filter_cons]
      split <;> simp
    · rw [List.foldl_cons, nhops', List.filter_cons]
      split <;> simp
    · rw [takenNicks, taken', List.filter_cons, people]
      split <;> simp

/-- Two selections of the nicks give one text only if they select the same nicks. -/
private theorem flatMap_filter_eq_iff {f : List Char → List Char} (nonempty : ∀ nick, f nick ≠ [])
    {p q : List Char → Bool} (weaker : ∀ nick, q nick = true → p nick = true)
    (nicks : List (List Char)) :
    (nicks.filter p).flatMap f = (nicks.filter q).flatMap f ↔
      ∀ nick ∈ nicks, p nick = true → q nick = true := by
  have least : ∀ list : List (List Char),
      ((list.filter q).flatMap f).length ≤ ((list.filter p).flatMap f).length := by
    intro list
    induction list with
    | nil => exact le_rfl
    | cons nick list ih =>
      cases inQ : q nick with
      | true => simpa [List.filter_cons, inQ, weaker nick inQ] using ih
      | false =>
        cases inP : p nick with
        | true =>
          simp only [List.filter_cons, inQ, inP, Bool.false_eq_true, if_false, if_true,
            List.flatMap_cons, List.length_append]
          omega
        | false => simpa [List.filter_cons, inQ, inP] using ih
  constructor
  · intro same
    induction nicks with
    | nil => exact fun nick member => absurd member List.not_mem_nil
    | cons nick nicks ih =>
      intro other member inP
      cases inQ : q nick with
      | true =>
        rcases List.mem_cons.mp member with rfl | later
        · exact inQ
        · refine ih ?_ other later inP
          simpa [List.filter_cons, inQ, weaker nick inQ] using same
      | false =>
        cases first : p nick with
        | true =>
          -- the text of this nick is more than there is room for
          have length := congrArg List.length same
          simp only [List.filter_cons, inQ, first, Bool.false_eq_true, if_false, if_true,
            List.flatMap_cons, List.length_append] at length
          have some := List.length_pos_of_ne_nil (nonempty nick)
          have := least nicks
          omega
        | false =>
          rcases List.mem_cons.mp member with rfl | later
          · rw [first] at inP
            cases inP
          · refine ih ?_ other later inP
            simpa [List.filter_cons, inQ, first] using same
  · intro all
    congr 1
    apply List.filter_congr
    intro nick member
    exact Bool.eq_iff_iff.mpr ⟨all nick member, weaker nick⟩

/-! ### The message -/

/-- A message that is relayed has come to the loop over its nicks. -/
theorem State.msSjoin_start {s : State} {clientP source : ClientId} {parv : List (List Char)}
    {hops nhops : List Char}
    (relayed : (s.msSjoin clientP source parv).relay = some (hops, nhops)) :
    ∃ start, s.sjoinStart source parv = some start ∧
      s.msSjoin clientP source parv = start.state.sjoinMembers clientP source parv start.head
        start.chptr start.top start.verdict := by
  unfold State.sjoinStart
  unfold State.msSjoin at relayed ⊢
  cases read : sjoinHead s source parv with
  | none =>
    rw [read] at relayed
    cases relayed
  | some head =>
    simp only [read] at relayed ⊢
    cases got : s.getOrCreateChannel head.chname with
    | none =>
      rw [got] at relayed
      cases relayed
    | some result =>
      obtain ⟨s₁, chptr, isnew⟩ := result
      simp only [got] at relayed ⊢
      generalize s₁.linkVchan chptr (head.chname.take channelLen) head.newts = linked at relayed ⊢
      obtain ⟨s₂, top⟩ := linked
      dsimp only at relayed ⊢
      cases rules : tsRules isnew (s₂.channel chptr).users head.nicks head.newts
          (s₂.channel chptr).channelts with
      | none =>
        rw [rules] at relayed
        cases relayed
      | some verdict => exact ⟨_, rfl, rfl⟩

/-- The stages behind the start of the loop. -/
theorem State.sjoinStart_entered {s : State} {source : ClientId} {parv : List (List Char)} {start : SjoinStart}
    (started : s.sjoinStart source parv = some start) :
    ∃ s₂ isnew, Entered s start.head s₂ start.chptr start.top isnew ∧
      tsRules isnew (s₂.channel start.chptr).users start.head.nicks start.head.newts
        (s₂.channel start.chptr).channelts = some start.verdict ∧
      start.state = s₂.setChannel start.chptr ((s₂.channel start.chptr).judged start.verdict start.head.mode) := by
  unfold State.sjoinStart at started
  cases read : sjoinHead s source parv with
  | none =>
    rw [read] at started
    cases started
  | some head =>
    simp only [read] at started
    cases got : s.getOrCreateChannel head.chname with
    | none =>
      rw [got] at started
      cases started
    | some result =>
      obtain ⟨s₁, chptr, isnew⟩ := result
      simp only [got] at started
      obtain ⟨verdict, rules, rfl⟩ := Option.map_eq_some_iff.mp started
      obtain ⟨-, hash, name, -⟩ := sjoinHead_some read
      exact ⟨_, isnew, ⟨⟨s₁, got, rfl⟩, name ▸ hash⟩, rules, rfl⟩

/-- The clients are those there were before the message. -/
theorem State.sjoinStart_clients {s : State} {source : ClientId} {parv : List (List Char)}
    {start : SjoinStart} (started : s.sjoinStart source parv = some start) :
    start.state.client = s.client ∧ start.state.clientTable = s.clientTable := by
  unfold State.sjoinStart at started
  cases read : sjoinHead s source parv with
  | none =>
    rw [read] at started
    cases started
  | some head =>
    simp only [read] at started
    cases got : s.getOrCreateChannel head.chname with
    | none =>
      rw [got] at started
      cases started
    | some result =>
      obtain ⟨s₁, chptr, isnew⟩ := result
      simp only [got] at started
      obtain ⟨verdict, -, rfl⟩ := Option.map_eq_some_iff.mp started
      have created : s₁.client = s.client ∧ s₁.clientTable = s.clientTable := by
        rcases State.getOrCreateChannel_cases got with ⟨-, rfl, -⟩ | ⟨-, -, -, rfl⟩ <;>
          exact ⟨rfl, rfl⟩
      have hash : (head.chname.take channelLen).head? = some '#' := by
        obtain ⟨-, hash, name, -⟩ := sjoinHead_some read
        rw [← name] at hash
        rw [List.head?_take, if_neg (by decide), hash]
      have linked := s₁.linked_linkVchan chptr head.newts hash (List.length_take_le _ _)
      exact ⟨by rw [State.setChannel_client, linked.same, created.1], by
        change (s₁.linkVchan chptr (head.chname.take channelLen) head.newts).1.clientTable = _
        rw [linked.same, created.2]⟩

/-- Other servers are told exactly the members that have been taken if and only if every known
client the message names is a person behind the link it came over. -/
theorem relay_taken_iff {s : State} {clientP source : ClientId} {parv : List (List Char)}
    {start : SjoinStart} (started : s.sjoinStart source parv = some start)
    {hops nhops : List Char}
    (relayed : (s.msSjoin clientP source parv).relay = some (hops, nhops)) :
    hops = start.relayText clientP source parv true ∧
        nhops = start.relayText clientP source parv false ↔
      ∀ nick ∈ sjoinNicks start.head.nicks,
        s.knowsNick nick = true → s.acceptsNick clientP nick = true := by
  obtain ⟨start', started', run⟩ := State.msSjoin_start relayed
  obtain rfl : start' = start := Option.some.inj (started'.symm.trans started)
  obtain ⟨client, table⟩ := State.sjoinStart_clients started
  have knows : start'.state.knowsNick = s.knowsNick := by
    funext nick
    unfold State.knowsNick State.findClient
    rw [client, table]
  have accepts : start'.state.acceptsNick clientP = s.acceptsNick clientP := by
    funext nick
    unfold State.acceptsNick State.findClient State.accepts
    rw [client, table]
  obtain ⟨hopsList, nhopsList, taken⟩ := nickLoop_lists clientP start'.chptr start'.top
    start'.verdict.keepNewModes (sjoinNicks start'.head.nicks) ⟨start'.state, [], [], 0, []⟩
  rw [run] at relayed
  unfold State.sjoinMembers at relayed
  dsimp only at relayed hopsList nhopsList taken
  split at relayed
  · cases relayed
  · split at relayed
    · cases relayed
    · obtain ⟨rfl, rfl⟩ := Prod.mk.inj (Option.some.inj relayed)
      have weaker : ∀ nick, s.acceptsNick clientP nick = true → s.knowsNick nick = true := by
        intro nick accepted
        unfold State.acceptsNick at accepted
        unfold State.knowsNick
        cases found : s.findClient (readPrefixes true nick).nick with
        | none =>
          rw [found] at accepted
          cases accepted
        | some target => rfl
      have lists : start'.taken clientP =
          (sjoinNicks start'.head.nicks).filter (s.acceptsNick clientP) := by
        rw [← accepts]
        exact taken
      rw [hopsList, nhopsList, SjoinStart.relayText, SjoinStart.relayText, lists, knows]
      simp only [SjoinStart.header, List.nil_append, List.append_cancel_left_eq]
      rw [flatMap_filter_eq_iff (shownNick_ne_nil _ _) weaker,
        flatMap_filter_eq_iff (shownNick_ne_nil _ _) weaker, and_self]

/-- A SJOIN from server `s` for `#x`. -/
def joinLine (nicks : List Char) : List (List Char) := [['s'], ['5'], ['#', 'x'], ['+'], nicks]

/-- What other servers get for it. -/
def joinRelay (nicks : List Char) : List Char :=
  sjoinHeader ['s'] 5 ['#', 'x'] ['+'] [] ++ [' '] ++ nicks

theorem relay_taken_iff_both :
    ∃ start hops nhops, smallNetwork.sjoinStart 0 (joinLine ['@', 'a', ' ', 'b']) = some start ∧
      hops = start.relayText 0 0 (joinLine ['@', 'a', ' ', 'b']) true ∧
        nhops = start.relayText 0 0 (joinLine ['@', 'a', ' ', 'b']) false := by
  have relayed : (smallNetwork.msSjoin 0 0 (joinLine ['@', 'a', ' ', 'b'])).relay =
      some (joinRelay ['@', 'a', ' ', 'b', ' '], joinRelay ['@', 'a', ' ', 'b', ' ']) := by
    decide +kernel
  obtain ⟨start, started, -⟩ := State.msSjoin_start relayed
  refine ⟨start, _, _, started, (relay_taken_iff started relayed).mpr fun nick member _ => ?_⟩
  have nicks : (smallNetwork.sjoinStart 0 (joinLine ['@', 'a', ' ', 'b'])).map
      (fun start => start.head.nicks) = some ['@', 'a', ' ', 'b'] := by decide +kernel
  rw [started] at nicks
  rw [show start.head.nicks = ['@', 'a', ' ', 'b'] from Option.some.inj nicks] at member
  have all : ∀ nick ∈ sjoinNicks ['@', 'a', ' ', 'b'], smallNetwork.acceptsNick 0 nick = true := by
    decide +kernel
  exact all nick member

/-- `c` is a client of this server. It does not join when a server says so, yet the others are
told. -/
theorem stray_nick_relayed :
    (smallNetwork.msSjoin 0 0 (joinLine ['@', 'a', ' ', 'c'])).relay.map Prod.fst =
        some (joinRelay ['@', 'a', ' ', 'c', ' ']) ∧
      (smallNetwork.sjoinStart 0 (joinLine ['@', 'a', ' ', 'c'])).map
          (fun start => start.relayText 0 0 (joinLine ['@', 'a', ' ', 'c']) true) =
        some (joinRelay ['@', 'a', ' ']) := by
  decide +kernel

end Ircd.Chan
