import Ircd.Wire
import Ircd.Channel.Vchan
import Ircd.Numbers

/-!
# Topics

`m_topic` and `ms_topic` of `modules/m_topic.c`, the topic line of `ts_burst_channel`, and what
becomes of the topics when two servers link. The replies to clients are left out.
-/
namespace Ircd.Chan

def topicLen : ℕ := 120

/-- `USERHOST_REPLYLEN`, where `NICKLEN` is the text `9+1`. -/
def userhostReplyLen : ℕ := 9 + 1 + hostLen + userLen + 5

/-- The text, who set it and when. -/
structure Topic where
  topic : List Char
  info : List Char
  time : ℤ
  topic_len : topic.length ≤ topicLen
  info_len : info.length < userhostReplyLen
deriving DecidableEq

/-- What `strlcpy` leaves in the two arrays. -/
def Topic.of (topic info : List Char) (time : ℤ) : Topic where
  topic := topic.take topicLen
  info := info.take (userhostReplyLen - 1)
  time := time
  topic_len := List.length_take_le _ _
  info_len := by rw [List.length_take]; unfold userhostReplyLen hostLen userLen; omega

def noTopic : Topic := .of [] [] 0

/-- A topic is there if its text is. -/
def Topic.shown (t : Topic) : Option (List Char × List Char × ℤ) :=
  if t.topic = [] then none else some (t.topic, t.info, t.time)

/-- A server and the topics of its channels. -/
structure TopicState where
  server : State
  topic : ChannelId → Topic

def TopicState.setTopic (s : TopicState) (chptr : ChannelId) (t : Topic) : TopicState :=
  { s with topic := Function.update s.topic chptr t }

/-- `IsChannelName`. -/
def isChannelName (name : List Char) : Bool := name.head? = some '#' || name.head? = some '&'

/-- The channel `m_topic` works on when a client names `name`. -/
def State.topicChannel (s : State) (source : ClientId) (name : List Char) : Option ChannelId :=
  if isChannelName name then
    (s.hashFindChannel name).map fun chptr =>
      if (s.channel chptr).hasVchans then (s.mapVchan chptr source).getD chptr else chptr
  else none

/-- `m_topic`, as far as it sets topics. -/
def TopicState.mTopic (s : TopicState) (source : ClientId) (parv : List (List Char)) : TopicState :=
  match s.server.topicChannel source ((param parv 1).takeWhile (· != ',')) with
  | none => s
  | some chptr =>
    let ch := s.server.channel chptr
    if 2 < parv.length ∧ s.server.isMember source chptr = true ∧
        (SimpleMode.topicLimit ∉ ch.mode.mode ∨ ch.isAnyOp source = true) then
      let client := s.server.client source
      s.setTopic chptr (.of (param parv 2)
        (client.name ++ ['!'] ++ client.username ++ ['@'] ++ client.host) s.server.currentTime)
    else s

/-- `ms_topic`. Servers always set a topic, with its setter and its time. -/
def TopicState.msTopic (s : TopicState) (source : ClientId) (parv : List (List Char)) : TopicState :=
  if (s.server.client source).status ≠ .server then s.mTopic source parv
  else if parv.length < 5 then s
  else if isChannelName (param parv 1) then
    match s.server.hashFindChannel (param parv 1) with
    | none => s
    | some chptr => s.setTopic chptr (.of (param parv 4) (param parv 2) (atoi (param parv 3)))
  else s

/-- A line over a link, if it is a TOPIC. -/
def TopicState.readTopic (s : TopicState) (clientP : ClientId) (line : List Char) : TopicState :=
  match parseLine line with
  | none => s
  | some parsed =>
    match s.server.sender clientP parsed.sender with
    | none => s
    | some source =>
      if IrcEq parsed.command ['T', 'O', 'P', 'I', 'C'] then
        s.msTopic source ((s.server.client source).name :: parsed.params)
      else s

/-- The topic line of `ts_burst_channel`, `":%s TOPIC %s %lu :%s"`. It has the setter where the
name of the channel is read. -/
def TopicState.burstTopic (s : TopicState) (chptr : ChannelId) : Option (List Char) :=
  let t := s.topic chptr
  if (s.server.channel chptr).chname.head? ≠ some '#' ∨ t.topic = [] then none
  else some ([':'] ++ s.server.meName ++ [' '] ++ (['T', 'O', 'P', 'I', 'C'] ++ [' '] ++
    (t.info ++ [' '] ++ (printLu (t.time % 2 ^ 64).toNat ++ [' ', ':'] ++ t.topic))))

/-! ### Two servers -/

/-- Two servers at the two ends of a link, with what each calls the link and the channel, and the
topic lines that are under way. -/
structure TopicLink where
  a : TopicState
  b : TopicState
  linkA : ClientId
  linkB : ClientId
  chanA : ChannelId
  chanB : ChannelId
  toA : List (List Char)
  toB : List (List Char)

/-- A server sends its topic, or handles the next line that has come. -/
inductive TopicStep where
  | sendA
  | sendB
  | handleA
  | handleB
deriving DecidableEq

def TopicLink.step (n : TopicLink) : TopicStep → TopicLink
  | .sendA => { n with toB := n.toB ++ (n.a.burstTopic n.chanA).toList }
  | .sendB => { n with toA := n.toA ++ (n.b.burstTopic n.chanB).toList }
  | .handleA =>
    match n.toA with
    | [] => n
    | line :: rest => { n with a := n.a.readTopic n.linkA (putmsg line), toA := rest }
  | .handleB =>
    match n.toB with
    | [] => n
    | line :: rest => { n with b := n.b.readTopic n.linkB (putmsg line), toB := rest }

/-- Both hold the same topic, or none. -/
def TopicLink.Agree (n : TopicLink) : Prop :=
  (n.a.topic n.chanA).shown = (n.b.topic n.chanB).shown

instance (n : TopicLink) : Decidable n.Agree := inferInstanceAs (Decidable (_ = _))

/-! ### The topic line is not understood -/

/-- What a server relies on when it reads the other's lines over a link: names fit their arrays,
and the sender is a server. -/
structure TopicState.Knows (s : TopicState) (link : ClientId) (other : TopicState) : Prop where
  name_len : other.server.meName.length ≤ hostLen
  name_noSpace : ' ' ∉ other.server.meName
  server : ∀ who, s.server.sender link other.server.meName = some who →
    (s.server.client who).status = .server

/-- `%lu`, and the last parameter behind it, are two parameters at most. -/
private theorem length_params_time (time : ℕ) (text : List Char) (n : ℕ) :
    (paramLoop n (skipSpaces (printLu time ++ ' ' :: ':' :: text))).length ≤ 2 := by
  have last : ∀ m, (paramLoop m (skipSpaces (':' :: text))).length ≤ 1 := by
    intro m
    rw [skipSpaces_cons_of_ne (by decide)]
    exact length_paramLoop_colon m text
  obtain ⟨digits, allDigits, split⟩ := printLu_split time
  have noSpace : ' ' ∉ digits := fun space => absurd (allDigits.2 ' ' space) (by decide)
  have first : ∀ c rest, digits = c :: rest → c ≠ ' ' := by
    rintro c rest rfl rfl
    exact noSpace (by simp)
  have plain : (paramLoop n (skipSpaces (digits ++ ' ' :: ':' :: text))).length ≤ 2 := by
    cases shape : digits with
    | nil => exact absurd shape allDigits.1
    | cons c rest =>
      rw [List.cons_append, skipSpaces_cons_of_ne (first c rest shape), ← List.cons_append, ← shape]
      exact length_paramLoop_le noSpace last le_rfl n
  rcases split with same | ⟨c, same⟩
  · rw [same]
    exact plain
  · rw [same, List.cons_append]
    -- the character in front of the digits may be anything, a space or a colon too
    by_cases space : c = ' '
    · rw [space, skipSpaces_cons_space]
      exact plain
    · rw [skipSpaces_cons_of_ne space, ← List.cons_append]
      apply length_paramLoop_le _ last le_rfl
      intro member
      rcases List.mem_cons.mp member with equal | inside
      · exact space equal.symm
      · exact noSpace inside

/-- The setter stands in for the name of the channel, and the line is one parameter short. -/
theorem length_params_topic {info : List Char} (noSpace : ' ' ∉ info) (time : ℕ) (text : List Char) :
    (stringToArray (info ++ ' ' :: (printLu time ++ ' ' :: ':' :: text))).length ≤ 3 := by
  unfold stringToArray
  split
  · exact Nat.zero_le _
  · cases shape : info with
    | nil =>
      rw [List.nil_append, skipSpaces_cons_space]
      exact (length_params_time time text _).trans (by decide)
    | cons c rest =>
      have first : c ≠ ' ' := by
        rintro rfl
        exact noSpace (by rw [shape]; simp)
      rw [List.cons_append, skipSpaces_cons_of_ne first, ← List.cons_append, ← shape]
      exact length_paramLoop_le noSpace (fun m => length_params_time time text m) (by decide) _

/-- A cut at the end of a line leaves what stands in front of a colon. -/
private theorem putmsg_colon {front : List Char} (text : List Char) (fits : front.length < 510) :
    ∃ text', putmsg (front ++ ':' :: text) = front ++ ':' :: text' := by
  unfold putmsg
  obtain ⟨k, room⟩ : ∃ k, 510 = front.length + (k + 1) := ⟨510 - front.length - 1, by omega⟩
  rw [room, List.take_length_add_append, List.take_succ_cons, List.reverse_append,
    List.reverse_cons, List.append_assoc]
  refine ⟨((text.take k).reverse.dropWhile fun c => c == '\r' || c == '\n' || c == '\x00').reverse,
    ?_⟩
  generalize (text.take k).reverse = back
  induction back with
  | nil => simp
  | cons c back ih =>
    by_cases lineEnd : (c == '\r' || c == '\n' || c == '\x00') = true
    · rw [List.cons_append, List.dropWhile_cons, if_pos lineEnd, ih, List.dropWhile_cons,
        if_pos lineEnd]
    · rw [List.cons_append, List.dropWhile_cons, if_neg lineEnd, List.dropWhile_cons,
        if_neg lineEnd]
      simp

/-- The other server ignores the topic line, whatever the topic. -/
theorem TopicState.readTopic_burstTopic {s t : TopicState} {link : ClientId} (knows : t.Knows link s)
    {chptr : ChannelId} (noSpace : ' ' ∉ (s.topic chptr).info) {line : List Char}
    (sent : s.burstTopic chptr = some line) : t.readTopic link (putmsg line) = t := by
  unfold TopicState.burstTopic at sent
  dsimp only at sent
  split at sent
  · cases sent
  · have digits := length_printLu_le ((s.topic chptr).time % 2 ^ 64).toNat
    have info := (s.topic chptr).info_len
    have name := knows.name_len
    unfold userhostReplyLen hostLen userLen at info
    unfold hostLen at name
    generalize printed : printLu ((s.topic chptr).time % 2 ^ 64).toNat = time at sent digits
    have fits : (':' :: (s.server.meName ++ ' ' :: (['T', 'O', 'P', 'I', 'C'] ++ ' ' ::
        ((s.topic chptr).info ++ ' ' :: (time ++ [' ']))))).length < 510 := by
      simp only [List.length_cons, List.length_append, List.length_nil]
      omega
    obtain ⟨text, cut⟩ := putmsg_colon (s.topic chptr).topic fits
    have shape : putmsg line = ':' :: (s.server.meName ++ ' ' :: (['T', 'O', 'P', 'I', 'C'] ++ ' ' ::
        ((s.topic chptr).info ++ ' ' :: (time ++ ' ' :: ':' :: text)))) := by
      rw [← Option.some.inj sent]
      simpa using cut
    have parsed := parseLine_prefixed knows.name_noSpace
      (show IsParam ['T', 'O', 'P', 'I', 'C'] from ⟨by decide, by decide, by decide⟩)
      ((s.topic chptr).info ++ ' ' :: (time ++ ' ' :: ':' :: text))
    unfold TopicState.readTopic
    rw [shape, parsed]
    dsimp only
    cases sender : t.server.sender link s.server.meName with
    | none => rfl
    | some who =>
      have few := length_params_topic noSpace ((s.topic chptr).time % 2 ^ 64).toNat text
      rw [printed] at few
      dsimp only
      rw [if_pos (IrcEq.refl _)]
      unfold TopicState.msTopic
      rw [if_neg (not_not_intro (knows.server who sender)), if_pos]
      rw [List.length_cons]
      omega

/-! ### Net join -/

/-- Two servers that have just linked. -/
structure TopicLink.Joined (n : TopicLink) : Prop where
  knowsA : n.a.Knows n.linkA n.b
  knowsB : n.b.Knows n.linkB n.a
  infoA : ' ' ∉ (n.a.topic n.chanA).info
  infoB : ' ' ∉ (n.b.topic n.chanB).info
  silentA : n.toA = []
  silentB : n.toB = []

/-- The link in some later state: both servers are as they were, and only topic lines are under
way. -/
structure TopicLink.Idle (n n' : TopicLink) : Prop where
  ends : n' = { n with toA := n'.toA, toB := n'.toB }
  linesA : ∀ line ∈ n'.toA, n.b.burstTopic n.chanB = some line
  linesB : ∀ line ∈ n'.toB, n.a.burstTopic n.chanA = some line

theorem TopicLink.Idle.step {n n' : TopicLink} (joined : n.Joined) (idle : n.Idle n')
    (step : TopicStep) : n.Idle (n'.step step) := by
  obtain ⟨ends, linesA, linesB⟩ := idle
  cases step with
  | sendA =>
    refine ⟨by rw [TopicLink.step, ends], linesA, fun line member => ?_⟩
    rcases List.mem_append.mp member with old | new
    · exact linesB line old
    · rw [ends] at new
      exact Option.mem_toList.mp new
  | sendB =>
    refine ⟨by rw [TopicLink.step, ends], fun line member => ?_, linesB⟩
    rcases List.mem_append.mp member with old | new
    · exact linesA line old
    · rw [ends] at new
      exact Option.mem_toList.mp new
  | handleA =>
    unfold TopicLink.step
    cases lines : n'.toA with
    | nil => exact ⟨ends, linesA, linesB⟩
    | cons line rest =>
      have sent := linesA line (by rw [lines]; exact List.mem_cons_self)
      have same : n'.a.readTopic n'.linkA (putmsg line) = n.a := by
        rw [ends]
        exact TopicState.readTopic_burstTopic joined.knowsA joined.infoB sent
      refine ⟨?_, fun other member => linesA other ?_, linesB⟩
      · dsimp only
        rw [same, ends]
      · rw [lines]
        exact List.mem_cons_of_mem _ member
  | handleB =>
    unfold TopicLink.step
    cases lines : n'.toB with
    | nil => exact ⟨ends, linesA, linesB⟩
    | cons line rest =>
      have sent := linesB line (by rw [lines]; exact List.mem_cons_self)
      have same : n'.b.readTopic n'.linkB (putmsg line) = n.b := by
        rw [ends]
        exact TopicState.readTopic_burstTopic joined.knowsB joined.infoA sent
      refine ⟨?_, linesA, fun other member => linesB other ?_⟩
      · dsimp only
        rw [same, ends]
      · rw [lines]
        exact List.mem_cons_of_mem _ member

theorem TopicLink.Idle.run {n : TopicLink} (joined : n.Joined) (order : List TopicStep) :
    n.Idle (order.foldl TopicLink.step n) := by
  suffices all : ∀ n', n.Idle n' → n.Idle (order.foldl TopicLink.step n') by
    refine all n ⟨rfl, fun line member => ?_, fun line member => ?_⟩
    · rw [joined.silentA] at member
      cases member
    · rw [joined.silentB] at member
      cases member
  induction order with
  | nil => exact fun _ idle => idle
  | cons step order ih => exact fun n' idle => ih (n'.step step) (idle.step joined step)

/-- In whatever order the servers send their topics and handle those of the other, they agree in
the end if and only if they have agreed from the beginning. -/
theorem topics_agree_iff {n : TopicLink} (joined : n.Joined) (order : List TopicStep) :
    (order.foldl TopicLink.step n).Agree ↔ n.Agree := by
  have idle := TopicLink.Idle.run joined order
  unfold TopicLink.Agree
  rw [idle.ends]

/-- Servers `s` and `me` have linked, and both have a channel `#c`. -/
def netJoin (topicA topicB : Topic) : TopicLink where
  a := ⟨({ smallNetwork with
      meName := ['s']
      client := Function.update smallNetwork.client 0 (Client.server ['m', 'e'] 0) } : State).create
    ['#', 'c'], fun _ => topicA⟩
  b := ⟨smallNetwork.create ['#', 'c'], fun _ => topicB⟩
  linkA := 0
  linkB := 0
  chanA := 0
  chanB := 0
  toA := []
  toB := []

theorem netJoin_joined {topicA topicB : Topic} (infoA : ' ' ∉ topicA.info)
    (infoB : ' ' ∉ topicB.info) : (netJoin topicA topicB).Joined := by
  have names : (['m', 'e'].length ≤ hostLen ∧ ' ' ∉ ['m', 'e']) ∧
      ['s'].length ≤ hostLen ∧ ' ' ∉ ['s'] := by decide
  refine ⟨⟨names.1.1, names.1.2, fun who found => ?_⟩, ⟨names.2.1, names.2.2, fun who found => ?_⟩,
    infoA, infoB, rfl, rfl⟩
  · have first : (netJoin noTopic noTopic).a.server.sender 0 ['m', 'e'] = some 0 := by
      decide +kernel
    obtain rfl := Option.some.inj (first.symm.trans found)
    rfl
  · have first : (netJoin noTopic noTopic).b.server.sender 0 ['s'] = some 0 := by
      decide +kernel
    obtain rfl := Option.some.inj (first.symm.trans found)
    rfl

def greeting : Topic := .of ['h', 'i'] ['a', '!', 'u', '@', 'h'] 5

theorem topics_agree_iff_greeting :
    ([.sendA, .sendB, .handleB, .handleA].foldl TopicLink.step (netJoin greeting greeting)).Agree :=
  (topics_agree_iff (netJoin_joined (by decide) (by decide)) _).mpr rfl

/-- A topic that only one of the servers has does not reach the other. -/
theorem topic_lost :
    let n := [.sendA, .sendB, .handleB, .handleA].foldl TopicLink.step (netJoin greeting noTopic)
    n.toA = [] ∧ n.toB = [] ∧ (n.a.topic n.chanA).shown = some (greeting.topic, greeting.info, 5) ∧
      (n.b.topic n.chanB).shown = none ∧ ¬ n.Agree := by
  decide +kernel

end Ircd.Chan
