import Ircd.Channel.Burst
import Mathlib.Data.Char
import Mathlib.Data.List.Lex

/-!
# SJOIN

`ms_sjoin` of `modules/core/m_sjoin.c`, stage by stage, in the build without
`IGNORE_BOGUS_TS`. The texts for local members are left out.
-/
namespace Ircd.Chan

/-! ### The message -/

/-- A parameter of the message; `parv[0]` is the name of the sender. -/
def param (parv : List (List Char)) (i : ℕ) : List Char := parv.getD i []

/-- The simple mode a letter of `parv[3]` stands for. -/
def simpleOfLetter : Char → Option SimpleMode
  | 'i' => some .inviteOnly
  | 'n' => some .noPrivMsgs
  | 'p' => some .paranoid
  | 's' => some .secret
  | 'm' => some .moderated
  | 't' => some .topicLimit
  | 'a' => some .hideOps
  | _ => none

/-- The loop over `parv[3]`, with `args` parameters used so far. There is no result when the
message has too few parameters. -/
def readModes (parv : List (List Char)) : List Char → Mode → ℕ → Option (Mode × ℕ)
  | [], mode, args => some (mode, args)
  | c :: letters, mode, args =>
    if c = 'k' then
      if parv.length < 5 + (args + 1) then none
      else readModes parv letters (mode.setKey (param parv (4 + args))) (args + 1)
    else if c = 'l' then
      if parv.length < 5 + (args + 1) then none
      else readModes parv letters (mode.setLimit (atol (param parv (4 + args)))) (args + 1)
    else
      match simpleOfLetter c with
      | some m => readModes parv letters { mode with mode := insert m mode.mode } args
      | none => readModes parv letters mode args

/-- `IsChanChar`. -/
def isChanChar (c : Char) : Bool := c != '\x00' && c != '\x07' && c != ' ' && c != ','

/-- What the function reads before it touches anything. -/
structure SjoinHead where
  chname : List Char
  newts : ℤ
  mode : Mode
  nicks : List Char
deriving DecidableEq

/-- The checks at the top of `ms_sjoin`. -/
def sjoinHead (s : State) (source : ClientId) (parv : List (List Char)) : Option SjoinHead :=
  if (s.client source).status = .client ∨ parv.length < 5 then none
  else if (param parv 2).head? ≠ some '#' ∨ !(param parv 2).all isChanChar then none
  else
    (readModes parv (param parv 3) noMode 0).map fun (mode, args) =>
      ⟨param parv 2, atol (param parv 1), mode, param parv (4 + args)⟩

/-! ### The channel -/

/-- What stands in front of the last `_`, and what behind it. -/
def splitLastUnderscore (name : List Char) : Option (List Char × List Char) :=
  if '_' ∈ name then
    some ((name.reverse.dropWhile (· != '_')).tail.reverse, (name.reverse.takeWhile (· != '_')).reverse)
  else none

/-- Virtual channels are encoded as `##mainchanname_timestamp`. -/
def State.splitVchan (s : State) (chname : List Char) : Option (List Char × List Char) :=
  if chname[1]? = some '#' ∧ s.useVchans = true then splitLastUnderscore chname else none

/-- A virtual channel is put on the list of its root channel. -/
def State.addVchan (s : State) (top chptr : ChannelId) : State :=
  let root := s.channel top
  let s := s.setChannel top { root with vchanList := chptr :: root.vchanList }
  s.setChannel chptr { s.channel chptr with rootChptr := some top }

/-- The part of `ms_sjoin` about virtual channels. Gives the root channel too, if the name
leads to one. -/
def State.linkVchan (s : State) (chptr : ChannelId) (chname : List Char) (newts : ℤ) :
    State × Option ChannelId :=
  match s.splitVchan chname with
  | none => (s, none)
  | some (base, suffix) =>
    match s.hashFindChannel base.tail with
    | some top =>
      -- the suffix of the name must be the timestamp
      if chptr ∉ (s.channel top).vchanList ∧ newts = atol suffix then
        (s.addVchan top chptr, some top)
      else (s, some top)
    | none =>
      if newts = atol suffix then
        match s.getOrCreateChannel base.tail with
        | none => (s, none)
        | some (s, top, _) =>
          let s := s.addVchan top chptr
          (s.setChannel chptr { s.channel chptr with vchanId := ['!'] }, some top)
      else (s, none)

/-- The outcome of the timestamp rules. -/
structure Verdict where
  channelts : ℤ
  tstosend : ℤ
  keepOurModes : Bool
  keepNewModes : Bool
deriving DecidableEq

/-- The timestamp rules; there is no verdict when an empty channel is sent no users. -/
def tsRules (isnew : Bool) (users : ℤ) (nicks : List Char) (newts oldts : ℤ) : Option Verdict :=
  if isnew then some ⟨newts, newts, true, true⟩
  else if users = 0 ∧ nicks ≠ [] then some ⟨newts, newts, false, true⟩
  else if users = 0 then none
  else if newts = 0 ∨ oldts = 0 then some ⟨0, 0, true, true⟩
  else if newts = oldts then some ⟨oldts, oldts, true, true⟩
  else if newts < oldts then some ⟨newts, newts, false, true⟩
  else some ⟨oldts, oldts, true, false⟩

/-- The merge of two modes: all bits, the higher limit, the greater key. -/
def Mode.merge (old new : Mode) : Mode where
  mode := new.mode ∪ old.mode
  limit := if old.limit > new.limit then old.limit else new.limit
  key := if new.key < old.key then old.key else new.key
  limit_int := by split; exacts [old.limit_int, new.limit_int]
  key_len := by split; exacts [old.key_len, new.key_len]

/-- The modes of the channel after the message. -/
def finalMode (verdict : Verdict) (old new : Mode) : Mode :=
  if !verdict.keepNewModes then old
  else if verdict.keepOurModes then old.merge new
  else new

/-- `remove_our_modes`. The last move takes the local ops with voice to the list of all
peons. -/
def Channel.removeOurModes (ch : Channel) : Channel :=
  { ch with
    members := fun
      | .peon =>
        ch.locMembers .chanopVoiced ++ (ch.members .chanopVoiced ++ (ch.members .voiced ++
          (ch.members .halfop ++ (ch.members .chanop ++ ch.members .peon))))
      | _ => []
    locMembers := fun
      | .peon => ch.locMembers .voiced ++ (ch.locMembers .halfop ++ (ch.locMembers .chanop ++
          ch.locMembers .peon))
      | _ => [] }

/-- The channel with the timestamp and the modes of the verdict. -/
def Channel.judged (ch : Channel) (verdict : Verdict) (new : Mode) : Channel :=
  let ch := { ch with
    channelts := verdict.channelts
    mode := finalMode verdict ch.mode new
    tsWinner := verdict.keepOurModes }
  if verdict.keepOurModes then ch else ch.removeOurModes

/-! ### The nicks -/

/-- Text cut at single spaces. A trailing space ends it; two spaces have an empty nick
between them. -/
def cutNicks : List Char → List Char → List (List Char)
  | nick, [] => [nick]
  | nick, c :: text =>
    if c = ' ' then if text = [] then [nick] else nick :: cutNicks [] text
    else cutNicks (nick ++ [c]) text

def sjoinNicks (nicks : List Char) : List (List Char) := cutNicks [] (nicks.dropWhile (· == ' '))

/-- A nick without its prefix, the flags of the prefix, and the prefix as servers with and
without `CAP_HOPS` are told it. -/
structure Prefixed where
  fl : ℕ
  hops : List Char
  nhops : List Char
  nick : List Char
deriving DecidableEq

/-- One of the two rounds of the prefix loop. -/
def readPrefix (keepNewModes : Bool) (p : Prefixed) : Prefixed :=
  match p.nick with
  | '@' :: nick =>
    ⟨p.fl ||| modeChanop, if keepNewModes then p.hops ++ ['@'] else p.hops,
      if keepNewModes then p.nhops ++ ['@'] else p.nhops, nick⟩
  | '+' :: nick =>
    ⟨p.fl ||| modeVoice, if keepNewModes then p.hops ++ ['+'] else p.hops,
      if keepNewModes then p.nhops ++ ['+'] else p.nhops, nick⟩
  | '%' :: nick =>
    ⟨p.fl ||| modeHalfop, if keepNewModes then p.hops ++ ['%'] else p.hops,
      if keepNewModes then p.nhops ++ ['@'] else p.nhops, nick⟩
  | _ => p

def readPrefixes (keepNewModes : Bool) (nick : List Char) : Prefixed :=
  readPrefix keepNewModes (readPrefix keepNewModes ⟨0, [], [], nick⟩)

/-- The flags a member gets. -/
def flagsOf (keepNewModes : Bool) (fl : ℕ) : ℕ :=
  if keepNewModes then fl else if fl &&& modeChanop ≠ 0 then modeDeopped else 0

/-- What the loop over the nicks works on: the state, the nick lists for other servers, the
number of people and the nicks reported back as unknown. -/
structure NickLoop where
  state : State
  hops : List Char
  nhops : List Char
  people : ℕ
  nosuch : List (List Char)

/-- A person behind the link that the message came over. -/
def State.accepts (s : State) (clientP target : ClientId) : Bool :=
  (s.client target).source = clientP && (s.client target).isPerson

/-- A nick that has been found. It is in the lists for other servers whether it is accepted
or not. -/
def takeNick (clientP : ClientId) (chptr : ChannelId) (top : Option ChannelId) (fl : ℕ)
    (target : ClientId) (l : NickLoop) : NickLoop :=
  if !l.state.accepts clientP target then l
  else
    let state :=
      if l.state.isMember target chptr then l.state
      else
        let s := l.state.addUserToChannel chptr target fl
        match top with
        | some root =>
          if root = chptr then s
          else s.setClient target
            { s.client target with vchanMap := (root, chptr) :: (s.client target).vchanMap }
        | none => s
    { l with state := state, people := l.people + 1 }

/-- One round of the loop over the nicks. -/
def nickStep (clientP : ClientId) (chptr : ChannelId) (top : Option ChannelId)
    (keepNewModes : Bool) (l : NickLoop) (nick : List Char) : NickLoop :=
  let p := readPrefixes keepNewModes nick
  match l.state.findClient p.nick with
  | none => { l with nosuch := l.nosuch ++ [p.nick] }
  | some target =>
    takeNick clientP chptr top (flagsOf keepNewModes p.fl) target
      { l with hops := l.hops ++ p.hops ++ p.nick ++ [' '],
               nhops := l.nhops ++ p.nhops ++ p.nick ++ [' '] }

/-! ### The message as a whole -/

/-- What a message does: the state after it, the number of nicks it has brought in, and the
lines for servers with and without `CAP_HOPS` other than the one it came from. -/
structure SjoinResult where
  state : State
  people : ℕ
  relay : Option (List Char × List Char)
  nosuch : List (List Char)

def SjoinResult.ignored (s : State) : SjoinResult := ⟨s, 0, none, []⟩

/-- The header of the line for other servers. -/
def State.relayHeader (s : State) (source : ClientId) (chptr : ChannelId) (parv : List (List Char))
    (chname : List Char) (verdict : Verdict) : List Char :=
  let ch := s.channel chptr
  let shown := s.isMember source chptr || (s.client source).status == .server
  if (param parv 3).head? ≠ some '0' ∧ verdict.keepNewModes = true then
    sjoinHeader (param parv 0) verdict.tstosend chname ch.mode.letters (ch.mode.params shown)
  else sjoinHeader (param parv 0) verdict.tstosend chname ['0'] []

/-- `BUFSIZE - 6 - NICKLEN`, where `NICKLEN` is the text `9+1`. -/
def longSjoin : ℕ := 512 - 6 - 9 + 1

/-- `ms_sjoin` from the nicks on. -/
def State.sjoinMembers (s : State) (clientP source : ClientId) (parv : List (List Char))
    (head : SjoinHead) (chptr : ChannelId) (top : Option ChannelId) (verdict : Verdict) :
    SjoinResult :=
  let header := s.relayHeader source chptr parv (head.chname.take channelLen) verdict
  if header.length ≥ longSjoin then .ignored s
  else
    let l := (sjoinNicks head.nicks).foldl (nickStep clientP chptr top verdict.keepNewModes)
      ⟨s, [], [], 0, []⟩
    ⟨l.state, l.people,
      if l.people = 0 ∨ head.nicks = [] then none
      else some (header ++ [' '] ++ l.hops, header ++ [' '] ++ l.nhops),
      l.nosuch⟩

/-- `ms_sjoin`. -/
def State.msSjoin (s : State) (clientP source : ClientId) (parv : List (List Char)) : SjoinResult :=
  match sjoinHead s source parv with
  | none => .ignored s
  | some head =>
    match s.getOrCreateChannel head.chname with
    | none => .ignored s
    | some (s₁, chptr, isnew) =>
      let (s₂, top) := s₁.linkVchan chptr (head.chname.take channelLen) head.newts
      let ch := s₂.channel chptr
      match tsRules isnew ch.users head.nicks head.newts ch.channelts with
      | none => .ignored s₂
      | some verdict =>
        (s₂.setChannel chptr (ch.judged verdict head.mode)).sjoinMembers clientP source parv head
          chptr top verdict

end Ircd.Chan
