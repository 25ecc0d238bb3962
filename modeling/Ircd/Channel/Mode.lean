import Ircd.Channel.Mask
import Ircd.Channel.Membership

/-!
# MODE

`set_channel_mode` of `src/channel_mode.c` and the functions of its `ModeTable`, in the build
with `REQUIRE_OANDV` and without `BOUNCE_BAD_HOPS`. The replies to the client, and with them
`errors`, are left out, and so are the lists that local clients are brought up to date from.
A run has no result where the server would stop.
-/
namespace Ircd.Chan

/-- The capabilities in `channel_capabs`. -/
inductive Cap where
  | hops
  | aops
  | ex
  | ie
  | uid
deriving DecidableEq

/-- Who is told of a change. -/
inductive Mems where
  | allMembers
  | nonChanops
  | onlyChanopsHalfops
  | onlyServers
deriving DecidableEq

/-- `struct ChModeChange`. The letter of a change that has been cancelled is NUL. -/
structure ChModeChange where
  letter : Char
  arg : Option (List Char)
  id : Option (List Char)
  caps : Finset Cap
  nocaps : Finset Cap
  mems : Mems
deriving DecidableEq

/-- `MODE_QUERY`, `MODE_ADD` and `MODE_DEL`. -/
inductive Dir where
  | query
  | add
  | del
deriving DecidableEq

/-- The lists that a mask can be on. -/
inductive MaskType where
  | ban
  | exception
  | invex
deriving DecidableEq

def Channel.masks (ch : Channel) : MaskType → List Ban
  | .ban => ch.banlist
  | .exception => ch.exceptlist
  | .invex => ch.invexlist

def Channel.setMasks (ch : Channel) (type : MaskType) (list : List Ban) : Channel :=
  match type with
  | .ban => { ch with banlist := list }
  | .exception => { ch with exceptlist := list }
  | .invex => { ch with invexlist := list }

/-- The channel, with `mode_changes_minus` and `mode_changes_plus`. -/
structure Changes where
  ch : Channel
  minus : List ChModeChange
  plus : List ChModeChange

/-- What the loop over the letters works on. -/
structure ModeRun where
  changes : Changes
  parn : ℕ
  maskPos : ℕ
  modeLimit : ℕ

/-- What the loop over the letters looks things up in. -/
structure ModeContext where
  s : State
  clientP : ClientId
  source : ClientId
  chptr : ChannelId
  parv : List (List Char)
  alev : ℕ

def chaccessChanop : ℕ := 3

def chaccessHalfop : ℕ := 2

def chaccessPeon : ℕ := 0

/-- `get_channel_access`. -/
def State.getChannelAccess (s : State) (source : ClientId) (ch : Channel) : ℕ :=
  if !(s.client source).mine then chaccessChanop
  else if ch.isChanOp source then chaccessChanop
  else if ch.isHalfOp source then chaccessHalfop
  else chaccessPeon

/-- `MyClient(source_p)`. -/
def ModeContext.mine (x : ModeContext) : Bool := (x.s.client x.source).mine

/-- `parv[*parn]`, if there is one. -/
def ModeContext.param (x : ModeContext) (r : ModeRun) : Option (List Char) := x.parv[r.parn]?

/-! ### The pending changes -/

def ChModeChange.wipe (e : ChModeChange) : ChModeChange := { e with letter := '\x00' }

/-- The first entry that `p` holds of is cancelled. -/
def wipeFirst (p : ChModeChange → Bool) : List ChModeChange → Option (List ChModeChange)
  | [] => none
  | e :: list => if p e then some (e.wipe :: list) else (wipeFirst p list).map (e :: ·)

/-- All entries that `p` holds of are cancelled. -/
def wipeAll (p : ChModeChange → Bool) (list : List ChModeChange) : List ChModeChange :=
  list.map fun e => if p e then e.wipe else e

/-- The entry has one of the letters, and `irccmp` finds its argument equal to the text. -/
def ChModeChange.isFor (letters : List Char) (text : List Char) (e : ChModeChange) : Bool :=
  letters.contains e.letter && e.arg.any fun arg => decide (IrcEq arg text)

/-- A change that all members are told of. -/
def ChModeChange.forAll (letter : Char) (caps : Finset Cap) (arg : Option (List Char)) :
    ChModeChange :=
  ⟨letter, arg, none, caps, ∅, .allMembers⟩

/-- A change that ops and halfops are told of. -/
def ChModeChange.forOps (letter : Char) (caps : Finset Cap) (arg : List Char)
    (id : Option (List Char)) : ChModeChange :=
  ⟨letter, some arg, id, caps, ∅, .onlyChanopsHalfops⟩

/-- A change is put on the list of its direction, unless it cancels one on the other list. -/
def Changes.record (x : Changes) (dir : Dir) (p : ChModeChange → Bool) (e : ChModeChange) : Changes :=
  match dir with
  | .add =>
    match wipeFirst p x.minus with
    | some minus => { x with minus := minus }
    | none => { x with plus := x.plus ++ [e] }
  | _ =>
    match wipeFirst p x.plus with
    | some plus => { x with plus := plus }
    | none => { x with minus := x.minus ++ [e] }

/-! ### The bits -/

/-- What `chm_simple` and `chm_hideops` do once access has been granted. -/
def Changes.flag (mode : SimpleMode) (caps : Finset Cap) (dir : Dir) (c : Char) (x : Changes) :
    Changes :=
  let old := x.ch.mode
  match dir with
  | .query => x
  | .add =>
    if mode ∈ old.mode then x
    else
      { x with ch := { x.ch with mode := { old with mode := insert mode old.mode } } }.record .add
        (·.letter == c) (.forAll c caps none)
  | .del =>
    if mode ∉ old.mode then x
    else
      { x with ch := { x.ch with mode := { old with mode := old.mode.erase mode } } }.record .del
        (·.letter == c) (.forAll c caps none)

/-- `chm_simple`. -/
def chmSimple (mode : SimpleMode) (x : ModeContext) (dir : Dir) (c : Char) (r : ModeRun) : ModeRun :=
  if x.alev < chaccessHalfop ∨ (mode = .paranoid ∧ x.alev < chaccessChanop) then r
  else { r with changes := r.changes.flag mode ∅ dir c }

/-- `chm_hideops`. -/
def chmHideops (x : ModeContext) (dir : Dir) (c : Char) (r : ModeRun) : ModeRun :=
  if x.alev < chaccessHalfop then r
  else { r with changes := r.changes.flag .hideOps {.aops} dir c }

/-! ### The mask lists -/

/-- What `add_id` notes down as the one who set a mask. -/
def Client.whoSet (client : Client) : List Char :=
  if client.isPerson then client.name ++ ['!'] ++ client.username ++ ['@'] ++ client.host
  else client.name

/-- `add_id`, with the mask as it leaves it; `some none` is the result -1. A missing mask is
copied like any other, which the server does not survive. -/
def State.addId (s : State) (source : ClientId) (ch : Channel) (banid : Option (List Char))
    (type : MaskType) : Option (Option (Channel × List Char)) :=
  let client := s.client source
  if client.status ≠ .server ∧ ch.numMask ≥ s.maxbans ∧ client.mine = true then some none
  else
    match banid with
    | none => none
    | some banid =>
      let banid := if client.mine then collapse banid else banid
      if (ch.masks type).any fun ban => ircMatch ban.banstr banid then some none
      else
        let ban := ⟨banid, client.whoSet, s.currentTime⟩
        some (some ({ ch.setMasks type (ban :: ch.masks type) with numMask := ch.numMask + 1 }, banid))

/-- `del_id`. There is no result where the function gives -1. -/
def Channel.delId (ch : Channel) (banid : Option (List Char)) (type : MaskType) : Option Channel :=
  match banid with
  | none => none
  | some banid =>
    if (ch.masks type).any fun ban => decide (IrcEq banid ban.banstr) then
      some { ch.setMasks type ((ch.masks type).eraseP fun ban => decide (IrcEq banid ban.banstr)) with
        numMask := if ch.numMask > 0 then ch.numMask - 1 else 0 }
    else none

/-- What `chm_ban`, `chm_except` and `chm_invex` do with a mask. `mask` is what has become of
the parameter `rawMask`. -/
def Changes.mask (s : State) (source : ClientId) (type : MaskType)
    (entry : List Char → ChModeChange) (dir : Dir) (c : Char) (mask : Option (List Char))
    (rawMask : List Char) (x : Changes) : Option Changes :=
  let log := fun dir ch mask => { x with ch := ch }.record dir (·.isFor [c] mask) (entry mask)
  match dir with
  | .query => some x
  | .add =>
    match s.addId source x.ch mask type with
    | none => none
    | some none => some x
    | some (some (ch, mask)) => some (log .add ch mask)
  | .del =>
    -- the mask as it was typed, if the tidied one is not on the list
    match x.ch.delId mask type, x.ch.delId (some rawMask) type with
    | some ch, _ => some (log .del ch (mask.getD rawMask))
    | none, some ch => some (log .del ch rawMask)
    | none, none => some x

/-- `chm_ban`, `chm_except` and `chm_invex`. They differ in the order of checks that have the
same effect, apart from the replies. -/
def chmMask (type : MaskType) (entry : List Char → ChModeChange) (x : ModeContext) (dir : Dir)
    (c : Char) (r : ModeRun) : Option ModeRun :=
  match x.param r with
  | none => some r
  | some raw =>
    if dir = .query ∨ x.alev < chaccessHalfop then some r
    else if x.mine = true ∧ r.modeLimit > 4 then some { r with modeLimit := r.modeLimit + 1 }
    else
      let modeLimit := if x.mine then r.modeLimit + 1 else r.modeLimit
      -- from a server the mask is taken as it is
      if (x.s.client x.clientP).status = .server then
        (r.changes.mask x.s x.source type entry dir c (some raw) raw).map fun changes =>
          ⟨changes, r.parn + 1, r.maskPos, modeLimit⟩
      else
        let mask := prettyMask r.maskPos raw
        (r.changes.mask x.s x.source type entry dir c mask (cutSpace raw)).map fun changes =>
          ⟨changes, r.parn + 1, r.maskPos + (mask.map fun mask => mask.length + 1).getD 0, modeLimit⟩

def chmBan : ModeContext → Dir → Char → ModeRun → Option ModeRun :=
  chmMask .ban fun mask => .forAll 'b' ∅ (some mask)

def chmExcept : ModeContext → Dir → Char → ModeRun → Option ModeRun :=
  chmMask .exception fun mask => .forOps 'e' {.ex} mask none

def chmInvex : ModeContext → Dir → Char → ModeRun → Option ModeRun :=
  chmMask .invex fun mask => .forOps 'I' {.ie} mask none

/-! ### Ranks -/

/-- `mode_changes_plus` or `mode_changes_minus` has a pending entry for the nick. -/
def hasPending (list : List ChModeChange) (letter : Char) (nick : List Char) : Bool :=
  list.any (·.isFor [letter] nick)

/-- `chm_op` from the cancelling on. The target has been given as `opnick`. -/
def Changes.op (dir : Dir) (c : Char) (opnick : List Char) (targ : ClientId) (client : Client)
    (x : Changes) : Changes :=
  let tOp := x.ch.isChanOp targ
  let tHop := !tOp && x.ch.isHalfOp targ
  let tVoice := x.ch.isVoiced targ
  let wasntOpped := hasPending x.plus 'o' opnick
  let wasntHopped := hasPending x.plus 'h' opnick
  let wasOpped := hasPending x.minus 'o' opnick
  -- pending changes of the same nick are cancelled
  let plus := wipeAll (·.isFor ['o', 'h'] opnick) x.plus
  let minus := wipeAll (·.isFor ['o'] opnick) x.minus
  let id := client.user.map User.id
  match dir with
  | .add =>
    { ch := x.ch.changeMembership (if tVoice then .chanopVoiced else .chanop) targ client.mine
      minus :=
        if !wasntHopped && tHop then minus ++ [.forOps 'h' {.hops} client.name id] else minus
      plus := if !wasOpped then plus ++ [.forOps c ∅ client.name id] else plus }
  | _ =>
    { ch := x.ch.changeMembership (if !tHop && tVoice then .voiced else .peon) targ client.mine
      minus :=
        if tHop then
          if !wasntHopped then minus ++ [.forOps 'h' {.hops} client.name none] else minus
        else if !wasntOpped then minus ++ [.forOps c ∅ client.name none]
        else minus
      plus := plus }

/-- The checks at the top of `chm_op`, with the target if they let it through. -/
def opTarget (x : ModeContext) (dir : Dir) (r : ModeRun) : ModeRun × Option (List Char × ClientId) :=
  if x.alev < chaccessChanop then (r, none)
  else
    match x.param r with
    | none => (r, none)
    | some opnick =>
      if dir = .query then (r, none)
      else
        let r := { r with parn := r.parn + 1 }
        match x.s.findClient opnick with
        | none => (r, none)
        | some targ =>
          let tOp := r.changes.ch.isChanOp targ
          if !x.s.isMember targ x.chptr then (r, none)
          else if (dir = .add ∧ tOp = true) ∨ (dir = .del ∧ tOp = false) then (r, none)
          -- at most five changes with a parameter for each local MODE
          else if x.mine = true ∧ r.modeLimit > 4 then
            ({ r with modeLimit := r.modeLimit + 1 }, none)
          else
            ({ r with modeLimit := if x.mine then r.modeLimit + 1 else r.modeLimit },
              some (opnick, targ))

/-- `chm_op`. -/
def chmOp (x : ModeContext) (dir : Dir) (c : Char) (r : ModeRun) : ModeRun :=
  match opTarget x dir r with
  | (r, none) => r
  | (r, some (opnick, targ)) =>
    { r with changes := r.changes.op dir c opnick targ (x.s.client targ) }

/-- `chm_halfop` from the cancelling on. The move stands inside the test for a change that
has to be sent. -/
def Changes.halfop (dir : Dir) (c : Char) (opnick : List Char) (targ : ClientId) (client : Client)
    (x : Changes) : Changes :=
  let tOp := x.ch.isChanOp targ
  let tHop := !tOp && x.ch.isHalfOp targ
  let tVoice := !tOp && !tHop && x.ch.isVoiced targ
  let wasntHopped := hasPending x.plus 'h' opnick
  let wasntVoiced := hasPending x.plus 'v' opnick
  let wasHopped := hasPending x.minus 'h' opnick
  let plus := wipeAll (·.isFor ['o', 'h', 'v'] opnick) x.plus
  let minus := wipeAll (·.isFor ['h', 'v'] opnick) x.minus
  let id := client.user.map User.id
  match dir with
  | .add =>
    { ch := if !wasHopped then x.ch.changeMembership .halfop targ client.mine else x.ch
      minus := if !wasntVoiced && tVoice then minus ++ [.forOps 'v' ∅ client.name id] else minus
      plus := if !wasHopped then plus ++ [.forOps c {.hops} client.name id] else plus }
  | _ =>
    { ch := x.ch.changeMembership .peon targ client.mine
      minus := if !wasntHopped then minus ++ [.forOps 'h' {.hops} client.name id] else minus
      plus := plus }

/-- The checks at the top of `chm_halfop`. -/
def halfopTarget (x : ModeContext) (dir : Dir) (r : ModeRun) :
    ModeRun × Option (List Char × ClientId) :=
  if x.alev < (if .paranoid ∈ r.changes.ch.mode.mode then chaccessChanop else chaccessHalfop) then
    (r, none)
  else
    match x.param r with
    | none => (r, none)
    | some opnick =>
      if dir = .query then (r, none)
      else
        -- changes of a local op are not counted here
        let counted := x.mine && decide (x.alev < chaccessChanop)
        if counted = true ∧ r.modeLimit > 4 then ({ r with modeLimit := r.modeLimit + 1 }, none)
        else
          let r := { r with
            modeLimit := if counted then r.modeLimit + 1 else r.modeLimit
            parn := r.parn + 1 }
          match x.s.findClient opnick with
          | none => (r, none)
          | some targ =>
            let tOp := r.changes.ch.isChanOp targ
            let tHop := !tOp && r.changes.ch.isHalfOp targ
            if x.mine && tOp then (r, none)
            else if !x.s.isMember targ x.chptr then (r, none)
            else if (dir = .add ∧ (tHop = true ∨ tOp = true)) ∨ (dir = .del ∧ tHop = false) then
              (r, none)
            else (r, some (opnick, targ))

/-- `chm_halfop`. -/
def chmHalfop (x : ModeContext) (dir : Dir) (c : Char) (r : ModeRun) : ModeRun :=
  match halfopTarget x dir r with
  | (r, none) => r
  | (r, some (opnick, targ)) =>
    { r with changes := r.changes.halfop dir c opnick targ (x.s.client targ) }

/-- `chm_voice` from the cancelling on. -/
def Changes.voice (dir : Dir) (c : Char) (opnick : List Char) (targ : ClientId) (client : Client)
    (x : Changes) : Changes :=
  let tOp := x.ch.isChanOp targ
  let wasntVoiced := hasPending x.plus 'v' opnick
  let wasVoiced := hasPending x.minus 'v' opnick
  let plus := wipeAll (·.isFor ['h', 'v'] opnick) x.plus
  let minus := wipeAll (·.isFor ['v'] opnick) x.minus
  let id := client.user.map User.id
  match dir with
  | .add =>
    { ch := x.ch.changeMembership (if tOp then .chanopVoiced else .voiced) targ client.mine
      minus := minus
      plus := if !wasVoiced then plus ++ [.forOps c ∅ client.name id] else plus }
  | _ =>
    { ch := x.ch.changeMembership (if tOp then .chanop else .peon) targ client.mine
      minus := if !wasntVoiced then minus ++ [.forOps 'v' ∅ client.name id] else minus
      plus := plus }

/-- The checks at the top of `chm_voice`. -/
def voiceTarget (x : ModeContext) (dir : Dir) (r : ModeRun) :
    ModeRun × Option (List Char × ClientId) :=
  if x.alev < chaccessHalfop then (r, none)
  else
    match x.param r with
    | none => (r, none)
    | some opnick =>
      if dir = .query then (r, none)
      else
        let r := { r with parn := r.parn + 1 }
        match x.s.findClient opnick with
        | none => (r, none)
        | some targ =>
          let tOp := r.changes.ch.isChanOp targ
          let tHop := !tOp && r.changes.ch.isHalfOp targ
          let tVoice := r.changes.ch.isVoiced targ
          if !x.s.isMember targ x.chptr then (r, none)
          else if tHop = true ∨ (dir = .add ∧ tVoice = true) ∨ (dir = .del ∧ tVoice = false) then
            (r, none)
          else (r, some (opnick, targ))

/-- `chm_voice`. -/
def chmVoice (x : ModeContext) (dir : Dir) (c : Char) (r : ModeRun) : ModeRun :=
  match voiceTarget x dir r with
  | (r, none) => r
  | (r, some (opnick, targ)) =>
    { r with changes := r.changes.voice dir c opnick targ (x.s.client targ) }

/-! ### Limit and key -/

/-- A limit is set. Earlier changes of it are forgotten. -/
def Changes.setLimit (c : Char) (limit : ℤ) (x : Changes) : Changes where
  ch := { x.ch with mode := x.ch.mode.setLimit limit }
  minus := wipeAll (·.letter == c) x.minus
  plus := wipeAll (·.letter == c) x.plus ++ [.forAll c ∅ (some (printD limit))]

/-- The limit is taken away. This stops at the first change that it cancels. -/
def Changes.dropLimit (c : Char) (x : Changes) : Changes :=
  if x.ch.mode.limit = 0 then x
  else
    { x with ch := { x.ch with mode := x.ch.mode.setLimit 0 } }.record .del (·.letter == c)
      (.forAll c ∅ none)

/-- `chm_limit`. -/
def chmLimit (x : ModeContext) (dir : Dir) (c : Char) (r : ModeRun) : ModeRun :=
  if x.alev < chaccessHalfop then r
  else
    match dir, x.param r with
    | .query, _ => r
    | .add, none => r
    | .add, some lstr =>
      -- `strtoul`, and then as an `int`
      let limit := toInt (strtoul lstr).1
      let r := { r with parn := r.parn + 1 }
      if limit ≤ 0 then r else { r with changes := r.changes.setLimit c limit }
    | .del, _ => { r with changes := r.changes.dropLimit c }

/-- A key is set. The change has the whole key, the channel as much as it has room for. -/
def Changes.setKey (c : Char) (key : List Char) (x : Changes) : Changes where
  ch := { x.ch with mode := x.ch.mode.setKey key }
  minus := wipeAll (·.letter == c) x.minus
  plus := wipeAll (·.letter == c) x.plus ++ [.forAll c ∅ (some key)]

def Changes.dropKey (c : Char) (x : Changes) : Changes :=
  if x.ch.mode.key = [] then x
  else
    { ch := { x.ch with mode := x.ch.mode.setKey [] }
      minus := x.minus ++ [.forAll c ∅ (some ['*'])]
      plus := wipeAll (·.letter == c) x.plus }

/-- `chm_key`. The assertion is that the key does not begin with a space. -/
def chmKey (x : ModeContext) (dir : Dir) (c : Char) (r : ModeRun) : Option ModeRun :=
  if x.alev < chaccessHalfop then some r
  else
    match dir, x.param r with
    | .query, _ => some r
    | .add, none => some r
    | .add, some key =>
      let key := if x.mine then fixKey key else fixKeyOld key
      if key.head? = some ' ' then none
      else some { r with parn := r.parn + 1, changes := r.changes.setKey c key }
    | .del, _ => some { r with changes := r.changes.dropKey c }

/-! ### The command -/

/-- `ModeTable`. Other letters go to `chm_nosuch`, which only replies. -/
def modeTable (x : ModeContext) (dir : Dir) (c : Char) (r : ModeRun) : Option ModeRun :=
  match c with
  | 'I' => chmInvex x dir c r
  | 'a' => some (chmHideops x dir c r)
  | 'b' => chmBan x dir c r
  | 'e' => chmExcept x dir c r
  | 'h' => some (chmHalfop x dir c r)
  | 'i' => some (chmSimple .inviteOnly x dir c r)
  | 'k' => chmKey x dir c r
  | 'l' => some (chmLimit x dir c r)
  | 'm' => some (chmSimple .moderated x dir c r)
  | 'n' => some (chmSimple .noPrivMsgs x dir c r)
  | 'o' => some (chmOp x dir c r)
  | 'p' => some (chmSimple .paranoid x dir c r)
  | 's' => some (chmSimple .secret x dir c r)
  | 't' => some (chmSimple .topicLimit x dir c r)
  | 'v' => some (chmVoice x dir c r)
  | _ => some r

/-- The direction behind a character. -/
def Dir.read (dir : Dir) : Char → Dir
  | '+' => .add
  | '-' => .del
  | '=' => .query
  | _ => dir

/-- The loop of `set_channel_mode` over the letters. -/
def readLetters (x : ModeContext) : List Char → Dir → ModeRun → Option ModeRun
  | [], _, r => some r
  | c :: letters, dir, r =>
    if c = '+' ∨ c = '-' ∨ c = '=' then readLetters x letters (dir.read c) r
    else
      match modeTable x dir c r with
      | none => none
      | some r => readLetters x letters dir r

/-- A MODE command as `m_mode` hands it on: `parv` has the letters in front of the parameters. -/
structure ModeCommand where
  clientP : ClientId
  source : ClientId
  chptr : ChannelId
  parv : List (List Char)

def ModeCommand.context (m : ModeCommand) (s : State) : ModeContext :=
  ⟨s, m.clientP, m.source, m.chptr, m.parv, s.getChannelAccess m.source (s.channel m.chptr)⟩

/-- What `set_channel_mode` begins with. -/
def ModeCommand.start (m : ModeCommand) (s : State) : ModeRun :=
  ⟨⟨s.channel m.chptr, [], []⟩, 1, 0, 0⟩

/-- `set_channel_mode`, up to what it sends. -/
def State.setChannelMode (s : State) (m : ModeCommand) : Option Changes :=
  (readLetters (m.context s) (m.parv.headD []) .add (m.start s)).map ModeRun.changes

/-- The state after a MODE. -/
def State.mode (s : State) (m : ModeCommand) : Option State :=
  (s.setChannelMode m).map fun changes => s.setChannel m.chptr changes.ch

end Ircd.Chan
