import Ircd.Who.Global

/-!
# The replies to WHO

`m_who`: a mask or none, a channel, the requester's own first channel, or a nick. The channel that a nick is shown with
is the one at which the loop over its channels stands when it ends.
-/
namespace Ircd.Who

open Ircd.Chan (ircMatch collapse Rank)
open Ircd.Routing (ClientId)

/-- A numeric, without the server and the requester, which are in all of them. -/
inductive Reply
  | whoReply (chname username host server name status : List Char) (hopcount : ℕ) (info : List Char)
  | endOfWho (mask : List Char)
  | whoisUser (name username host info : List Char)
  | whoisChannels (name text : List Char)
  | whoisServer (name server info : List Char)
  | away (name text : List Char)
  | whoisOperator (name : List Char)
  | whoisAdmin (name : List Char)
  | whoisIdle (name : List Char) (idle signon : ℤ)
  | endOfWhois (name : List Char)
  | noSuchNick (name : List Char)
  deriving DecidableEq

/-! ### Ranks -/

/-- `is_chan_op`. -/
def Channel.isChanOp (c : Channel) (who : ClientId) : Bool :=
  decide (who ∈ c.members .chanop ∨ who ∈ c.members .chanopVoiced)

/-- `is_any_op`. -/
def Channel.isAnyOp (c : Channel) (who : ClientId) : Bool :=
  decide (who ∈ c.members .chanop ∨ who ∈ c.members .halfop ∨ who ∈ c.members .chanopVoiced)

/-- `is_half_op`. -/
def Channel.isHalfOp (c : Channel) (who : ClientId) : Bool := decide (who ∈ c.members .halfop)

/-- `is_voiced`. -/
def Channel.isVoiced (c : Channel) (who : ClientId) : Bool :=
  decide (who ∈ c.members .voiced ∨ who ∈ c.members .chanopVoiced)

/-- The strings of `flags` that are read. -/
structure Flags where
  chanop : List Char
  halfop : List Char
  voiced : List Char

/-- `set_channel_mode_flags`. -/
def setChannelModeFlags (c : Channel) (source : ClientId) : Flags :=
  if .hideOps ∈ c.mode ∧ c.isAnyOp source = false then ⟨[], [], []⟩ else ⟨['@'], ['%'], ['+']⟩

namespace Network

variable (net : Network) (source : ClientId)

/-- `do_who`. -/
def doWho (target : ClientId) (chname : Option (List Char)) (opFlags : List Char) : Reply :=
  let d := net.detail target
  let away := (d.user.bind User.away).isSome
  let status := (if away then 'G' else 'H') :: ((if d.oper then ['*'] else []) ++ opFlags)
  let servptr := (net.client d.servptr).name
  if net.hideServers then
    .whoReply (chname.getD ['*']) d.username d.host (if (net.detail source).oper then servptr else ['*'])
      (net.client target).name status 0 d.info
  else .whoReply (chname.getD ['*']) d.username d.host servptr (net.client target).name status d.hopcount d.info

/-- The loop of `do_who_list`. Every round takes one of each list. -/
def doWhoList (c : Channel) (flags : Flags) (chname : List Char)
    (peons chanops halfops voiced chanopsVoiced : List ClientId) : List Reply :=
  if peons = [] ∧ chanops = [] ∧ halfops = [] ∧ voiced = [] ∧ chanopsVoiced = [] then []
  else
    let voice (target : ClientId) : List Char :=
      if target = source ∧ c.isVoiced source = true ∧ .hideOps ∈ c.mode then ['+'] else flags.voiced
    (peons.head?.map fun target => net.doWho source target (some chname) []).toList ++
      (chanops.head?.map fun target => net.doWho source target (some chname) flags.chanop).toList ++
      (halfops.head?.map fun target => net.doWho source target (some chname) flags.halfop).toList ++
      (voiced.head?.map fun target => net.doWho source target (some chname) (voice target)).toList ++
      (chanopsVoiced.head?.map fun target => net.doWho source target (some chname) flags.chanop).toList ++
      doWhoList c flags chname peons.tail chanops.tail halfops.tail voiced.tail chanopsVoiced.tail
termination_by peons.length + chanops.length + halfops.length + voiced.length + chanopsVoiced.length
decreasing_by
  cases peons <;> cases chanops <;> cases halfops <;> cases voiced <;> cases chanopsVoiced <;>
    simp_all <;> omega

/-- `do_who_on_channel`. -/
def doWhoOnChannel (chptr : ChannelId) (chname : List Char) : List Reply :=
  let c := net.channel chptr
  net.doWhoList source c (setChannelModeFlags c source) chname (c.members .peon) (c.members .chanop)
    (c.members .halfop) (c.members .voiced) (c.members .chanopVoiced)

/-- The replies to `/who #some_channel`. -/
def whoChannel (mask : List Char) : List Reply :=
  match net.hashFindChannel mask with
  | none => []
  | some chptr =>
    let c := net.channel chptr
    if net.isMember source chptr then net.doWhoOnChannel source chptr c.chname
    else if !c.secret then net.doWhoOnChannel source chptr c.chname
    else []

/-- The loop of `/who nick` over the channels of the target. It is left at a channel that may be shown, and has gone
past the others. -/
def whoNickLoop (isinvis : Bool) : Option ChannelId → List ChannelId → Option ChannelId
  | chptr, [] => chptr
  | _, chptr :: rest =>
    let member := net.isMember source chptr
    if isinvis && !member then whoNickLoop isinvis (some chptr) rest
    else if member || (!isinvis && (net.channel chptr).pub) then some chptr
    else whoNickLoop isinvis (some chptr) rest

/-- The reply about a nick. -/
def whoNick (target : ClientId) : Reply :=
  match net.whoNickLoop source (net.detail target).invisible none (net.channels target) with
  | some chptr =>
    let c := net.channel chptr
    let flags := setChannelModeFlags c source
    if c.isChanOp target then net.doWho source target (some c.chname) flags.chanop
    else if c.isHalfOp target then net.doWho source target (some c.chname) flags.halfop
    else if c.isVoiced target then net.doWho source target (some c.chname) flags.voiced
    else net.doWho source target (some c.chname) []
  | none => net.doWho source target none []

/-- The client that `/who nick` finds, with the flag for operators. -/
def whoTarget (mask : List Char) (serverOper : Bool) : Option ClientId :=
  (net.findClient mask).filter fun target =>
    net.isPerson target && (!serverOper || (net.detail target).oper)

/-- `IsChannelName`. -/
def isChannelName (name : List Char) : Bool := decide (name.head? = some '#' ∨ name.head? = some '&')

/-- The client that a WHO is about, if it comes to `/who nick`. -/
def whoNickTarget (mask : Option (List Char)) (serverOper : Bool) : Option ClientId :=
  mask.bind fun mask =>
    let mask := collapse mask
    if mask = [] ∨ mask = ['*'] ∨ isChannelName mask = true then none else net.whoTarget mask serverOper

/-- A call of `who_global` and the reply behind it. -/
def whoMask (mask : Option (List Char)) (serverOper : Bool) (marked : ClientId → Bool) (end_ : List Char) :
    List Reply × (ClientId → Bool) :=
  let w := net.whoGlobal source mask serverOper marked
  (w.listed.map (fun target => net.doWho source target none []) ++ [.endOfWho end_], w.marked)

/-- `m_who`, with the marks of the clients. -/
def mWho (mask : Option (List Char)) (serverOper : Bool) (marked : ClientId → Bool) :
    List Reply × (ClientId → Bool) :=
  match mask with
  | none => net.whoMask source none serverOper marked ['*']
  | some mask =>
    let mask := collapse mask
    if mask = [] then ([.endOfWho ['*']], marked)
    -- the first channel of the requester
    else if mask = ['*'] then
      match (net.channels source).head? with
      | none => ([.endOfWho ['*']], marked)
      | some mychannel => (net.doWhoOnChannel source mychannel ['*'] ++ [.endOfWho ['*']], marked)
    else if isChannelName mask then
      (net.whoChannel source mask ++ [.endOfWho mask], marked)
    else
      match net.whoTarget mask serverOper with
      | some target => ([net.whoNick source target, .endOfWho mask], marked)
      | none =>
        if mask = ['0'] then net.whoMask source none serverOper marked mask
        else net.whoMask source (some mask) serverOper marked mask

/-- The mask of a WHO that comes to `who_global`, and none for another WHO. -/
def globalMask (mask : Option (List Char)) (serverOper : Bool) : Option (Option (List Char)) :=
  match mask with
  | none => some none
  | some mask =>
    let mask := collapse mask
    if mask = [] ∨ mask = ['*'] ∨ isChannelName mask = true ∨ (net.whoTarget mask serverOper).isSome then none
    else if mask = ['0'] then some none
    else some (some mask)

variable {net source} {mask : Option (List Char)} {serverOper : Bool} {marked : ClientId → Bool}

end Network

end Ircd.Who
