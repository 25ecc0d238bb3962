import Ircd.Who.Replies

/-!
# The targets of a message

`m_message` and `build_target_list` of `modules/m_message.c`: the names of the list are looked up as channels, as people,
as channels with a prefix, and for an oper as masks. What is found goes to a table, which is worked off afterwards; masks
are dealt with at once.
-/
namespace Ircd.Message

open Ircd.Chan (ircMatch collapse)
open Ircd.Routing (ClientId)
open Ircd.Who (ChannelId Network)

/-- `IsChanPrefix`, of the first character. -/
def isChanPrefix (name : List Char) : Bool := decide (name.head? = some '#' ∨ name.head? = some '&')

/-- Whom a message is for. -/
inductive Target
  | channel (c : ChannelId)
  | person (p : ClientId)
  deriving DecidableEq

/-- The bits of `type`: `MODE_CHANOP`, `MODE_HALFOP` and `MODE_VOICE`. -/
structure Ranks where
  chanop : Bool
  halfop : Bool
  voice : Bool
  deriving DecidableEq

/-- `struct entity`. Channels that were named without a prefix are `ENTITY_CHANNEL`, and have no flags. -/
structure Entity where
  ptr : Target
  flags : Option Ranks
  deriving DecidableEq

/-- What is sent while the list is read. -/
inductive Act
  | noSuchNick (nick : List Char)
  | noRecipient
  | noLongerSupported (nick : List Char)
  | noTopLevel (nick : List Char)
  | wildTopLevel (nick : List Char)
  | tooManyTargets (nick : List Char)
  | matchHost (mask : List Char)
  | matchServer (mask : List Char)
  | forward (server : ClientId) (nick : List Char)
  | locops
  | anywhere (target : ClientId)
  deriving DecidableEq

/-- A name that begins like that of a channel, or with a prefix. -/
def marked (name : List Char) : Bool := name.head?.any fun c => decide (c ∈ ['#', '&', '@', '%', '+'])

/-- A message of a user: the network that it is sent on, who sends it and over which link it comes, `p_or_n`, and
`max_targets`. The name of a person is a nick. -/
structure Command where
  net : Network
  source : ClientId
  client : ClientId
  notice : Bool
  maxTargets : ℤ
  nicks : ∀ c ∈ net.clientTable, net.isPerson c = true → marked (net.client c).name = false

/-- What becomes of a name. -/
inductive Turn
  | add (e : Entity)
  | say (act : Option Act)
  | relay

namespace Command

variable (m : Command)

/-! ### Lookups -/

/-- `find_person`. -/
def findPerson (name : List Char) : Option ClientId := (m.net.findClient name).filter fun c => m.net.isPerson c

/-- `find_userhost`: the last who matches, and how many do. -/
def findUserhost (user : List Char) (host : Option (List Char)) : Option ClientId × ℕ :=
  let found := m.net.globalClientList.filter fun c =>
    (m.net.client c).myConnect && decide ((m.net.client c).status = .client) &&
      host.all (fun host => ircMatch host (m.net.detail c).host) &&
      decide (IrcEq (collapse user) (m.net.detail c).username)
  (found.getLast?, found.length)

/-- `IsOper`. -/
def oper : Bool := (m.net.detail m.source).oper

/-- `IsServer`, of the link. -/
def fromServer : Bool := decide ((m.net.client m.client).status = .server)

/-! ### Masks -/

/-- `handle_opers`, for a mask behind `$`. -/
def handleMask (nick : List Char) : Act :=
  let doubled := nick[1]? = some '$' ∨ nick[1]? = some '#'
  if ¬doubled ∧ (m.net.client m.source).myConnect ∧ m.oper then .noLongerSupported nick
  else
    let nick := if doubled then nick.tail else nick
    if '.' ∉ nick then .noTopLevel nick
    else if (nick.reverse.takeWhile (· ≠ '.')).any fun c => c = '*' || c = '?' then .wildTopLevel nick
    else if nick.head? = some '#' then .matchHost nick.tail
    else .matchServer nick.tail

/-- `handle_opers`, for `user[%host]@server`. -/
def handleUserhost (nick : List Char) : Option Act :=
  (m.net.findServer ((nick.dropWhile (· ≠ '@')).drop 1)).bind fun target =>
    if (m.net.client target).status ≠ .me then some (.forward target nick)
    else
      let address := nick.takeWhile (· ≠ '@')
      let user := address.takeWhile (· ≠ '%')
      let host := if '%' ∈ address then some ((address.dropWhile (· ≠ '%')).drop 1) else none
      if user = "opers".toList then some .locops
      else
        let (target, count) := m.findUserhost user host
        target.map fun target => if count = 1 then .anywhere target else .tooManyTargets nick

/-- `handle_opers`. -/
def handleOpers (nick : List Char) : Option Act :=
  if nick.head? = some '$' then some (m.handleMask nick)
  else if '@' ∈ nick then m.handleUserhost nick
  else none

/-- The condition for `handle_opers`. -/
def handled (nick : List Char) : Bool := m.oper && decide (nick.head? = some '$' ∨ '@' ∈ nick)

/-! ### A name -/

/-- What becomes of a name that nothing is found for. -/
def miss (nick : List Char) : Turn :=
  if m.net.lazyLeaf then .relay else .say (if m.notice then none else some (.noSuchNick nick))

/-- The end of the loop body. -/
def rest (nick : List Char) : Turn := if m.handled nick then .say (m.handleOpers nick) else m.miss nick

/-- The loop over `@`, `%` and `+`: the ranks, none if there is no prefix, and the rest of the name. -/
def stripPrefix (type : Option Ranks) : List Char → Option Ranks × List Char
  | '@' :: nick => stripPrefix (some { type.getD ⟨false, false, false⟩ with chanop := true }) nick
  | '%' :: nick => stripPrefix (some { type.getD ⟨false, false, false⟩ with chanop := true, halfop := true }) nick
  | '+' :: nick => stripPrefix (some ⟨true, true, true⟩) nick
  | nick => (type, nick)

/-- `!is_any_op` and `!is_voiced`, negated. -/
def ranked (c : ChannelId) : Bool := (m.net.channel c).isAnyOp m.source || (m.net.channel c).isVoiced m.source

/-- `duplicate_ptr`. -/
def duplicatePtr (targets : List Entity) (ptr : Target) : Bool := targets.any fun e => e.ptr = ptr

/-- The name as a channel with a prefix. -/
def asPrefixed (targets : List Entity) (name : List Char) : Turn :=
  match stripPrefix none name with
  | (none, nick) => m.rest nick
  | (some type, nick) =>
    if nick = [] then .say (some .noRecipient)
    else
      match m.net.hashFindChannel nick with
      | some c =>
        if m.ranked c = false then .say (some (.noSuchNick name))
        else if duplicatePtr targets (.channel c) then m.rest nick
        else .add ⟨.channel c, some type⟩
      | none => m.miss nick

/-- The name as a person. -/
def asPerson (targets : List Entity) (name : List Char) : Turn :=
  match m.findPerson name with
  | some p => if duplicatePtr targets (.person p) then m.asPrefixed targets name else .add ⟨.person p, none⟩
  | none => m.asPrefixed targets name

/-- The body of the loop of `build_target_list`. -/
def turn (targets : List Entity) (name : List Char) : Turn :=
  if isChanPrefix name then
    if m.fromServer ∧ name.head? = some '&' then .say none
    else
      match m.net.hashFindChannel name with
      | some c => if duplicatePtr targets (.channel c) then m.asPerson targets name else .add ⟨.channel c, none⟩
      | none => m.miss name
  else m.asPerson targets name

/-! ### The list -/

/-- What has been sent, with the name that it was sent about. -/
abbrev Log := List (List Char × Act)

/-- The loop of `build_target_list`. A lazy leaf that does not know a name gives up. -/
def buildTargets (targets : List Entity) : List (List Char) → Option (List Entity × Log)
  | [] => some (targets, [])
  | name :: names =>
    match m.turn targets name with
    | .add e =>
      if m.maxTargets ≤ (targets ++ [e]).length then some (targets ++ [e], []) else buildTargets (targets ++ [e]) names
    | .say act => (buildTargets targets names).map fun (table, log) => (table, (act.map (name, ·)).toList ++ log)
    | .relay => none

/-- The names that `strtoken` gives. -/
def tokens (list : List Char) : List (List Char) := (list.splitOn ',').filter (· ≠ [])

/-- `build_target_list`. -/
def buildTargetList (list : List Char) : Option (List Entity × Log) := m.buildTargets [] (tokens list)

/-- What `m_message` does: it complains, hands the message to the hub, or works off the targets. -/
inductive Outcome
  | noRecipient | noTextToSend | nothing
  | uplink
  | sent (targets : List Entity) (log : Log)
  deriving DecidableEq

/-- `m_message`. -/
def mMessage (list text : List Char) : Outcome :=
  if list = [] then if m.notice then .nothing else .noRecipient
  else if text = [] then if m.notice then .nothing else .noTextToSend
  else
    match m.buildTargetList list with
    | none => .uplink
    | some (targets, log) => .sent targets log

end Command

end Ircd.Message
