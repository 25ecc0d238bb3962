import Ircd.Who.Replies

/-!
# The replies to WHOIS

`do_whois` for a nick without wildcards. The channels of the person are written to `buf`, which is sent when the next one
does not fit.
-/
namespace Ircd.Who

open Ircd.Chan (collapse Rank)
open Ircd.Routing (ClientId)

/-- `channel_chanop_or_voice`. -/
def Channel.chanopOrVoice (c : Channel) (target : ClientId) : List Char :=
  if target ∈ c.members .chanop then ['@']
  else if target ∈ c.members .halfop then ['%']
  else if target ∈ c.members .voiced then ['+']
  else if target ∈ c.members .chanopVoiced then ['@', '+']
  else []

/-- `BUFSIZE`. -/
def bufsize : ℕ := 512

/-- What is written to `buf`: the lines that have been sent, what follows the head of the line now, and
`reply_to_send`. -/
structure ChannelLines where
  sent : List (List Char)
  t : List Char
  replyToSend : Bool

namespace Network

variable (net : Network) (source : ClientId)

/-- `ShowChannel`. -/
def showChannel (chptr : ChannelId) : Bool := (net.channel chptr).pub || net.isMember source chptr

/-- The head of the line with the channels, as `RPL_WHOISCHANNELS` has it. -/
def whoisHead (target : ClientId) : List Char :=
  ':' :: (net.client net.me).name ++ [' ', '3', '1', '9', ' '] ++ (net.client source).name ++ [' '] ++
    (net.client target).name ++ [' ', ':']

/-- What is written about a channel. -/
def whoisChannel (target : ClientId) (chptr : ChannelId) : List Char :=
  let c := net.channel chptr
  if .hideOps ∈ c.mode ∧ c.isAnyOp source = false then c.chname ++ [' ']
  else c.chanopOrVoice target ++ c.chname ++ [' ']

/-- The loop of `whois_person` over the channels. -/
def whoisChannelsLoop (target : ClientId) : List ChannelId → ChannelLines → ChannelLines
  | [], w => w
  | chptr :: rest, w =>
    if net.showChannel source chptr then
      let head := net.whoisHead source target
      let w := if head.length + w.t.length + (net.channel chptr).chname.length + 2 > bufsize - 4 then
        { w with sent := w.sent ++ [head ++ w.t], t := [] } else w
      whoisChannelsLoop target rest
        { w with t := w.t ++ net.whoisChannel source target chptr, replyToSend := true }
    else whoisChannelsLoop target rest w

/-- The replies with the channels. -/
def whoisChannels (target : ClientId) : List Reply :=
  let w := net.whoisChannelsLoop source target (net.channels target) ⟨[], [], false⟩
  let lines := w.sent ++ if w.replyToSend then [net.whoisHead source target ++ w.t] else []
  lines.map fun line => .whoisChannels (net.client target).name line

/-- `whois_person`. -/
def whoisPerson (target : ClientId) (glob : Bool) : List Reply :=
  let d := net.detail target
  let name := (net.client target).name
  let serverName := (net.client d.servptr).name
  let sourceOper := (net.detail source).oper
  [.whoisUser name d.username d.host d.info] ++
    net.whoisChannels source target ++
    [if sourceOper || !net.hideServers || decide (target = source) then
        .whoisServer name serverName (match net.findServer serverName with
          | some a2client => (net.detail a2client).info
          | none => "*Not On This Net*".toList)
      else .whoisServer name net.networkName net.networkDesc] ++
    (match d.user.bind User.away with
      | some text => [.away name text]
      | none => []) ++
    (if d.oper then .whoisOperator name :: (if d.admin then [.whoisAdmin name] else []) else []) ++
    -- the idle time is known where the person is
    (if glob || ((net.client target).myConnect && (sourceOper || !net.hideServers)) || decide (target = source) then
      [.whoisIdle name (net.currentTime - (d.user.map User.last).getD 0) d.firsttime] else [])

/-- Whether the loop of `single_whois` finds a channel for which the person is shown. -/
def showperson (target : ClientId) : Bool :=
  let invis := (net.detail target).invisible
  (net.channels target).any fun chptr =>
    let member := net.isMember source chptr
    let c := net.channel chptr
    member || (!invis && c.pub) || (!invis && decide (.paranoid ∈ c.mode) && !c.secret)

/-- `single_whois`. -/
def singleWhois (target : ClientId) (wilds glob : Bool) : List Reply :=
  let d := net.detail target
  let name := if (net.client target).name = [] then ['?'] else (net.client target).name
  match d.user with
  | none => [.whoisUser name d.username d.host d.info,
      .whoisServer name "<Unknown>".toList "*Not On This Net*".toList]
  | some _ =>
    if (wilds && !d.invisible && (net.channels target).isEmpty) || !wilds || net.showperson source target then
      net.whoisPerson source target glob
    else []

/-- `MyClient`. -/
def myClient (who : ClientId) : Bool := (net.client who).myConnect && decide ((net.client who).status = .client)

/-- `do_whois` for a text without wildcards. A lazy leaf passes on what it does not know. -/
def doWhois (text : List Char) (glob : Bool) : List Reply :=
  let nick := collapse (text.takeWhile (· != ','))
  match net.findClient nick with
  | some target =>
    let glob := glob && net.myClient target
    if net.isPerson target then net.singleWhois source target false glob ++ [.endOfWhois nick]
    else [.noSuchNick nick]
  | none => if net.lazyLeaf then [] else [.noSuchNick nick]

/-! ### What is shown of the channels -/

/-- The loop does nothing about channels that are not shown. -/
theorem whoisChannelsLoop_filter (target : ClientId) (l : List ChannelId) (w : ChannelLines) :
    net.whoisChannelsLoop source target l w =
      net.whoisChannelsLoop source target (l.filter (net.showChannel source)) w := by
  induction l generalizing w with
  | nil => rfl
  | cons c l ih =>
    cases shows : net.showChannel source c with
    | true =>
      rw [List.filter_cons_of_pos shows, whoisChannelsLoop, whoisChannelsLoop, if_pos shows, if_pos shows]
      exact ih _
    | false =>
      rw [List.filter_cons_of_neg (by simp [shows]), whoisChannelsLoop, if_neg (by simp [shows])]
      exact ih w

end Network

end Ircd.Who
