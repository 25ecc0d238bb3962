import Ircd.Who.State
import Ircd.Channel.Mask
import Ircd.Lib.Fresh

/-!
# WHO with a mask

`who_global` lists the invisible people on the requester's channels, each marked so that it is listed once, and then the
visible ones of the whole network. The second pass takes the marks away. Both passes draw on `maxmatches`.
-/
namespace Ircd.Who

open Ircd.Chan (ircMatch Rank)
open Ircd.Routing (ClientId)

/-- What the passes change: the marks of the clients, the budget, and the replies so far. -/
structure Scan where
  marked : ClientId → Bool
  maxmatches : ℕ
  listed : List ClientId

namespace Network

variable (net : Network) (source : ClientId) (mask : Option (List Char)) (serverOper : Bool)

/-- The test of a client against the mask, which both passes have. -/
def answers (target : ClientId) : Bool :=
  match mask with
  | none => true
  | some mask => ircMatch mask (net.client target).name || ircMatch mask (net.detail target).username ||
      ircMatch mask (net.detail target).host ||
      ircMatch mask (net.client (net.detail target).servptr).name || ircMatch mask (net.detail target).info

/-- `who_common_channel`. -/
def whoCommonChannel : List ClientId → Scan → Scan
  | [], w => w
  | target :: chain, w =>
    if !(net.detail target).invisible || w.marked target then whoCommonChannel chain w
    else if serverOper && !(net.detail target).oper then whoCommonChannel chain w
    else
      let w := { w with marked := Function.update w.marked target true }
      if net.answers mask target then
        let w := { w with listed := w.listed ++ [target] }
        if w.maxmatches > 0 then
          let w := { w with maxmatches := w.maxmatches - 1 }
          if w.maxmatches = 0 then w else whoCommonChannel chain w
        else whoCommonChannel chain w
      else whoCommonChannel chain w

/-- The first loop of `who_global`. -/
def whoChannels (w : Scan) : Scan :=
  (net.channels source).foldl (fun w chptr =>
    Rank.all.foldl (fun w rank => net.whoCommonChannel mask serverOper ((net.channel chptr).members rank) w) w) w

/-- The second loop of `who_global`. -/
def whoVisible : List ClientId → Scan → Scan
  | [], w => w
  | target :: list, w =>
    if !net.isPerson target then whoVisible list w
    else if (net.detail target).invisible then
      whoVisible list { w with marked := Function.update w.marked target false }
    else if serverOper && !(net.detail target).oper then whoVisible list w
    else if net.answers mask target then
      let w := { w with listed := w.listed ++ [target] }
      if w.maxmatches > 0 then
        let w := { w with maxmatches := w.maxmatches - 1 }
        if w.maxmatches = 0 then w else whoVisible list w
      else whoVisible list w
    else whoVisible list w

/-- `who_global`. -/
def whoGlobal (marked : ClientId → Bool) : Scan :=
  net.whoVisible mask serverOper net.globalClientList
    (net.whoChannels source mask serverOper ⟨marked, 500, []⟩)

/-! ### What a chain of members comes to -/

/-- Those whom the first pass marks when it comes to them. -/
def hidden (target : ClientId) : Bool :=
  (net.detail target).invisible && (!serverOper || (net.detail target).oper)

/-- Those whom the second pass lists. -/
def shown (target : ClientId) : Bool :=
  net.isPerson target && !(net.detail target).invisible && (!serverOper || (net.detail target).oper) &&
    net.answers mask target

/-- Those whom the first pass lists when it comes to them. -/
def found (target : ClientId) : Bool := net.hidden serverOper target && net.answers mask target

variable {net source mask serverOper} {chain list : List ClientId} {w : Scan} {target : ClientId}

/-- Those of a chain whom the first pass lists, if the budget suffices. -/
def News (net : Network) (mask : Option (List Char)) (serverOper : Bool) (marked : ClientId → Bool)
    (chain : List ClientId) : List ClientId :=
  fresh marked (chain.filter (net.found mask serverOper))

theorem whoChannels_eq (net : Network) (source : ClientId) (mask : Option (List Char)) (serverOper : Bool) (w : Scan) :
    net.whoChannels source mask serverOper w =
      (net.memberLists source).foldl (fun w chain => net.whoCommonChannel mask serverOper chain w) w := by
  rw [whoChannels, memberLists, List.foldl_flatMap]
  simp only [List.foldl_map]

end Network

end Ircd.Who
