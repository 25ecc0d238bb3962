import Ircd.Who.Replies
import Ircd.Lib.Run
import Mathlib.Data.List.Perm.Basic

/-!
# The marks that WHO leaves

A budget that ends in the second pass keeps the pass from the clients behind, whose marks stay; the next requester who
shares a channel with one of them does not get it. A budget that ends in the first pass leaves a budget of zero, which is
no limit.
-/
namespace Ircd.Who

open Ircd.Chan (ircMatch Rank)
open Ircd.Routing (ClientId)

namespace Network

variable (net : Network) (source : ClientId) (mask : Option (List Char)) (serverOper : Bool)

instance (target : ClientId) : Decidable (net.Together source target) :=
  inferInstanceAs (Decidable (∃ c ∈ net.channels source, c ∈ net.channels target))

/-- A person that matches, and that the requester may see. -/
def wanted (target : ClientId) : Bool :=
  net.isPerson target && (!(net.detail target).invisible || decide (net.Together source target)) &&
    (!serverOper || (net.detail target).oper) && net.answers mask target

/-- How many of them there are. -/
def wantedCount : ℕ := (net.globalClientList.filter (net.wanted source mask serverOper)).length

/-- A WHO is answered as it should be: nobody twice, nobody else, everybody or 500 of them, and no marks. -/
structure Answered (listed : List ClientId) (marked : ClientId → Bool) : Prop where
  nodup : listed.Nodup
  only : ∀ t ∈ listed, t ∈ net.globalClientList ∧ net.wanted source mask serverOper t = true
  all : net.wantedCount source mask serverOper ≤ 500 →
    ∀ t ∈ net.globalClientList, net.wanted source mask serverOper t = true → t ∈ listed
  many : 500 < net.wantedCount source mask serverOper → listed.length = 500
  clean : ∀ t ∈ net.globalClientList, marked t = false

/-- The matching invisible people on the requester's channels, each where it is first come to. -/
def firstPass (chains : List (List ClientId)) : List ClientId :=
  net.News mask serverOper (fun _ => false) chains.flatten

/-- The passes come to an end as they should: behind the visible people that the rest of the budget pays for there is no
invisible one of the requester's channels; or if the first pass needs the whole budget, nobody visible matches, and no
channel list behind the one where it ends has anybody new. -/
def Fits : Prop :=
  let first := net.firstPass mask serverOper (net.memberLists source)
  if first.length < 500 then
    ∀ front t back, net.globalClientList = front ++ t :: back →
      500 ≤ first.length + (front.filter (net.shown mask serverOper)).length →
      ¬ (net.hidden serverOper t = true ∧ net.Together source t)
  else
    (∀ t ∈ net.globalClientList, net.shown mask serverOper t = false) ∧
    ∀ before after, net.memberLists source = before ++ after →
      500 ≤ (net.firstPass mask serverOper before).length →
      ∀ t ∈ after.flatten, net.found mask serverOper t = true → t ∈ first.take 500

variable {net source mask serverOper} {marked : ClientId → Bool} {target : ClientId}

end Network

/-! ### Runs -/

/-- The clients and channels, and which clients are marked. -/
structure State where
  net : Network
  marked : ClientId → Bool

/-- A WHO with its parameters, or anything else, which may change the network but not the marks. A new client has none. -/
inductive Event
  | who (source : ClientId) (params : List (List Char))
  | change (net : Network)

/-- The flag of a WHO for operators. -/
def serverOper (params : List (List Char)) : Bool := decide (params[1]?.bind List.head? = some 'o')

/-- What an event does to the marks. -/
def step (s : State) : Event → State
  | .who source params => { s with marked := (s.net.mWho source params[0]? (serverOper params) s.marked).2 }
  | .change net => ⟨net, fun t => s.marked t && decide (t ∈ s.net.globalClientList)⟩

/-- A WHO that comes to `who_global` replies with a line for each client listed, and these are the ones they should
be. -/
def Right (s : State) : Event → Prop
  | .who source params => ∀ mask, s.net.globalMask params[0]? (serverOper params) = some mask →
    ∃ end_, (s.net.mWho source params[0]? (serverOper params) s.marked).1 =
        (s.net.whoGlobal source mask (serverOper params) s.marked).listed.map
          (fun target => s.net.doWho source target none []) ++ [.endOfWho end_] ∧
      s.net.Answered source mask (serverOper params)
        (s.net.whoGlobal source mask (serverOper params) s.marked).listed
        (s.net.mWho source params[0]? (serverOper params) s.marked).2
  | .change _ => True

/-- The passes of a WHO come to an end as they should. -/
def Ends (s : State) : Event → Prop
  | .who source params => ∀ mask, s.net.globalMask params[0]? (serverOper params) = some mask →
    s.net.Fits source mask (serverOper params)
  | .change _ => True

/-- No client is marked. -/
def State.Clean (s : State) : Prop := ∀ t ∈ s.net.globalClientList, s.marked t = false

/-- The server before the first WHO. -/
def State.start (net : Network) : State := ⟨net, fun _ => false⟩

/-- A name for every client. -/
def crowdName (who : ClientId) : List Char := 'u' :: Nat.toDigits 10 who

/-- Five hundred visible people; behind them on the list one who is invisible, and on a channel with the first. -/
def crowd : Network where
  client who := ⟨crowdName who, [], if who = 501 then .me else .client, who, true, false⟩
  me := 501
  globalClientList := List.range 502
  clientTable := List.range 502
  idTable := []
  detail who := ⟨['u'], ['h'], ['i'], 501, 0, false, false, decide (who = 500), 0,
    if who = 501 then none else some ⟨none, 0⟩⟩
  channels who := if who = 0 ∨ who = 500 then [0] else []
  channel _ := ⟨['#', 'c'], ∅, fun rank => if rank = .peon then [500, 0] else []⟩
  channelTable := [0]
  hideServers := false
  networkName := ['n']
  networkDesc := ['d']
  currentTime := 1000
  lazyLeaf := false
  isMe := rfl
  last := by simp [List.getLast?_range]
  nodup := List.nodup_range
  own _ _ := rfl
  direct _ := rfl
  hashed who member := by simpa using member
  named := by simp
  exists_ who c on := by
    by_cases member : who = 0 ∨ who = 500
    · simpa [member] using on
    · simp [member] at on
  linked who c known := by
    obtain rfl : c = 0 := by simpa using known
    have members : (∃ rank, who ∈ if rank = Rank.peon then [500, 0] else []) ↔ who = 0 ∨ who = 500 := by
      constructor
      · rintro ⟨rank, member⟩
        by_cases peon : rank = .peon
        · simp only [if_pos peon, List.mem_cons, List.not_mem_nil, or_false] at member
          exact member.symm
        · simp [peon] at member
      · intro member
        exact ⟨.peon, by simpa using member.symm⟩
    rw [members]
    by_cases member : who = 0 ∨ who = 500 <;> simp [member]
  people c known rank who member := by
    have first : who = 500 ∨ who = 0 := by
      by_cases peon : rank = .peon
      · simpa [peon] using member
      · simp [peon] at member
    rcases first with rfl | rfl <;> simp

end Ircd.Who
