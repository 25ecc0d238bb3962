import Ircd.Nick.Arrive
import Ircd.Channel.Burst
import Ircd.Channel.Vchan
import Mathlib.Data.List.Count

/-!
# The burst to a new server

`burst_all` of `src/s_serv.c`: the clients of the server, then its channels. It is for a server
without LazyLinks.
-/
namespace Ircd

open Chan (ClientId ChannelId)

/-! ### The burst -/

/-- The calls of `burst_all`, in order. -/
inductive BurstCall where
  | burstClient (target : ClientId)
  | burstChannel (chptr : ChannelId)
deriving DecidableEq

/-- What a burst does: the calls, the clients' side of the server after it, and the lines about
channels. -/
structure Burst where
  calls : List BurstCall
  clients : Nick.State
  lines : List (List Char)

/-- The one comes before the other, wherever that comes. -/
def Before {α : Type*} (first second : α) (l : List α) : Prop :=
  first ∈ l ∧ ∀ front back, l = front ++ second :: back → first ∈ front

/-- Every channel with users is burst once, top channels before their virtual channels, and
everybody on them who is not behind the new link has been introduced. -/
structure Burst.Complete (burst : Burst) (n : Nick.State) (s : Chan.State) (link : ClientId) :
    Prop where
  once : ∀ chptr ∈ s.globalChannelList, (s.channel chptr).users ≠ 0 →
    burst.calls.count (.burstChannel chptr) = 1
  topFirst : ∀ top ∈ s.globalChannelList, (s.channel top).users ≠ 0 →
    ∀ vchan ∈ (s.channel top).vchanList, (s.channel vchan).users ≠ 0 →
      Before (.burstChannel top) (.burstChannel vchan) burst.calls
  introduced : ∀ who ∈ n.globalClientList, (n.client who).isPerson = true →
    (n.client who).source ≠ link → (∃ server umodes,
      (link, n.introLine link who server umodes) ∈ burst.clients.sent) ∧
    ∀ chptr rank, who ∈ (s.channel chptr).members rank →
      Before (.burstClient who) (.burstChannel chptr) burst.calls

variable {n n' : Nick.State} {s : Chan.State} {link : ClientId}

/-- The clients are as they were, nothing that has been sent is lost, and the targets have been
introduced. -/
structure Introduces (n n' : Nick.State) (link : ClientId) (targets : List ClientId) : Prop where
  client : n'.client = n.client
  hasUid : n'.hasUid = n.hasUid
  sent : n.sent ⊆ n'.sent
  lines : ∀ who ∈ targets, ∃ server umodes, (link, n.introLine link who server umodes) ∈ n'.sent

end Ircd
