import Ircd.Routing.ClientTable

/-!
# Requests for another server

`hunt_server` of `src/s_serv.c` finds the server, or the client, that a parameter names, and passes the request on to it.
A request must not go back over the link that it came from.
-/
namespace Ircd.Routing

open Ircd.Chan (ircMatch collapse)

/-- `HUNTED_*`. -/
inductive Hunted
  | noSuch | isMe | pass
  deriving DecidableEq, Repr

/-- A line that is sent: the request, with its origin and the parameter, or that there is no such server. -/
inductive Sent
  | request (origin server : List Char)
  | noSuchServer (server : List Char)
  deriving DecidableEq, Repr

namespace Table

variable (t : Table) (clientP source : ClientId)

/-- The client is reached over the link of the source, and is not that link. -/
def behind (c : ClientId) : Bool :=
  (t.client c).link = (t.client source).link && !(t.client c).myConnect

/-- The first two lookups, which pass over a client in the wrong direction. -/
def quickLookup (server : List Char) : Option ClientId :=
  match (t.findClient server).filter (!t.behind source ·) with
  | some target => some target
  | none => (t.findServer server).filter (!t.behind source ·)

/-- Where the enumeration stops. -/
def accepts (c : ClientId) : Bool := !t.behind source c && (t.client c).registered && c ≠ clientP

/-- `strchr` finds a wildcard. -/
def wilds (server : List Char) : Bool := server.contains '?' || server.contains '*'

/-- `ID`. -/
def idOf (c : ClientId) : List Char :=
  if (t.client c).status ≠ .server ∧ (t.client c).id ≠ [] then (t.client c).id else (t.client c).name

/-- The end of `hunt_server`, with a target. The introduction of the source to a lazy leaf is left out. -/
def deliver (origin server : List Char) (target : ClientId) : Hunted × List (ClientId × Sent) :=
  if !(t.client target).registered then (.noSuch, [(source, .noSuchServer server)])
  else if (t.client target).status = .me ∨ (t.client target).myConnect ∧ (t.client target).status = .client then
    (.isMe, [])
  else
    let server := if ircMatch (t.client target).name server then server else (t.client target).name
    let knowsIds := if (t.client target).myConnect then (t.client target).capUid
      else (t.client (t.client target).link).capUid
    let origin := if (t.client source).status = .client ∧ knowsIds then t.idOf source else origin
    (.pass, [(target, .request origin server)])

/-- What `hunt_server` does without a target. -/
def refuse (server : List Char) : Hunted × List (ClientId × Sent) := (.noSuch, [(source, .noSuchServer server)])

/-- The lookups of `hunt_server`. There is no result while the enumeration goes on. -/
def huntOther (fuel : ℕ) (origin server : List Char) : Option (Hunted × List (ClientId × Sent)) :=
  match t.quickLookup source server with
  | some target => some (t.deliver source origin (collapse server) target)
  | none =>
    if !wilds (collapse server) then
      match t.findServer (collapse server) with
      | none => some (refuse source (collapse server))
      | some target => some (t.deliver source origin (collapse server) target)
    else
      (t.enumerate (collapse server) (t.accepts clientP source) fuel t.globalClientList.head?).map fun
        | none => refuse source (collapse server)
        | some target => t.deliver source origin (collapse server) target

/-- The parameter names this server, or nothing. -/
def asksMe (parameter : Option (List Char)) : Bool :=
  match parameter with
  | none | some [] => true
  | some server => ircMatch (t.client t.me).name server || ircMatch server (t.client t.me).name

/-- `hunt_server`, with `parv[0]` and `parv[server]`. -/
def huntServer (fuel : ℕ) (origin : List Char) (parameter : Option (List Char)) :
    Option (Hunted × List (ClientId × Sent)) :=
  if t.asksMe parameter then some (.isMe, []) else t.huntOther clientP source fuel origin (parameter.getD [])

/-! ### The law -/

/-- The client is one that the parameter names, as it stands or after `collapse`. -/
def Matches (server : List Char) (c : ClientId) : Prop :=
  t.Named server c ∨ IrcEq server (t.client c).name ∨ t.Masks server c ∨ t.Named (collapse server) c ∨
    IrcEq (collapse server) (t.client c).name ∨ t.Masks (collapse server) c ∨
    ircMatch (collapse server) (t.client c).name = true

/-- `hunt_server` comes to an end, and a request that is passed on goes to one client that the parameter names and that
is not reached over the link of the source, unless it is that link. -/
def Routes (parameter : Option (List Char)) : Prop :=
  (∀ origin, ∃ fuel, (t.huntServer clientP source fuel origin parameter).isSome) ∧
    ∀ fuel origin sent, t.huntServer clientP source fuel origin parameter = some (.pass, sent) →
      ∃ target line server, sent = [(target, .request line server)] ∧
        (∃ given, parameter = some given ∧ t.Matches given target) ∧
        ((t.client target).link ≠ (t.client source).link ∨ target = (t.client source).link)

/-- A parameter without wildcards names a server in the wrong direction only. -/
def TurnsBack (server : List Char) : Prop :=
  wilds (collapse server) = false ∧ t.quickLookup source server = none ∧
    ∃ target, t.findServer (collapse server) = some target ∧ t.behind source target = true ∧
      (t.client target).registered = true

/-- A mask is the very name of a client that the enumeration comes to first, does not stop at, and cannot go on
from. -/
def Stuck (server : List Char) : Prop :=
  wilds (collapse server) = true ∧ t.quickLookup source server = none ∧
    ∃ c, t.findClient (collapse server) = some c ∧
      t.nextClient t.globalClientList.head? (collapse server) = some c ∧ t.accepts clientP source c = false ∧
      t.next c = none

variable {t clientP source} {server origin : List Char} {target : ClientId}

/-! ### What each lookup finds -/

theorem quickLookup_spec (found : t.quickLookup source server = some target) :
    t.Matches server target ∧ t.behind source target = false := by
  unfold quickLookup at found
  split at found
  next first =>
    cases found
    obtain ⟨named, ahead⟩ := Option.filter_eq_some_iff.mp first
    exact ⟨Or.inl (named_of_findClient named), by simpa using ahead⟩
  · obtain ⟨named, ahead⟩ := Option.filter_eq_some_iff.mp found
    refine ⟨?_, by simpa using ahead⟩
    rcases findServer_spec named with name | mask
    · exact Or.inr (Or.inl name)
    · exact Or.inr (Or.inr (Or.inl mask))

theorem nextClient_matches {tmp : Option ClientId} {mask : List Char} {c : ClientId}
    (found : t.nextClient tmp mask = some c) : t.Named mask c ∨ ircMatch mask (t.client c).name = true := by
  have scanned (found : t.scan tmp mask = some c) : ircMatch mask (t.client c).name = true := by
    obtain ⟨start, -, found⟩ := Option.bind_eq_some_iff.mp found
    simpa using List.find?_some found
  unfold nextClient at found
  split at found
  · exact Or.inr (scanned found)
  next named =>
    split at found
    · cases found
    split at found
    · cases found
      exact Or.inl (named_of_findClient named)
    · exact Or.inr (scanned found)

/-- What the enumeration stops at matches the mask, and is accepted. -/
theorem enumerate_spec {mask : List Char} {stop : ClientId → Bool} {fuel : ℕ} {start : Option ClientId} {c : ClientId}
    (found : t.enumerate mask stop fuel start = some (some c)) :
    (t.Named mask c ∨ ircMatch mask (t.client c).name = true) ∧ stop c = true := by
  induction fuel generalizing start with
  | zero => cases found
  | succ fuel ih =>
    unfold enumerate at found
    split at found
    · cases found
    next d next_ =>
    split at found
    next stops =>
      cases found
      exact ⟨nextClient_matches next_, stops⟩
    · exact ih found

/-- A client that is not in the wrong direction is on another link, or is the link. -/
theorem ahead_of_not_behind (ahead : t.behind source target = false) :
    (t.client target).link ≠ (t.client source).link ∨ target = (t.client source).link := by
  unfold behind at ahead
  by_cases same : (t.client target).link = (t.client source).link
  · have direct : (t.client target).myConnect = true := by simpa [same] using ahead
    exact Or.inr ((t.own target direct).symm.trans same)
  · exact Or.inl same

/-- What is passed on is one request, to the target. -/
theorem deliver_pass {sent : List (ClientId × Sent)}
    (passes : t.deliver source origin server target = (.pass, sent)) :
    ∃ line name, sent = [(target, .request line name)] := by
  unfold deliver at passes
  split at passes
  · cases passes
  split at passes
  · cases passes
  · cases passes
    exact ⟨_, _, rfl⟩

/-- A request that is passed on over any lookup but the last by name goes to a client that is named, ahead. -/
theorem routes_of_deliver {given : List Char} {sent : List (ClientId × Sent)} (names : t.Matches given target)
    (ahead : t.behind source target = false)
    (passes : t.deliver source origin server target = (.pass, sent)) :
    ∃ target line server, sent = [(target, .request line server)] ∧
      (∃ given', some given = some given' ∧ t.Matches given' target) ∧
      ((t.client target).link ≠ (t.client source).link ∨ target = (t.client source).link) := by
  obtain ⟨line, name, only⟩ := deliver_pass passes
  exact ⟨target, line, name, only, ⟨given, rfl, names⟩, ahead_of_not_behind ahead⟩

theorem matches_of_findServer (found : t.findServer (collapse server) = some target) : t.Matches server target := by
  rcases findServer_spec found with name | mask
  · exact Or.inr (Or.inr (Or.inr (Or.inr (Or.inl name))))
  · exact Or.inr (Or.inr (Or.inr (Or.inr (Or.inr (Or.inl mask)))))

/-- `deliver` sends a registered client that is not local back over its link. -/
theorem deliver_behind (wrong : t.behind source target = true) (registered : (t.client target).registered = true) :
    ∃ line name, t.deliver source origin server target = (.pass, [(target, .request line name)]) := by
  have remote : (t.client target).myConnect = false := by
    unfold behind at wrong
    simp only [Bool.and_eq_true, Bool.not_eq_true'] at wrong
    exact wrong.2
  have other : (t.client target).status ≠ .me := by
    intro me
    simp [Client.registered, me] at registered
  unfold deliver
  simp [registered, remote, other]

/-- Lookups that ask another server route the request exactly if none turns it back and the enumeration is not stuck. -/
theorem routes_iff_other (other : t.asksMe (some server) = false) :
    t.Routes clientP source (some server) ↔ ¬ t.TurnsBack source server ∧ ¬ t.Stuck clientP source server := by
  have hunts : ∀ fuel origin, t.huntServer clientP source fuel origin (some server) =
      t.huntOther clientP source fuel origin server := by
    intro fuel origin
    rw [huntServer, other]
    rfl
  unfold Routes
  simp only [hunts]
  constructor
  · rintro ⟨ends, passes⟩
    constructor
    · -- the last lookup by name, which nothing filters
      rintro ⟨plain, missed, target, found, wrong, registered⟩
      obtain ⟨line, name, sent⟩ : ∃ line name, t.deliver source [] (collapse server) target =
          (.pass, [(target, .request line name)]) := t.deliver_behind wrong registered
      -- the request is sent to the link it came from
      have result : t.huntOther clientP source 0 [] server = some (.pass, [(target, .request line name)]) := by
        simp [huntOther, missed, plain, found, sent]
      obtain ⟨target', _, _, only, -, away⟩ := passes 0 [] _ result
      cases only
      unfold behind at wrong
      simp only [Bool.and_eq_true, decide_eq_true_eq, Bool.not_eq_true'] at wrong
      rcases away with elsewhere | link
      · exact elsewhere wrong.1
      · have connected := t.direct source
        rw [← link, wrong.2] at connected
        cases connected
    · rintro ⟨wild, missed, c, found, here, goes, end_⟩
      obtain ⟨fuel, some_⟩ := ends []
      have never := enumerate_stuck found goes end_ fuel here
      simp [huntOther, missed, wild, never] at some_
  · rintro ⟨straight, free⟩
    constructor
    · intro origin
      unfold huntOther
      split
      · exact ⟨0, rfl⟩
      next missed =>
      split
      · split <;> exact ⟨0, rfl⟩
      next wild =>
        -- a refused client that matches has another behind it, so that the enumeration ends
        obtain ⟨fuel, ended⟩ := exists_enumerate (t.accepts clientP source) fun c found here => by
          by_contra goes
          obtain ⟨refused, last⟩ := not_or.mp goes
          refine free ⟨by simpa using wild, missed, c, found, here, by simpa using refused, ?_⟩
          cases next_ : t.next c with
          | none => rfl
          | some d => exact absurd ⟨d, next_⟩ last
        exact ⟨fuel, by rw [Option.isSome_map]; exact ended⟩
    · intro fuel origin sent result
      unfold huntOther at result
      split at result
      next target quick =>
        obtain ⟨names, ahead⟩ := quickLookup_spec quick
        exact routes_of_deliver names ahead (Option.some.inj result)
      next missed =>
      split at result
      next plain =>
        split at result
        · cases result
        next target found =>
          have passes := Option.some.inj result
          cases wrong : t.behind source target with
          | false => exact routes_of_deliver (matches_of_findServer found) wrong passes
          | true =>
            have registered : (t.client target).registered = true := by
              by_contra unknown
              unfold deliver at passes
              rw [if_pos (by simpa using unknown)] at passes
              cases passes
            exact absurd ⟨by simpa using plain, missed, target, found, wrong, registered⟩ straight
      next wild =>
        obtain ⟨stopped, ended, passes⟩ := Option.map_eq_some_iff.mp result
        cases stopped with
        | none => cases passes
        | some target =>
          obtain ⟨names, accepted⟩ := enumerate_spec ended
          unfold accepts at accepted
          simp only [Bool.and_eq_true, Bool.not_eq_true'] at accepted
          refine routes_of_deliver ?_ accepted.1.1 passes
          rcases names with named | matched
          · exact Or.inr (Or.inr (Or.inr (Or.inl named)))
          · exact Or.inr (Or.inr (Or.inr (Or.inr (Or.inr (Or.inr matched)))))

/-- Requests are routed exactly if no lookup of a parameter that asks for another server turns one back and the
enumeration is not stuck. -/
theorem routes_iff (t : Table) (clientP source : ClientId) (parameter : Option (List Char)) :
    t.Routes clientP source parameter ↔ ∀ server, parameter = some server → t.asksMe parameter = false →
      ¬ t.TurnsBack source server ∧ ¬ t.Stuck clientP source server := by
  cases asks : t.asksMe parameter with
  | true =>
    refine ⟨fun _ _ _ no => (Bool.noConfusion no), fun _ => ⟨fun origin => ⟨0, ?_⟩, fun fuel origin sent result => ?_⟩⟩
    · rw [huntServer, if_pos asks]
      rfl
    · rw [huntServer, if_pos asks] at result
      cases result
  | false =>
    cases parameter with
    | none => cases asks
    | some server =>
      rw [routes_iff_other asks]
      exact ⟨fun both _ same _ => Option.some.inj same ▸ both, fun all => all server rfl rfl⟩

/-! ### A request that comes back -/

/-- `m.a` has a link to `l.b`, behind which are `x.b` and a user. -/
def oneLink : Table where
  client
    | 0 => ⟨"m.a".toList, [], .me, 0, true, false⟩
    | 1 => ⟨"l.b".toList, [], .server, 1, true, false⟩
    | 2 => ⟨"x.b".toList, [], .server, 1, false, false⟩
    | 3 => ⟨"u".toList, [], .client, 1, false, false⟩
    | _ => ⟨[], [], .unknown, 0, false, false⟩
  me := 0
  globalClientList := [3, 2, 1, 0]
  clientTable := [3, 2, 1, 0]
  idTable := []
  isMe := rfl
  last := rfl
  nodup := by decide
  own := by
    rintro (_ | _ | _ | _ | c) direct
    · rfl
    · rfl
    · cases direct
    · cases direct
    · cases direct
  direct := by
    rintro (_ | _ | _ | _ | c) <;> rfl

/-- The user asks for `x.b`, and the request goes back to the link. -/
theorem request_turns_back : ¬ oneLink.Routes 1 3 (some "x.b".toList) := by
  intro routes
  have passes : oneLink.huntServer 1 3 0 [] (some "x.b".toList) =
      some (.pass, [(2, .request [] "x.b".toList)]) := by decide +kernel
  obtain ⟨target, _, _, only, -, away⟩ := routes.2 0 [] _ passes
  cases only
  rcases away with elsewhere | link
  · exact elsewhere rfl
  · cases link

end Table

end Ircd.Routing
