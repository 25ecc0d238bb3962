import Ircd.Invite.Hops

/-!
# The way of an invitation

An invitation is meant to go from server to server to the one its target is on. It follows the ops of
the channel: it arrives, and comes back over no link, exactly when those who hear of it are all on the
server of the target.
-/
namespace Ircd.Invite

open Bans (World)
open Chan (ClientId ChannelId param)
open TreeRoute (Behind OnPath)

variable {σ : Type}

namespace Network

/-- Nothing is under way that could change what the servers know: they agree about people and channels,
and everybody lies behind the link that leads to their server. -/
structure Quiet (net : Network σ) : Prop where
  link : Function.Injective net.link
  tidy : ∀ x, Tidy (net.world x).net
  same : ∀ x y, Same (net.world x).net (net.world y).net
  here : ∀ x who, ((net.world x).net.client who).isPerson = true →
    (((net.world x).net.client who).localClient = true ↔ net.home who = x)
  own : ∀ x who, ((net.world x).net.client who).isPerson = true → net.home who = x →
    ((net.world x).net.client who).source = who
  away : ∀ x who, ((net.world x).net.client who).isPerson = true → net.home who ≠ x →
    ∃ y, Behind net.graph x y (net.home who) ∧ ((net.world x).net.client who).source = net.link y
  server : ∀ x y, net.graph.Adj x y → ((net.world x).net.client (net.link y)).localClient = true ∧
    ((net.world x).net.client (net.link y)).isPerson = false
  member : ∀ x chptr r, ∀ who ∈ ((net.world x).net.channel chptr).members r,
    ((net.world x).net.client who).isPerson = true

/-- An op or half-op of the channel, on any server, who is not the inviter. -/
def Hears (net : Network σ) (source : ClientId) (i : Invitation) (who : ClientId) : Prop :=
  Invite.Hears (net.world (net.home source)).net i.chptr source who

/-- What is asked of an invitation when no line is under way any more. -/
structure Arrived [DecidableEq σ] (net : Network σ) (source : ClientId) (i : Invitation) (f : Wave σ) : Prop where
  once : ∀ x y, OnPath net.graph (net.home source) (net.home i.target) x →
    Behind net.graph x y (net.home i.target) → f.crossed.count (x, y) = 1
  notBack : ∀ x y, (x, y) ∈ f.crossed → (y, x) ∉ f.crossed
  handled : f.handled.count (net.home i.target) = 1
  joins : i.chop = true → ∀ key, canJoin (net.world (net.home i.target)) (f.marks (net.home i.target))
    i.target i.vchan key ≠ some .inviteOnlyChan

/-- Whatever the order in which lines arrive, there is an end, and at every end the invitation has
arrived. -/
def Delivers [DecidableEq σ] (net : Network σ) (marks : σ → Marks) (source : ClientId) (parv : List (List Char))
    (i : Invitation) : Prop :=
  ∃ f, net.Begins marks source parv f ∧
    (∀ g, net.Run f g → ∃ h, net.Run g h ∧ h.flying = []) ∧
    ∀ g, net.Run f g → g.flying = [] → net.Arrived source i g

end Network

/-! ### One server in the network -/

section

variable {net : Network σ} {source : ClientId} {i : Invitation} {x y z : σ} {m m' : Marks}

/-- The neighbours to which a server passes an invitation that has come from one of them. -/
def Passes (net : Network σ) (source : ClientId) (i : Invitation) (y : σ) (origin : Option σ) (z : σ) : Prop :=
  (∃ who, net.Hears source i who ∧ Behind net.graph y z (net.home who)) ∨
    Behind net.graph y z (net.home i.target) ∧ origin = some z

/-- The line of an invitation. -/
def lineIn (net : Network σ) (source : ClientId) (i : Invitation) : Line :=
  lineOf (net.world (net.home source)).net source i

/-- A server has passed an invitation on, once to each of these neighbours. -/
structure Departure (net : Network σ) (source : ClientId) (i : Invitation) (y : σ) (origin : Option σ)
    (m m' : Marks) (next : List (σ × Line)) : Prop where
  stamped : m'.Stamped
  invites : net.home i.target = y → i.chop = true → m'.invites = m.invites.addInvite i.vchan i.target
  nodup : next.Nodup
  mem : ∀ z line, (z, line) ∈ next ↔ line = lineIn net source i ∧ Passes net source i y origin z

theorem Network.Quiet.person (quiet : net.Quiet) {who : ClientId}
    (person : ((net.world x).net.client who).isPerson = true) (y : σ) :
    ((net.world y).net.client who).isPerson = true := by
  rw [(quiet.same x y).isPerson, person]

theorem Network.Quiet.routed (quiet : net.Quiet) (x : σ) : Routed (net.world x).net := by
  intro who chptr r on away
  have person := quiet.member x chptr r who on
  have elsewhere : net.home who ≠ x := fun here => by
    rw [(quiet.here x who person).mpr here] at away
    cases away
  obtain ⟨y, behind, link⟩ := quiet.away x who person elsewhere
  rw [link]
  exact (quiet.server x y behind.1).1

/-- Who lies behind a link, on a server. -/
theorem Network.Quiet.behind_iff (quiet : net.Quiet) {who link : ClientId}
    (person : ((net.world y).net.client who).isPerson = true) :
    ((net.world y).net.client who).localClient = false ∧ ((net.world y).net.client who).source = link ↔
      ∃ z, link = net.link z ∧ Behind net.graph y z (net.home who) := by
  constructor
  · rintro ⟨away, rfl⟩
    have elsewhere : net.home who ≠ y := fun here => by
      rw [(quiet.here y who person).mpr here] at away
      cases away
    obtain ⟨z, behind, link⟩ := quiet.away y who person elsewhere
    exact ⟨z, link, behind⟩
  · rintro ⟨z, rfl, behind⟩
    have elsewhere : net.home who ≠ y := behind.ne.symm
    obtain ⟨z', behind', link⟩ := quiet.away y who person elsewhere
    obtain rfl := behind.unique net.tree behind'
    exact ⟨Bool.eq_false_iff.mpr fun here => elsewhere ((quiet.here y who person).mp here), link⟩

theorem Network.Quiet.forwardsTo_iff (quiet : net.Quiet) {clientP link : ClientId} {origin : Option σ}
    (target : ((net.world y).net.client i.target).isPerson = true)
    (came : ∀ z, net.graph.Adj y z → (net.link z = clientP ↔ origin = some z)) :
    ForwardsTo (net.world y).net clientP source i link ↔ ∃ z, link = net.link z ∧ Passes net source i y origin z := by
  have hears : ∀ who, Invite.Hears (net.world y).net i.chptr source who ↔ net.Hears source i who :=
    fun who => (quiet.same _ y).hears i.chptr who
  have ops : (∃ who, Invite.Hears (net.world y).net i.chptr source who ∧
      ((net.world y).net.client who).localClient = false ∧ ((net.world y).net.client who).source = link) ↔
      ∃ z, link = net.link z ∧ ∃ who, net.Hears source i who ∧ Behind net.graph y z (net.home who) := by
    constructor
    · rintro ⟨who, heard, behind⟩
      obtain ⟨r, -, on⟩ := heard.2
      obtain ⟨z, isLink, lies⟩ := (quiet.behind_iff (quiet.member y _ r who on)).mp behind
      exact ⟨z, isLink, who, (hears who).mp heard, lies⟩
    · rintro ⟨z, isLink, who, heard, lies⟩
      have heard := (hears who).mpr heard
      obtain ⟨r, -, on⟩ := heard.2
      exact ⟨who, heard, (quiet.behind_iff (quiet.member y _ r who on)).mpr ⟨z, isLink, lies⟩⟩
  have back : ((net.world y).net.client i.target).localClient = false ∧
      ((net.world y).net.client i.target).source = link ∧ link = clientP ↔
      ∃ z, link = net.link z ∧ Behind net.graph y z (net.home i.target) ∧ origin = some z := by
    rw [← and_assoc, quiet.behind_iff target]
    constructor
    · rintro ⟨⟨z, rfl, lies⟩, isOrigin⟩
      exact ⟨z, rfl, lies, (came z lies.1).mp isOrigin⟩
    · rintro ⟨z, rfl, lies, isOrigin⟩
      exact ⟨⟨z, rfl, lies⟩, (came z lies.1).mpr isOrigin⟩
  rw [ForwardsTo, ops, back, ← exists_or]
  exact exists_congr fun z => and_or_left.symm

/-- The lines that a server sends go to neighbours. -/
theorem Network.Quiet.departs (quiet : net.Quiet) {clientP : ClientId} {origin : Option σ}
    {out : List (ClientId × Line)}
    (target : ((net.world y).net.client i.target).isPerson = true)
    (came : ∀ z, net.graph.Adj y z → (net.link z = clientP ↔ origin = some z))
    (sends : Sends (net.world y).net m clientP source ((net.world y).net.client source).name i m' out) :
    ∃ next, net.Reaches out next ∧ Departure net source i y origin m m' next := by
  have line : (⟨((net.world y).net.client source).name, ((net.world y).net.client i.target).name,
      ((net.world y).net.channel i.vchan).chname⟩ : Line) = lineIn net source i := by
    have same := quiet.same (net.home source) y
    rw [same.name, same.name, same.chname]
    rfl
  have mem := sends.mem
  rw [line] at mem
  simp only [quiet.forwardsTo_iff target came] at mem
  obtain ⟨next, rfl⟩ : ∃ next : List (σ × Line), next.map (fun n => (net.link n.1, n.2)) = out := by
    rw [← Set.mem_range, Set.range_list_map]
    rintro ⟨link, line⟩ member
    obtain ⟨-, z, rfl, -⟩ := (mem link line).mp member
    exact ⟨(z, line), rfl⟩
  refine ⟨next, rfl, sends.stamped, ?_, sends.nodup.of_map _, fun z line => ?_⟩
  · intro here chop
    rw [sends.invites, if_pos ⟨(quiet.here y i.target target).mpr here, chop⟩]
  · have inside : (net.link z, line) ∈ next.map (fun n => (net.link n.1, n.2)) ↔ (z, line) ∈ next := by
      rw [List.mem_map]
      constructor
      · rintro ⟨⟨z', line'⟩, member, equal⟩
        obtain ⟨sameLink, rfl⟩ := Prod.mk.inj equal
        exact quiet.link sameLink ▸ member
      · exact fun member => ⟨(z, line), member, rfl⟩
    rw [← inside, mem]
    refine and_congr_right fun _ => ⟨?_, fun passes => ⟨z, rfl, passes⟩⟩
    rintro ⟨z', sameLink, passes⟩
    exact quiet.link sameLink ▸ passes

theorem Network.Quiet.reaches_unique (quiet : net.Quiet) {out : List (ClientId × Line)}
    {next next' : List (σ × Line)} (reaches : net.Reaches out next) (reaches' : net.Reaches out next') :
    next' = next := by
  have injective : Function.Injective fun n : σ × Line => (net.link n.1, n.2) := by
    intro n n' equal
    obtain ⟨sameLink, sameLine⟩ := Prod.mk.inj equal
    exact Prod.ext (quiet.link sameLink) sameLine
  exact List.map_injective_iff.mpr injective (reaches'.symm.trans reaches)

/-- Somebody has invited a person on another server, and their own server has accepted it. -/
structure Inviting (net : Network σ) (source : ClientId) (i : Invitation) : Prop where
  quiet : net.Quiet
  person : ((net.world (net.home source)).net.client source).isPerson = true
  found : Found (net.world (net.home source)).net source i
  elsewhere : net.home i.target ≠ net.home source

theorem Inviting.target (inviting : Inviting net source i) (y : σ) :
    ((net.world y).net.client i.target).isPerson = true :=
  inviting.quiet.person inviting.found.target y

/-- The server of the inviter. -/
theorem Inviting.mInvite (inviting : Inviting net source i) {parv : List (List Char)}
    (named : param parv 0 = ((net.world (net.home source)).net.client source).name)
    (accepted : invitation (net.world (net.home source)).net source parv = some i) (stamped : m.Stamped) :
    ∃ m' out next, Invite.mInvite (net.world (net.home source)).net m source source parv = some (m', out) ∧
      net.Reaches out next ∧ Departure net source i (net.home source) none m m' next := by
  obtain ⟨m', out, run, sends⟩ := @forward_sends _ _ source source (param parv 0) i
    (inviting.quiet.routed (net.home source)) stamped
  have came : ∀ z, net.graph.Adj (net.home source) z → (net.link z = source ↔ (none : Option σ) = some z) := by
    intro z adj
    refine iff_of_false (fun isSource => ?_) nofun
    have server := (inviting.quiet.server _ z adj).2
    rw [isSource, inviting.person] at server
    cases server
  obtain ⟨next, reaches, departure⟩ := inviting.quiet.departs (inviting.target _) came (named ▸ sends)
  refine ⟨m', out, next, ?_, reaches, departure⟩
  rw [Invite.mInvite, accepted]
  exact run

/-- Whom the prefix of the line names. -/
theorem Inviting.prefixed (inviting : Inviting net source i) (y p : σ) :
    Invite.prefixed (net.world y).net (net.link p) (lineIn net source i) =
      if ((net.world y).net.client source).source = net.link p then some source else none := by
  have same := inviting.quiet.same (net.home source) y
  have lookup : (net.world y).net.findClient (lineIn net source i).sender = some source := by
    rw [same.findClient]
    exact (inviting.quiet.tidy _).named source inviting.person
  rw [Invite.prefixed, lookup, Option.filter_some]
  simp only [decide_eq_true_eq]

/-- A server that the line comes to from the side of the inviter. -/
theorem Inviting.receive (inviting : Inviting net source i) {p : σ}
    (behind : Behind net.graph y p (net.home source)) (stamped : m.Stamped) :
    (∃ m' out next, Invite.receive (net.world y).net m (net.link p) (lineIn net source i) = some (m', out) ∧
      net.Reaches out next ∧ Departure net source i y (some p) m m' next) ∧
    taken (net.world y).net (net.link p) (lineIn net source i) = true := by
  have person := inviting.quiet.person inviting.person y
  obtain ⟨away, route⟩ := (inviting.quiet.behind_iff person).mpr ⟨p, rfl, behind⟩
  have named := inviting.prefixed y p
  rw [if_pos route] at named
  have accepted := inviting.found.invitation (inviting.quiet.tidy _) (inviting.quiet.same _ y) away person
  constructor
  · obtain ⟨m', out, run, sends⟩ := @forward_sends _ _ (net.link p) source ((net.world y).net.client source).name i
      (inviting.quiet.routed y) stamped
    have came : ∀ z, net.graph.Adj y z → (net.link z = net.link p ↔ some p = some z) := by
      intro z _
      rw [Option.some.injEq, inviting.quiet.link.eq_iff, eq_comm]
    obtain ⟨next, reaches, departure⟩ := inviting.quiet.departs (inviting.target y) came sends
    refine ⟨m', out, next, ?_, reaches, departure⟩
    rw [Invite.receive, named]
    dsimp only
    rw [Invite.mInvite, lineIn, accepted]
    exact run
  · rw [taken, named, Option.any_some, lineIn, accepted]
    rfl

/-- A server that the line comes to from another side ignores it. -/
theorem Inviting.ignore (inviting : Inviting net source i) {p : σ}
    (other : ¬Behind net.graph y p (net.home source)) (adj : net.graph.Adj y p) :
    Invite.receive (net.world y).net m (net.link p) (lineIn net source i) = some (m, []) ∧
      taken (net.world y).net (net.link p) (lineIn net source i) = false := by
  have person := inviting.quiet.person inviting.person y
  have route : ¬((net.world y).net.client source).source = net.link p := by
    intro route
    by_cases here : net.home source = y
    · -- the inviter is a client of this server, and no link
      have own := inviting.quiet.own y source person here
      have server := (inviting.quiet.server y p adj).2
      rw [← route, own, person] at server
      cases server
    · have away : ((net.world y).net.client source).localClient = false :=
        Bool.eq_false_iff.mpr fun isLocal => here ((inviting.quiet.here y source person).mp isLocal)
      obtain ⟨z, sameLink, behind⟩ := (inviting.quiet.behind_iff person).mp ⟨away, route⟩
      exact other (inviting.quiet.link sameLink ▸ behind)
  have named := inviting.prefixed y p
  rw [if_neg route] at named
  rw [Invite.receive, taken, named]
  exact ⟨rfl, rfl⟩

/-- A line is passed on to neighbours. -/
theorem Departure.adj {origin : Option σ} {m m' : Marks} {next : List (σ × Line)}
    (departure : Departure net source i y origin m m' next) {line : Line} (member : (z, line) ∈ next) :
    line = lineIn net source i ∧ net.graph.Adj y z := by
  obtain ⟨isLine, passes⟩ := (departure.mem z line).mp member
  exact ⟨isLine, passes.elim (fun ⟨_, _, behind⟩ => behind.1) fun back => back.1.1⟩

end

/-! ### One step -/

section

variable [DecidableEq σ] {net : Network σ} {source : ClientId} {i : Invitation} {marks : σ → Marks}
  {f g : Wave σ} {x y z : σ}

/-- What is under way has gone over a link just now, and every stamp is in order. -/
structure Afoot (net : Network σ) (source : ClientId) (i : Invitation) (f : Wave σ) : Prop where
  stamped : ∀ x, (f.marks x).Stamped
  flying : ∀ x y line, (x, y, line) ∈ f.flying → line = lineIn net source i ∧ net.graph.Adj x y

/-- What a step does: a line from the side of the inviter is taken and passed on, any other vanishes. -/
def Arrives (net : Network σ) (source : ClientId) (i : Invitation) (f g : Wave σ) (x y : σ)
    (before after : List (σ × σ × Line)) : Prop :=
  (Behind net.graph y x (net.home source) ∧ ∃ m' next,
    Departure net source i y (some x) (f.marks y) m' next ∧
      g = Wave.depart { f with flying := before ++ after, handled := f.handled ++ [y] } y m' next) ∨
  (¬Behind net.graph y x (net.home source) ∧ g = { f with flying := before ++ after })

theorem Inviting.step (inviting : Inviting net source i) (afoot : Afoot net source i f) (step : net.Step f g) :
    ∃ before x y after, f.flying = before ++ (x, y, lineIn net source i) :: after ∧ net.graph.Adj x y ∧
      Arrives net source i f g x y before after := by
  obtain @⟨before, after, x, y, line, m', out, next, flying, run, reaches⟩ := step
  obtain ⟨rfl, adj⟩ := afoot.flying x y line (by rw [flying]; simp)
  refine ⟨before, x, y, after, flying, adj, ?_⟩
  by_cases behind : Behind net.graph y x (net.home source)
  · obtain ⟨⟨m'', out', next', run', reaches', departure⟩, isTaken⟩ := inviting.receive behind (afoot.stamped y)
    obtain ⟨rfl, rfl⟩ := Prod.mk.inj (Option.some.inj (run'.symm.trans run))
    obtain rfl := inviting.quiet.reaches_unique reaches reaches'
    refine Or.inl ⟨behind, m'', next', departure, ?_⟩
    rw [isTaken, if_pos rfl]
  · obtain ⟨run', isTaken⟩ := inviting.ignore (m := f.marks y) behind adj.symm
    obtain ⟨rfl, rfl⟩ := Prod.mk.inj (Option.some.inj (run'.symm.trans run))
    obtain rfl : next = [] := List.map_eq_nil_iff.mp reaches.symm
    refine Or.inr ⟨behind, ?_⟩
    rw [isTaken, Wave.depart, Function.update_eq_self]
    simp

/-- Any line under way may arrive. -/
theorem Inviting.exists_step (inviting : Inviting net source i) (afoot : Afoot net source i f)
    {before after : List (σ × σ × Line)} {line : Line} (flying : f.flying = before ++ (x, y, line) :: after) :
    ∃ g, net.Step f g := by
  obtain ⟨rfl, adj⟩ := afoot.flying x y line (by rw [flying]; simp)
  by_cases behind : Behind net.graph y x (net.home source)
  · obtain ⟨⟨m', out, next, run, reaches, -⟩, -⟩ := inviting.receive behind (afoot.stamped y)
    exact ⟨_, Network.Step.arrive flying run reaches⟩
  · obtain ⟨run, -⟩ := inviting.ignore (m := f.marks y) behind adj.symm
    exact ⟨_, Network.Step.arrive flying run (show net.Reaches [] [] from rfl)⟩

theorem Departure.stamped_update {origin : Option σ} {m' : Marks} {next : List (σ × Line)}
    (departure : Departure net source i y origin (f.marks y) m' next) (stamped : ∀ x, (f.marks x).Stamped)
    (x : σ) : (Function.update f.marks y m' x).Stamped := by
  by_cases here : x = y
  · rw [here, Function.update_self]
    exact departure.stamped
  · rw [Function.update_of_ne here]
    exact stamped x

theorem Afoot.depart {origin : Option σ} {m' : Marks} {next : List (σ × Line)} (afoot : Afoot net source i f)
    (departure : Departure net source i y origin (f.marks y) m' next) :
    Afoot net source i (f.depart y m' next) := by
  refine ⟨departure.stamped_update afoot.stamped, fun a b line member => ?_⟩
  rcases List.mem_append.mp member with old | new
  · exact afoot.flying a b line old
  · obtain ⟨⟨z, line'⟩, member, equal⟩ := List.mem_map.mp new
    obtain ⟨rfl, rfl, rfl⟩ := equal
    exact departure.adj member

theorem Inviting.afoot_step (inviting : Inviting net source i) (afoot : Afoot net source i f)
    (step : net.Step f g) : Afoot net source i g := by
  obtain ⟨before, x, y, after, flying, -, arrives⟩ := inviting.step afoot step
  have rest : ∀ a b line, (a, b, line) ∈ before ++ after → line = lineIn net source i ∧ net.graph.Adj a b := by
    intro a b line member
    refine afoot.flying a b line ?_
    rw [flying, List.mem_append, List.mem_cons]
    exact (List.mem_append.mp member).imp_right Or.inr
  rcases arrives with ⟨-, m', next, departure, rfl⟩ | ⟨-, rfl⟩
  · exact Afoot.depart (f := { f with flying := before ++ after, handled := f.handled ++ [y] })
      ⟨afoot.stamped, rest⟩ departure
  · exact ⟨afoot.stamped, rest⟩

/-! ### Lines that come back -/

/-- The line has gone wherever those who have it pass it on, unless it has not arrived. -/
structure Passed (net : Network σ) (source : ClientId) (i : Invitation) (f : Wave σ) : Prop
    extends Afoot net source i f where
  crossed : ∀ x y, (x, y) ∈ f.crossed → (x, y, lineIn net source i) ∈ f.flying ∨
    (Behind net.graph y x (net.home source) → ∀ z, Passes net source i y (some x) z → (y, z) ∈ f.crossed)

theorem Inviting.passed_step (inviting : Inviting net source i) (passed : Passed net source i f)
    (step : net.Step f g) : Passed net source i g := by
  refine ⟨inviting.afoot_step passed.toAfoot step, ?_⟩
  obtain ⟨before, x, y, after, flying, -, arrives⟩ := inviting.step passed.toAfoot step
  -- what was under way is still so, or is the line that arrives
  have old : ∀ a b, (a, b, lineIn net source i) ∈ f.flying →
      (a, b, lineIn net source i) ∈ before ++ after ∨ a = x ∧ b = y := by
    intro a b member
    rw [flying, List.mem_append, List.mem_cons] at member
    rcases member with inside | here | inside
    · exact Or.inl (List.mem_append_left _ inside)
    · obtain ⟨rfl, rfl, -⟩ := here
      exact Or.inr ⟨rfl, rfl⟩
    · exact Or.inl (List.mem_append_right _ inside)
  rcases arrives with ⟨-, m', next, departure, rfl⟩ | ⟨other, rfl⟩
  · have sent : ∀ z, Passes net source i y (some x) z → (z, lineIn net source i) ∈ next := fun z passes =>
      (departure.mem z _).mpr ⟨rfl, passes⟩
    intro a b member
    rcases List.mem_append.mp member with before' | new
    · rcases passed.crossed a b before' with under | gone
      · rcases old a b under with still | ⟨rfl, rfl⟩
        · exact Or.inl (List.mem_append_left _ still)
        · refine Or.inr fun _ z passes => List.mem_append_right _ ?_
          exact List.mem_map.mpr ⟨_, sent z passes, rfl⟩
      · exact Or.inr fun behind z passes => List.mem_append_left _ (gone behind z passes)
    · obtain ⟨⟨z, line⟩, inside, equal⟩ := List.mem_map.mp new
      obtain ⟨rfl, rfl⟩ := Prod.mk.inj equal
      obtain ⟨rfl, -⟩ := departure.adj inside
      exact Or.inl (List.mem_append_right _ (List.mem_map.mpr ⟨_, inside, rfl⟩))
  · intro a b member
    rcases passed.crossed a b member with under | gone
    · rcases old a b under with still | ⟨rfl, rfl⟩
      · exact Or.inl still
      · exact Or.inr fun behind => absurd behind other
    · exact Or.inr gone

theorem Inviting.passed_run (inviting : Inviting net source i) (passed : Passed net source i f)
    (run : net.Run f g) : Passed net source i g := by
  induction run with
  | refl => exact passed
  | tail _ step ih => exact inviting.passed_step ih step

/-- Wherever somebody hears of the invitation but on the server of the target, it comes back. -/
theorem Inviting.hears_there (inviting : Inviting net source i) (passed : Passed net source i f)
    (done : f.flying = []) (arrived : net.Arrived source i f) {who : ClientId} (hears : net.Hears source i who) :
    net.home who = net.home i.target := by
  by_contra elsewhere
  have tree := net.tree
  have gone : ∀ x y, (x, y) ∈ f.crossed → Behind net.graph y x (net.home source) →
      ∀ z, Passes net source i y (some x) z → (y, z) ∈ f.crossed := by
    intro x y member
    refine (passed.crossed x y member).resolve_left fun under => ?_
    rw [done] at under
    exact List.not_mem_nil under
  -- the line has come to the server of the target, over the last link
  obtain ⟨p, last⟩ := TreeRoute.exists_behind tree.connected inviting.elsewhere
  obtain ⟨onPath, ahead⟩ := last.onPath
  have came : (p, net.home i.target) ∈ f.crossed := by
    rw [← List.count_pos_iff, arrived.once p _ onPath ahead]
    exact Nat.one_pos
  obtain ⟨z, behind⟩ := TreeRoute.exists_behind tree.connected (Ne.symm elsewhere)
  have went := gone p _ came last z (Or.inl ⟨who, hears, behind⟩)
  by_cases same : z = p
  · subst same
    exact arrived.notBack _ _ came went
  · -- the next server finds the target where the line has come from
    have back : Behind net.graph z (net.home i.target) (net.home source) :=
      (TreeRoute.behind_or_behind tree behind.1.symm _).resolve_right fun ahead =>
        same (ahead.unique tree last)
    have returned := gone _ z went back (net.home i.target)
      (Or.inr ⟨TreeRoute.behind_self behind.1.symm, rfl⟩)
    exact arrived.notBack _ _ went returned

/-! ### Straight to the target -/

/-- `can_join` lets whoever has been invited past `+i`. -/
theorem canJoin_invited {w : World} {m m' : Marks} {who : ClientId} {chptr : Chan.ChannelId}
    (invited : m'.invites = m.invites.addInvite chptr who) (key : List Char) :
    canJoin w m' who chptr key ≠ some .inviteOnlyChan := by
  have listed : chptr ∈ m'.invites.links.right who := by
    rw [invited, Chan.Invites.addInvite_right]
    split
    · exact List.mem_cons_self
    · exact List.mem_cons_self
  unfold canJoin World.canJoin
  dsimp only
  rw [if_neg (c := _ ∧ chptr ∉ _ ∧ _) fun all => all.2.1 listed]
  split_ifs <;> exact nofun

/-- The line is on its way to the server of the target, has gone over all links before this one, and is
nowhere else. -/
structure Travelling (net : Network σ) (source : ClientId) (i : Invitation) (f : Wave σ) (x y : σ) : Prop
    extends Afoot net source i f where
  single : f.flying = [(x, y, lineIn net source i)]
  onPath : OnPath net.graph (net.home source) (net.home i.target) x
  ahead : Behind net.graph x y (net.home i.target)
  nodup : f.crossed.Nodup
  crossed : ∀ a b, (a, b) ∈ f.crossed ↔ OnPath net.graph (net.home source) (net.home i.target) a ∧
    Behind net.graph a b (net.home i.target) ∧
    net.graph.dist y (net.home i.target) ≤ net.graph.dist b (net.home i.target)
  handled : net.home i.target ∉ f.handled

/-- Those who hear of the invitation are all on the server of the target. -/
structure Gathered (net : Network σ) (source : ClientId) (i : Invitation) : Prop where
  hears : ∃ who, net.Hears source i who
  there : ∀ who, net.Hears source i who → net.home who = net.home i.target

omit [DecidableEq σ] in
theorem Gathered.passes_iff (gathered : Gathered net source i) {origin : Option σ} :
    Passes net source i y origin z ↔ Behind net.graph y z (net.home i.target) := by
  constructor
  · rintro (⟨who, hears, behind⟩ | back)
    · exact gathered.there who hears ▸ behind
    · exact back.1
  · intro ahead
    obtain ⟨who, hears⟩ := gathered.hears
    exact Or.inl ⟨who, hears, (gathered.there who hears).symm ▸ ahead⟩

omit [DecidableEq σ] in
/-- A server before the one of the target passes the line on to the next, and to no other. -/
theorem Departure.single {origin : Option σ} {m m' : Marks} {next : List (σ × Line)}
    (departure : Departure net source i y origin m m' next) (gathered : Gathered net source i)
    (ahead : Behind net.graph y z (net.home i.target)) : next = [(z, lineIn net source i)] := by
  refine List.perm_singleton.mp ((List.perm_ext_iff_of_nodup departure.nodup (List.nodup_singleton _)).mpr ?_)
  rintro ⟨z', line⟩
  rw [departure.mem, gathered.passes_iff, List.mem_singleton, Prod.mk.injEq, and_comm]
  refine and_congr_left fun _ => ⟨fun ahead' => ahead'.unique net.tree ahead, ?_⟩
  rintro rfl
  exact ahead

omit [DecidableEq σ] in
theorem Departure.empty {origin : Option σ} {m m' : Marks} {next : List (σ × Line)}
    (departure : Departure net source i (net.home i.target) origin m m' next)
    (gathered : Gathered net source i) : next = [] := by
  refine List.eq_nil_iff_forall_not_mem.mpr ?_
  rintro ⟨z, line⟩ member
  exact (gathered.passes_iff.mp ((departure.mem z line).mp member).2).ne rfl

theorem Travelling.step (inviting : Inviting net source i) (gathered : Gathered net source i)
    (travelling : Travelling net source i f x y) (step : net.Step f g) :
    (∃ z, y ≠ net.home i.target ∧ Behind net.graph y z (net.home i.target) ∧ Travelling net source i g y z) ∨
      g.flying = [] ∧ net.Arrived source i g := by
  have tree := net.tree
  obtain ⟨onPath, back⟩ := travelling.onPath.next tree travelling.ahead
  have afoot := inviting.afoot_step travelling.toAfoot step
  obtain ⟨before, x', y', after, flying, -, arrives⟩ := inviting.step travelling.toAfoot step
  rw [travelling.single] at flying
  obtain ⟨rfl, only⟩ | ⟨-, none⟩ := List.singleton_eq_append_iff.mp flying
  swap
  · cases none
  obtain ⟨here, rfl⟩ := List.cons.inj only
  obtain ⟨rfl, rfl, -⟩ := here
  obtain ⟨-, m', next, departure, rfl⟩ := arrives.resolve_right fun ignored => ignored.1 back
  by_cases arrived : y = net.home i.target
  · right
    subst arrived
    obtain rfl := departure.empty gathered
    have nothing : f.crossed ++ [] = f.crossed := List.append_nil _
    refine ⟨rfl, ⟨fun a b on ahead => ?_, fun a b forth back => ?_, ?_, fun chop key => ?_⟩⟩
    · change (f.crossed ++ []).count (a, b) = 1
      rw [nothing]
      refine List.count_eq_one_of_mem travelling.nodup ((travelling.crossed a b).mpr ⟨on, ahead, ?_⟩)
      rw [SimpleGraph.dist_self]
      exact Nat.zero_le _
    · change (a, b) ∈ f.crossed ++ [] at forth
      change (b, a) ∈ f.crossed ++ [] at back
      rw [nothing] at forth back
      exact ((travelling.crossed a b).mp forth).2.1.not_back ((travelling.crossed b a).mp back).2.1
    · change (f.handled ++ [net.home i.target]).count (net.home i.target) = 1
      rw [List.count_append, List.count_eq_zero.mpr travelling.handled, List.count_singleton_self]
    · change canJoin _ (Function.update f.marks _ m' _) _ _ _ ≠ _
      rw [Function.update_self]
      exact canJoin_invited (departure.invites rfl chop) key
  · left
    obtain ⟨z, ahead⟩ := TreeRoute.exists_behind tree.connected arrived
    obtain rfl := departure.single gathered ahead
    have far := ahead.2
    refine ⟨z, arrived, ahead, afoot, rfl, onPath, ahead, ?_, fun a b => ?_, ?_⟩
    · refine List.Nodup.append travelling.nodup (List.nodup_singleton _) ?_
      refine List.disjoint_singleton.mpr fun already => ?_
      have before : net.graph.dist y (net.home i.target) ≤ net.graph.dist z (net.home i.target) :=
        ((travelling.crossed y z).mp already).2.2
      omega
    · change (a, b) ∈ f.crossed ++ [(y, z)] ↔ _
      rw [List.mem_append, List.mem_singleton, travelling.crossed]
      constructor
      · rintro (⟨on, behind, near⟩ | here)
        · exact ⟨on, behind, by omega⟩
        · obtain ⟨rfl, rfl⟩ := Prod.mk.inj here
          exact ⟨onPath, ahead, Nat.le_refl _⟩
      · rintro ⟨on, behind, near⟩
        -- the links before this one, or this one
        by_cases before : net.graph.dist y (net.home i.target) ≤ net.graph.dist b (net.home i.target)
        · exact Or.inl ⟨on, behind, before⟩
        · have length := behind.2
          obtain rfl := on.unique tree onPath (by omega)
          rw [behind.unique tree ahead]
          exact Or.inr rfl
    · change net.home i.target ∉ f.handled ++ [y]
      rw [List.mem_append, List.mem_singleton]
      exact not_or.mpr ⟨travelling.handled, Ne.symm arrived⟩

/-- Wherever the line is on its way, it comes to the end, and has arrived there. -/
theorem Travelling.arrives (inviting : Inviting net source i) (gathered : Gathered net source i)
    (travelling : Travelling net source i f x y) : ∃ g, net.Run f g ∧ g.flying = [] := by
  induction far : net.graph.dist y (net.home i.target) generalizing f x y with
  | zero =>
    have first : f.flying = [] ++ (x, y, lineIn net source i) :: [] := travelling.single
    obtain ⟨g, step⟩ := inviting.exists_step travelling.toAfoot first
    refine ⟨g, Relation.ReflTransGen.single step, ?_⟩
    rcases travelling.step inviting gathered step with ⟨z, elsewhere, -, -⟩ | ⟨done, -⟩
    · exact absurd (net.tree.connected.dist_eq_zero_iff.mp far) elsewhere
    · exact done
  | succ n ih =>
    have first : f.flying = [] ++ (x, y, lineIn net source i) :: [] := travelling.single
    obtain ⟨g, step⟩ := inviting.exists_step travelling.toAfoot first
    rcases travelling.step inviting gathered step with ⟨z, -, ahead, onward⟩ | ⟨done, -⟩
    · have near := ahead.2
      obtain ⟨h, run, done⟩ := ih onward (by omega)
      exact ⟨h, run.head step, done⟩
    · exact ⟨g, Relation.ReflTransGen.single step, done⟩

theorem Travelling.run (inviting : Inviting net source i) (gathered : Gathered net source i)
    (travelling : Travelling net source i f x y) (run : net.Run f g) :
    (∃ x y, Travelling net source i g x y) ∨ g.flying = [] ∧ net.Arrived source i g := by
  induction run with
  | refl => exact Or.inl ⟨x, y, travelling⟩
  | tail _ step ih =>
    rcases ih with ⟨x, y, travelling⟩ | ⟨done, -⟩
    · exact (travelling.step inviting gathered step).imp_left fun ⟨z, _, _, onward⟩ => ⟨_, z, onward⟩
    · -- nothing is under way
      obtain ⟨flying, -, -⟩ := step
      rw [done] at flying
      exact absurd flying (by simp)

/-! ### The law -/

theorem Inviting.begins (inviting : Inviting net source i) {parv : List (List Char)}
    (stamped : ∀ x, (marks x).Stamped)
    (named : param parv 0 = ((net.world (net.home source)).net.client source).name)
    (accepted : invitation (net.world (net.home source)).net source parv = some i) :
    ∃ m' next, Departure net source i (net.home source) none (marks (net.home source)) m' next ∧
      ∀ f, net.Begins marks source parv f ↔ f = Wave.depart ⟨marks, [], [], []⟩ (net.home source) m' next := by
  obtain ⟨m', out, next, run, reaches, departure⟩ := inviting.mInvite named accepted (stamped _)
  refine ⟨m', next, departure, fun f => ⟨?_, ?_⟩⟩
  · rintro @⟨m'', out', next', run', reaches'⟩
    obtain ⟨rfl, rfl⟩ := Prod.mk.inj (Option.some.inj (run.symm.trans run'))
    rw [inviting.quiet.reaches_unique reaches reaches']
  · rintro rfl
    exact ⟨run, reaches⟩

/-- An invitation that has been accepted for somebody on another server goes once over each link of the
way, comes back over none, is taken once by the server of the target, and lets the target in, exactly
when there are ops or half-ops other than the inviter and all of them are on the server of the target. -/
theorem delivers_iff (net : Network σ) (quiet : net.Quiet) (marks : σ → Marks)
    (stamped : ∀ x, (marks x).Stamped) (source : ClientId) (parv : List (List Char)) (i : Invitation)
    (person : ((net.world (net.home source)).net.client source).isPerson = true)
    (named : param parv 0 = ((net.world (net.home source)).net.client source).name)
    (accepted : invitation (net.world (net.home source)).net source parv = some i)
    (elsewhere : net.home i.target ≠ net.home source) :
    net.Delivers marks source parv i ↔
      (∃ who, net.Hears source i who) ∧ ∀ who, net.Hears source i who → net.home who = net.home i.target := by
  have away : ((net.world (net.home source)).net.client i.target).localClient = false := by
    refine Bool.eq_false_iff.mpr fun isLocal => elsewhere ?_
    exact (quiet.here _ i.target (invitation_cases accepted).1).mp isLocal
  have inviting : Inviting net source i :=
    ⟨quiet, person, invitation_found (quiet.tidy _) accepted away, elsewhere⟩
  obtain ⟨m', next, departure, begins⟩ := inviting.begins stamped named accepted
  have still : Afoot net source i ⟨marks, [], [], []⟩ := ⟨stamped, fun _ _ _ member => absurd member List.not_mem_nil⟩
  have afoot := still.depart departure
  constructor
  · rintro ⟨f, begun, ends, arrived⟩
    obtain rfl := (begins f).mp begun
    constructor
    · by_contra nobody
      -- then nothing is sent at all
      obtain rfl : next = [] := by
        refine List.eq_nil_iff_forall_not_mem.mpr ?_
        rintro ⟨z, line⟩ member
        rcases ((departure.mem z line).mp member).2 with ⟨who, hears, -⟩ | ⟨-, back⟩
        · exact nobody ⟨who, hears⟩
        · cases back
      obtain ⟨y, ahead⟩ := TreeRoute.exists_behind net.tree.connected (Ne.symm elsewhere)
      have once := (arrived _ Relation.ReflTransGen.refl rfl).once _ y (TreeRoute.onPath_left _ _) ahead
      cases once
    · intro who hears
      have passed : Passed net source i (Wave.depart ⟨marks, [], [], []⟩ (net.home source) m' next) := by
        refine ⟨afoot, fun x y member => Or.inl ?_⟩
        obtain ⟨⟨z, line⟩, inside, equal⟩ := List.mem_map.mp member
        obtain ⟨rfl, rfl⟩ := Prod.mk.inj equal
        obtain ⟨rfl, -⟩ := departure.adj inside
        exact List.mem_map.mpr ⟨_, inside, rfl⟩
      obtain ⟨g, run, done⟩ := ends _ Relation.ReflTransGen.refl
      exact inviting.hears_there (inviting.passed_run passed run) done (arrived g run done) hears
  · rintro ⟨some_, there⟩
    have gathered : Gathered net source i := ⟨some_, there⟩
    obtain ⟨z, ahead⟩ := TreeRoute.exists_behind net.tree.connected (Ne.symm elsewhere)
    obtain rfl := departure.single gathered ahead
    have travelling : Travelling net source i
        (Wave.depart ⟨marks, [], [], []⟩ (net.home source) m' [(z, lineIn net source i)]) (net.home source) z := by
      refine ⟨afoot, rfl, TreeRoute.onPath_left _ _, ahead, List.nodup_singleton _, fun a b => ?_, List.not_mem_nil⟩
      change (a, b) ∈ [(net.home source, z)] ↔ _
      rw [List.mem_singleton, Prod.mk.injEq]
      constructor
      · rintro ⟨rfl, rfl⟩
        exact ⟨TreeRoute.onPath_left _ _, ahead, Nat.le_refl _⟩
      · rintro ⟨on, behind, near⟩
        have first := ahead.2
        have second := behind.2
        have start : OnPath net.graph (net.home source) (net.home i.target) a := on
        rw [OnPath] at start
        obtain rfl := on.unique net.tree (TreeRoute.onPath_left _ _) (by omega)
        exact ⟨rfl, behind.unique net.tree ahead⟩
    refine ⟨_, (begins _).mpr rfl, fun g run => ?_, fun g run done => ?_⟩
    · rcases travelling.run inviting gathered run with ⟨x, y, onward⟩ | ⟨done, -⟩
      · exact onward.arrives inviting gathered
      · exact ⟨g, Relation.ReflTransGen.refl, done⟩
    · rcases travelling.run inviting gathered run with ⟨x, y, onward⟩ | ⟨-, arrived⟩
      · rw [onward.single] at done
        cases done
      · exact arrived

end

/-! ### Two servers -/

/-- What each of two servers knows: somebody is an op of `#a` on the first, and on the second there are a target
and somebody else who is on the channel with this rank. -/
def pairNet (rank : Chan.Rank) (second : Bool) : Chan.State :=
  let members (r : Chan.Rank) := (if r = .chanop then [1] else []) ++ if r = rank then [3] else []
  { Chan.smallNetwork with
    client
      | 1 =>
        { Chan.Client.person ['a'] (if second then 4 else 1) !second with
          user := some ⟨[0], 0, []⟩ }
      | 2 => Chan.Client.person ['b'] (if second then 2 else 5) second
      | 3 =>
        { Chan.Client.person ['c'] (if second then 3 else 5) second with
          user := some ⟨[0], 0, []⟩ }
      | who => Chan.Client.server ['s'] who
    clientTable := [1, 2, 3]
    channel := fun chptr =>
      { Chan.smallNetwork.channel chptr with
        chname := ['#', 'a']
        mode := { Chan.noMode with mode := {.inviteOnly} }
        members := fun r => if chptr = 0 then members r else []
        locMembers := fun r => if chptr = 0 then (members r).filter fun who => (who = 1) != second else []
        chname_len := Chan.hashA_length }
    globalChannelList := [0] }

def pair (rank : Chan.Rank) : Network Bool where
  graph := ⊤
  tree := ⟨SimpleGraph.connected_top, .of_card_le_two (by simp)⟩
  link second := if second then 5 else 4
  home who := who != 1
  world second := { Bans.invitedOnly with net := pairNet rank second }

/-- Everybody else is a server. -/
theorem pair_person {rank : Chan.Rank} {second : Bool} {who : ClientId}
    (person : (((pair rank).world second).net.client who).isPerson = true) : who = 1 ∨ who = 2 ∨ who = 3 := by
  match who, person with
  | 1, _ => exact Or.inl rfl
  | 2, _ => exact Or.inr (Or.inl rfl)
  | 3, _ => exact Or.inr (Or.inr rfl)
  | 0, person => cases person
  | _ + 4, person => cases person

theorem pair_findChannel {rank : Chan.Rank} {second : Bool} {text : List Char} {chptr : ChannelId}
    (found : ((pair rank).world second).net.hashFindChannel text = some chptr) : chptr = 0 :=
  List.mem_singleton.mp (List.mem_of_find?_eq_some found)

theorem pair_member {rank r : Chan.Rank} {second : Bool} {chptr : ChannelId} {who : ClientId}
    (on : who ∈ (((pair rank).world second).net.channel chptr).members r) : who = 1 ∨ who = 3 := by
  change who ∈ ite (chptr = 0) ((if r = .chanop then [1] else []) ++ if r = rank then [3] else []) [] at on
  split at on
  · refine (List.mem_append.mp on).imp (fun first => ?_) (fun second => ?_)
    · split at first
      · exact List.mem_singleton.mp first
      · cases first
    · split at second
      · exact List.mem_singleton.mp second
      · cases second
  · cases on

/-- Where somebody lies is all that the two servers see differently. -/
theorem pair_client (rank : Chan.Rank) (x y : Bool) (who : ClientId) :
    ∃ source isLocal, ((pair rank).world y).net.client who =
      { ((pair rank).world x).net.client who with source := source, localClient := isLocal } := by
  match who with
  | 0 | 1 | 2 | 3 | _ + 4 => exact ⟨_, _, rfl⟩

theorem pair_same (rank : Chan.Rank) (x y : Bool) : Same ((pair rank).world x).net ((pair rank).world y).net where
  isPerson c := by
    obtain ⟨source, isLocal, client⟩ := pair_client rank x y c
    rw [client]
    rfl
  name c := by
    obtain ⟨source, isLocal, client⟩ := pair_client rank x y c
    rw [client]
  findClient text := rfl
  hashFindChannel text _ := rfl
  chname c := rfl
  mode c := rfl
  rootChptr c := rfl
  hasVchans c := rfl
  members c r who := Iff.rfl
  isMember who c := by
    obtain ⟨source, isLocal, client⟩ := pair_client rank x y who
    rw [Chan.State.isMember, client]
    rfl
  mapVchan c who := by
    obtain ⟨source, isLocal, client⟩ := pair_client rank x y who
    rw [Chan.State.mapVchan, Chan.State.isMember, client]
    rfl

theorem pair_tidy (rank : Chan.Rank) (second : Bool) : Tidy ((pair rank).world second).net where
  named c person := by
    rcases pair_person person with rfl | rfl | rfl <;> rfl
  listed text c found _ := by
    obtain rfl := pair_findChannel found
    have shared : ['#', 'a'].head? ≠ some '&' := by decide
    exact ⟨rfl, rfl, rfl, shared⟩
  top c has := Bool.noConfusion has
  vchan c who v _ mapped other := by
    rw [Chan.State.mapVchan] at mapped
    split at mapped
    · exact absurd (Option.some.inj mapped).symm other
    · match who with
      | 0 | 1 | 2 | 3 | _ + 4 => cases mapped

theorem pair_quiet (rank : Chan.Rank) : (pair rank).Quiet where
  link := by
    intro x y equal
    cases x <;> cases y <;> first | rfl | cases equal
  tidy := pair_tidy rank
  same := pair_same rank
  here x who person := by
    rcases pair_person person with rfl | rfl | rfl <;> cases x <;> first | exact iff_of_true rfl rfl | exact iff_of_false nofun nofun
  own x who person home := by
    rcases pair_person person with rfl | rfl | rfl <;> cases x <;> first | rfl | cases home
  away x who person elsewhere := by
    refine ⟨(pair rank).home who, TreeRoute.behind_self (Ne.symm elsewhere), ?_⟩
    rcases pair_person person with rfl | rfl | rfl <;> cases x <;> first | rfl | exact absurd rfl elsewhere
  server x y _ := by
    cases y <;> exact ⟨rfl, rfl⟩
  member x chptr r who on := by
    rcases pair_member on with rfl | rfl <;> rfl

/-- Nobody has been invited yet. -/
def noMarks (_ : Bool) : Marks := ⟨fun _ => 0, 0, Chan.Invites.start 10⟩

/-- The only op invites somebody on the other server, which never hears of it. -/
theorem invite_lost :
    ¬∀ (net : Network Bool) (marks : Bool → Marks) (source : ClientId) (parv : List (List Char)) (i : Invitation),
      net.Quiet → (∀ x, (marks x).Stamped) →
      ((net.world (net.home source)).net.client source).isPerson = true →
      param parv 0 = ((net.world (net.home source)).net.client source).name →
      invitation (net.world (net.home source)).net source parv = some i →
      net.home i.target ≠ net.home source → net.Delivers marks source parv i := by
  intro always
  have delivers := always (pair .peon) noMarks 1 [['a'], ['b'], ['#', 'a']] ⟨2, 0, 0, true⟩ (pair_quiet _)
    (fun _ _ => Nat.le_refl 0) rfl rfl rfl (by decide)
  obtain ⟨f, @⟨m, out, next, run, reaches⟩, -, arrived⟩ := delivers
  obtain rfl : [] = out := congrArg Prod.snd (Option.some.inj run)
  obtain rfl := List.map_eq_nil_iff.mp reaches.symm
  have once := (arrived _ Relation.ReflTransGen.refl rfl).handled
  cases once

/-- With an op there, it is delivered. -/
theorem delivers_pair : (pair .chanop).Delivers noMarks 1 [['a'], ['b'], ['#', 'a']] ⟨2, 0, 0, true⟩ := by
  rw [delivers_iff (pair .chanop) (pair_quiet _) noMarks (fun _ _ => Nat.le_refl 0) 1 _ _ rfl rfl rfl (by decide)]
  refine ⟨⟨3, by decide, .chanop, by decide, by decide⟩, ?_⟩
  rintro who ⟨other, r, -, on⟩
  rw [(pair_member on).resolve_left other]
  rfl

end Ircd.Invite
