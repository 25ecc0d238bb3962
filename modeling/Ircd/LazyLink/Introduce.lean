import Ircd.LazyLink.Hub
import Mathlib.Data.List.ReduceOption

/-!
# A lazy leaf learns each client once

The bit of a client for the leaf is to say whether the leaf has been told of it. `burst_ll_members` tells the leaf
twice, `ms_sjoin` puts nicks in the line that it has not looked at, and `client_burst_if_needed` sets the bit of
clients that are not registered, and introduces clients to the leaf that they are behind.
-/
namespace Ircd.LazyLink

open Chan (ClientId ChannelId Rank)

/-- What lines introduce, and what the lines of channels name. -/
def lines : Herald ClientId Line where
  introduces
    | .nick who | .client who => some who
    | .umode _ | .sjoin _ => none
  names
    | .sjoin who => who
    | .nick _ | .client _ | .umode _ => []

/-- A client is introduced at most once, not at all to the leaf that it is behind, and before a line of a channel names
it. A person that is marked has been introduced. -/
structure Hub.Introduced (s : Hub) (who : ClientId) : Prop where
  atMost : lines.introductions s.sent who ≤ 1
  behind : s.Behind who → lines.introductions s.sent who = 0
  known : ¬ s.Behind who → (s.client who).person = true → s.Knows who → lines.introductions s.sent who = 1
  follows : ¬ s.Behind who → lines.Follows s.sent who

/-- The event is one of those that keep the introductions in order. -/
def Event.Safe (s : Hub) : Event → Prop
  | .register who => s.Behind who ∨ ¬ s.Knows who
  | .llBurstChannel chptr => ∀ r, ∀ who ∈ (s.channel chptr).members r, s.Behind who ∨ s.Knows who
  | .clientBurstIfNeeded target => (s.client target).person = true → s.Knows target ∨ ¬ s.Behind target
  | .msSjoin clientP chptr found =>
    s.KnowsChannel chptr → clientP ≠ s.leaf.self →
    (∃ who, some who ∈ found ∧ (s.client who).source = clientP ∧ (s.client who).person = true) →
    ∀ who, some who ∈ found → s.Behind who ∨
      (s.client who).person = true ∧ ((s.client who).source = clientP ∨ s.Knows who)
  | .arrive _ | .exit _ | .channels _ | .others _ => True

/-- The bits tell what has been sent. -/
structure Hub.Tracked (s : Hub) : Prop where
  hub : s.hub = true
  mask : s.leaf.serverMask ≠ 0
  capLL : s.leaf.capLL = true
  myConnect : s.leaf.myConnect = true
  introduced : ∀ who, s.Introduced who
  unknown : ∀ who, ¬ s.Knows who → lines.introductions s.sent who = 0
  unregistered : ∀ who, (s.client who).live = true → (s.client who).person = false →
    lines.introductions s.sent who = 0
  new : ∀ who, s.nextClient ≤ who → lines.introductions s.sent who = 0 ∧ ∀ m ∈ s.sent, who ∉ lines.names m
  live : ∀ who, (s.client who).person = true → (s.client who).live = true
  members : ∀ c r, ∀ who ∈ (s.channel c).members r, (s.client who).person = true ∧ who < s.nextClient

variable {s t : Hub} {who target : ClientId} {chptr : ChannelId}

theorem Hub.Fresh.tracked (fresh : s.Fresh) : s.Tracked where
  hub := fresh.hub
  mask := fresh.mask
  capLL := fresh.capLL
  myConnect := fresh.myConnect
  introduced who := by
    have none : lines.introductions s.sent who = 0 := by rw [fresh.sent]; rfl
    refine ⟨by omega, fun _ => none, fun _ _ knows => absurd knows (fresh.unknown who), fun _ => ?_⟩
    rw [fresh.sent]
    exact lines.follows_nil
  unknown who _ := by rw [fresh.sent]; rfl
  unregistered who _ _ := by rw [fresh.sent]; rfl
  new who _ := by rw [fresh.sent]; exact ⟨rfl, fun _ member => by cases member⟩
  live := fresh.live
  members := fresh.members

/-! ### Marks -/

theorem mark_and (w m : Mask) : (w ||| m) &&& m = m := by
  ext i
  simp only [BitVec.getElem_and, BitVec.getElem_or]
  cases w[i] <;> cases m[i] <;> rfl

/-- Clients are marked, and introductions are sent. -/
structure Spreads (s t : Hub) (marked : ClientId → Prop) (count : ClientId → ℕ) : Prop where
  hub : t.hub = s.hub
  configHub : t.configHub = s.configHub
  leaf : t.leaf = s.leaf
  channel : t.channel = s.channel
  next : t.nextClient = s.nextClient
  client : ∀ u, ∃ w, t.client u = { s.client u with lazyLinkClientExists := w }
  knows : ∀ u, t.Knows u ↔ s.Knows u ∨ marked u
  sent : ∃ sent, t.sent = s.sent ++ sent ∧ (∀ m ∈ sent, lines.names m = []) ∧
    ∀ u, lines.introductions sent u = count u

section

variable {marked : ClientId → Prop} {count : ClientId → ℕ}

theorem Spreads.person (spreads : Spreads s t marked count) (u : ClientId) :
    (t.client u).person = (s.client u).person := by
  obtain ⟨w, same⟩ := spreads.client u
  rw [same]

theorem Spreads.live (spreads : Spreads s t marked count) (u : ClientId) :
    (t.client u).live = (s.client u).live := by
  obtain ⟨w, same⟩ := spreads.client u
  rw [same]

theorem Spreads.source (spreads : Spreads s t marked count) (u : ClientId) :
    (t.client u).source = (s.client u).source := by
  obtain ⟨w, same⟩ := spreads.client u
  rw [same]

theorem Spreads.behind (spreads : Spreads s t marked count) (u : ClientId) : t.Behind u ↔ s.Behind u := by
  rw [Hub.Behind, Hub.Behind, spreads.source, spreads.leaf]

theorem Spreads.introductions (spreads : Spreads s t marked count) (u : ClientId) :
    lines.introductions t.sent u = lines.introductions s.sent u + count u := by
  obtain ⟨sent, same, -, counted⟩ := spreads.sent
  rw [same, Herald.introductions_append, counted]

theorem Spreads.follows (spreads : Spreads s t marked count) (u : ClientId) :
    lines.Follows t.sent u ↔ lines.Follows s.sent u := by
  obtain ⟨sent, same, silent, -⟩ := spreads.sent
  rw [same]
  exact lines.follows_append fun m member => by rw [silent m member]; exact List.not_mem_nil

theorem Spreads.refl (s : Hub) : Spreads s s (fun _ => False) fun _ => 0 where
  hub := rfl
  configHub := rfl
  leaf := rfl
  channel := rfl
  next := rfl
  client _ := ⟨_, rfl⟩
  knows _ := by simp
  sent := ⟨[], (List.append_nil _).symm, by simp, fun _ => rfl⟩

/-- Whoever is marked and is a person has been introduced just now, unless the leaf knew it. -/
theorem Hub.Tracked.spread (tracked : s.Tracked) (spreads : Spreads s t marked count)
    (once : ∀ u, ¬ s.Knows u → marked u → (s.client u).person = true →
      count u = 1 ∧ ¬ s.Behind u ∨ count u = 0 ∧ s.Behind u)
    (none : ∀ u, (s.Knows u ∨ ¬ marked u ∨ (s.client u).person = false) → count u = 0)
    (old : ∀ u, marked u → u < s.nextClient) : t.Tracked := by
  -- only strangers who are marked are introduced now
  have cases_ : ∀ u, count u = 0 ∨ ¬ s.Knows u ∧ marked u ∧ (s.client u).person = true := by
    intro u
    by_cases quiet : s.Knows u ∨ ¬ marked u ∨ (s.client u).person = false
    · exact Or.inl (none u quiet)
    · simp only [not_or, not_not, Bool.not_eq_false] at quiet
      exact Or.inr quiet
  have counts := spreads.introductions
  constructor
  · rw [spreads.hub, tracked.hub]
  · rw [spreads.leaf]
    exact tracked.mask
  · rw [spreads.leaf, tracked.capLL]
  · rw [spreads.leaf, tracked.myConnect]
  · intro u
    obtain ⟨atMost, behind, known, follows⟩ := tracked.introduced u
    have unknown := tracked.unknown u
    refine ⟨?_, fun isBehind => ?_, fun outside person knows => ?_, fun outside => ?_⟩
    · rw [counts]
      rcases cases_ u with zero | ⟨fresh, mark, person⟩
      · omega
      · have zero := unknown fresh
        rcases once u fresh mark person with one | one
        · omega
        · omega
    · rw [spreads.behind] at isBehind
      rw [counts, behind isBehind]
      rcases cases_ u with zero | ⟨fresh, mark, person⟩
      · omega
      · rcases once u fresh mark person with one | one
        · exact absurd isBehind one.2
        · omega
    · rw [spreads.behind] at outside
      rw [spreads.person] at person
      rw [counts]
      by_cases before : s.Knows u
      · rw [known outside person before, none u (Or.inl before)]
      · have mark := ((spreads.knows u).mp knows).resolve_left before
        rcases once u before mark person with one | one
        · rw [unknown before, one.1]
        · exact absurd one.2 outside
    · rw [spreads.behind] at outside
      exact (spreads.follows u).mpr (follows outside)
  · intro u fresh
    rw [spreads.knows, not_or] at fresh
    rw [counts, tracked.unknown u fresh.1, none u (Or.inr (Or.inl fresh.2))]
  · intro u live person
    rw [spreads.live] at live
    rw [spreads.person] at person
    rw [counts, tracked.unregistered u live person, none u (Or.inr (Or.inr person))]
  · intro u above
    rw [spreads.next] at above
    obtain ⟨zero, unnamed⟩ := tracked.new u above
    have unmarked : ¬ marked u := fun mark => absurd (old u mark) (Nat.not_lt.mpr above)
    refine ⟨by rw [counts, zero, none u (Or.inr (Or.inl unmarked))], fun m member => ?_⟩
    obtain ⟨sent, same, silent, -⟩ := spreads.sent
    rw [same] at member
    rcases List.mem_append.mp member with before | now
    · exact unnamed m before
    · rw [silent m now]
      exact List.not_mem_nil
  · intro u person
    rw [spreads.person] at person
    rw [spreads.live]
    exact tracked.live u person
  · intro c r u member
    rw [spreads.channel] at member
    rw [spreads.person, spreads.next]
    exact tracked.members c r u member

theorem Spreads.congr (spreads : Spreads s t marked count) {marked' : ClientId → Prop} {count' : ClientId → ℕ}
    (marks : ∀ u, marked u ↔ marked' u) (counts : ∀ u, count u = count' u) : Spreads s t marked' count' := by
  obtain rfl : marked = marked' := funext fun u => propext (marks u)
  obtain rfl : count = count' := funext counts
  exact spreads

theorem Spreads.trans {u : Hub} {marked' : ClientId → Prop} {count' : ClientId → ℕ} (first : Spreads s t marked count)
    (second : Spreads t u marked' count') : Spreads s u (fun w => marked w ∨ marked' w) fun w => count w + count' w where
  hub := second.hub.trans first.hub
  configHub := second.configHub.trans first.configHub
  leaf := second.leaf.trans first.leaf
  channel := second.channel.trans first.channel
  next := second.next.trans first.next
  client w := by
    obtain ⟨word, same⟩ := first.client w
    obtain ⟨word', same'⟩ := second.client w
    exact ⟨word', by rw [same', same]⟩
  knows w := by rw [second.knows, first.knows, or_assoc]
  sent := by
    obtain ⟨sent, same, silent, counted⟩ := first.sent
    obtain ⟨sent', same', silent', counted'⟩ := second.sent
    refine ⟨sent ++ sent', by rw [same', same, List.append_assoc], fun m member => ?_, fun w => ?_⟩
    · exact (List.mem_append.mp member).elim (silent m) (silent' m)
    · rw [Herald.introductions_append, counted, counted']

end

/-! ### What each function does to the marks -/

theorem spreads_addLazylinkclient (mask : s.leaf.serverMask ≠ 0) (who : ClientId) :
    Spreads s (s.addLazylinkclient who) (· = who) fun _ => 0 where
  hub := rfl
  configHub := rfl
  leaf := rfl
  channel := rfl
  next := rfl
  client u := by
    unfold Hub.addLazylinkclient
    by_cases here : u = who
    · subst here
      exact ⟨_, Function.update_self ..⟩
    · exact ⟨_, Function.update_of_ne here ..⟩
  knows u := by
    unfold Hub.Knows Hub.addLazylinkclient
    by_cases here : u = who
    · subst here
      simp only [Function.update_self, mark_and]
      exact iff_of_true mask (Or.inr trivial)
    · simp [here]
  sent := ⟨[], (List.append_nil _).symm, by simp, fun _ => rfl⟩

theorem spreads_send (s : Hub) {sent : List Line} (silent : ∀ m ∈ sent, lines.names m = []) :
    Spreads s (s.send sent) (fun _ => False) (lines.introductions sent) where
  hub := rfl
  configHub := rfl
  leaf := rfl
  channel := rfl
  next := rfl
  client _ := ⟨_, rfl⟩
  knows _ := by simp [Hub.Knows, Hub.send]
  sent := ⟨sent, rfl, silent, fun _ => rfl⟩

theorem introduces_introduction (s : Hub) (who : ClientId) :
    lines.introduces (s.introduction who) = some who ∧ lines.names (s.introduction who) = [] := by
  unfold Hub.introduction
  split
  · exact ⟨rfl, rfl⟩
  · exact ⟨rfl, rfl⟩

theorem introductions_introduction (s : Hub) (who u : ClientId) :
    lines.introductions [s.introduction who] u = if u = who then 1 else 0 := by
  rw [Herald.introductions_single, (introduces_introduction s who).1]
  simp [eq_comm]

theorem spreads_introduction (s : Hub) (who : ClientId) :
    Spreads s (s.send [s.introduction who]) (fun _ => False) fun u => if u = who then 1 else 0 := by
  have silent : ∀ m ∈ [s.introduction who], lines.names m = [] := by simp [(introduces_introduction s who).2]
  exact (spreads_send s silent).congr (fun _ => Iff.rfl) (introductions_introduction s who)

theorem spreads_sendnickTS (s : Hub) (who : ClientId) :
    Spreads s (s.sendnickTS who) (fun _ => False) fun u => if u = who ∧ (s.client who).person = true then 1 else 0 := by
  unfold Hub.sendnickTS
  split
  next person => exact (spreads_introduction s who).congr (fun _ => Iff.rfl) fun u => by simp [person]
  next other => exact (Spreads.refl s).congr (fun _ => Iff.rfl) fun u => by simp [other]

theorem spreads_burstClient (s : Hub) (who : ClientId) :
    Spreads s (s.burstClient who) (fun _ => False) fun u => if u = who then 1 else 0 := by
  have introduced := spreads_introduction s who
  unfold Hub.burstClient
  dsimp only
  split
  · have silent : ∀ m ∈ [Line.umode who], lines.names m = [] := by simp [lines]
    refine (introduced.trans (spreads_send _ silent)).congr (fun _ => by simp) fun u => ?_
    simp [Herald.introductions, lines]
  · exact introduced

/-- A member that the leaf does not know is introduced twice. -/
theorem spreads_burstMember (mask : s.leaf.serverMask ≠ 0) (fresh : ¬ s.Knows target) (outside : ¬ s.Behind target) :
    Spreads s (s.burstMember target) (· = target) fun u =>
      if u = target then 1 + if (s.client target).person = true then 1 else 0 else 0 := by
  have unmarked : (s.client target).lazyLinkClientExists &&& s.leaf.serverMask = 0 := not_not.mp fresh
  have other : (s.client target).source ≠ s.leaf.self := outside
  unfold Hub.burstMember
  rw [if_pos unmarked, if_pos other]
  have marked := spreads_addLazylinkclient mask target
  have burst := marked.trans (spreads_burstClient _ target)
  refine (burst.trans (spreads_sendnickTS _ target)).congr (fun u => by simp) fun u => ?_
  rw [burst.person]
  by_cases here : u = target
  · simp [here]
  · simp [here]

theorem burstMember_known (quiet : s.Behind target ∨ s.Knows target) : s.burstMember target = s := by
  unfold Hub.burstMember
  split
  next unmarked =>
    have behind : (s.client target).source = s.leaf.self := quiet.resolve_right (not_not.mpr unmarked)
    rw [if_neg (not_not.mpr behind)]
  · rfl

/-- A client that the leaf does not know is told of. -/
theorem spreads_tell (mask : s.leaf.serverMask ≠ 0) (target : ClientId) :
    Spreads s ((s.sendnickTS target).addLazylinkclient target) (· = target) fun u =>
      if u = target ∧ (s.client target).person = true then 1 else 0 := by
  have told := spreads_sendnickTS s target
  have mask' : (s.sendnickTS target).leaf.serverMask ≠ 0 := by rw [told.leaf]; exact mask
  exact (told.trans (spreads_addLazylinkclient mask' target)).congr (fun _ => by simp) fun _ => rfl

theorem Hub.Tracked.tell (tracked : s.Tracked) (fresh : ¬ s.Knows target) (old : target < s.nextClient)
    (outside : (s.client target).person = true → ¬ s.Behind target) :
    ((s.sendnickTS target).addLazylinkclient target).Tracked := by
  refine tracked.spread (spreads_tell tracked.mask target) (fun u _ mark person => ?_) (fun u quiet => ?_)
    fun u mark => ?_
  · subst mark
    exact Or.inl ⟨if_pos ⟨rfl, person⟩, outside person⟩
  · refine if_neg fun both => ?_
    obtain ⟨rfl, person⟩ := both
    rcases quiet with knows | unmarked | other
    · exact fresh knows
    · exact unmarked rfl
    · rw [person] at other
      cases other
  · subst mark
    exact old

/-! ### Lines that name clients -/

theorem Hub.Tracked.name (tracked : s.Tracked) {who : List ClientId}
    (known : ∀ u ∈ who, s.Behind u ∨ (s.client u).person = true ∧ s.Knows u) (old : ∀ u ∈ who, u < s.nextClient) :
    (s.send [.sjoin who]).Tracked := by
  have count : ∀ u, lines.introductions (s.send [.sjoin who]).sent u = lines.introductions s.sent u := fun u => by
    change lines.introductions (s.sent ++ [.sjoin who]) u = _
    rw [Herald.introductions_append, Herald.introductions_single]
    rfl
  refine ⟨tracked.hub, tracked.mask, tracked.capLL, tracked.myConnect, fun u => ?_, fun u unknown => ?_,
    fun u live person => ?_, fun u above => ?_, tracked.live, tracked.members⟩
  · obtain ⟨atMost, behind, isKnown, follows⟩ := tracked.introduced u
    refine ⟨by rw [count]; exact atMost, fun isBehind => by rw [count]; exact behind isBehind,
      fun outside person knows => by rw [count]; exact isKnown outside person knows, fun outside => ?_⟩
    refine lines.follows_append_single.mpr ⟨follows outside, fun named => ?_⟩
    obtain ⟨person, knows⟩ := (known u named).resolve_left outside
    rw [isKnown outside person knows]
    exact Nat.one_pos
  · rw [count]
    exact tracked.unknown u unknown
  · rw [count]
    exact tracked.unregistered u live person
  · rw [count]
    obtain ⟨zero, unnamed⟩ := tracked.new u above
    refine ⟨zero, fun m member => ?_⟩
    rcases List.mem_append.mp member with before | now
    · exact unnamed m before
    · rw [List.mem_singleton.mp now]
      exact fun named => absurd (old u named) (Nat.not_lt.mpr above)

/-- A client that has not been introduced must not be named. -/
theorem Hub.not_introduced_of_named {who : List ClientId} {u : ClientId} (named : u ∈ who) (outside : ¬ s.Behind u)
    (none : lines.introductions s.sent u = 0) : ¬ (s.send [.sjoin who]).Introduced u := by
  intro introduced
  have follows := introduced.follows outside
  have positive := (lines.follows_append_single.mp follows).2 named
  omega

/-! ### Bursts -/

theorem burstLlMembers_known {list : List ClientId} (known : ∀ u ∈ list, s.Behind u ∨ s.Knows u) :
    s.burstLlMembers list = s := by
  induction list with
  | nil => rfl
  | cons who list ih =>
    rw [Hub.burstLlMembers, List.foldl_cons, burstMember_known (known who List.mem_cons_self)]
    exact ih fun u member => known u (List.mem_cons_of_mem _ member)

theorem Hub.Tracked.sendMembers (tracked : s.Tracked) {list : List ClientId}
    (known : ∀ u ∈ list, s.Behind u ∨ (s.client u).person = true ∧ s.Knows u) (old : ∀ u ∈ list, u < s.nextClient) :
    (s.sendMembers list).Tracked := by
  unfold Hub.sendMembers
  split
  · exact tracked
  · exact tracked.name known old

theorem Hub.Tracked.sendAll {lists : List (List ClientId)} (tracked : s.Tracked)
    (known : ∀ list ∈ lists, ∀ u ∈ list, s.Behind u ∨ (s.client u).person = true ∧ s.Knows u)
    (old : ∀ list ∈ lists, ∀ u ∈ list, u < s.nextClient) : (lists.foldl Hub.sendMembers s).Tracked := by
  induction lists generalizing s with
  | nil => exact tracked
  | cons list lists ih =>
    have first := tracked.sendMembers (known list List.mem_cons_self) (old list List.mem_cons_self)
    have known' := fun l member => known l (List.mem_cons_of_mem list member)
    have old' := fun l member => old l (List.mem_cons_of_mem list member)
    rw [List.foldl_cons]
    unfold Hub.sendMembers at first ⊢
    split
    · exact ih tracked known' old'
    next some_ =>
      rw [if_neg some_] at first
      exact ih first known' old'

theorem Hub.Tracked.addLazylinkchannel (tracked : s.Tracked) (chptr : ChannelId) :
    (s.addLazylinkchannel chptr).Tracked := by
  refine ⟨tracked.hub, tracked.mask, tracked.capLL, tracked.myConnect,
    fun u => ⟨(tracked.introduced u).1, (tracked.introduced u).2, (tracked.introduced u).3, (tracked.introduced u).4⟩,
    tracked.unknown, tracked.unregistered, tracked.new, tracked.live, fun c r u member => ?_⟩
  by_cases here : c = chptr
  · subst here
    simp only [Hub.addLazylinkchannel, Function.update_self] at member
    exact tracked.members c r u member
  · simp only [Hub.addLazylinkchannel, Function.update_of_ne here] at member
    exact tracked.members c r u member

/-- The five lists are gone through as if they were one. -/
theorem Hub.llBurstChannel_eq (s : Hub) (chptr : ChannelId) : s.llBurstChannel chptr =
    ((s.burstLlMembers ([Rank.chanop, .chanopVoiced, .voiced, .halfop, .peon].flatMap
      (s.channel chptr).members)).burstChannel chptr).addLazylinkchannel chptr := by
  unfold Hub.llBurstChannel Hub.burstLlMembers
  rw [List.foldl_flatMap]

theorem Hub.burstChannel_eq (s : Hub) (chptr : ChannelId) : s.burstChannel chptr =
    if (s.channel chptr).chname.head? = some '#' then
      ([Rank.chanop, .chanopVoiced, .halfop, .voiced, .peon].map (s.channel chptr).members).foldl Hub.sendMembers s
    else s := by
  unfold Hub.burstChannel
  rw [List.foldl_map]

/-- A burst of a channel whose members are all known introduces nobody. -/
theorem Hub.Tracked.llBurstChannel (tracked : s.Tracked)
    (safe : ∀ r, ∀ who ∈ (s.channel chptr).members r, s.Behind who ∨ s.Knows who) :
    (s.llBurstChannel chptr).Tracked := by
  rw [Hub.llBurstChannel_eq, burstLlMembers_known fun u member => by
    obtain ⟨r, -, on⟩ := List.mem_flatMap.mp member
    exact safe r u on]
  refine Hub.Tracked.addLazylinkchannel ?_ chptr
  rw [Hub.burstChannel_eq]
  split
  · refine tracked.sendAll (fun list member u on => ?_) fun list member u on => ?_
    · obtain ⟨r, -, rfl⟩ := List.mem_map.mp member
      exact (safe r u on).imp_right fun knows => ⟨(tracked.members chptr r u on).1, knows⟩
    · obtain ⟨r, -, rfl⟩ := List.mem_map.mp member
      exact (tracked.members chptr r u on).2
  · exact tracked

theorem spreads_burstLlMembers (mask : s.leaf.serverMask ≠ 0) (list : List ClientId) :
    ∃ marked count, Spreads s (s.burstLlMembers list) marked count ∧ ∀ u ∈ list, ¬ s.Knows u → ¬ s.Behind u →
      (s.client u).person = true → 2 ≤ count u := by
  induction list generalizing s with
  | nil => exact ⟨_, _, Spreads.refl s, fun _ member => by cases member⟩
  | cons who list ih =>
    rw [Hub.burstLlMembers, List.foldl_cons]
    by_cases quiet : s.Behind who ∨ s.Knows who
    · rw [burstMember_known quiet]
      obtain ⟨marked, count, spreads, twice⟩ := ih mask
      refine ⟨marked, count, spreads, fun u member fresh outside => ?_⟩
      rcases List.mem_cons.mp member with rfl | member
      · exact absurd quiet (not_or.mpr ⟨outside, fresh⟩)
      · exact twice u member fresh outside
    · obtain ⟨outside, fresh⟩ := not_or.mp quiet
      have first := spreads_burstMember mask fresh outside
      obtain ⟨marked, count, rest, twice⟩ := ih (by rw [first.leaf]; exact mask)
      refine ⟨_, _, first.trans rest, fun u member fresh' outside' person => ?_⟩
      by_cases here : u = who
      · subst here
        simp only [person, if_true]
        omega
      · have later := twice u ((List.mem_cons.mp member).resolve_left here) (by simp [first.knows, fresh', here])
          (by rw [first.behind]; exact outside') (by rw [first.person, person])
        omega

/-- The lines of a channel introduce nobody. -/
theorem introductions_burstChannel (s : Hub) (chptr : ChannelId) (u : ClientId) :
    lines.introductions (s.burstChannel chptr).sent u = lines.introductions s.sent u := by
  have each : ∀ (lists : List (List ClientId)) (s : Hub),
      lines.introductions (lists.foldl Hub.sendMembers s).sent u = lines.introductions s.sent u := by
    intro lists
    induction lists with
    | nil => exact fun _ => rfl
    | cons list lists ih =>
      intro s
      rw [List.foldl_cons, ih]
      unfold Hub.sendMembers
      split
      · rfl
      · change lines.introductions (s.sent ++ [.sjoin list]) u = _
        rw [Herald.introductions_append]
        rfl
  rw [Hub.burstChannel_eq]
  split
  · exact each _ s
  · rfl

/-- A member that the leaf does not know is introduced twice by the burst of the channel. -/
theorem Hub.Tracked.llBurstChannel_safe (tracked : s.Tracked)
    (after : ∀ u, (s.llBurstChannel chptr).Introduced u) {r : Rank} (member : who ∈ (s.channel chptr).members r) :
    s.Behind who ∨ s.Knows who := by
  by_contra quiet
  obtain ⟨outside, fresh⟩ := not_or.mp quiet
  have person := (tracked.members chptr r who member).1
  have inside : who ∈ [Rank.chanop, .chanopVoiced, .voiced, .halfop, .peon].flatMap (s.channel chptr).members :=
    List.mem_flatMap.mpr ⟨r, by cases r <;> decide, member⟩
  obtain ⟨marked, count, spreads, twice⟩ := spreads_burstLlMembers tracked.mask
    ([Rank.chanop, .chanopVoiced, .voiced, .halfop, .peon].flatMap (s.channel chptr).members)
  have often := spreads.introductions who
  have once := (after who).atMost
  rw [Hub.llBurstChannel_eq] at once
  have more := introductions_burstChannel (s.burstLlMembers
    ([Rank.chanop, .chanopVoiced, .voiced, .halfop, .peon].flatMap (s.channel chptr).members)) chptr who
  have two := twice who inside fresh outside person
  change lines.introductions (Hub.burstChannel _ chptr).sent who ≤ 1 at once
  omega

/-! ### SJOIN -/

/-- The nick is one that `ms_sjoin` adds to the channel. -/
def Hub.Accepts (s : Hub) (clientP who : ClientId) : Prop :=
  (s.client who).source = clientP ∧ (s.client who).person = true

/-- What the loop over the nicks of a SJOIN has done. -/
structure Reads (clientP : ClientId) (chptr : ChannelId) (found : List (Option ClientId)) (l r : Hub.NickLoop) :
    Prop where
  tracked : r.hub.Tracked
  nicks : r.nicks = l.nicks ++ found.reduceOption
  people : r.people = 0 ↔ l.people = 0 ∧ ∀ who, some who ∈ found → ¬ l.hub.Accepts clientP who
  spreads : ∃ marked count, Spreads l.hub r.hub marked count ∧
    ∀ who, (marked who → l.hub.Accepts clientP who) ∧ (¬ l.hub.Accepts clientP who → count who = 0)
  told : clientP ≠ l.hub.leaf.self → l.hub.KnowsChannel chptr →
    ∀ who, some who ∈ found → l.hub.Accepts clientP who → r.hub.Knows who

theorem Spreads.accepts {marked : ClientId → Prop} {count : ClientId → ℕ} (spreads : Spreads s t marked count)
    (clientP who : ClientId) : t.Accepts clientP who ↔ s.Accepts clientP who := by
  rw [Hub.Accepts, Hub.Accepts, spreads.source, spreads.person]

theorem Spreads.knowsChannel {marked : ClientId → Prop} {count : ClientId → ℕ} (spreads : Spreads s t marked count)
    (chptr : ChannelId) : t.KnowsChannel chptr ↔ s.KnowsChannel chptr := by
  rw [Hub.KnowsChannel, Hub.KnowsChannel, Hub.rootChan, Hub.rootChan, spreads.channel, spreads.leaf]

/-- One nick: it is skipped, or it is counted, and its client is told to the leaf if the leaf needs it. -/
theorem nickStep_some (tracked : s.Tracked) (clientP : ClientId) (chptr : ChannelId) (nicks : List ClientId)
    (people : ℕ) (target : ClientId) :
    (¬ s.Accepts clientP target ∧
      Hub.nickStep clientP chptr ⟨s, nicks, people⟩ (some target) = ⟨s, nicks ++ [target], people⟩) ∨
    (s.Accepts clientP target ∧ (clientP = s.leaf.self ∨ ¬ s.KnowsChannel chptr ∨ s.Knows target) ∧
      Hub.nickStep clientP chptr ⟨s, nicks, people⟩ (some target) = ⟨s, nicks ++ [target], people + 1⟩) ∨
    (s.Accepts clientP target ∧ clientP ≠ s.leaf.self ∧ ¬ s.Knows target ∧
      Hub.nickStep clientP chptr ⟨s, nicks, people⟩ (some target) =
        ⟨(s.sendnickTS target).addLazylinkclient target, nicks ++ [target], people + 1⟩) := by
  unfold Hub.nickStep
  dsimp only
  by_cases here : (s.client target).source = clientP
  · rw [if_neg (not_not.mpr here)]
    cases person : (s.client target).person with
    | false =>
      rw [if_pos rfl]
      exact Or.inl ⟨fun accepts => by simp [accepts.2] at person, rfl⟩
    | true =>
      have accepts : s.Accepts clientP target := ⟨here, person⟩
      rw [if_neg (by simp), if_neg (by simp [tracked.hub])]
      right
      by_cases self : clientP = s.leaf.self
      · rw [if_pos self]
        exact Or.inl ⟨accepts, Or.inl self, rfl⟩
      · rw [if_neg self, if_neg (by simp [tracked.capLL])]
        by_cases channel : s.KnowsChannel chptr
        · rw [if_neg (not_not.mpr channel)]
          by_cases knows : s.Knows target
          · rw [if_neg (not_not.mpr knows)]
            exact Or.inl ⟨accepts, Or.inr (Or.inr knows), rfl⟩
          · rw [if_pos knows]
            exact Or.inr ⟨accepts, self, knows, rfl⟩
        · rw [if_pos channel]
          exact Or.inl ⟨accepts, Or.inr (Or.inl channel), rfl⟩
  · rw [if_pos here]
    exact Or.inl ⟨fun accepts => here accepts.1, rfl⟩

/-- A nick before the others. -/
theorem Reads.cons {clientP : ClientId} {chptr : ChannelId} {found : List (Option ClientId)} {l l' r : Hub.NickLoop}
    (rest : Reads clientP chptr found l' r) {target : ClientId} (nicks : l'.nicks = l.nicks ++ [target])
    (people : l'.people = 0 ↔ l.people = 0 ∧ ¬ l.hub.Accepts clientP target) {marked : ClientId → Prop}
    {count : ClientId → ℕ} (spreads : Spreads l.hub l'.hub marked count)
    (accepted : ∀ who, (marked who → l.hub.Accepts clientP who) ∧ (¬ l.hub.Accepts clientP who → count who = 0))
    (told : clientP ≠ l.hub.leaf.self → l.hub.KnowsChannel chptr → l.hub.Accepts clientP target →
      l'.hub.Knows target) : Reads clientP chptr (some target :: found) l r := by
  obtain ⟨marked', count', spreads', accepted'⟩ := rest.spreads
  simp only [spreads.accepts] at accepted'
  refine ⟨rest.tracked, ?_, ?_, ⟨_, _, spreads.trans spreads', fun who => ⟨?_, fun refused => ?_⟩⟩,
    fun other channel who member accepts => ?_⟩
  · rw [rest.nicks, nicks, List.append_assoc]
    rfl
  · rw [rest.people, people, and_assoc]
    simp only [spreads.accepts, List.mem_cons, Option.some.injEq, forall_eq_or_imp]
  · exact fun mark => mark.elim (accepted who).1 (accepted' who).1
  · rw [(accepted who).2 refused, (accepted' who).2 refused]
  · rcases List.mem_cons.mp member with same | later
    · obtain rfl := Option.some.inj same
      exact (spreads'.knows who).mpr (Or.inl (told other channel accepts))
    · exact rest.told (by rw [spreads.leaf]; exact other) ((spreads.knowsChannel chptr).mpr channel) who later
        ((spreads.accepts clientP who).mpr accepts)

theorem Hub.Tracked.nickLoop {clientP : ClientId} {chptr : ChannelId} (found : List (Option ClientId))
    (tracked : s.Tracked) (nicks : List ClientId) (people : ℕ) (old : ∀ who, some who ∈ found → who < s.nextClient) :
    Reads clientP chptr found ⟨s, nicks, people⟩ (found.foldl (Hub.nickStep clientP chptr) ⟨s, nicks, people⟩) := by
  induction found generalizing s nicks people with
  | nil =>
    refine ⟨tracked, (List.append_nil _).symm, by simp, ⟨_, _, Spreads.refl _, fun _ => ⟨False.elim, fun _ => rfl⟩⟩, ?_⟩
    intro _ _ who member
    cases member
  | cons first found ih =>
    rw [List.foldl_cons]
    have rest := fun who member => old who (List.mem_cons_of_mem first member)
    cases first with
    | none =>
      obtain ⟨tracked', nicks', people', spreads, told⟩ := ih tracked nicks people rest
      refine ⟨tracked', nicks', by simpa [Hub.nickStep] using people', spreads, ?_⟩
      intro other channel who member accepts
      exact told other channel who (by simpa using member) accepts
    | some target =>
      have still := Spreads.refl s
      rcases nickStep_some tracked clientP chptr nicks people target with
        ⟨refused, same⟩ | ⟨accepts, quiet, same⟩ | ⟨accepts, other, fresh, same⟩
      · rw [same]
        refine (ih tracked (nicks ++ [target]) people rest).cons rfl ?_ still (fun _ => ⟨False.elim, fun _ => rfl⟩) ?_
        · exact (and_iff_left refused).symm
        · exact fun _ _ accepts => absurd accepts refused
      · rw [same]
        refine (ih tracked (nicks ++ [target]) (people + 1) rest).cons rfl ?_ still
          (fun _ => ⟨False.elim, fun _ => rfl⟩) ?_
        · exact iff_of_false (Nat.succ_ne_zero people) fun both => both.2 accepts
        · intro other channel _
          exact (quiet.resolve_left other).resolve_left (not_not.mpr channel)
      · rw [same]
        have outside : (s.client target).person = true → ¬ s.Behind target := fun _ behind =>
          other (accepts.1.symm.trans behind)
        have tell := spreads_tell tracked.mask target
        have tracked' := tracked.tell fresh (old target List.mem_cons_self) outside
        refine (ih tracked' (nicks ++ [target]) (people + 1) (by rw [tell.next]; exact rest)).cons rfl ?_ tell
          (fun who => ⟨?_, fun refused => ?_⟩) fun _ _ _ => (tell.knows target).mpr (Or.inr rfl)
        · exact iff_of_false (Nat.succ_ne_zero people) fun both => both.2 accepts
        · rintro rfl
          exact accepts
        · refine if_neg fun both => ?_
          rw [both.1] at refused
          exact refused accepts

/-- The SJOIN that is relayed names the clients that have been found. -/
theorem Hub.msSjoin_cases (tracked : s.Tracked) (chptr : ChannelId) {clientP : ClientId}
    {found : List (Option ClientId)}
    (old : ∀ who, some who ∈ found → who < s.nextClient) :
    ∃ l : Hub, l.Tracked ∧ (∃ marked count, Spreads s l marked count ∧
        ∀ who, (marked who → s.Accepts clientP who) ∧ (¬ s.Accepts clientP who → count who = 0)) ∧
      (clientP ≠ s.leaf.self → s.KnowsChannel chptr →
        ∀ who, some who ∈ found → s.Accepts clientP who → l.Knows who) ∧
      ((s.KnowsChannel chptr ∧ clientP ≠ s.leaf.self ∧ ∃ who, some who ∈ found ∧ s.Accepts clientP who) ∧
          s.msSjoin clientP chptr found = l.send [.sjoin found.reduceOption] ∨
        ¬(s.KnowsChannel chptr ∧ clientP ≠ s.leaf.self ∧ ∃ who, some who ∈ found ∧ s.Accepts clientP who) ∧
          s.msSjoin clientP chptr found = l) := by
  have reads : Reads clientP chptr found ⟨s, [], 0⟩ _ := tracked.nickLoop found [] 0 old
  obtain ⟨marked, count, spreads, accepted⟩ := reads.spreads
  refine ⟨_, reads.tracked, ⟨marked, count, spreads, accepted⟩, reads.told, ?_⟩
  have people := reads.people
  simp only [true_and] at people
  unfold Hub.msSjoin
  dsimp only
  by_cases relayed : s.KnowsChannel chptr ∧ clientP ≠ s.leaf.self ∧ ∃ who, some who ∈ found ∧ s.Accepts clientP who
  · refine Or.inl ⟨relayed, ?_⟩
    obtain ⟨channel, other, who, member, accepts⟩ := relayed
    rw [if_neg fun none => people.mp none who member accepts, if_neg (by rw [spreads.leaf]; exact other.symm),
      if_neg fun unknown => unknown.2.2 ((spreads.knowsChannel chptr).mpr channel), reads.nicks]
    rfl
  · refine Or.inr ⟨relayed, ?_⟩
    split
    · rfl
    next some_ =>
      split
      · rfl
      next other =>
        rw [if_pos]
        refine ⟨reads.tracked.hub, reads.tracked.capLL, fun channel => relayed ⟨(spreads.knowsChannel chptr).mp channel,
          fun self => other (by rw [spreads.leaf]; exact self.symm), ?_⟩⟩
        by_contra nobody
        exact some_ (people.mpr fun who member accepts => nobody ⟨who, member, accepts⟩)

/-! ### One event -/

theorem Hub.clientBurstIfNeeded_eq (tracked : s.Tracked) (target : ClientId) : s.clientBurstIfNeeded target =
    if s.Knows target then s else (s.sendnickTS target).addLazylinkclient target := by
  unfold Hub.clientBurstIfNeeded
  rw [if_neg (by simp [tracked.hub]), if_neg (by simp [tracked.myConnect]), if_neg (by simp [tracked.capLL])]
  by_cases knows : s.Knows target
  · rw [if_neg knows, if_pos knows]
  · rw [if_pos (not_not.mp knows), if_neg knows]

theorem Hub.Tracked.arrive (tracked : s.Tracked) {client : Client} (live : client.live = true)
    (unmarked : client.lazyLinkClientExists = 0) : (s.arrive client).Tracked := by
  obtain ⟨zero, unnamed⟩ := tracked.new s.nextClient (Nat.le_refl _)
  have came : Hub.Tracked { s with
      client := Function.update s.client s.nextClient client, nextClient := s.nextClient + 1 } := by
    refine ⟨tracked.hub, tracked.mask, tracked.capLL, tracked.myConnect, fun u => ?_, fun u unknown => ?_,
      fun u alive person => ?_, fun u above => tracked.new u (Nat.le_of_succ_le above), fun u person => ?_,
      fun c r u member => ?_⟩
    · by_cases here : u = s.nextClient
      · subst here
        refine ⟨by rw [zero]; exact Nat.zero_le 1, fun _ => zero, fun _ _ knows => ?_, fun _ => ?_⟩
        · simp only [Hub.Knows, Function.update_self, unmarked] at knows
          exact absurd (BitVec.zero_and ..) knows
        · have silent := lines.follows_append (l := []) unnamed
          exact silent.mpr lines.follows_nil
      · obtain ⟨atMost, behind, known, follows⟩ := tracked.introduced u
        refine ⟨atMost, ?_, ?_, ?_⟩
        · simpa only [Hub.Behind, Function.update_of_ne here] using behind
        · simpa only [Hub.Behind, Hub.Knows, Function.update_of_ne here] using known
        · simpa only [Hub.Behind, Function.update_of_ne here] using follows
    · by_cases here : u = s.nextClient
      · rw [here]
        exact zero
      · refine tracked.unknown u ?_
        simpa only [Hub.Knows, Function.update_of_ne here] using unknown
    · by_cases here : u = s.nextClient
      · rw [here]
        exact zero
      · simp only [Function.update_of_ne here] at alive person
        exact tracked.unregistered u alive person
    · by_cases here : u = s.nextClient
      · subst here
        simp only [Function.update_self]
        exact live
      · simp only [Function.update_of_ne here] at person ⊢
        exact tracked.live u person
    · obtain ⟨person, below⟩ := tracked.members c r u member
      have here : u ≠ s.nextClient := Nat.ne_of_lt below
      simp only [Function.update_of_ne here]
      exact ⟨person, Nat.lt_succ_of_lt below⟩
  -- a client that comes from the leaf is known to it at once
  unfold Hub.arrive
  dsimp only
  split
  next own =>
    refine came.spread (spreads_addLazylinkclient came.mask s.nextClient) (fun u _ mark _ => Or.inr ⟨rfl, ?_⟩)
      (fun _ _ => rfl) fun u mark => ?_
    · rw [mark, Hub.Behind]
      simp only [Function.update_self]
      exact own.2.2
    · rw [mark]
      exact Nat.lt_succ_self _
  · exact came

/-- A client stays where it is, and as known as it is. -/
theorem Hub.update_same (s : Hub) (who : ClientId) (client : Client) (word : client.lazyLinkClientExists = (s.client who).lazyLinkClientExists)
    (source : client.source = (s.client who).source) (u : ClientId) :
    (Hub.Knows { s with client := Function.update s.client who client } u ↔ s.Knows u) ∧
      (Hub.Behind { s with client := Function.update s.client who client } u ↔ s.Behind u) := by
  unfold Hub.Knows Hub.Behind
  by_cases here : u = who
  · rw [here]
    simp [word, source]
  · simp [Function.update_of_ne here]

theorem Hub.Tracked.register (tracked : s.Tracked) (live : (s.client who).live = true)
    (safe : s.Behind who ∨ ¬ s.Knows who) : (s.step (.register who)).Tracked := by
  have same : ∀ u, u ≠ who → (s.step (.register who)).client u = s.client u := fun u other =>
    Function.update_of_ne other ..
  have self : (s.step (.register who)).client who = { s.client who with person := true } := Function.update_self ..
  have kept := s.update_same who { s.client who with person := true } rfl rfl
  have knows : ∀ u, (s.step (.register who)).Knows u ↔ s.Knows u := fun u => (kept u).1
  have behind : ∀ u, (s.step (.register who)).Behind u ↔ s.Behind u := fun u => (kept u).2
  refine ⟨tracked.hub, tracked.mask, tracked.capLL, tracked.myConnect, fun u => ?_, fun u unknown => ?_,
    fun u alive person => ?_, tracked.new, fun u person => ?_, fun c r u member => ?_⟩
  · obtain ⟨atMost, isBehind, known, follows⟩ := tracked.introduced u
    refine ⟨atMost, fun b => isBehind ((behind u).mp b), fun outside person isKnown => ?_,
      fun outside => follows fun b => outside ((behind u).mpr b)⟩
    have outside' : ¬ s.Behind u := fun b => outside ((behind u).mpr b)
    have known' := (knows u).mp isKnown
    by_cases here : u = who
    · subst here
      exact absurd known' (safe.resolve_left outside')
    · rw [same u here] at person
      exact known outside' person known'
  · exact tracked.unknown u fun known => unknown ((knows u).mpr known)
  · by_cases here : u = who
    · subst here
      rw [self] at person
      cases person
    · rw [same u here] at alive person
      exact tracked.unregistered u alive person
  · by_cases here : u = who
    · subst here
      rw [self]
      exact live
    · rw [same u here] at person ⊢
      exact tracked.live u person
  · obtain ⟨person, below⟩ := tracked.members c r u member
    refine ⟨?_, below⟩
    by_cases here : u = who
    · subst here
      rw [self]
    · rw [same u here]
      exact person

theorem Hub.Tracked.exit (tracked : s.Tracked) (who : ClientId) : (s.step (.exit who)).Tracked := by
  have same : ∀ u, u ≠ who → (s.step (.exit who)).client u = s.client u := fun u other =>
    Function.update_of_ne other ..
  have self : (s.step (.exit who)).client who = { s.client who with live := false, person := false } :=
    Function.update_self ..
  have kept := s.update_same who { s.client who with live := false, person := false } rfl rfl
  have knows : ∀ u, (s.step (.exit who)).Knows u ↔ s.Knows u := fun u => (kept u).1
  have behind : ∀ u, (s.step (.exit who)).Behind u ↔ s.Behind u := fun u => (kept u).2
  have stays : ∀ u, (((s.step (.exit who)).client u).person = true ∨ ((s.step (.exit who)).client u).live = true) →
      u ≠ who := by
    rintro u either rfl
    rw [self] at either
    rcases either with person | live
    · cases person
    · cases live
  refine ⟨tracked.hub, tracked.mask, tracked.capLL, tracked.myConnect, fun u => ?_, fun u unknown => ?_,
    fun u alive person => ?_, tracked.new, fun u person => ?_, fun c r u member => ?_⟩
  · obtain ⟨atMost, isBehind, known, follows⟩ := tracked.introduced u
    refine ⟨atMost, fun b => isBehind ((behind u).mp b), fun outside person isKnown => ?_,
      fun outside => follows fun b => outside ((behind u).mpr b)⟩
    rw [same u (stays u (Or.inl person))] at person
    exact known (fun b => outside ((behind u).mpr b)) person ((knows u).mp isKnown)
  · exact tracked.unknown u fun known => unknown ((knows u).mpr known)
  · have other := stays u (Or.inr alive)
    rw [same u other] at alive person
    exact tracked.unregistered u alive person
  · have other := stays u (Or.inl person)
    rw [same u other] at person ⊢
    exact tracked.live u person
  · obtain ⟨before, other⟩ := List.mem_filter.mp member
    rw [same u (of_decide_eq_true other)]
    exact tracked.members c r u before

theorem Hub.Tracked.step (tracked : s.Tracked) {e : Event} (called : e.Called s) (safe : e.Safe s) :
    (s.step e).Tracked := by
  cases e with
  | arrive client => exact tracked.arrive called.1 called.2
  | register who => exact tracked.register called.1 safe
  | exit who => exact tracked.exit who
  | channels channel =>
    exact ⟨tracked.hub, tracked.mask, tracked.capLL, tracked.myConnect,
      fun u => ⟨(tracked.introduced u).1, (tracked.introduced u).2, (tracked.introduced u).3,
        (tracked.introduced u).4⟩, tracked.unknown, tracked.unregistered, tracked.new, tracked.live, called⟩
  | others exists_ =>
    have spreads : Spreads s (s.step (.others exists_)) (fun _ => False) fun _ => 0 :=
      ⟨rfl, rfl, rfl, rfl, rfl, fun u => ⟨_, rfl⟩, fun u => by
        rw [or_false, Hub.Knows, Hub.Knows, ← called u]
        rfl, [], (List.append_nil _).symm, by simp, fun _ => rfl⟩
    exact tracked.spread spreads (fun _ _ mark => mark.elim) (fun _ _ => rfl) fun _ mark => mark.elim
  | llBurstChannel chptr => exact tracked.llBurstChannel safe
  | clientBurstIfNeeded target =>
    change (s.clientBurstIfNeeded target).Tracked
    rw [Hub.clientBurstIfNeeded_eq tracked]
    split
    · exact tracked
    next fresh => exact tracked.tell fresh called.2 fun person => (safe person).resolve_left fresh
  | msSjoin clientP chptr found =>
    change (s.msSjoin clientP chptr found).Tracked
    have old := fun who member => (called who member).2
    obtain ⟨l, reads, ⟨marked, count, spreads, accepted⟩, told, ⟨relayed, same⟩ | ⟨-, same⟩⟩ :=
      Hub.msSjoin_cases tracked chptr old
    · rw [same]
      refine reads.name (fun u named => ?_) fun u named => ?_
      · rw [List.reduceOption_mem_iff] at named
        obtain ⟨channel, other, some_⟩ := relayed
        rw [spreads.behind, spreads.person]
        refine (safe channel other some_ u named).imp_right fun ⟨person, whence⟩ => ⟨person, ?_⟩
        rcases whence with here | knows
        · exact told other channel u named ⟨here, person⟩
        · exact (spreads.knows u).mpr (Or.inl knows)
      · rw [List.reduceOption_mem_iff] at named
        rw [spreads.next]
        exact old u named
    · rw [same]
      exact reads

/-- An event that is not safe leads to a client that is introduced twice, to the leaf that it is behind, or too late. -/
theorem Hub.Tracked.safe_of_introduced (tracked : s.Tracked) {e : Event} (called : e.Called s)
    (after : ∀ who, (s.step e).Introduced who) : e.Safe s := by
  cases e with
  | register who =>
    by_contra bad
    simp only [Event.Safe, not_or, not_not] at bad
    have self : (s.step (.register who)).client who = { s.client who with person := true } := Function.update_self ..
    have outside : ¬ (s.step (.register who)).Behind who := by
      rw [Hub.Behind, self]
      exact bad.1
    have one := (after who).known outside (by rw [self]) (by rw [Hub.Knows, self]; exact bad.2)
    have zero := tracked.unregistered who called.1 called.2
    change lines.introductions s.sent who = 1 at one
    omega
  | llBurstChannel chptr => exact fun r who member => tracked.llBurstChannel_safe after member
  | clientBurstIfNeeded target =>
    intro person
    by_contra bad
    simp only [not_or, not_not] at bad
    have told := after target
    change (s.clientBurstIfNeeded target).Introduced target at told
    rw [Hub.clientBurstIfNeeded_eq tracked, if_neg bad.1] at told
    have spreads := spreads_tell tracked.mask target
    have none := told.behind ((spreads.behind target).mpr bad.2)
    rw [spreads.introductions, if_pos ⟨rfl, person⟩] at none
    omega
  | msSjoin clientP chptr found =>
    intro channel other some_ who member
    by_contra bad
    obtain ⟨outside, whence⟩ := not_or.mp bad
    have old := fun who member => (called who member).2
    obtain ⟨l, reads, ⟨marked, count, spreads, accepted⟩, told, ⟨-, same⟩ | ⟨stays, -⟩⟩ :=
      Hub.msSjoin_cases tracked chptr old
    · have introduced := after who
      change (s.msSjoin clientP chptr found).Introduced who at introduced
      rw [same] at introduced
      have refused : ¬ s.Accepts clientP who := fun accepts => whence ⟨accepts.2, Or.inl accepts.1⟩
      have none : lines.introductions s.sent who = 0 := by
        cases person : (s.client who).person with
        | true => exact tracked.unknown who fun knows => whence ⟨person, Or.inr knows⟩
        | false => exact tracked.unregistered who (called who member).1 person
      refine Hub.not_introduced_of_named (List.reduceOption_mem_iff.mpr member) ?_ ?_ introduced
      · rw [spreads.behind]
        exact outside
      · rw [spreads.introductions, none, (accepted who).2 refused]
    · exact absurd ⟨channel, other, some_⟩ stays
  | _ => trivial

/-- In a run, every client is introduced to the leaf once and before it is named, if and only if the leaf knows the
members of the channels that are burst, a SJOIN names clients that it brings or that the leaf knows, and
`client_burst_if_needed` is about clients of others, that do not register later. -/
theorem along_introduced_iff (fresh : s.Fresh) {events : List Event} (called : s.Along Event.Called events) :
    s.Along (fun s e => ∀ who, (s.step e).Introduced who) events ↔ s.Along Event.Safe events := by
  have tracked := fresh.tracked
  clear fresh
  induction events generalizing s with
  | nil => exact Iff.rfl
  | cons e events ih =>
    obtain ⟨first, rest⟩ := called
    constructor
    · rintro ⟨introduced, after⟩
      have safe := tracked.safe_of_introduced first introduced
      exact ⟨safe, (ih rest (tracked.step first safe)).mp after⟩
    · rintro ⟨safe, after⟩
      have kept := tracked.step first safe
      exact ⟨kept.introduced, (ih rest kept).mpr after⟩

/-- A hub with the leaf 0 and the server 1. Behind the server are the persons 2 and 3; 2 is on a channel. -/
def smallHub : Hub where
  hub := true
  configHub := false
  client
    | 0 => ⟨true, 0, false, false, false, 0⟩
    | 1 => ⟨true, 1, false, false, false, 0⟩
    | _ => ⟨true, 1, true, false, false, 0⟩
  channel _ := ⟨['#', 'x'], none, fun r => if r = .peon then [2] else [], 0⟩
  nextClient := 4
  leaf := ⟨0, 1, true, true, false⟩
  sent := []

theorem smallHub_fresh : smallHub.Fresh where
  hub := rfl
  mask := by decide
  capLL := rfl
  myConnect := rfl
  sent := rfl
  unknown who := by
    have clear : (0 : Mask) &&& 1 = 0 := by decide
    match who with
    | 0 | 1 | _ + 2 => exact fun knows => knows clear
  live who _ := by
    match who with
    | 0 | 1 | _ + 2 => rfl
  members c r who member := by
    cases r with
    | peon =>
      obtain rfl := List.mem_singleton.mp member
      exact ⟨rfl, by decide⟩
    | _ => cases member

/-- The leaf is told of a client, and then of the channel that it is on. -/
theorem along_introduced_iff_known :
    let events := [Event.clientBurstIfNeeded 2, .llBurstChannel 0]
    smallHub.Along (fun s e => ∀ who, (s.step e).Introduced who) events ↔ smallHub.Along Event.Safe events :=
  along_introduced_iff smallHub_fresh ⟨⟨rfl, by decide⟩, trivial, trivial⟩

/-- The burst of a channel introduces its member twice. -/
theorem member_introduced_twice : smallHub.Fresh ∧ smallHub.Along Event.Called [.llBurstChannel 0] ∧
    ¬ smallHub.Along (fun s e => ∀ who, (s.step e).Introduced who) [.llBurstChannel 0] := by
  refine ⟨smallHub_fresh, ⟨trivial, trivial⟩, fun introduced => ?_⟩
  have once := (introduced.1 2).atMost
  revert once
  decide

end Ircd.LazyLink
