import Ircd.Gline.Majority
import Mathlib.Data.List.Induction

/-!
# Three operators for a G-line

A record that three operators have agreed on stays on the list of votes, since `set_local_gline`
leaves the list `glines` alone, and so it takes one more vote only to set the G-line again. And a
mask that has been cut to the size of the record can gather votes for another mask.
-/
namespace Ircd.Gline

open Chan (hostLen userLen ircMatch)

/-- Two operators differ in everything that counts. -/
def Oper.Differs (a b : Oper) : Prop :=
  ¬IrcEq a.username b.username ∧ ¬IrcEq a.host b.host ∧ ¬IrcEq a.server b.server

/-- The request is for this mask. -/
def Request.IsFor (r : Request) (user host : List Char) : Prop :=
  IrcEq r.user user ∧ IrcEq r.host host

/-- There are three requests for the mask of the G-line, the last being the one that has set it, by
three operators, and all of them were made after the last G-line for this mask. -/
def State.HasQuorum (s : State) (g : LocalGline) : Prop :=
  ∃ i j a b c, i < j ∧ j < g.request ∧
    s.requests[i]? = some a ∧ s.requests[j]? = some b ∧ s.requests[g.request]? = some c ∧
    a.IsFor g.user g.host ∧ b.IsFor g.user g.host ∧ c.IsFor g.user g.host ∧
    a.oper.Differs b.oper ∧ a.oper.Differs c.oper ∧ b.oper.Differs c.oper ∧
    ∀ g' ∈ s.localGlines, IrcEq g'.user g.user → IrcEq g'.host g.host → g'.request < g.request →
      g'.request < i

/-- Every G-line that has been set. -/
def State.Quorate (s : State) : Prop := ∀ g ∈ s.localGlines, s.HasQuorum g

/-- The request is the third vote on this record. -/
def State.Completes (s : State) (r : Request) (p : GlinePending) : Prop :=
  s.pendingGlines.find? (fun p => p.IsFor r.user r.host) = some p ∧
    ¬p.Voted1 r.oper ∧ p.operUser2 ≠ [] ∧ ¬p.Voted2 r.oper

/-- The record was opened by a request whose mask fits, and no G-line has been set for its mask
since then. -/
def State.Unused (s : State) (p : GlinePending) : Prop :=
  (∀ a, s.requests[p.request1]? = some a → a.user.length ≤ userLen ∧ a.host.length ≤ hostLen) ∧
    ∀ g ∈ s.localGlines, IrcEq g.user p.user → IrcEq g.host p.host → g.request < p.request1

/-- If the event is the third vote on a record, then on one that is as it should be. -/
def State.Orderly (s : State) (event : Event) : Prop :=
  ∀ r p, event.request? s = some r → s.Completes r p → s.Unused p

/-- What a record says of the requests so far. -/
structure GlinePending.Recorded (p : GlinePending) (requests : List Request) : Prop where
  first : ∃ a, requests[p.request1]? = some a ∧ p.operUser1 = a.oper.username ∧
    p.operHost1 = a.oper.host ∧ p.operServer1 = a.oper.server ∧
    p.user = a.user.take userLen ∧ p.host = a.host.take hostLen
  second : p.operUser2 ≠ [] → p.request1 < p.request2 ∧ ∃ b, requests[p.request2]? = some b ∧
    p.operUser2 = b.oper.username ∧ p.operHost2 = b.oper.host ∧ p.operServer2 = b.oper.server ∧
    p.IsFor b.user b.host ∧ ¬p.Voted1 b.oper

/-- What holds at every point of a run. -/
structure State.Sound (s : State) : Prop where
  recorded : ∀ p ∈ s.pendingGlines, p.Recorded s.requests
  past : ∀ g ∈ s.localGlines, g.request < s.requests.length
  quorate : s.Quorate

variable {s : State} {now : ℤ} {number : ℕ} {oper : Oper} {user host : List Char}
variable {l l' : List GlinePending} {p : GlinePending} {v : Vote} {r : Request}

theorem Oper.take_username (oper : Oper) : oper.username.take userLen = oper.username :=
  List.take_of_length_le oper.username_len

theorem Oper.take_host (oper : Oper) : oper.host.take hostLen = oper.host :=
  List.take_of_length_le oper.host_len

theorem Oper.take_server (oper : Oper) : oper.server.take hostLen = oper.server :=
  List.take_of_length_le oper.server_len

/-- The loop comes to the first record for the mask, and changes no other. -/
theorem voteOn_cases (voted : voteOn now number oper user host l = some (v, l')) :
    ∃ p, l.find? (fun p => p.IsFor user host) = some p ∧
      ((v = .alreadyVoted ∧ l' = l) ∨
       (v = .agreed p ∧ l' = l ∧ ¬p.Voted1 oper ∧ p.operUser2 ≠ [] ∧ ¬p.Voted2 oper) ∨
       (v = .counted ∧ ¬p.Voted1 oper ∧ p.operUser2 = [] ∧
        ∀ q ∈ l', q ∈ l ∨ q = p.second now number oper)) := by
  induction l generalizing l' with
  | nil => contradiction
  | cons q rest ih =>
    unfold voteOn at voted
    split at voted
    · rename_i isFor
      refine ⟨q, by simp [isFor], ?_⟩
      split at voted
      · cases voted
        exact Or.inl ⟨rfl, rfl⟩
      rename_i first
      split at voted
      · rename_i second
        split at voted
        · cases voted
          exact Or.inl ⟨rfl, rfl⟩
        · rename_i other
          cases voted
          exact Or.inr (Or.inl ⟨rfl, rfl, first, second, other⟩)
      · rename_i open'
        cases voted
        refine Or.inr (Or.inr ⟨rfl, first, not_not.mp open', ?_⟩)
        intro q' member
        simp only [List.mem_cons] at member ⊢
        rcases member with new | old
        · exact Or.inr new
        · exact Or.inl (Or.inr old)
    · rename_i other
      obtain ⟨⟨v', rest'⟩, behind, equal⟩ := Option.map_eq_some_iff.mp voted
      simp only [Prod.mk.injEq] at equal
      obtain ⟨rfl, rfl⟩ := equal
      obtain ⟨p, found, outcome⟩ := ih behind
      refine ⟨p, by simp [other, found], ?_⟩
      rcases outcome with ⟨same, equal⟩ | ⟨same, equal, others⟩ | ⟨same, first, open', members⟩
      · exact Or.inl ⟨same, by rw [equal]⟩
      · exact Or.inr (Or.inl ⟨same, by rw [equal], others⟩)
      · refine Or.inr (Or.inr ⟨same, first, open', ?_⟩)
        intro q' member
        simp only [List.mem_cons] at member ⊢
        rcases member with here | later
        · exact Or.inl (Or.inl here)
        · exact (members q' later).imp Or.inr id

/-- More requests change nothing about those there were. -/
theorem GlinePending.Recorded.append {requests : List Request} (recorded : p.Recorded requests)
    (r : Request) : p.Recorded (requests ++ [r]) where
  first := by
    obtain ⟨a, found, rest⟩ := recorded.first
    exact ⟨a, (List.getElem?_append_left (List.getElem?_eq_some_iff.mp found).1).trans found, rest⟩
  second more := by
    obtain ⟨later, b, found, rest⟩ := recorded.second more
    exact ⟨later, b, (List.getElem?_append_left (List.getElem?_eq_some_iff.mp found).1).trans found,
      rest⟩

/-- A new record. -/
theorem addNewMajorityGline_recorded (s : State) (now : ℤ) (r : Request)
    (recorded : ∀ p ∈ s.pendingGlines, p.Recorded s.requests) :
    ∀ p ∈ (addNewMajorityGline s now r.oper r.user r.host).pendingGlines,
      p.Recorded (s.requests ++ [r]) := by
  intro p member
  simp only [addNewMajorityGline, List.mem_cons] at member
  rcases member with rfl | old
  · constructor
    · exact ⟨r, by simp, r.oper.take_username, r.oper.take_host, r.oper.take_server, rfl, rfl⟩
    · exact fun more => absurd rfl more
  · exact (recorded p old).append r

/-- The second vote on a record. -/
theorem GlinePending.Recorded.vote {requests : List Request} (recorded : p.Recorded requests)
    (r : Request) (now : ℤ) (isFor : p.IsFor r.user r.host) (new : ¬p.Voted1 r.oper) :
    (p.second now requests.length r.oper).Recorded (requests ++ [r]) where
  first := (recorded.append r).first
  second _ := by
    obtain ⟨a, found, -⟩ := recorded.first
    refine ⟨(List.getElem?_eq_some_iff.mp found).1, r, by simp [GlinePending.second], ?_, ?_, ?_,
      isFor, new⟩
    · exact r.oper.take_username
    · exact r.oper.take_host
    · exact r.oper.take_server

/-! ### One step -/

/-- Taking records off the list. -/
theorem State.cleanupGlines_sub (s : State) (now : ℤ) :
    (∀ p ∈ (s.cleanupGlines now).pendingGlines, p ∈ s.pendingGlines) ∧
      (s.cleanupGlines now).requests = s.requests ∧
      (s.cleanupGlines now).localGlines = s.localGlines := by
  refine ⟨?_, rfl, rfl⟩
  intro p member
  exact (List.mem_filter.mp member).1

/-- `majority_gline` keeps the records true, and says yes only to a third vote. -/
theorem majorityGline_spec (s : State) (now : ℤ) (r : Request)
    (recorded : ∀ p ∈ s.pendingGlines, p.Recorded s.requests) :
    (∀ p ∈ (majorityGline s now r.oper r.user r.host).2.pendingGlines,
      p.Recorded (s.requests ++ [r])) ∧
    (majorityGline s now r.oper r.user r.host).2.requests = s.requests ∧
    (majorityGline s now r.oper r.user r.host).2.localGlines = s.localGlines ∧
    ((majorityGline s now r.oper r.user r.host).1 = true → ∃ p, s.Completes r p) := by
  have still : ∀ p ∈ s.pendingGlines, p.Recorded (s.requests ++ [r]) := by
    intro p member
    exact (recorded p member).append r
  have added := addNewMajorityGline_recorded s now r recorded
  unfold majorityGline
  split
  · exact ⟨still, rfl, rfl, by simp⟩
  split
  · exact ⟨added, rfl, rfl, by simp⟩
  cases voted : voteOn now s.requests.length r.oper r.user r.host s.pendingGlines with
  | none => exact ⟨added, rfl, rfl, by simp⟩
  | some outcome =>
    obtain ⟨v, pending⟩ := outcome
    obtain ⟨p, found, ⟨rfl, rfl⟩ | ⟨rfl, rfl, third⟩ | ⟨rfl, new, open', members⟩⟩ := voteOn_cases voted
    · exact ⟨still, rfl, rfl, by simp⟩
    · exact ⟨still, rfl, rfl, fun _ => ⟨p, found, third⟩⟩
    · refine ⟨?_, rfl, rfl, by simp⟩
      intro q member
      rcases members q member with old | rfl
      · exact still q old
      · have onList := List.mem_of_find?_eq_some found
        have isFor : p.IsFor r.user r.host := by simpa using List.find?_some found
        exact (recorded p onList).vote r now isFor new

/-- The three requests of a record that is completed. -/
theorem State.Sound.quorum (sound : s.Sound) {p : GlinePending} (completes : s.Completes r p)
    (unused : s.Unused p) :
    ∃ i j a b, i < j ∧ j < s.requests.length ∧ s.requests[i]? = some a ∧ s.requests[j]? = some b ∧
      a.IsFor r.user r.host ∧ b.IsFor r.user r.host ∧
      a.oper.Differs b.oper ∧ a.oper.Differs r.oper ∧ b.oper.Differs r.oper ∧
      ∀ g ∈ s.localGlines, IrcEq g.user r.user → IrcEq g.host r.host → g.request < i := by
  obtain ⟨found, new1, more, new2⟩ := completes
  have isFor : p.IsFor r.user r.host := by simpa using List.find?_some found
  have recorded := sound.recorded p (List.mem_of_find?_eq_some found)
  obtain ⟨a, first, user1, host1, server1, ofUser, ofHost⟩ := recorded.first
  obtain ⟨later, b, second, user2, host2, server2, isFor2, other⟩ := recorded.second more
  obtain ⟨fits, since⟩ := unused
  obtain ⟨userFits, hostFits⟩ := fits a first
  rw [List.take_of_length_le userFits] at ofUser
  rw [List.take_of_length_le hostFits] at ofHost
  refine ⟨p.request1, p.request2, a, b, later, (List.getElem?_eq_some_iff.mp second).1, first,
    second, ?_, ?_, ?_, ?_, ?_, ?_⟩
  · exact ⟨ofUser ▸ isFor.1, ofHost ▸ isFor.2⟩
  · exact ⟨isFor2.1.symm.trans isFor.1, isFor2.2.symm.trans isFor.2⟩
  · simp only [GlinePending.Voted1, user1, host1, server1, not_or] at other
    exact ⟨other.1.1, other.1.2, other.2⟩
  · simp only [GlinePending.Voted1, user1, host1, server1, not_or] at new1
    exact ⟨new1.1.1, new1.1.2, new1.2⟩
  · simp only [GlinePending.Voted2, user2, host2, server2, not_or] at new2
    exact ⟨new2.1.1, new2.1.2, new2.2⟩
  · intro g member user host
    exact since g member (user.trans isFor.1.symm) (host.trans isFor.2.symm)

/-- A later request, and a later G-line, take nothing from a quorum. -/
theorem State.HasQuorum.keep {t : State} {g : LocalGline} (quorum : s.HasQuorum g) (r : Request)
    (past : g.request < s.requests.length) (requests : t.requests = s.requests ++ [r])
    (localGlines : ∀ g' ∈ t.localGlines, g' ∈ s.localGlines ∨ g'.request = s.requests.length) :
    t.HasQuorum g := by
  obtain ⟨i, j, a, b, c, before, last, first, second, third, isFor1, isFor2, isFor3, differ1, differ2,
    differ3, since⟩ := quorum
  have kept : ∀ (k : ℕ) (x : Request), s.requests[k]? = some x → t.requests[k]? = some x := by
    intro k x found
    rw [requests, List.getElem?_append_left (List.getElem?_eq_some_iff.mp found).1, found]
  refine ⟨i, j, a, b, c, before, last, kept i a first, kept j b second, kept _ c third, isFor1, isFor2,
    isFor3, differ1, differ2, differ3, ?_⟩
  intro g' member user host earlier
  rcases localGlines g' member with old | new
  · exact since g' old user host earlier
  · omega

/-- A request that keeps to the rules. -/
theorem State.Sound.check (sound : s.Sound) (now : ℤ) (r : Request)
    (orderly : ∀ p, s.Completes r p → s.Unused p) :
    (checkMajorityGline s now r.oper r.user r.host).Sound := by
  obtain ⟨recorded, requests, localGlines, agreed⟩ := majorityGline_spec s now r sound.recorded
  unfold checkMajorityGline
  dsimp only
  split
  · rename_i yes
    -- the third vote sets the G-line, and the record is given up
    obtain ⟨p, completes⟩ := agreed yes
    obtain ⟨i, j, a, b, before, last, first, second, isFor1, isFor2, differ1, differ2, differ3, since⟩ :=
      sound.quorum completes (orderly p completes)
    let set := setLocalGline (majorityGline s now r.oper r.user r.host).2 r.user r.host
    obtain ⟨sub, sameRequests, sameGlines⟩ := set.cleanupGlines_sub now
    have finalRequests : (set.cleanupGlines now).requests = s.requests := sameRequests.trans requests
    have finalGlines : (set.cleanupGlines now).localGlines =
        s.localGlines ++ [⟨r.user, r.host, s.requests.length⟩] := by
      rw [sameGlines, ← localGlines, ← requests]
      rfl
    constructor
    · intro q member
      rw [finalRequests]
      exact recorded q (sub q member)
    · intro g member
      rw [finalGlines, List.mem_append, List.mem_singleton] at member
      rw [finalRequests, List.length_append, List.length_singleton]
      rcases member with old | rfl
      · exact Nat.lt_succ_of_lt (sound.past g old)
      · exact Nat.lt_succ_self _
    · intro g member
      rw [finalGlines, List.mem_append, List.mem_singleton] at member
      rcases member with old | rfl
      · apply (sound.quorate g old).keep r (sound.past g old)
        · rw [finalRequests]
        · intro g' member
          rw [finalGlines, List.mem_append, List.mem_singleton] at member
          exact member.imp id (fun equal => by rw [equal])
      · have kept : ∀ (k : ℕ) (x : Request), s.requests[k]? = some x →
            (s.requests ++ [r])[k]? = some x := by
          intro k x found
          rw [List.getElem?_append_left (List.getElem?_eq_some_iff.mp found).1, found]
        refine ⟨i, j, a, b, r, before, last, ?_, ?_, ?_, isFor1, isFor2, ⟨rfl, rfl⟩, differ1, differ2,
          differ3, ?_⟩
        · rw [finalRequests]
          exact kept i a first
        · rw [finalRequests]
          exact kept j b second
        · rw [finalRequests]
          simp
        · intro g' member user host earlier
          rw [finalGlines, List.mem_append, List.mem_singleton] at member
          rcases member with old | rfl
          · exact since g' old user host
          · exact absurd earlier (lt_irrefl _)
  · -- the vote is recorded only
    constructor
    · intro q member
      simp only [requests]
      exact recorded q member
    · intro g member
      simp only [localGlines] at member
      simp only [requests, List.length_append, List.length_singleton]
      exact Nat.lt_succ_of_lt (sound.past g member)
    · intro g member
      simp only [localGlines] at member
      apply (sound.quorate g member).keep r (sound.past g member)
      · simp only [requests]
      · intro g' member
        simp only [localGlines] at member
        exact Or.inl member

/-- One step keeps everything, unless it completes a record that it should not. -/
theorem step_sound (sound : s.Sound) (now : ℤ) (event : Event) (orderly : s.Orderly event) :
    (step s now event).Sound := by
  have cleaned : (s.cleanupGlines now).Sound := by
    obtain ⟨sub, -, -⟩ := s.cleanupGlines_sub now
    exact ⟨fun p member => sound.recorded p (sub p member), sound.past, sound.quorate⟩
  unfold step
  split
  · exact cleaned
  · rename_i r _ made
    exact sound.check now r (fun p => orderly r p made)
  · exact sound

/-- A run in which no third vote goes to a record that has been used, or whose mask has been cut: every
G-line has its three requests. -/
theorem run_quorate (glinesEnabled : Bool) (minNonwildcard : ℤ) (events : List (ℤ × Event))
    (orderly : ∀ past event, past ++ [event] <+: events →
      (run (start glinesEnabled minNonwildcard) past).Orderly event.2) :
    ∀ past, past <+: events → (run (start glinesEnabled minNonwildcard) past).Quorate := by
  have sound : ∀ past, past <+: events → (run (start glinesEnabled minNonwildcard) past).Sound := by
    intro past
    induction past using List.reverseRecOn with
    | nil =>
      intro _
      constructor
      · exact fun p member => absurd member List.not_mem_nil
      · exact fun g member => absurd member List.not_mem_nil
      · exact fun g member => absurd member List.not_mem_nil
    | append_singleton past event ih =>
      intro within
      have before := ih ((List.prefix_append past [event]).trans within)
      simp only [run, List.foldl_append, List.foldl_cons, List.foldl_nil]
      exact step_sound before event.1 event.2 (orderly past event within)
  exact fun past within => (sound past within).quorate

/-! ### Four operators -/

/-- An operator with one letter for each of his names. -/
def letterOper (c : Char) : Oper := ⟨[c], [c], [c], by simp [userLen], by simp [hostLen], by simp [hostLen]⟩

/-- He asks for a G-line on `abuser@example`. -/
def letterRequest (c : Char) : Event :=
  .msGline [c] true (some (letterOper c)) ['a', 'b', 'u', 's', 'e', 'r']
    ['e', 'x', 'a', 'm', 'p', 'l', 'e']

/-- Three requests, one second apart. -/
theorem run_quorate_three :
    (run (start true 4) [(1, letterRequest 'a'), (2, letterRequest 'b'), (3, letterRequest 'c')]).Quorate := by
  refine run_quorate true 4 [(1, letterRequest 'a'), (2, letterRequest 'b'), (3, letterRequest 'c')]
    ?_ _ (List.prefix_refl _)
  rintro past event ⟨rest, equal⟩ r p made ⟨found, -, second, -⟩
  obtain ⟨rfl, rfl⟩ | ⟨rfl, rfl⟩ | ⟨rfl, rfl⟩ :
      (past = [] ∧ event = (1, letterRequest 'a')) ∨
      (past = [(1, letterRequest 'a')] ∧ event = (2, letterRequest 'b')) ∨
      (past = [(1, letterRequest 'a'), (2, letterRequest 'b')] ∧ event = (3, letterRequest 'c')) := by
    rcases past with _ | ⟨x, _ | ⟨y, _ | ⟨z, past⟩⟩⟩ <;> simp_all
  · contradiction
  · cases made
    obtain rfl := Option.some.inj (found.symm.trans rfl)
    exact absurd rfl second
  · cases made
    obtain rfl := Option.some.inj (found.symm.trans rfl)
    refine ⟨?_, fun g member => absurd member List.not_mem_nil⟩
    intro a first
    cases first
    decide

/-- A fourth request sets the G-line again. -/
theorem fourth_request_sets :
    (run (start true 4) [(1, letterRequest 'a'), (2, letterRequest 'b'), (3, letterRequest 'c'),
        (4, letterRequest 'd')]).localGlines.map (·.request) = [2, 3] ∧
      ¬(run (start true 4) [(1, letterRequest 'a'), (2, letterRequest 'b'), (3, letterRequest 'c'),
        (4, letterRequest 'd')]).Quorate := by
  refine ⟨by decide, ?_⟩
  intro quorate
  obtain ⟨i, j, a, b, c, before, last, -, -, -, -, -, -, -, -, -, since⟩ := quorate
    ⟨['a', 'b', 'u', 's', 'e', 'r'], ['e', 'x', 'a', 'm', 'p', 'l', 'e'], 3⟩ (by decide)
  have new := since ⟨['a', 'b', 'u', 's', 'e', 'r'], ['e', 'x', 'a', 'm', 'p', 'l', 'e'], 2⟩ (by decide)
    rfl rfl (by decide)
  simp only at new last
  omega

end Ircd.Gline
