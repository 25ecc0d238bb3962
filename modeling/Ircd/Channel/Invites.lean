import Ircd.Lib.Mirror
import Ircd.Channel.State

/-!
# Invitations

`add_invite` and `del_invite` of `src/channel.c`, and where `destroy_channel` and `exit_one_client` call
`del_invite`. `add_invite` means to drop the last invitation of a list that is full, but it deletes the one that it
has just deleted.
-/
namespace Ircd.Chan

/-- The lists `chptr->invites` on the left and `who->user->invited` on the right, the channels and persons that
exist, their names, and `max_chans_per_user`. -/
structure Invites where
  links : Mirror ChannelId ClientId
  channels : ChannelId → Bool
  clients : ClientId → Bool
  name : ClientId → List Char
  maxChans : ℕ

namespace Invites

def start (maxChans : ℕ) : Invites where
  links := ⟨fun _ => [], fun _ => []⟩
  channels := fun _ => false
  clients := fun _ => false
  name := fun _ => []
  maxChans := maxChans

def delInvite (s : Invites) (chptr : ChannelId) (who : ClientId) : Invites :=
  { s with links := s.links.unlink chptr who }

def addInvite (s : Invites) (chptr : ChannelId) (who : ClientId) : Invites :=
  let deleted := s.delInvite chptr who
  -- the list is full: the same channel again
  let trimmed :=
    if s.maxChans ≤ (deleted.links.right who).length then (deleted.delInvite chptr who).links else deleted.links
  { s with links := trimmed.link chptr who }

/-- The loop of `destroy_channel`: the head is deleted as long as there is one. -/
def clear (chptr : ChannelId) : ℕ → Mirror ChannelId ClientId → Mirror ChannelId ClientId
  | 0, m => m
  | n + 1, m =>
    match m.left chptr with
    | [] => m
    | who :: _ => clear chptr n (m.unlink chptr who)

/-- `destroy_channel`. The block is freed. -/
def destroy (s : Invites) (chptr : ChannelId) : Invites :=
  { s with
    links := clear chptr (s.links.left chptr).length s.links
    channels := Function.update s.channels chptr false }

/-- `exit_one_client` for a person. Nothing is cleaned up for a client without a name. The block is freed, with its
list. -/
def exit (s : Invites) (who : ClientId) : Invites :=
  let links :=
    if s.name who = [] then s.links
    else (s.links.right who).foldl (fun m chptr => m.unlink chptr who) s.links
  { s with
    links := { links with right := Function.update links.right who [] }
    clients := Function.update s.clients who false }

inductive Op where
  | connect (who : ClientId) (name : List Char)
  | rename (who : ClientId) (name : List Char)
  | create (chptr : ChannelId)
  | invite (chptr : ChannelId) (who : ClientId)
  | uninvite (chptr : ChannelId) (who : ClientId)
  | exit (who : ClientId)
  | destroy (chptr : ChannelId)

/-- The things an operation is about exist, as its callers look them up. -/
def Op.Live (s : Invites) : Op → Prop
  | .connect who _ => s.clients who = false
  | .create chptr => s.channels chptr = false
  | .rename who _ | .exit who => s.clients who = true
  | .destroy chptr => s.channels chptr = true
  | .invite chptr who | .uninvite chptr who => s.channels chptr = true ∧ s.clients who = true

instance (s : Invites) (op : Op) : Decidable (op.Live s) := by
  cases op <;> unfold Op.Live <;> infer_instance

def step (s : Invites) (op : Op) : Invites :=
  if op.Live s then
    match op with
    | .connect who name =>
      { s with clients := Function.update s.clients who true, name := Function.update s.name who name }
    | .rename who name => { s with name := Function.update s.name who name }
    | .create chptr => { s with channels := Function.update s.channels chptr true }
    | .invite chptr who => s.addInvite chptr who
    | .uninvite chptr who => s.delInvite chptr who
    | .exit who => s.exit who
    | .destroy chptr => s.destroy chptr
  else s

def run (maxChans : ℕ) (ops : List Op) : Invites := ops.foldl step (start maxChans)

/-- The two lists agree, they name only what exists, and nobody has more invitations than allowed. -/
structure Kept (s : Invites) : Prop where
  mirror : s.links.Holds
  live : ∀ {chptr who}, who ∈ s.links.left chptr → s.channels chptr = true ∧ s.clients who = true
  bound : ∀ who, (s.links.right who).length ≤ s.maxChans

/-- A new invitation comes first, and the oldest ones over the limit are dropped. -/
def Evicts (s : Invites) : Op → Prop
  | .invite chptr who => Op.Live s (.invite chptr who) →
    (s.addInvite chptr who).links.right who = chptr :: ((s.links.right who).erase chptr).take (s.maxChans - 1)
  | _ => True

/-- An invitation is added to a list that is not full, and a client that leaves has a name or no invitation. -/
def Upheld (s : Invites) : Op → Prop
  | .invite chptr who => Op.Live s (.invite chptr who) → ((s.links.right who).erase chptr).length < s.maxChans
  | .exit who => Op.Live s (.exit who) → s.name who ≠ [] ∨ s.links.right who = []
  | _ => True

/-! ### One operation -/

section

variable {s : Invites}

theorem clear_eq (chptr : ChannelId) (l : List ClientId) (m : Mirror ChannelId ClientId) (listed : m.left chptr = l) :
    clear chptr l.length m = l.foldl (fun m who => m.unlink chptr who) m := by
  induction l generalizing m with
  | nil => rfl
  | cons who l ih =>
    rw [List.length_cons, clear, listed, List.foldl_cons]
    apply ih
    simp [Mirror.unlink, listed]

theorem addInvite_right (s : Invites) (chptr : ChannelId) (who : ClientId) :
    (s.addInvite chptr who).links.right who =
      if s.maxChans ≤ ((s.links.right who).erase chptr).length then
        chptr :: ((s.links.right who).erase chptr).erase chptr
      else chptr :: (s.links.right who).erase chptr := by
  simp only [addInvite, delInvite, Mirror.unlink, Function.update_self, Mirror.link]
  split
  · simp
  · simp

/-- The list was full, and the second deletion deletes nothing. -/
theorem Kept.addInvite_length (kept : s.Kept) (chptr : ChannelId) (who : ClientId) :
    (s.addInvite chptr who).links.right who = chptr :: (s.links.right who).erase chptr := by
  have absent : chptr ∉ (s.links.right who).erase chptr := fun member =>
    ((kept.mirror.right_nodup who).mem_erase_iff.mp member).1 rfl
  rw [addInvite_right, List.erase_of_not_mem absent, ite_self]

theorem Kept.addInvite_links (kept : s.Kept) (chptr : ChannelId) (who : ClientId) :
    (s.addInvite chptr who).links = (s.links.unlink chptr who).link chptr who := by
  have again : (s.links.unlink chptr who).unlink chptr who = s.links.unlink chptr who := by
    have absent₁ : who ∉ (s.links.left chptr).erase who := fun member =>
      ((kept.mirror.left_nodup chptr).mem_erase_iff.mp member).1 rfl
    have absent₂ : chptr ∉ (s.links.right who).erase chptr := fun member =>
      ((kept.mirror.right_nodup who).mem_erase_iff.mp member).1 rfl
    simp [Mirror.unlink, List.erase_of_not_mem absent₁, List.erase_of_not_mem absent₂]
  simp only [addInvite, delInvite, again, ite_self]

theorem Kept.invite (kept : s.Kept) {chptr : ChannelId} {who : ClientId} (live : Op.Live s (.invite chptr who))
    (room : ((s.links.right who).erase chptr).length < s.maxChans) : (s.addInvite chptr who).Kept := by
  have mirror := kept.mirror.unlink chptr who
  have absent : who ∉ (s.links.unlink chptr who).left chptr := fun member =>
    ((kept.mirror.mem_unlink_left chptr chptr who who).mp member).2 ⟨rfl, rfl⟩
  constructor
  · rw [kept.addInvite_links]
    exact mirror.link absent
  · intro chptr' who' member
    rw [kept.addInvite_links] at member
    simp only [Mirror.link, Function.update_apply] at member
    split at member
    · next here =>
      subst here
      rcases List.mem_cons.mp member with rfl | member
      · exact live
      · exact kept.live ((kept.mirror.mem_unlink_left _ _ _ _).mp member).1
    · exact kept.live ((kept.mirror.mem_unlink_left _ _ _ _).mp member).1
  · intro who'
    by_cases here : who' = who
    · subst here
      rw [kept.addInvite_length]
      exact room
    · have same : (s.addInvite chptr who).links.right who' = s.links.right who' := by
        rw [kept.addInvite_links]
        simp [Mirror.link, Mirror.unlink, Function.update_of_ne here]
      rw [same]
      exact kept.bound who'

theorem Kept.uninvite (kept : s.Kept) (chptr : ChannelId) (who : ClientId) : (s.delInvite chptr who).Kept where
  mirror := kept.mirror.unlink chptr who
  live := fun member => kept.live ((kept.mirror.mem_unlink_left _ _ _ _).mp member).1
  bound := fun who' => by
    simp only [delInvite, Mirror.unlink, Function.update_apply]
    split
    · next here =>
      subst here
      exact List.length_erase_le.trans (kept.bound who')
    · exact kept.bound who'

theorem Kept.destroy (kept : s.Kept) (chptr : ChannelId) : (s.destroy chptr).Kept := by
  obtain ⟨mirror, members⟩ := kept.mirror.unlinkAll_left chptr (s.links.left chptr)
  simp only [← clear_eq chptr _ s.links rfl] at mirror members
  constructor
  · exact mirror
  · intro chptr' who member
    obtain ⟨old, notCleared⟩ := (members chptr' who).mp member
    have other : chptr' ≠ chptr := by
      rintro rfl
      exact notCleared ⟨old, rfl⟩
    obtain ⟨channel, client⟩ := kept.live old
    exact ⟨by simpa [Invites.destroy, Function.update_of_ne other] using channel, client⟩
  · intro who
    -- nobody gets an invitation
    have fewer : ∀ c ∈ (s.destroy chptr).links.right who, c ∈ s.links.right who := fun c member =>
      (kept.mirror.back c who).mp ((members c who).mp ((mirror.back c who).mpr member)).1
    exact ((mirror.right_nodup who).subperm fewer).length_le.trans (kept.bound who)

theorem Kept.exit (kept : s.Kept) {who : ClientId} (left : s.name who ≠ [] ∨ s.links.right who = []) :
    (s.exit who).Kept := by
  obtain ⟨mirror, members⟩ := kept.mirror.unlinkAll_right who (s.links.right who)
  have links : (s.exit who).links = (s.links.right who).foldl (fun m chptr => m.unlink chptr who) s.links := by
    have gone : ((s.links.right who).foldl (fun m chptr => m.unlink chptr who) s.links).right who = [] := by
      rw [List.eq_nil_iff_forall_not_mem]
      intro c member
      obtain ⟨old, notCleared⟩ := (members c who).mp ((mirror.back c who).mpr member)
      exact notCleared ⟨(kept.mirror.back c who).mp old, rfl⟩
    simp only [Invites.exit]
    split
    · next nameless =>
      have none := left.resolve_left (not_not.mpr nameless)
      rw [none]
      simp only [List.foldl_nil]
      rw [← none, Function.update_eq_self]
    · rw [← gone, Function.update_eq_self]
  constructor
  · rw [links]
    exact mirror
  · intro chptr who' member
    rw [links] at member
    obtain ⟨old, notCleared⟩ := (members chptr who').mp member
    have other : who' ≠ who := by
      rintro rfl
      exact notCleared ⟨(kept.mirror.back chptr who').mp old, rfl⟩
    obtain ⟨channel, client⟩ := kept.live old
    exact ⟨channel, by simpa [Invites.exit, Function.update_of_ne other] using client⟩
  · intro who'
    rw [links]
    have fewer : ∀ c ∈ ((s.links.right who).foldl (fun m chptr => m.unlink chptr who) s.links).right who',
        c ∈ s.links.right who' := fun c member =>
      (kept.mirror.back c who').mp ((members c who').mp ((mirror.back c who').mpr member)).1
    exact ((mirror.right_nodup who').subperm fewer).length_le.trans (kept.bound who')

theorem Kept.step (kept : s.Kept) {op : Op} (upheld : s.Upheld op) : (s.step op).Kept := by
  unfold Invites.step
  split
  · next live =>
    cases op with
    | connect who name =>
      refine ⟨kept.mirror, fun member => ?_, kept.bound⟩
      obtain ⟨channel, client⟩ := kept.live member
      refine ⟨channel, ?_⟩
      simp only [Function.update_apply]
      split
      · rfl
      · exact client
    | rename who name => exact ⟨kept.mirror, kept.live, kept.bound⟩
    | create chptr =>
      refine ⟨kept.mirror, fun member => ?_, kept.bound⟩
      obtain ⟨channel, client⟩ := kept.live member
      refine ⟨?_, client⟩
      simp only [Function.update_apply]
      split
      · rfl
      · exact channel
    | invite chptr who => exact kept.invite live (upheld live)
    | uninvite chptr who => exact kept.uninvite chptr who
    | exit who => exact kept.exit (upheld live)
    | destroy chptr => exact kept.destroy chptr
  · exact kept

/-- Where the condition fails, the next state has too many invitations, or one for a client that is gone. -/
theorem Kept.upheld_of_step (kept : s.Kept) {op : Op} (after : (s.step op).Kept) : s.Upheld op := by
  cases op with
  | invite chptr who =>
    intro live
    have bound := after.bound who
    simp only [Invites.step, if_pos live] at bound
    rw [kept.addInvite_length, List.length_cons] at bound
    exact bound
  | exit who =>
    intro live
    by_contra broken
    rw [not_or, not_not] at broken
    obtain ⟨nameless, invited⟩ := broken
    obtain ⟨chptr, member⟩ := List.exists_mem_of_ne_nil _ invited
    have stays : who ∈ (s.step (.exit who)).links.left chptr := by
      rw [Invites.step, if_pos live]
      simp only [Invites.exit, nameless, if_true]
      exact (kept.mirror.back chptr who).mpr member
    have gone : (s.step (.exit who)).clients who = false := by
      rw [Invites.step, if_pos live]
      exact Function.update_self ..
    rw [(after.live stays).2] at gone
    cases gone
  | _ => trivial

theorem Kept.evicts (kept : s.Kept) {op : Op} (upheld : s.Upheld op) : s.Evicts op := by
  cases op with
  | invite chptr who =>
    intro live
    have room := upheld live
    rw [kept.addInvite_length, List.take_of_length_le (by omega)]
  | _ => trivial

end

/-! ### Runs -/

theorem kept_start (maxChans : ℕ) : (start maxChans).Kept where
  mirror := ⟨by simp [start], by simp [start], by simp [start]⟩
  live := by simp [start]
  bound := by simp [start]

theorem run_take_succ (maxChans : ℕ) {ops : List Op} {k : ℕ} {op : Op} (at_ : ops[k]? = some op) :
    run maxChans (ops.take (k + 1)) = (run maxChans (ops.take k)).step op := by
  simp [run, List.take_add_one, at_]

/-- A run keeps the invitations, and drops the oldest ones over the limit, exactly when no invitation is added to a
full list and no client leaves without a name while it has invitations. -/
theorem kept_iff (maxChans : ℕ) (ops : List Op) :
    (∀ k ≤ ops.length, (run maxChans (ops.take k)).Kept ∧
        ∀ op, ops[k]? = some op → (run maxChans (ops.take k)).Evicts op) ↔
      ∀ k op, ops[k]? = some op → (run maxChans (ops.take k)).Upheld op := by
  constructor
  · intro kept k op at_
    have inside := (List.getElem?_eq_some_iff.mp at_).1
    have after := (kept (k + 1) inside).1
    rw [run_take_succ maxChans at_] at after
    exact (kept k (by omega)).1.upheld_of_step after
  · intro upheld
    have kept : ∀ k ≤ ops.length, (run maxChans (ops.take k)).Kept := by
      intro k
      induction k with
      | zero => exact fun _ => kept_start maxChans
      | succ k ih =>
        intro within
        have at_ : ops[k]? = some ops[k] := List.getElem?_eq_getElem within
        rw [run_take_succ maxChans at_]
        exact (ih (by omega)).step (upheld k _ at_)
    exact fun k within => ⟨kept k within, fun op at_ => (kept k within).evicts (upheld k op at_)⟩

/-- With room for one invitation, a second one leaves the person with two. -/
theorem invited_over_limit :
    let s := run 1 [.connect 7 "Diane".toList, .create 1, .create 2, .invite 1 7, .invite 2 7]
    s.maxChans = 1 ∧ s.links.right 7 = [2, 1] := by
  decide

end Invites

end Ircd.Chan
