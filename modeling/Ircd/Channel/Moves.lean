import Ircd.Channel.Rooted

/-!
# Virtual channels over whole runs

Clients come and go, and channels with them. The links of virtual channels stay in order as long as
no SJOIN is about a channel that looks virtual and is not, or has not been so far.
-/
namespace Ircd.Chan

variable {s t : State} {who : ClientId} {voices : Bool}

/-! ### Clients that leave -/

theorem State.InOrder.partOneClient (ordered : s.InOrder voices) (who : ClientId) (name : List Char) :
    (s.partOneClient who name).InOrder voices := by
  unfold State.partOneClient
  cases found : s.partChannel who name with
  | none => exact ordered
  | some chptr =>
    -- the client is on the channel
    have isMember : chptr ∈ (s.client who).channels := by
      unfold State.partChannel at found
      obtain ⟨c, -, found⟩ := Option.bind_eq_some_iff.mp found
      exact of_decide_eq_true (Option.filter_eq_some_iff.mp found).2
    exact (ordered.remove (ordered.intact.sound.joined who chptr isMember) who false).1

theorem State.InOrder.mKick (ordered : s.InOrder voices) (source : ClientId) (name : List Char)
    (who : ClientId) : (s.mKick source name who).InOrder voices := by
  unfold State.mKick
  cases s.kickChannel source name with
  | none => exact ordered
  | some chptr =>
    dsimp only
    split
    next may =>
      have isMember : chptr ∈ (s.client who).channels := by
        unfold State.mayKick at may
        have both := (Bool.and_eq_true_iff.mp may).1
        exact of_decide_eq_true (Bool.and_eq_true_iff.mp both).2
      exact (ordered.remove (ordered.intact.sound.joined who chptr isMember) who false).1
    · exact ordered

/-- `JOIN 0` comes to an end. -/
theorem State.InOrder.doJoin0 (who : ClientId) (n : ℕ) (ordered : s.InOrder voices)
    (left : (s.client who).channels.length = n) :
    ∃ t, s.doJoin0 who n = some t ∧ t.InOrder voices ∧ (t.client who).channels = [] := by
  induction n generalizing s with
  | zero =>
    have none := List.length_eq_zero_iff.mp left
    exact ⟨s, by rw [State.doJoin0, if_pos none], ordered, none⟩
  | succ n ih =>
    cases channels : (s.client who).channels with
    | nil => exact ⟨s, by rw [State.doJoin0, channels], ordered, channels⟩
    | cons chptr rest =>
      have first : chptr ∈ (s.client who).channels := by
        rw [channels]
        exact List.mem_cons_self
      obtain ⟨removed, -, after⟩ :=
        ordered.remove (ordered.intact.sound.joined who chptr first) who false
      rw [channels, List.erase_cons_head] at after
      rw [channels] at left
      obtain ⟨t, done, kept⟩ := ih removed (by rw [after]; exact Nat.succ.inj left)
      exact ⟨t, by rw [State.doJoin0, channels]; exact done, kept⟩

theorem State.InOrder.exitChannels (ordered : s.InOrder voices) (who : ClientId) :
    (s.exitChannels who).InOrder voices := by
  have each : ∀ (list : List ChannelId) (s : State), s.InOrder voices → (∀ c ∈ list, c < s.nextChannel) →
      (list.foldl (fun s chptr => s.removeUserFromChannel chptr who true) s).InOrder voices := by
    intro list
    induction list with
    | nil => exact fun s ordered _ => ordered
    | cons chptr list ih =>
      intro s ordered below
      obtain ⟨removed, next, -⟩ := ordered.remove (below chptr List.mem_cons_self) who true
      exact ih _ removed fun c member => next.symm ▸ below c (List.mem_cons_of_mem _ member)
  exact each _ s ordered (ordered.intact.sound.joined who)

theorem State.InOrder.cleanupChannel (ordered : s.InOrder voices) {chptr : ChannelId}
    (listed : chptr ∈ s.globalChannelList) : (s.cleanupChannel chptr).InOrder voices := by
  have old := ordered.intact.sound.below chptr listed
  have touched : (s.setChannel chptr { s.channel chptr with usersLast := s.currentTime }).InOrder voices :=
    ordered.touch chptr old _ ⟨rfl, rfl, rfl, rfl⟩ rfl rfl rfl
  unfold State.cleanupChannel
  dsimp only
  split
  · split
    · split
      next users => exact ordered.destroyChannel listed users
      · exact touched
    · exact ordered
  · split
    next users =>
      split
      · exact ordered.destroyChannel listed users
      · exact ordered
    · exact touched

/-! ### Runs -/

/-- What can happen to the members of channels. -/
inductive Movement where
  | join (who : ClientId) (r : JoinRequest)
  | cjoin (who : ClientId) (name : List Char) (admitted : Bool)
  | sjoin (m : SjoinMessage)
  | part (who : ClientId) (name : List Char)
  | kick (source : ClientId) (name : List Char) (who : ClientId)
  | join0 (who : ClientId)
  | exit (who : ClientId)
  | cleanup (chptr : ChannelId)
  | tick (now : ℤ)

def State.move (s : State) : Movement → Option State
  | .join who r => some (s.mJoin who r)
  | .cjoin who name admitted => some (s.mCjoin who name admitted)
  | .sjoin m => some (s.receive m)
  | .part who name => some (s.partOneClient who name)
  | .kick source name who => some (s.mKick source name who)
  | .join0 who => s.doJoin0 who (s.client who).channels.length
  | .exit who => some (s.exitChannels who)
  | .cleanup chptr => some (s.cleanupChannel chptr)
  | .tick now => some { s with currentTime := now }

/-- What the callers see to: a person joins, and the channel that is cleaned up exists. -/
def Movement.Called (s : State) : Movement → Prop
  | .join who _ => (s.client who).user.isSome = true
  | .cjoin who _ _ => (s.client who).user.isSome = true
  | .cleanup chptr => chptr ∈ s.globalChannelList
  | _ => True

/-- What a SJOIN says of a virtual channel fits to what is known of it. -/
def Movement.Proper (s : State) : Movement → Prop
  | .sjoin m => m.Proper s
  | _ => True

/-- A SJOIN does not take the modes of a channel away on which a local op has voice. -/
def Movement.Spares (s : State) : Movement → Prop
  | .sjoin m => m.Spares s
  | _ => True

/-- The states that steps of a kind lead to. -/
inductive State.Reaches (ok : State → Movement → Prop) (s : State) : State → Prop
  | refl : s.Reaches ok s
  | step {t t' : State} {m : Movement} (before : s.Reaches ok t) (may : ok t m)
      (done : t.move m = some t') : s.Reaches ok t'

/-- A server that has just started. -/
structure State.Fresh (s : State) : Prop where
  started : s.Started
  maps : ∀ u, (s.client u).vchanMap = []

theorem State.Fresh.ordered (fresh : s.Fresh) : s.InOrder voices where
  intact := fresh.started.intact
  linked := by
    have none : ∀ c, c ∉ s.globalChannelList := fun c member => by
      rw [fresh.started.channels] at member
      cases member
    have nowhere : ∀ u, (s.client u).channels = [] := fun u => by
      unfold Client.channels
      cases given : (s.client u).user with
      | none => rfl
      | some user => simp [(fresh.started.users u user given).1]
    refine ⟨?_, fun c member => absurd member (none c), fun c member => absurd member (none c),
      fun c member => absurd member (none c), fun u c on => ?_, fun u => ?_, fun u b c => ?_,
      fun u => ?_⟩
    · change s.globalChannelList.Nodup
      rw [fresh.started.channels]
      exact List.nodup_nil
    · change c ∈ (s.client u).channels at on
      rw [nowhere u] at on
      cases on
    · change (s.client u).channels.Nodup
      rw [nowhere u]
      exact List.nodup_nil
    · change (b, c) ∈ (s.client u).vchanMap ↔ c ∈ (s.client u).channels ∧ _
      rw [fresh.maps u, nowhere u]
      exact iff_of_false List.not_mem_nil fun both => List.not_mem_nil both.1
    · change (s.client u).vchanMap.Nodup
      rw [fresh.maps u]
      exact List.nodup_nil
  named := by
    refine ⟨fun c member => ?_, fun c member => ?_⟩
    · rw [fresh.started.channels] at member
      cases member
    · rw [fresh.started.channels] at member
      cases member
  plain _ c below := by
    rw [fresh.started.next] at below
    exact absurd below (Nat.not_lt_zero c)

/-- One step keeps the links in order, and it is never stuck. -/
theorem State.InOrder.move (ordered : s.InOrder voices) {m : Movement} (called : m.Called s)
    (proper : m.Proper s) (spares : voices = true → m.Spares s) : ∃ t, s.move m = some t ∧ t.InOrder voices := by
  cases m with
  | join who r => exact ⟨_, rfl, ordered.mJoin called r⟩
  | cjoin who name admitted => exact ⟨_, rfl, ordered.mCjoin called name admitted⟩
  | sjoin m => exact ⟨_, rfl, ordered.receive proper spares⟩
  | part who name => exact ⟨_, rfl, ordered.partOneClient who name⟩
  | kick source name who => exact ⟨_, rfl, ordered.mKick source name who⟩
  | join0 who =>
    obtain ⟨t, done, kept, -⟩ := ordered.doJoin0 who _ rfl
    exact ⟨t, done, kept⟩
  | exit who => exact ⟨_, rfl, ordered.exitChannels who⟩
  | cleanup chptr => exact ⟨_, rfl, ordered.cleanupChannel called⟩
  | tick now =>
    obtain ⟨⟨channels, joined, ⟨below, onOld⟩⟩, linked, ⟨unique, vchan⟩, plain⟩ := ordered
    exact ⟨_, rfl, ⟨channels, joined, ⟨below, onOld⟩⟩, linked, ⟨unique, vchan⟩, plain⟩

theorem State.Reaches.rooted (reaches : s.Reaches (fun s m => m.Called s ∧ m.Proper s) t)
    (rooted : s.Rooted) : t.Rooted := by
  induction reaches with
  | refl => exact rooted
  | step before may done ih =>
    obtain ⟨t', done', kept⟩ := (State.rooted_iff.mp ih).move may.1 may.2 Bool.noConfusion
    rw [done] at done'
    obtain rfl := Option.some.inj done'
    exact State.rooted_iff.mpr kept

/-- The root pointers, the lists of the roots and the maps of the clients agree. -/
structure State.VchansAgree (s : State) : Prop where
  root : ∀ v ∈ s.globalChannelList, ∀ b, (s.channel v).rootChptr = some b → b ∈ s.globalChannelList
  listed : ∀ b ∈ s.globalChannelList, ∀ v,
    v ∈ (s.channel b).vchanList ↔ v ∈ s.globalChannelList ∧ (s.channel v).rootChptr = some b
  once : ∀ b ∈ s.globalChannelList, (s.channel b).vchanList.Nodup
  flat : ∀ c ∈ s.globalChannelList, (s.channel c).isVchan = true → (s.channel c).hasVchans = false
  map : ∀ u b v, (b, v) ∈ (s.client u).vchanMap ↔
    s.isMember u v = true ∧ (s.channel v).rootChptr = some b
  mapOnce : ∀ u, (s.client u).vchanMap.Nodup
  mapVchan : ∀ u b v, s.mapVchan b u = some v → s.isMember u v = true ∧ v ∈ s.globalChannelList

theorem State.InOrder.agree (ordered : s.InOrder voices) : s.VchansAgree := by
  obtain ⟨-, linked, -, -⟩ := id ordered
  refine ⟨fun v member b isRoot => (linked.root v member b isRoot).1, linked.subs, linked.subsOnce,
    fun c member isVchan => ?_, fun u b v => ?_, linked.cacheOnce, fun u b v mapped => ?_⟩
  · obtain ⟨b, isRoot⟩ := Option.isSome_iff_exists.mp isVchan
    -- whatever is under it would have a root that has a root
    have bare : (s.channel c).vchanList = [] := by
      refine List.eq_nil_iff_forall_not_mem.mpr fun v on => ?_
      obtain ⟨listed, isRoot'⟩ := (linked.subs c member v).mp on
      have flat := (linked.root v listed c isRoot').2
      have isRoot'' : s.groups.root c = some b := isRoot
      rw [flat] at isRoot''
      cases isRoot''
    simp [Channel.hasVchans, bare]
  · rw [State.isMember, decide_eq_true_iff]
    exact linked.cache u b v
  · obtain ⟨on, -⟩ := ordered.mapVchan mapped
    exact ⟨decide_eq_true on, linked.on u v on⟩

end Ircd.Chan
