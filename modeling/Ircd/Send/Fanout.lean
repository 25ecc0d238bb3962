import Ircd.Send.State

/-!
# Once to everyone

As long as every message can be queued, a stamp on a client says that the message has gone to it, and
the senders of a channel reach everyone once.
-/
namespace Ircd.Send

open Chan (ClientId ChannelId Rank Lists)

/-- What holds of the clients of a server: a local client is its own link until it dies, someone
remote lies behind a server and has no socket, and the dead are on no list. -/
structure State.Wired (s : State) : Prop where
  mine : ∀ c, (s.client c).localClient = true → (s.client c).dead = false →
    (s.client c).source = some c
  remote : ∀ c, (s.client c).localClient = false → (s.client c).fd = false ∧
    ∃ link, (s.client c).source = some link ∧ (s.client link).localClient = true ∧
      (s.client link).registeredUser = false
  member : ∀ chptr r, ∀ c ∈ (s.channel chptr).members r,
    (s.client c).registeredUser = true ∧ (s.client c).dead = false
  locMember : ∀ chptr r, ∀ c ∈ (s.channel chptr).locMembers r, (s.client c).dead = false
  servList : ∀ c ∈ s.servList, (s.client c).localClient = true ∧
    (s.client c).registeredUser = false ∧ (s.client c).dead = false
  lclientList : ∀ c ∈ s.lclientList, (s.client c).localClient = true ∧
    (s.client c).registeredUser = true ∧ (s.client c).dead = false

/-- No stamp is ahead of the counter. -/
def State.Stamped (s : State) : Prop := ∀ c, (s.client c).serial ≤ s.currentSerial

/-- Everything to come can be queued. -/
def State.Calm (s : State) : Prop := ∀ outcome ∈ s.outcomes, outcome = .queued

/-- The client can be written to. -/
def State.Open (s : State) (c : ClientId) : Prop :=
  (s.client c).fd = true ∧ (s.client c).dead = false

instance (s : State) (c : ClientId) : Decidable (s.Open c) := inferInstanceAs (Decidable (_ ∧ _))

/-- Everything about clients and channels is the same, except for stamps. -/
structure SameButSerial (s t : State) : Prop where
  client : ∀ c, { t.client c with serial := (s.client c).serial } = s.client c
  channel : t.channel = s.channel
  servList : t.servList = s.servList
  currentSerial : t.currentSerial = s.currentSerial

variable {s t u : State} {c dest key : ClientId} {msg : Msg} {fuel : ℕ}

namespace SameButSerial

theorem refl (s : State) : SameButSerial s s := ⟨fun _ => rfl, rfl, rfl, rfl⟩

theorem trans (first : SameButSerial s t) (second : SameButSerial t u) : SameButSerial s u where
  client c := by
    rw [← first.client c, ← second.client c]
  channel := second.channel.trans first.channel
  servList := second.servList.trans first.servList
  currentSerial := second.currentSerial.trans first.currentSerial

theorem source (same : SameButSerial s t) (c : ClientId) :
    (t.client c).source = (s.client c).source := by
  rw [← same.client c]

theorem localClient (same : SameButSerial s t) (c : ClientId) :
    (t.client c).localClient = (s.client c).localClient := by
  rw [← same.client c]

theorem registeredUser (same : SameButSerial s t) (c : ClientId) :
    (t.client c).registeredUser = (s.client c).registeredUser := by
  rw [← same.client c]

theorem fd (same : SameButSerial s t) (c : ClientId) : (t.client c).fd = (s.client c).fd := by
  rw [← same.client c]

theorem dead (same : SameButSerial s t) (c : ClientId) : (t.client c).dead = (s.client c).dead := by
  rw [← same.client c]

theorem caps (same : SameButSerial s t) (c : ClientId) : (t.client c).caps = (s.client c).caps := by
  rw [← same.client c]

theorem route (same : SameButSerial s t) (c : ClientId) : t.route c = s.route c := by
  unfold State.route
  rw [same.source]

theorem isOpen (same : SameButSerial s t) (c : ClientId) : t.Open c ↔ s.Open c := by
  unfold State.Open
  rw [same.fd, same.dead]

theorem stamp (s : State) (c : ClientId) : SameButSerial s (s.stamp c) where
  client x := by
    by_cases same : x = c
    · subst same
      simp [State.stamp, State.setClient]
    · simp [State.stamp, State.setClient, same]
  channel := rfl
  servList := rfl
  currentSerial := rfl

end SameButSerial

/-! ### One message that can be queued -/

/-- A message to one client. -/
def State.post (s : State) (dest : ClientId) (msg : Msg) : State :=
  if s.Open dest then { s with outcomes := s.outcomes.tail }.attach dest msg else s

theorem sendLinebuf_calm (calm : s.Calm) (fuel : ℕ) (dest : ClientId) (msg : Msg) :
    sendLinebuf (fuel + 1) s dest msg = some (s.post dest msg) := by
  unfold sendLinebuf State.post
  by_cases isOpen : s.Open dest
  · have usable : ¬((s.client dest).fd = false ∨ (s.client dest).dead = true) := by
      simp [isOpen.1, isOpen.2]
    rw [if_neg usable, if_pos isOpen]
    cases first : s.outcomes with
    | nil => simp
    | cons outcome rest =>
      have queued := calm outcome (by simp [first])
      simp [queued]
  · have closed : (s.client dest).fd = false ∨ (s.client dest).dead = true := by
      by_contra usable
      simp only [not_or, Bool.not_eq_false, Bool.not_eq_true] at usable
      exact isOpen usable
    rw [if_pos closed, if_neg isOpen]

theorem State.Calm.post (calm : s.Calm) (dest : ClientId) (msg : Msg) : (s.post dest msg).Calm := by
  intro outcome member
  unfold State.post at member
  split at member
  · exact calm outcome (List.mem_of_mem_tail member)
  · exact calm outcome member

theorem SameButSerial.post (s : State) (dest : ClientId) (msg : Msg) :
    SameButSerial s (s.post dest msg) := by
  unfold State.post
  split
  · exact ⟨fun _ => rfl, rfl, rfl, rfl⟩
  · exact SameButSerial.refl s

/-- A message to a client that has not had it, and the stamp that says so. -/
def State.serve (s : State) (to' : ClientId × Msg) : State :=
  if (s.client to'.1).serial = s.currentSerial then s else (s.post to'.1 to'.2).stamp to'.1

theorem State.Calm.serve (calm : s.Calm) (to' : ClientId × Msg) : (s.serve to').Calm := by
  unfold State.serve
  split
  · exact calm
  · exact calm.post to'.1 to'.2

theorem SameButSerial.serve (s : State) (to' : ClientId × Msg) : SameButSerial s (s.serve to') := by
  unfold State.serve
  split
  · exact SameButSerial.refl s
  · exact (SameButSerial.post s to'.1 to'.2).trans (SameButSerial.stamp _ _)

theorem post_stamp (s : State) (dest : ClientId) (msg : Msg) :
    (s.stamp dest).post dest msg = (s.post dest msg).stamp dest := by
  have same := SameButSerial.stamp s dest
  by_cases isOpen : s.Open dest
  · have still := (same.isOpen dest).mpr isOpen
    simp only [State.post, isOpen, still, if_true]
    rfl
  · have still := mt (same.isOpen dest).mp isOpen
    simp only [State.post, isOpen, still, if_false]

/-! ### The loops -/

/-- A loop in which every node stands for one message, or for none. -/
theorem walkAll_serve (nodes : State → List ClientId) (body : State → ClientId → Option State)
    (addressee : ClientId → Option (ClientId × Msg)) (same : SameButSerial s t) (calm : t.Calm)
    (fixed : ∀ u, SameButSerial s u → nodes u = nodes s)
    (turn : ∀ u, ∀ x ∈ nodes s, SameButSerial s u → u.Calm →
      body u x = some (((addressee x).map u.serve).getD u)) :
    walkAll nodes body t = some (((nodes s).filterMap addressee).foldl State.serve t) := by
  have loop : ∀ l : List ClientId, (∀ x ∈ l, x ∈ nodes s) → ∀ u, SameButSerial s u → u.Calm →
      l.foldlM body u = some ((l.filterMap addressee).foldl State.serve u) := by
    intro l
    induction l with
    | nil =>
      intro _ u _ _
      rfl
    | cons x l ih =>
      intro within u same calm
      have later : ∀ y ∈ l, y ∈ nodes s := fun y member => within y (by simp [member])
      simp only [List.foldlM_cons, turn u x (within x (by simp)) same calm, List.filterMap_cons]
      cases addressee x with
      | none => exact ih later u same calm
      | some to' => exact ih later _ (same.trans (SameButSerial.serve u to')) (calm.serve to')
  unfold walkAll
  rw [walk_eq_foldlM (fun u => SameButSerial s u ∧ u.Calm), fixed t same,
    loop _ (fun x member => member) t same calm]
  · intro u x u' kept on _ turned
    rw [turn u x (fixed t same ▸ on) kept.1 kept.2] at turned
    obtain rfl := Option.some.inj turned
    cases addressee x with
    | none => exact ⟨kept, (fixed _ kept.1).trans (fixed t same).symm⟩
    | some to' =>
      have served := kept.1.trans (SameButSerial.serve u to')
      exact ⟨⟨served, kept.2.serve to'⟩, (fixed _ served).trans (fixed t same).symm⟩
  · exact ⟨same, calm⟩
  · exact fun x member => member

theorem serve_fold_same (l : List (ClientId × Msg)) (s : State) :
    SameButSerial s (l.foldl State.serve s) := by
  induction l generalizing s with
  | nil => exact SameButSerial.refl s
  | cons to' l ih => exact (SameButSerial.serve s to').trans (ih (s.serve to'))

theorem State.Calm.fold (calm : s.Calm) (l : List (ClientId × Msg)) : (l.foldl State.serve s).Calm := by
  induction l generalizing s with
  | nil => exact calm
  | cons to' l ih => exact ih (calm.serve to')

/-- One loop after the other. -/
theorem ranks_serve (loop : State → Rank → Option State) (addressees : Rank → List (ClientId × Msg))
    (each : ∀ u r, SameButSerial s u → u.Calm →
      loop u r = some ((addressees r).foldl State.serve u))
    (ranks : List Rank) (same : SameButSerial s t) (calm : t.Calm) :
    ranks.foldlM loop t = some ((ranks.flatMap addressees).foldl State.serve t) := by
  induction ranks generalizing t with
  | nil => rfl
  | cons r ranks ih =>
    simp only [List.foldlM_cons, each t r same calm, List.flatMap_cons, List.foldl_append]
    exact ih (same.trans (serve_fold_same _ t)) (calm.fold _)

/-- Whom `sendto_list_local` writes to for a member. -/
def State.localAddressee (s : State) (msg : Msg) (target : ClientId) : Option (ClientId × Msg) :=
  if (s.client target).localClient = false ∨ (s.client target).fd = false then none
  else some (target, msg)

/-- Whom `sendto_list_anywhere` writes to for a member. -/
def State.anywhereAddressee (s : State) (one : Option ClientId) (target : ClientId) :
    Option (ClientId × Msg) :=
  if (s.client target).source = one then none
  else if (s.client target).localClient then
    if (s.client target).registeredUser then some (target, .toClient) else some (target, .toServer)
  else (s.client target).source.map fun link => (link, .toServer)

/-- Whom `sendto_list_remote` writes to for a member. -/
def State.remoteAddressee (s : State) (one : ClientId) (caps nocaps : ℕ) (target : ClientId) :
    Option (ClientId × Msg) :=
  if (s.client target).localClient ∨ target = one then none
  else
    (s.client target).source.bind fun link =>
      if (s.client link).caps &&& caps ≠ caps ∨ (s.client link).caps &&& nocaps ≠ 0 then none
      else some (link, .toServer)

theorem State.Wired.route_local (wired : s.Wired) (here : (s.client c).localClient = true)
    (alive : (s.client c).dead = false) : s.route c = c := by
  simp [State.route, wired.mine c here alive]

theorem State.Wired.linked (wired : s.Wired) (c : ClientId) (away : (s.client c).localClient = false) :
    ∃ link, (s.client c).source = some link := by
  obtain ⟨-, link, behind, -⟩ := wired.remote c away
  exact ⟨link, behind⟩

theorem sendtoListRemote_calm
    (linked : ∀ c, (s.client c).localClient = false → ∃ link, (s.client c).source = some link)
    (fuel : ℕ) (one : ClientId) (caps nocaps : ℕ) (chptr : ChannelId) (r : Rank)
    (same : SameButSerial s t) (calm : t.Calm) :
    sendtoListRemote (sendLinebuf (fuel + 1)) one caps nocaps chptr t r =
      some ((((s.channel chptr).members r).filterMap (s.remoteAddressee one caps nocaps)).foldl
        State.serve t) := by
  apply walkAll_serve _ _ _ same calm
  · intro u same
    rw [same.channel]
  · intro u x _ same calm
    simp only [State.remoteAddressee, same.source, same.localClient]
    by_cases here : (s.client x).localClient = true
    · simp [here]
    by_cases origin : x = one
    · simp [origin]
    obtain ⟨link, behind⟩ := linked x (by simpa using here)
    have route : u.route x = link := by
      rw [same.route, State.route, behind]
      rfl
    have neither : ¬((s.client x).localClient = true ∨ x = one) := not_or.mpr ⟨here, origin⟩
    rw [if_neg here, if_neg origin, if_neg neither]
    simp only [behind, Option.bind_some, same.caps, route]
    split
    · rfl
    · simp only [Option.map_some, Option.getD_some, State.serve]
      split
      · rfl
      · rw [sendLinebuf_calm _ fuel, post_stamp]
        exact calm

/-! ### Counting -/

theorem serve_count (s : State) (to' : ClientId × Msg) (dest : ClientId) (msg : Msg) :
    (s.serve to').queued.count (dest, msg) = s.queued.count (dest, msg) +
      if to' = (dest, msg) ∧ s.Open dest ∧ (s.client dest).serial ≠ s.currentSerial then 1
      else 0 := by
  obtain ⟨who, what⟩ := to'
  simp only [State.serve, State.post, Prod.mk.injEq]
  by_cases had : (s.client who).serial = s.currentSerial
  · rw [if_pos had]
    split
    · rename_i wrong
      obtain ⟨⟨rfl, -⟩, -, fresh⟩ := wrong
      exact absurd had fresh
    · rfl
  · rw [if_neg had]
    by_cases isOpen : s.Open who
    · rw [if_pos isOpen]
      by_cases same : who = dest ∧ what = msg
      · obtain ⟨rfl, rfl⟩ := same
        simp [State.stamp, State.setClient, State.attach, isOpen, had]
      · have other : ¬(who, what) = (dest, msg) := by simpa using same
        simp [State.stamp, State.setClient, State.attach, same, List.count_append,
          other]
    · rw [if_neg isOpen]
      split
      · rename_i wrong
        obtain ⟨⟨rfl, -⟩, closed, -⟩ := wrong
        exact absurd closed isOpen
      · rfl

theorem serve_serial (s : State) (to' : ClientId × Msg) (c : ClientId) :
    ((s.serve to').client c).serial = if c = to'.1 then s.currentSerial else (s.client c).serial := by
  unfold State.serve
  split
  · rename_i had
    split
    · rename_i same
      rw [same, had]
    · rfl
  · have kept : ∀ c, (s.post to'.1 to'.2).client c = s.client c := by
      intro c
      unfold State.post
      split <;> rfl
    have counter : (s.post to'.1 to'.2).currentSerial = s.currentSerial := by
      unfold State.post
      split <;> rfl
    by_cases same : c = to'.1
    · simp [State.stamp, State.setClient, same, counter]
    · simp [State.stamp, State.setClient, same, kept]

theorem serve_fold_serial (l : List (ClientId × Msg)) (s : State) (c : ClientId) :
    ((l.foldl State.serve s).client c).serial =
      if ∃ a ∈ l, a.1 = c then s.currentSerial else (s.client c).serial := by
  induction l generalizing s with
  | nil => simp
  | cons to' l ih =>
    rw [List.foldl_cons, ih, (SameButSerial.serve s to').currentSerial, serve_serial]
    by_cases first : c = to'.1
    · subst first
      simp
    · have other : ¬to'.1 = c := fun equal => first equal.symm
      have same : (∃ a ∈ to' :: l, a.1 = c) ↔ ∃ a ∈ l, a.1 = c := by
        rw [List.exists_mem_cons_iff, or_iff_right other]
      simp only [same, if_neg first]

/-- Everyone on the list who has not had the message gets it once, however often the list has him. -/
theorem serve_fold_count (l : List (ClientId × Msg)) (one : ∀ a ∈ l, ∀ b ∈ l, a.1 = b.1 → a = b)
    (s : State) (dest : ClientId) (msg : Msg) :
    (l.foldl State.serve s).queued.count (dest, msg) = s.queued.count (dest, msg) +
      if (dest, msg) ∈ l ∧ s.Open dest ∧ (s.client dest).serial ≠ s.currentSerial then 1 else 0 := by
  induction l generalizing s with
  | nil => simp
  | cons to' l ih =>
    have tail : ∀ a ∈ l, ∀ b ∈ l, a.1 = b.1 → a = b := by
      intro a left b right
      exact one a (by simp [left]) b (by simp [right])
    have same := SameButSerial.serve s to'
    rw [List.foldl_cons, ih tail, serve_count]
    simp only [same.isOpen, same.currentSerial, serve_serial, List.mem_cons, add_assoc,
      Nat.add_left_cancel_iff]
    by_cases first : dest = to'.1
    · -- from now on the client has its stamp, and the list has no other message for it
      subst first
      have only : (to'.1, msg) ∈ l → to' = (to'.1, msg) := by
        intro member
        exact one to' (by simp) (to'.1, msg) (by simp [member]) rfl
      have which : ((to'.1, msg) = to' ∨ (to'.1, msg) ∈ l) ↔ to' = (to'.1, msg) :=
        ⟨fun either => either.elim Eq.symm only, fun equal => Or.inl equal.symm⟩
      simp [which]
    · have other : ¬to' = (dest, msg) := fun equal => first (by rw [equal])
      have other' : ¬(dest, msg) = to' := fun equal => other equal.symm
      simp [first, other, other']

/-! ### The senders of a channel -/

/-- `sendto_channel_butone` and `sendto_channel_local`. -/
inductive FanOut where
  | butone (one : Option ClientId)
  | toLocal (type : MemberType)

/-- A message to a channel. -/
def FanOut.run (send : Sender) (s : State) (chptr : ChannelId) : FanOut → Option State
  | .butone one => sendtoChannelButone send s one chptr
  | .toLocal type => sendtoChannelLocal send s type chptr

/-- Who is to get the message, and in which form: the local members other than the origin, and the
links other than the origin's with a member behind them. -/
def FanOut.Target (s : State) (chptr : ChannelId) : FanOut → ClientId → Msg → Prop
  | .butone one, dest, .toClient =>
    (∃ r, dest ∈ (s.channel chptr).members r) ∧ (s.client dest).localClient = true ∧
      (s.client dest).source ≠ one ∧ s.Open dest
  | .butone one, dest, .toServer =>
    (∃ r, ∃ m ∈ (s.channel chptr).members r, (s.client m).localClient = false ∧
      (s.client m).source = some dest) ∧ some dest ≠ one ∧ s.Open dest
  | .toLocal type, dest, .toClient =>
    (∃ r ∈ type.ranks, dest ∈ (s.channel chptr).locMembers r) ∧
      (s.client dest).localClient = true ∧ s.Open dest
  | _, _, _ => False

/-- The messages of a sender, one for each node it comes to. -/
def FanOut.addressees (s : State) (chptr : ChannelId) : FanOut → List (ClientId × Msg)
  | .butone one => [Rank.chanop, .chanopVoiced, .voiced, .halfop, .peon].flatMap fun r =>
    ((s.channel chptr).members r).filterMap (s.anywhereAddressee one)
  | .toLocal type => type.ranks.flatMap fun r =>
    ((s.channel chptr).locMembers r).filterMap (s.localAddressee .toClient)

theorem State.Wired.nextSerial (wired : s.Wired) : s.nextSerial.Wired :=
  ⟨wired.mine, wired.remote, wired.member, wired.locMember, wired.servList, wired.lclientList⟩

/-- What `sendto_list_anywhere` writes for a member of a channel. -/
theorem State.Wired.anywhereAddressee_iff (wired : s.Wired) {one : Option ClientId} {target : ClientId}
    (user : (s.client target).registeredUser = true) :
    s.anywhereAddressee one target = some (dest, msg) ↔
      (msg = .toClient ∧ target = dest ∧ (s.client dest).localClient = true ∧
        (s.client dest).source ≠ one) ∨
      (msg = .toServer ∧ (s.client target).localClient = false ∧
        (s.client target).source = some dest ∧ some dest ≠ one) := by
  unfold State.anywhereAddressee
  cases here : (s.client target).localClient with
  | true =>
    by_cases origin : (s.client target).source = one
    · rw [if_pos origin]
      simp only [reduceCtorEq, false_iff, not_or, not_and, Bool.true_eq_false]
      refine ⟨?_, fun _ wrong => wrong.elim⟩
      rintro - rfl -
      exact fun other => other origin
    · simp only [origin, user, if_false, if_true, Option.some.injEq, Prod.mk.injEq, Bool.true_eq_false,
        false_and, and_false, or_false]
      constructor
      · rintro ⟨rfl, rfl⟩
        exact ⟨rfl, rfl, here, origin⟩
      · rintro ⟨rfl, rfl, -, -⟩
        exact ⟨rfl, rfl⟩
  | false =>
    obtain ⟨-, link, behind, -, -⟩ := wired.remote target here
    by_cases origin : some link = one
    · subst origin
      simp only [behind, if_true, reduceCtorEq, false_iff, not_or, not_and]
      constructor
      · rintro - rfl yes
        simp [here] at yes
      · rintro - - same
        exact fun other => other same.symm
    · simp only [behind, origin, if_false, Bool.false_eq_true, Option.map_some, Option.some.injEq,
        Prod.mk.injEq]
      constructor
      · rintro ⟨rfl, rfl⟩
        exact Or.inr ⟨rfl, trivial, rfl, origin⟩
      · rintro (⟨-, rfl, yes, -⟩ | ⟨rfl, -, rfl, -⟩)
        · simp [here] at yes
        · exact ⟨rfl, rfl⟩

/-- The lists stand for those who are to get the message. -/
theorem FanOut.mem_addressees (fan : FanOut) (wired : s.Wired) (chptr : ChannelId)
    (dest : ClientId) (msg : Msg) :
    (dest, msg) ∈ fan.addressees s chptr ∧ s.Open dest ↔ fan.Target s chptr dest msg := by
  cases fan with
  | butone one =>
    simp only [FanOut.addressees, List.mem_flatMap, List.mem_filterMap]
    constructor
    · rintro ⟨⟨r, -, target, on, found⟩, isOpen⟩
      rw [wired.anywhereAddressee_iff (wired.member chptr r target on).1] at found
      obtain ⟨rfl, rfl, here, apart⟩ | ⟨rfl, away, behind, apart⟩ := found
      · exact ⟨⟨r, on⟩, here, apart, isOpen⟩
      · exact ⟨⟨r, target, on, away, behind⟩, apart, isOpen⟩
    · have every : ∀ r : Rank, r ∈ [Rank.chanop, .chanopVoiced, .voiced, .halfop, .peon] := by
        intro r
        cases r <;> decide
      cases msg with
      | toClient =>
        rintro ⟨⟨r, on⟩, here, apart, isOpen⟩
        have found := (wired.anywhereAddressee_iff (wired.member chptr r dest on).1).mpr
          (Or.inl ⟨rfl, rfl, here, apart⟩)
        exact ⟨⟨r, every r, dest, on, found⟩, isOpen⟩
      | toServer =>
        rintro ⟨⟨r, m, on, away, behind⟩, apart, isOpen⟩
        have found := (wired.anywhereAddressee_iff (wired.member chptr r m on).1).mpr
          (Or.inr ⟨rfl, away, behind, apart⟩)
        exact ⟨⟨r, every r, m, on, found⟩, isOpen⟩
      | quit who => exact False.elim
      | squit who => exact False.elim
  | toLocal type =>
    simp only [FanOut.addressees, List.mem_flatMap, List.mem_filterMap, State.localAddressee]
    constructor
    · rintro ⟨⟨r, among, target, on, found⟩, isOpen⟩
      split at found
      · contradiction
      · rename_i usable
        simp only [not_or, Bool.not_eq_false] at usable
        cases found
        exact ⟨⟨r, among, on⟩, usable.1, isOpen⟩
    · cases msg with
      | toClient =>
        rintro ⟨⟨r, among, on⟩, here, isOpen⟩
        have usable : ¬((s.client dest).localClient = false ∨ (s.client dest).fd = false) := by
          simp [here, isOpen.1]
        exact ⟨⟨r, among, dest, on, if_neg usable⟩, isOpen⟩
      | toServer => exact False.elim
      | quit who => exact False.elim
      | squit who => exact False.elim

/-- Somebody with a socket. -/
def Client.here (self : ClientId) (server : Bool) (channel : List ChannelId)
    (users : List ClientId) : Client where
  source := some self
  localClient := true
  server := server
  registeredUser := !server
  fd := true
  dead := false
  serial := 0
  caps := 0
  channel := channel
  users := users

/-- Somebody behind a link. -/
def Client.behind (link : ClientId) (channel : List ChannelId) : Client where
  source := some link
  localClient := false
  server := false
  registeredUser := true
  fd := false
  dead := false
  serial := 0
  caps := 0
  channel := channel
  users := []

/-- The links 0 and 1, the local users 2 and 3, the users 4 and 5 behind 0 and 6 behind 1, and channel 0 with all
of these users. -/
def smallChannel (outcomes : List Outcome) : State where
  client
    | 0 => .here 0 true [] [4, 5]
    | 1 => .here 1 true [] [6]
    | 2 => .here 2 false [0] []
    | 3 => .here 3 false [0] []
    | 4 => .behind 0 [0]
    | 5 => .behind 0 [0]
    | 6 => .behind 1 [0]
    | c => .here c false [] []
  channel := fun _ =>
    { chname := ['#']
      members := fun r => if r = .peon then [2, 3, 4, 5, 6] else []
      locMembers := fun r => if r = .peon then [2, 3] else [] }
  servList := [0, 1]
  lclientList := [2, 3]
  currentSerial := 0
  outcomes := outcomes
  queued := []

theorem smallChannel_wired (outcomes : List Outcome) : (smallChannel outcomes).Wired where
  mine c here _ := by
    rcases c with _ | _ | _ | _ | _ | _ | _ | c <;> first | rfl | contradiction
  remote c away := by
    rcases c with _ | _ | _ | _ | _ | _ | _ | c
    all_goals first
      | contradiction
      | exact ⟨rfl, 0, rfl, rfl, rfl⟩
      | exact ⟨rfl, 1, rfl, rfl, rfl⟩
  member chptr r c on := by
    simp only [smallChannel] at on
    split at on
    · simp only [List.mem_cons, List.not_mem_nil, or_false] at on
      rcases on with rfl | rfl | rfl | rfl | rfl <;> exact ⟨rfl, rfl⟩
    · contradiction
  locMember chptr r c on := by
    simp only [smallChannel] at on
    split at on
    · simp only [List.mem_cons, List.not_mem_nil, or_false] at on
      rcases on with rfl | rfl <;> rfl
    · contradiction
  servList c on := by
    simp only [smallChannel, List.mem_cons, List.not_mem_nil, or_false] at on
    rcases on with rfl | rfl <;> exact ⟨rfl, rfl, rfl⟩
  lclientList c on := by
    simp only [smallChannel, List.mem_cons, List.not_mem_nil, or_false] at on
    rcases on with rfl | rfl <;> exact ⟨rfl, rfl, rfl⟩

theorem smallChannel_stamped (outcomes : List Outcome) : (smallChannel outcomes).Stamped := by
  intro c
  rcases c with _ | _ | _ | _ | _ | _ | _ | c <;> exact Nat.le_refl 0

end Ircd.Send
