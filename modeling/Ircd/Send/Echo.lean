import Ircd.Send.Fanout

/-!
# Nothing goes back

A message that has come over a link is not sent over it again, whatever fails on the way, except by
`sendto_channel_remote`: this skips the client it is from, and no one else behind the link.
-/
namespace Ircd.Send

open Chan (ClientId ChannelId Rank Lists)

/-- The copies of the message to many in the queue of a client. -/
def State.copies (s : State) (link : ClientId) : List (ClientId × Msg) :=
  s.queued.filter fun q => q.1 = link ∧ (q.2 = .toClient ∨ q.2 = .toServer)

/-- What has happened while no copy went to the link: clients with a socket may have been exited,
and have left their lists. -/
structure Silent (link : ClientId) (s t : State) : Prop where
  source : ∀ c, (t.client c).source = (s.client c).source ∨
    ((t.client c).source = none ∧ (t.client c).dead = true ∧ (s.client c).fd = true)
  dead : ∀ c, (s.client c).dead = true → (t.client c).dead = true
  fd : ∀ c, (t.client c).fd = true → (s.client c).fd = true
  localClient : ∀ c, (t.client c).localClient = (s.client c).localClient
  registeredUser : ∀ c, (t.client c).registeredUser = (s.client c).registeredUser
  caps : ∀ c, (t.client c).caps = (s.client c).caps
  members : ∀ chptr r, ∀ c ∈ (t.channel chptr).members r, c ∈ (s.channel chptr).members r
  servList : ∀ c ∈ t.servList, c ∈ s.servList
  lclientList : ∀ c ∈ t.lclientList, c ∈ s.lclientList
  copies : t.copies link = s.copies link
  stamped : s.Stamped → t.Stamped

variable {link dest c : ClientId} {s t u : State} {msg : Msg} {send : Sender}

namespace Silent

theorem refl (link : ClientId) (s : State) : Silent link s s := by
  constructor <;> simp

theorem trans (first : Silent link s t) (second : Silent link t u) : Silent link s u where
  source c := by
    rcases second.source c with same | ⟨gone, dead, open'⟩
    · rcases first.source c with same' | ⟨gone, dead, open'⟩
      · exact Or.inl (same.trans same')
      · exact Or.inr ⟨same.trans gone, second.dead c dead, open'⟩
    · exact Or.inr ⟨gone, dead, first.fd c open'⟩
  dead c dead := second.dead c (first.dead c dead)
  fd c open' := first.fd c (second.fd c open')
  localClient c := (second.localClient c).trans (first.localClient c)
  registeredUser c := (second.registeredUser c).trans (first.registeredUser c)
  caps c := (second.caps c).trans (first.caps c)
  members chptr r c on := first.members chptr r c (second.members chptr r c on)
  servList c on := first.servList c (second.servList c on)
  lclientList c on := first.lclientList c (second.lclientList c on)
  copies := second.copies.trans first.copies
  stamped stamped := second.stamped (first.stamped stamped)

/-- Changing the stamp of a client, its channels, or that it is dead. -/
theorem setClient (link : ClientId) (s : State) (who : ClientId) (client : Client)
    (source : client.source = (s.client who).source)
    (dead : (s.client who).dead = true → client.dead = true)
    (fd : client.fd = (s.client who).fd)
    (localClient : client.localClient = (s.client who).localClient)
    (registeredUser : client.registeredUser = (s.client who).registeredUser)
    (caps : client.caps = (s.client who).caps)
    (serial : client.serial ≤ s.currentSerial ∨ client.serial = (s.client who).serial) :
    Silent link s (s.setClient who client) := by
  have fields : ∀ c, (s.setClient who client).client c = if c = who then client else s.client c := by
    intro c
    simp only [State.setClient, Function.update_apply]
  constructor
  case copies => rfl
  case stamped =>
    intro stamped c
    rw [fields]
    split
    · rcases serial with le | same
      · exact le
      · exact same.trans_le (stamped who)
    · exact stamped c
  case members => exact fun _ _ _ on => on
  case servList => exact fun _ on => on
  case lclientList => exact fun _ on => on
  all_goals
    intro c
    by_cases same : c = who
    · subst same
      simp only [fields, if_true, source, fd, localClient, registeredUser, caps] <;>
        first | exact Or.inl trivial | exact dead | exact id
    · simp only [fields, same, if_false] <;> first | exact Or.inl trivial | exact id

theorem stamp (link : ClientId) (s : State) (who : ClientId) : Silent link s (s.stamp who) := by
  apply setClient <;> simp

end Silent

/-- Something that does not send a copy to the link. -/
def Sender.Quiet (send : Sender) (link : ClientId) : Prop :=
  ∀ s dest msg s', (dest = link → (msg = .toClient ∨ msg = .toServer) → (s.client link).dead = true) →
    send s dest msg = some s' → Silent link s s'

/-- Messages about those who exit, in any order. -/
theorem foldlM_silent {α : Type} (body : State → α → Option State)
    (turn : ∀ u x u', body u x = some u' → Silent link u u') (l : List α)
    (ran : l.foldlM body s = some t) : Silent link s t := by
  induction l generalizing s with
  | nil =>
    cases ran
    exact Silent.refl link _
  | cons x l ih =>
    simp only [List.foldlM_cons, Option.bind_eq_bind, Option.bind_eq_some_iff] at ran
    obtain ⟨u, turned, rest⟩ := ran
    exact (turn s x u turned).trans (ih rest)

section Pieces

variable (quiet : send.Quiet link)
include quiet

theorem sendtoListLocal_silent {chptr : ChannelId} {r : Rank}
    (news : msg ≠ .toClient ∧ msg ≠ .toServer)
    (sent : sendtoListLocal send chptr msg s r = some t) : Silent link s t := by
  apply walk_rel (Silent link) (Silent.refl link) (fun _ _ _ => Silent.trans) _ _ sent
  intro u x u' _ _ _ turned
  split at turned
  · cases turned
    exact Silent.refl link _
  · split at turned
    · cases turned
      exact Silent.refl link _
    · exact (Silent.stamp link u x).trans (quiet _ _ _ _ (by simp [news]) turned)

theorem sendtoCommonChannelsLocal_silent {user : ClientId} (news : msg ≠ .toClient ∧ msg ≠ .toServer)
    (sent : sendtoCommonChannelsLocal send s user msg = some t) : Silent link s t := by
  obtain ⟨u, loops, last⟩ := Option.bind_eq_some_iff.mp sent
  have next : Silent link s s.nextSerial := by
    refine { Silent.refl link s with stamped := ?_ }
    intro stamped c
    exact (stamped c).trans (Nat.le_succ _)
  apply (next.trans (foldlM_silent _ _ _ loops)).trans
  · split at last
    · exact quiet _ _ _ _ (by simp [news]) last
    · cases last
      exact Silent.refl link _
  · intro u place u' turned
    exact sendtoListLocal_silent quiet news turned

theorem sendtoServer_silent {one : Option ClientId} {chptr : Option ChannelId} {caps nocaps : ℕ}
    (news : msg ≠ .toClient ∧ msg ≠ .toServer)
    (sent : sendtoServer send s one chptr caps nocaps msg = some t) : Silent link s t := by
  unfold sendtoServer at sent
  split at sent
  · cases sent
    exact Silent.refl link _
  apply walk_rel (Silent link) (Silent.refl link) (fun _ _ _ => Silent.trans) _ _ sent
  intro u x u' _ _ _ turned
  split at turned
  · cases turned
    exact Silent.refl link _
  split at turned
  · cases turned
    exact Silent.refl link _
  split at turned
  · cases turned
    exact Silent.refl link _
  · exact quiet _ _ _ _ (by simp [news]) turned

omit quiet in
theorem Channel.removeUser_members (ch : Channel) (who : ClientId) (mine : Bool) (r : Rank) :
    ∀ c ∈ (ch.removeUser who mine).members r, c ∈ ch.members r := by
  intro c on
  unfold Channel.removeUser at on
  split at on
  · exact on
  · rename_i rank _
    simp only [Lists.delete, Function.update_apply] at on
    split at on
    · rename_i same
      subst same
      exact List.mem_of_mem_erase on
    · exact on

omit quiet in
theorem removeUserFromChannel_silent (s : State) (who : ClientId) (chptr : ChannelId) :
    Silent link s (s.removeUserFromChannel who chptr) := by
  let mine := (s.client who).localClient && (s.client who).registeredUser
  let lists : State :=
    { s with channel := Function.update s.channel chptr ((s.channel chptr).removeUser who mine) }
  have smaller : Silent link s lists := by
    refine { Silent.refl link s with members := ?_ }
    intro other r c on
    simp only [lists, Function.update_apply] at on
    split at on
    · rename_i same
      subst same
      exact Channel.removeUser_members _ who _ r c on
    · exact on
  apply smaller.trans
  apply Silent.setClient <;> simp [lists]

theorem exitOneClient_silent {one : Option ClientId} {killed : Bool} {who : ClientId}
    (ran : exitOneClient send s one killed who = some t) : Silent link s t := by
  obtain ⟨u, told, rest⟩ := Option.bind_eq_some_iff.mp ran
  obtain ⟨v, shown, rfl⟩ := Option.map_eq_some_iff.mp rest
  have first : Silent link s u := by
    split at told
    · cases told
      exact Silent.refl link _
    · exact sendtoServer_silent quiet (by simp) told
  have second := sendtoCommonChannelsLocal_silent quiet (by simp) shown
  have left : ∀ (l : List ChannelId) (w : State),
      Silent link w (l.foldl (fun s chptr => s.removeUserFromChannel who chptr) w) := by
    intro l
    induction l with
    | nil => exact Silent.refl link
    | cons chptr l ih => exact fun w => (removeUserFromChannel_silent w who chptr).trans (ih _)
  apply (first.trans second).trans
  apply (left _ v).trans
  apply Silent.setClient <;> simp

omit quiet in
theorem closeConnection_silent (link : ClientId) {who : ClientId} (usable : (s.client who).fd = true) :
    Silent link s (s.closeConnection who) := by
  let client : Client := { s.client who with dead := true, source := none, fd := false }
  have gone : Silent link s (s.setClient who client) := by
    have fields : ∀ c, (s.setClient who client).client c = if c = who then client else s.client c := by
      intro c
      simp only [State.setClient, Function.update_apply]
    constructor
    case stamped =>
      intro stamped c
      rw [fields]
      split
      · exact stamped who
      · exact stamped c
    case copies => rfl
    case members => exact fun _ _ _ on => on
    case servList => exact fun _ on => on
    case lclientList => exact fun _ on => on
    all_goals
      intro c
      by_cases same : c = who
      · subst same
        simp [fields, client, usable]
      · simp [fields, same]
  unfold State.closeConnection
  dsimp only
  split
  · refine gone.trans { Silent.refl link _ with servList := ?_ }
    exact fun c on => List.mem_of_mem_erase on
  · refine gone.trans { Silent.refl link _ with lclientList := ?_ }
    exact fun c on => List.mem_of_mem_erase on

theorem exitClient_silent {who : ClientId} (usable : (s.client who).fd = true)
    (ran : exitClient send s who = some t) : Silent link s t := by
  unfold exitClient at ran
  split at ran
  · cases ran
    exact Silent.refl link _
  have closed := closeConnection_silent link usable
  dsimp only at ran
  split at ran
  · obtain ⟨u, told, rest⟩ := Option.bind_eq_some_iff.mp ran
    have squits : Silent link (s.closeConnection who) u := by
      apply walk_rel (Silent link) (Silent.refl link) (fun _ _ _ => Silent.trans) _ _ told
      intro u x u' _ _ _ turned
      exact quiet _ _ _ _ (by simp) turned
    apply (closed.trans squits).trans
    apply foldlM_silent _ _ _ rest
    intro u x u' turned
    exact exitOneClient_silent quiet turned
  · exact closed.trans (exitOneClient_silent quiet ran)

end Pieces

/-- Queueing a message sends no copy to a link unless it is one for this link. -/
theorem sendLinebuf_quiet (fuel : ℕ) (link : ClientId) : Sender.Quiet (sendLinebuf fuel) link := by
  induction fuel with
  | zero =>
    intro s dest msg s' _ sent
    contradiction
  | succ fuel ih =>
    intro s dest msg s' other sent
    unfold sendLinebuf at sent
    split at sent
    · cases sent
      exact Silent.refl link _
    rename_i usable
    simp only [not_or, Bool.not_eq_false, Bool.not_eq_true] at usable
    let rest : State := { s with outcomes := s.outcomes.tail }
    have tried : Silent link s rest := { Silent.refl link s with }
    have elsewhere : ¬(dest = link ∧ (msg = .toClient ∨ msg = .toServer)) := by
      rintro ⟨same, news⟩
      have dead := other same news
      rw [← same, usable.2] at dead
      contradiction
    have attached : Silent link s (rest.attach dest msg) := by
      refine { Silent.refl link s with copies := ?_ }
      simp [State.copies, State.attach, rest, elsewhere]
    dsimp only at sent
    split at sent
    · cases sent
      exact attached
    · cases sent
      exact attached
    · exact attached.trans (exitClient_silent ih usable.1 sent)
    · exact tried.trans (exitClient_silent ih usable.1 sent)

/-! ### Relaying what has come over a link -/

/-- How a message is passed on. Where the caller names the client that it is from, this is `one`. -/
inductive Relay where
  | server (one : ClientId) (chptr : Option ChannelId) (caps nocaps : ℕ)
  | channelRemote (one : ClientId) (type : MemberType) (caps nocaps : ℕ) (chptr : ChannelId)
  | listRemote (one : ClientId) (caps nocaps : ℕ) (chptr : ChannelId) (r : Rank)
  | channelButone (chptr : ChannelId)
  | listAnywhere (chptr : ChannelId) (r : Rank)
  | matchButone (matchIt : ClientId → Bool)

def Relay.run (send : Sender) (link : ClientId) (s : State) : Relay → Option State
  | .server one chptr caps nocaps => sendtoServer send s (some one) chptr caps nocaps .toServer
  | .channelRemote one type caps nocaps chptr => sendtoChannelRemote send s one type caps nocaps chptr
  | .listRemote one caps nocaps chptr r => sendtoListRemote send one caps nocaps chptr s r
  | .channelButone chptr => sendtoChannelButone send s (some link) chptr
  | .listAnywhere chptr r => sendtoListAnywhere send (some link) chptr s r
  | .matchButone matchIt => sendtoMatchButone send s (some link) matchIt

/-- The client lies behind the link, or is the link. -/
def State.FromLink (s : State) (link one : ClientId) : Prop :=
  (s.client one).source = some link ∧ (one = link ∨ (s.client one).fd = false)

/-- What the callers see to: `one` comes from the link, and a fresh stamp is used for a first list. -/
def Relay.Origin (s : State) (link : ClientId) : Relay → Prop
  | .server one _ _ _ => s.FromLink link one
  | .listRemote _ _ _ _ _ => (s.client link).serial ≠ s.currentSerial
  | _ => True

/-- The link is one to a server, and is up. -/
structure State.Up (s : State) (link : ClientId) : Prop where
  localClient : (s.client link).localClient = true
  server : (s.client link).registeredUser = false
  isOpen : s.Open link

/-- With some outcome or other of the attempts to queue something, a copy goes back to the link. -/
def Relay.Echoes (relay : Relay) (link : ClientId) (s : State) : Prop :=
  ∃ outcomes fuel s', relay.run (sendLinebuf fuel) link { s with outcomes := outcomes } = some s' ∧
    s'.copies link ≠ s.copies link

/-- A list has a client behind the link, other than `one`, and the link has the right capabilities. -/
def State.HasBehind (s : State) (link one : ClientId) (caps nocaps : ℕ) (members : List ClientId) :
    Prop :=
  (s.client link).caps &&& caps = caps ∧ (s.client link).caps &&& nocaps = 0 ∧
    ∃ m ∈ members, (s.client m).localClient = false ∧ m ≠ one ∧ (s.client m).source = some link

/-- No list that is walked without a look at links has anyone else behind this one. -/
def Relay.Spares (relay : Relay) (link : ClientId) (s : State) : Prop :=
  match relay with
  | .channelRemote one type caps nocaps chptr => ∀ r ∈ type.ranks,
    ¬s.HasBehind link one caps nocaps ((s.channel chptr).members r)
  | .listRemote one caps nocaps chptr r =>
    ¬s.HasBehind link one caps nocaps ((s.channel chptr).members r)
  | _ => True

variable {one : ClientId}

/-- What a loop sees of a client of before. -/
theorem Silent.source_of_some (silent : Silent link s t) {dest : ClientId}
    (behind : (t.client c).source = some dest) : (s.client c).source = some dest := by
  rcases silent.source c with same | ⟨gone, -, -⟩
  · exact same ▸ behind
  · rw [gone] at behind
    contradiction

/-- Messages to a live local client go to it, even after it has been exited. -/
theorem Silent.route_local (silent : Silent link s t) (itself : (s.client c).source = some c) :
    t.route c = c := by
  unfold State.route
  rcases silent.source c with same | ⟨gone, -, -⟩
  · rw [same, itself]
    rfl
  · rw [gone]
    rfl

/-- A client from behind the link leads there until the link is gone. -/
theorem Silent.fromLink (silent : Silent link s t) (origin : s.FromLink link one) :
    (t.client one).source = some link ∨ (t.client link).dead = true := by
  obtain ⟨behind, same | closed⟩ := origin
  · subst same
    exact (silent.source one).imp (fun same => same.trans behind) (fun gone => gone.2.1)
  · rcases silent.source one with same | ⟨-, -, open'⟩
    · exact Or.inl (same.trans behind)
    · rw [closed] at open'
      contradiction

section Relays

variable (quiet : send.Quiet link)
include quiet

theorem relay_server_silent (wired : s.Wired) {chptr : Option ChannelId} {caps nocaps : ℕ}
    (origin : s.FromLink link one)
    (sent : sendtoServer send s (some one) chptr caps nocaps .toServer = some t) :
    Silent link s t := by
  unfold sendtoServer at sent
  split at sent
  · cases sent
    exact Silent.refl link _
  apply walk_rel (Silent link) (Silent.refl link) (fun _ _ _ => Silent.trans) _ _ sent
  intro u x u' before on _ turned
  split at turned
  · cases turned
    exact Silent.refl link _
  rename_i apart
  split at turned
  · cases turned
    exact Silent.refl link _
  split at turned
  · cases turned
    exact Silent.refl link _
  obtain ⟨here, -, alive⟩ := wired.servList x on
  rw [before.route_local (wired.mine x here alive)] at turned
  apply quiet _ _ _ _ _ turned
  intro same _
  subst same
  rcases before.fromLink origin with behind | gone
  · exact absurd behind apart
  · exact gone

theorem relay_listRemote_silent {chptr : ChannelId} {caps nocaps : ℕ} {r : Rank}
    (spared : ¬s.HasBehind link one caps nocaps ((s.channel chptr).members r))
    (earlier : Silent link s t) (sent : sendtoListRemote send one caps nocaps chptr t r = some u) :
    Silent link t u := by
  apply walk_rel (Silent link) (Silent.refl link) (fun _ _ _ => Silent.trans) _ _ sent
  intro u x u' since on _ turned
  have before := earlier.trans since
  split at turned
  · cases turned
    exact Silent.refl link _
  rename_i away
  split at turned
  · cases turned
    exact Silent.refl link _
  rename_i other
  obtain ⟨dest, behind, turned⟩ := Option.bind_eq_some_iff.mp turned
  split at turned
  · cases turned
    exact Silent.refl link _
  rename_i capable
  split at turned
  · cases turned
    exact Silent.refl link _
  apply (Silent.stamp link u dest).trans
  apply quiet _ _ _ _ _ turned
  intro same _
  -- the member would be one that the list must not have
  have route : dest = link := by
    rw [← same, State.route, behind]
    rfl
  subst route
  simp only [not_or, not_not, before.caps] at capable
  rw [before.localClient] at away
  exact absurd ⟨capable.1, capable.2, x, earlier.members chptr r x on, by simpa using away, other,
    before.source_of_some behind⟩ spared

theorem relay_listAnywhere_silent {chptr : ChannelId} {r : Rank} (up : s.Up link)
    (wired : s.Wired) (earlier : Silent link s t)
    (sent : sendtoListAnywhere send (some link) chptr t r = some u) : Silent link t u := by
  apply walk_rel (Silent link) (Silent.refl link) (fun _ _ _ => Silent.trans) _ _ sent
  intro u x u' since on _ turned
  have before := earlier.trans since
  split at turned
  · cases turned
    exact Silent.refl link _
  rename_i apart
  -- a message for the link would be one for someone behind it
  have elsewhere : u.route x = link → (u.client link).dead = true := by
    intro same
    unfold State.route at same
    rcases before.source x with source | ⟨gone, dead, -⟩
    · cases behind : (u.client x).source with
      | none =>
        rw [behind] at same
        obtain rfl : x = link := same
        rw [source, wired.mine x up.localClient up.isOpen.2] at behind
        contradiction
      | some dest =>
        rw [behind] at same
        obtain rfl : dest = link := same
        exact absurd behind apart
    · rw [gone] at same
      obtain rfl : x = link := same
      exact dead
  split at turned
  · split at turned
    · obtain ⟨v, sent, rfl⟩ := Option.map_eq_some_iff.mp turned
      exact (quiet _ _ _ _ (fun same _ => elsewhere same) sent).trans (Silent.stamp link v x)
    · cases turned
      exact Silent.refl link _
  · obtain ⟨dest, behind, turned⟩ := Option.bind_eq_some_iff.mp turned
    split at turned
    · obtain ⟨v, sent, turned⟩ := Option.bind_eq_some_iff.mp turned
      obtain ⟨dest', -, rfl⟩ := Option.map_eq_some_iff.mp turned
      exact (quiet _ _ _ _ (fun same _ => elsewhere same) sent).trans (Silent.stamp link v dest')
    · cases turned
      exact Silent.refl link _

theorem relay_matchButone_silent {matchIt : ClientId → Bool} (up : s.Up link) (wired : s.Wired)
    (sent : sendtoMatchButone send s (some link) matchIt = some t) : Silent link s t := by
  obtain ⟨u, users, servers⟩ := Option.bind_eq_some_iff.mp sent
  have first : Silent link s u := by
    apply walk_rel (Silent link) (Silent.refl link) (fun _ _ _ => Silent.trans) _ _ users
    intro u x u' before on _ turned
    obtain ⟨here, user, alive⟩ := wired.lclientList x on
    split at turned
    · cases turned
      exact Silent.refl link _
    split at turned
    · rw [before.route_local (wired.mine x here alive)] at turned
      apply quiet _ _ _ _ _ turned
      rintro rfl _
      rw [up.server] at user
      contradiction
    · cases turned
      exact Silent.refl link _
  apply first.trans
  apply walk_rel (Silent link) (Silent.refl link) (fun _ _ _ => Silent.trans) _ _ servers
  intro v x v' since on _ turned
  obtain ⟨here, -, alive⟩ := wired.servList x (first.servList x on)
  split at turned
  · cases turned
    exact Silent.refl link _
  rename_i apart
  rw [(first.trans since).route_local (wired.mine x here alive)] at turned
  apply quiet _ _ _ _ _ turned
  rintro rfl _
  exact absurd rfl apart

omit quiet in
/-- One list after the other. -/
theorem ranks_silent (loop : State → Rank → Option State) (ranks : List Rank)
    (each : ∀ t u, ∀ r ∈ ranks, Silent link s t → loop t r = some u → Silent link t u)
    (earlier : Silent link s t) (ran : ranks.foldlM loop t = some u) : Silent link t u := by
  induction ranks generalizing t with
  | nil =>
    cases ran
    exact Silent.refl link _
  | cons r ranks ih =>
    simp only [List.foldlM_cons, Option.bind_eq_bind, Option.bind_eq_some_iff] at ran
    obtain ⟨v, first, rest⟩ := ran
    have stepped := each t v r (by simp) earlier first
    apply stepped.trans
    apply ih _ (earlier.trans stepped) rest
    intro t u r' member
    exact each t u r' (by simp [member])

end Relays

/-- `++current_serial` sends nothing. -/
theorem Silent.nextSerial (link : ClientId) (s : State) : Silent link s s.nextSerial := by
  refine { Silent.refl link s with stamped := ?_ }
  intro stamped c
  exact (stamped c).trans (Nat.le_succ _)

/-- Without anyone behind the link that the lists would lead to, no relay sends a copy there. -/
theorem Relay.run_silent {relay : Relay} (quiet : send.Quiet link) (wired : s.Wired) (up : s.Up link)
    (origin : relay.Origin s link)
    (spared : relay.Spares link s) (sent : relay.run send link s = some t) : Silent link s t := by
  have next := Silent.nextSerial link s
  cases relay with
  | server one chptr caps nocaps => exact relay_server_silent quiet wired origin sent
  | channelRemote one type caps nocaps chptr =>
    apply next.trans
    apply ranks_silent _ _ _ next sent
    intro t u r among earlier ran
    exact relay_listRemote_silent quiet (spared r among) earlier ran
  | listRemote one caps nocaps chptr r =>
    exact relay_listRemote_silent quiet spared (Silent.refl link s) sent
  | channelButone chptr =>
    apply next.trans
    apply ranks_silent _ _ _ next sent
    intro t u r _ earlier ran
    exact relay_listAnywhere_silent quiet up wired earlier ran
  | listAnywhere chptr r =>
    exact relay_listAnywhere_silent quiet up wired (Silent.refl link s) sent
  | matchButone matchIt => exact relay_matchButone_silent quiet up wired sent

/-! ### Copies that do go back -/

theorem State.HasBehind.mem_addressees {caps nocaps : ℕ} {members : List ClientId}
    (behind : s.HasBehind link one caps nocaps members) :
    (link, Msg.toServer) ∈ members.filterMap (s.remoteAddressee one caps nocaps) := by
  obtain ⟨capable, free, m, on, away, other, source⟩ := behind
  refine List.mem_filterMap.mpr ⟨m, on, ?_⟩
  simp [State.remoteAddressee, away, other, source, capable, free]

theorem remoteAddressee_once (s : State) (one : ClientId) (caps nocaps : ℕ) (members : List ClientId) :
    ∀ a ∈ members.filterMap (s.remoteAddressee one caps nocaps), a.2 = .toServer := by
  intro a member
  obtain ⟨m, -, found⟩ := List.mem_filterMap.mp member
  unfold State.remoteAddressee at found
  split at found
  · contradiction
  · obtain ⟨dest, -, found⟩ := Option.bind_eq_some_iff.mp found
    split at found
    · contradiction
    · cases found
      rfl

/-- A copy more in the queue. -/
theorem copies_ne (more : t.queued.count (link, .toServer) = s.queued.count (link, .toServer) + 1) :
    t.copies link ≠ s.copies link := by
  intro same
  have counts : ∀ v : State,
      (v.copies link).count (link, .toServer) = v.queued.count (link, .toServer) := by
    intro v
    exact List.count_filter (by simp)
  have equal := congrArg (List.count (link, Msg.toServer)) same
  rw [counts, counts] at equal
  omega

theorem serve_echoes (l : List (ClientId × Msg)) (form : ∀ a ∈ l, a.2 = .toServer)
    (member : (link, .toServer) ∈ l) (isOpen : s.Open link)
    (fresh : (s.client link).serial ≠ s.currentSerial) :
    (l.foldl State.serve s).copies link ≠ s.copies link := by
  apply copies_ne
  have once : ∀ a ∈ l, ∀ b ∈ l, a.1 = b.1 → a = b := by
    intro a left b right same
    exact Prod.ext same ((form a left).trans (form b right).symm)
  rw [serve_fold_count l once, if_pos ⟨member, isOpen, fresh⟩]

/-- When nothing fails, a member behind the link gets the message back. -/
theorem Relay.echoes_of_behind {relay : Relay} (wired : s.Wired) (stamped : s.Stamped) (up : s.Up link)
    (origin : relay.Origin s link) (behind : ¬relay.Spares link s) : relay.Echoes link s := by
  let calm : State := { s with outcomes := [] }
  have sameWired : calm.Wired :=
    ⟨wired.mine, wired.remote, wired.member, wired.locMember, wired.servList, wired.lclientList⟩
  have nothing : ∀ u : State, u.outcomes = [] → u.Calm := by
    intro u none outcome member
    rw [none] at member
    contradiction
  cases relay with
  | channelRemote one type caps nocaps chptr =>
    simp only [Relay.Spares, not_forall, not_not] at behind
    obtain ⟨r, among, has⟩ := behind
    refine ⟨[], 1, _, ranks_serve _ (fun r => ((s.channel chptr).members r).filterMap
      (s.remoteAddressee one caps nocaps)) ?_ _ (SameButSerial.refl calm.nextSerial)
      (nothing _ rfl), ?_⟩
    · intro u r same calm'
      exact sendtoListRemote_calm sameWired.nextSerial.linked 0 one caps nocaps chptr r same calm'
    · apply serve_echoes
      · intro a member
        obtain ⟨r', -, found⟩ := List.mem_flatMap.mp member
        exact remoteAddressee_once s one caps nocaps _ a found
      · exact List.mem_flatMap.mpr ⟨r, among, has.mem_addressees⟩
      · exact up.isOpen
      · exact Nat.ne_of_lt (Nat.lt_succ_of_le (stamped link))
  | listRemote one caps nocaps chptr r =>
    have has := not_not.mp behind
    refine ⟨[], 1, _, sendtoListRemote_calm sameWired.linked 0 one caps nocaps chptr r
      (SameButSerial.refl calm) (nothing _ rfl), ?_⟩
    exact serve_echoes _ (remoteAddressee_once s one caps nocaps _) has.mem_addressees up.isOpen origin
  | server one chptr caps nocaps => exact absurd trivial behind
  | channelButone chptr => exact absurd trivial behind
  | listAnywhere chptr r => exact absurd trivial behind
  | matchButone matchIt => exact absurd trivial behind

/-- A message that has come over a link goes back to it exactly when it is relayed by
`sendto_channel_remote` to a list with someone else from behind the link. -/
theorem no_echo_iff (relay : Relay) (link : ClientId) (s : State) (wired : s.Wired)
    (stamped : s.Stamped) (up : s.Up link) (origin : relay.Origin s link) :
    ¬relay.Echoes link s ↔ relay.Spares link s := by
  constructor
  · intro silent
    by_contra behind
    exact silent (Relay.echoes_of_behind wired stamped up origin behind)
  · rintro spared ⟨outcomes, fuel, s', ran, echo⟩
    have sameWired : { s with outcomes := outcomes : State }.Wired :=
      ⟨wired.mine, wired.remote, wired.member, wired.locMember, wired.servList, wired.lclientList⟩
    have sameUp : { s with outcomes := outcomes : State }.Up link :=
      ⟨up.localClient, up.server, up.isOpen⟩
    have sameOrigin : relay.Origin { s with outcomes := outcomes } link := by
      cases relay <;> exact origin
    have sameSpared : relay.Spares link { s with outcomes := outcomes } := by
      cases relay <;> exact spared
    have silent := Relay.run_silent (sendLinebuf_quiet fuel link) sameWired sameUp sameOrigin
      sameSpared ran
    exact echo silent.copies

theorem no_echo_iff_smallChannel :
    ¬(Relay.channelRemote 6 .allMembers 0 0 0).Echoes 1 (smallChannel []) ↔
      (Relay.channelRemote 6 .allMembers 0 0 0).Spares 1 (smallChannel []) :=
  no_echo_iff (.channelRemote 6 .allMembers 0 0 0) 1 (smallChannel []) (smallChannel_wired [])
    (smallChannel_stamped []) ⟨rfl, rfl, by decide⟩ trivial

/-- User 4 sends to the channel, and 5 is behind the same link. -/
theorem echo_behind_link :
    ∃ s', Relay.run (sendLinebuf 1) 0 (smallChannel []) (.channelRemote 4 .allMembers 0 0 0) =
        some s' ∧
      (0, .toServer) ∈ s'.queued ∧ (Relay.channelRemote 4 .allMembers 0 0 0).Echoes 0 (smallChannel []) := by
  refine ⟨_, rfl, by decide, [], 1, _, rfl, ?_⟩
  decide

end Ircd.Send
