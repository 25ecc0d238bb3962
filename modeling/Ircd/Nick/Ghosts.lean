import Ircd.Nick.Counts

/-!
# Ghosts

What `register_remote_user` and `do_remote_user` of `src/s_user.c` do with a client whose server is
unknown, or lies in another direction.
-/
namespace Ircd.Nick

open Chan (ClientId Status param)

/-! ### Refusals -/

/-- No counter, table or list has a trace of a client that has come and gone. -/
structure Untraced (before after : Tally) (who : ClientId) : Prop where
  exited : (after.state.client who).dead = true
  count : after.count = before.count
  list : who ∉ after.state.globalClientList
  name : ∀ name, after.state.findClient name ≠ some (some who)
  id : ∀ id, after.state.findId id ≠ some (some who)

/-- An introduction comes to its end, and a client that is not registered leaves no trace. -/
def Tally.Handles (c : Tally) (link : ClientId) (i : Introduction) : Prop :=
  ∃ after, c.introduce link i = some after ∧
    ((after.state.client c.state.nextClient).status = .client ∨ Untraced c after c.state.nextClient)

/-- A name is that of a server behind a link that is not dead. -/
def State.Serves (s : State) (link : ClientId) (server : List Char) : Prop :=
  ∃ srv, s.findClient server = some (some srv) ∧ (s.client srv).status = .server ∧
    (s.client srv).source = link ∧ (s.client link).dead = false

/-- The tables as the server of an introduction is looked up, with the data of the new client. -/
def State.entered (s : State) (link : ClientId) (i : Introduction) : State :=
  (s.present link i).setClient s.nextClient
    (((s.present link i).client s.nextClient).introduced (param i.parv 6) i.realname i.id)

variable {c after : Tally} {one : Option ClientId} {who link : ClientId}

/-- A client that has not registered leaves no mark in the counters, and stays unregistered. -/
theorem Tally.exitKilled_unknown (unknown : (c.state.client who).status = .unknown)
    (run : c.exitKilled one who = some after) :
    after.count = c.count ∧ (after.state.client who).status = .unknown := by
  have same : SameClients c.state after.state := by
    have state := c.state_exitKilled one who
    rw [run, Option.map_some] at state
    exact exitKilled_same state.symm
  refine ⟨?_, (same.status who).trans unknown⟩
  unfold Tally.exitKilled Tally.exitClient at run
  dsimp only at run
  rw [State.client_setClient_self] at run
  split at run
  · rw [← Option.some.inj run]
  · rw [if_neg (by rw [unknown]; exact Status.noConfusion), Tally.exitOneClient,
      Option.map_eq_some_iff] at run
    obtain ⟨t, -, rfl⟩ := run
    have status : ((State.closing (c.state.setClient who { c.state.client who with killed := true })
        who).client who).status = .unknown := by
      rw [(closing_same _ who).status, State.client_setClient_self]
      exact unknown
    unfold Counts.exit
    rw [status, if_neg Status.noConfusion, if_neg Status.noConfusion]

/-- Either a remote user is registered, or it is counted and stays unregistered. -/
theorem Tally.registerRemoteUser_iff {username : List Char} {servptr : Option ClientId}
    {good : Tally → Prop} (enough : ∀ after, (after.state.client who).status = .client → good after)
    (needed : ∀ after, good after →
      (after.state.client who).status = .client ∨ after.count.total = c.count.total)
    (uplink : (c.state.client who).servptr = servptr)
    (unknown : (c.state.client who).status = .unknown)
    (modes : (c.state.client who).umodes ⊆ sendUmodes) :
    (∃ after, c.registerRemoteUser link who username = some after ∧ good after) ↔
    ∃ srv, servptr = some srv ∧ (c.state.client srv).status = .server ∧
      (c.state.client srv).source = link ∧ (c.state.client link).dead = false := by
  have same : SameClients c.state (c.state.setClient who
      ((c.state.client who).setUsername username)) := SameClients.setClient rfl rfl rfl
  have dead : ((c.state.setClient who ((c.state.client who).setUsername username)).client link).dead =
      (c.state.client link).dead := by
    by_cases isLink : link = who
    · subst isLink
      rw [State.client_setClient_self]
      rfl
    · rw [State.client_setClient_of_ne _ isLink]
  have uplink' : ((c.state.setClient who ((c.state.client who).setUsername username)).client
      who).servptr = servptr := by
    rw [State.client_setClient_self]
    exact uplink
  have modes' : ((c.state.setClient who ((c.state.client who).setUsername username)).client
      who).umodes ⊆ sendUmodes := by
    rw [State.client_setClient_self]
    exact modes
  unfold Tally.registerRemoteUser
  generalize c.state.setClient who _ = s at same dead uplink' modes' ⊢
  -- a client that is sent away has been counted, and is not uncounted
  have refused : ∀ one, ¬∃ after, Tally.exitKilled ⟨s.killClient link who, c.count.enter⟩ one who =
      some after ∧ good after := by
    rintro one ⟨after, run, isGood⟩
    rcases needed after isGood with registered | total
    · have gone := (Tally.exitKilled_unknown ((same.status who).trans unknown) run).2
      rw [registered] at gone
      cases gone
    · rw [(Tally.exitKilled_unknown ((same.status who).trans unknown) run).1] at total
      exact absurd total (by simp [Counts.enter])
  dsimp only
  split
  next missing =>
    rw [← uplink', missing]
    simp
  next srv found =>
    rw [← uplink', found]
    simp only [Option.some.injEq, exists_eq_left']
    rw [same.status, same.source, dead]
    split
    next unserved =>
      exact ⟨fun handled => absurd handled (refused none), fun both => absurd both.1 unserved⟩
    next isServer =>
      rw [not_not] at isServer
      split
      next wrong =>
        exact ⟨fun handled => absurd handled (refused (some who)), fun both => absurd both.2.1 wrong⟩
      next behind =>
        rw [not_not] at behind
        split
        next isDead =>
          constructor
          · rintro ⟨after, run, isGood⟩
            rcases needed after isGood with registered | total
            · rw [← Option.some.inj run, same.status, unknown] at registered
              cases registered
            · rw [← Option.some.inj run] at total
              exact absurd total (by simp [Counts.enter])
          · exact fun both => absurd (both.2.2 ▸ isDead) Bool.false_ne_true
        next isAlive =>
          refine iff_of_true ?_ ⟨isServer, behind, Bool.eq_false_iff.mpr isAlive⟩
          obtain ⟨t, run, lines, ubuf, rfl, -⟩ := @introduceClientGlobally_told
            (s.setClient who { s.client who with status := .client }) link who srv
            (by rw [State.client_setClient_self]; exact found)
            (length_umodeBuf_lt (by rw [State.client_setClient_self]; exact modes'))
          rw [← found]
          refine ⟨_, congrArg (Option.map fun s => (⟨s, c.count.enter⟩ : Tally)) run, enough _ ?_⟩
          exact congrArg Client.status (State.client_setClient_self s who _)

theorem Tally.doRemoteUser_iff {username host server realname : List Char} {id : Option (List Char)}
    {good : Tally → Prop} (enough : ∀ after, (after.state.client who).status = .client → good after)
    (needed : ∀ after, good after →
      (after.state.client who).status = .client ∨ after.count.total = c.count.total)
    (unknown : (c.state.client who).status = .unknown)
    (modes : (c.state.client who).umodes ⊆ sendUmodes) :
    (∃ after, c.doRemoteUser link who username host server realname id = some after ∧ good after) ↔
    (c.state.setClient who ((c.state.client who).introduced host realname id)).Serves link server := by
  have unknown' : ((c.state.setClient who ((c.state.client who).introduced host realname id)).client
      who).status = .unknown := by
    rw [State.client_setClient_self]
    exact unknown
  have modes' : ((c.state.setClient who ((c.state.client who).introduced host realname id)).client
      who).umodes ⊆ sendUmodes := by
    rw [State.client_setClient_self]
    exact modes
  unfold Tally.doRemoteUser State.Serves
  generalize c.state.setClient who _ = s at unknown' modes' ⊢
  dsimp only
  cases s.findClient server with
  | none => simp
  | some servptr =>
    -- the pointer to the server is all that changes before it is looked at
    have same : SameClients s (s.setClient who { s.client who with servptr := servptr }) :=
      SameClients.setClient rfl rfl rfl
    have dead : ((s.setClient who { s.client who with servptr := servptr }).client link).dead =
        (s.client link).dead := by
      by_cases isLink : link = who
      · subst isLink
        rw [State.client_setClient_self]
      · rw [State.client_setClient_of_ne _ isLink]
    have served := @Tally.registerRemoteUser_iff
      ⟨s.setClient who { s.client who with servptr := servptr }, c.count⟩ who link username servptr _
      enough needed (by rw [State.client_setClient_self])
      (by rw [State.client_setClient_self]; exact unknown')
      (by rw [State.client_setClient_self]; exact modes')
    dsimp only at served
    rw [Option.bind_some, served, dead]
    simp only [Option.some.injEq]
    refine exists_congr fun srv => and_congr_right fun _ => ?_
    rw [same.status, same.source]

theorem Counts.total_modes (count : Counts) (i : Introduction) :
    (count.modes i).total = count.total := by
  cases i with
  | nick parv newts nick long => exact count.total_nickModes ∅ _
  | client parv newts nick => exact count.total_clientModes _

/-- The new client has not registered yet. -/
theorem State.present_client (s : State) (link : ClientId) (i : Introduction) :
    ((s.present link i).client s.nextClient).status = .unknown ∧
      ((s.present link i).client s.nextClient).umodes ⊆ sendUmodes := by
  cases i with
  | nick parv newts nick long =>
    unfold State.present
    rw [State.client_setClient_self, client_newClient]
    exact ⟨rfl, umodesOf_subset _⟩
  | client parv newts nick =>
    have new := client_newClient s (Client.ofClient link parv newts) nick
    exact ⟨congrArg Client.status new, (congrArg Client.umodes new).subset.trans (umodesOf_subset _)⟩

/-- An introduction is handled exactly when its server is found, behind the link that brings it: if
it is unknown, a NULL pointer is read, and every client that is refused stays in the counters. -/
theorem Tally.handles_iff (c : Tally) (link : ClientId) (i : Introduction) :
    c.Handles link i ↔ (c.state.entered link i).Serves link (param i.parv 7) := by
  obtain ⟨unknown, modes⟩ := c.state.present_client link i
  refine Tally.doRemoteUser_iff (c := ⟨c.state.present link i, c.count.modes i⟩) (fun _ => Or.inl) ?_
    unknown modes
  rintro after (registered | untraced)
  · exact Or.inl registered
  · right
    rw [untraced.count]
    exact (c.count.total_modes i).symm

/-- A hub with the servers `c.d` and `e.f`. -/
def ghostHub : Tally where
  state := ((State.started "a.b".toList).addServer none "c.d".toList).addServer none "e.f".toList
  count := { server := 3, total := 0, maxTot := 0, oper := 0, invisi := 0 }

/-- `c.d` introduces a client of another server, with an id. -/
def ghost (server : String) : Introduction := .client (introOf server) 5 "nick".toList

/-- A client of a server that nobody knows stops the server. A client of `e.f` is sent away, and is
left in the counters and in the table of ids. -/
theorem ghosts_unhandled : ghostHub.introduce 1 (ghost "x.y") = none ∧
    (ghostHub.introduce 1 (ghost "e.f")).map (fun after => (after.count.total, after.count.invisi,
      after.state.globalClientList, after.state.findId ".x".toList)) =
        some (1, 1, [2, 1, 0], some (some 3)) ∧
    ¬ghostHub.Handles 1 (ghost "x.y") ∧ ¬ghostHub.Handles 1 (ghost "e.f") := by
  have stopped : ghostHub.introduce 1 (ghost "x.y") = none := by decide +kernel
  have left : (ghostHub.introduce 1 (ghost "e.f")).map (fun after => (after.count.total,
      after.count.invisi, after.state.globalClientList, after.state.findId ".x".toList)) =
        some (1, 1, [2, 1, 0], some (some 3)) := by decide +kernel
  have unregistered : (ghostHub.introduce 1 (ghost "e.f")).map
      (fun after => (after.state.client 3).status) = some .unknown := by decide +kernel
  refine ⟨stopped, left, ?_, ?_⟩
  · rintro ⟨after, run, -⟩
    rw [stopped] at run
    cases run
  · rintro ⟨after, run, registered | untraced⟩
    · rw [run, Option.map_some, show (after.state.client 3).status = .client from registered] at unregistered
      cases unregistered
    · rw [run, Option.map_some, untraced.count] at left
      cases left

end Ircd.Nick
