import Ircd.Nick.Intact
import Ircd.Nick.Valid
import Ircd.Wire

/-!
# Finding clients by name

Over whole runs of connections, registrations, changes of nick, introductions by servers and exits,
no two clients have the same name, and `find_client` finds the one that has it.
-/
namespace Ircd.Nick

open Chan (ClientId Status param)

/-! ### Clean nicks -/

theorem plain_of_clean {nick : List Char} (clean : cleanNickName nick = true) : '.' ∉ nick := by
  intro dot
  have all := (Bool.and_eq_true_iff.mp clean).2
  exact absurd (List.all_eq_true.mp all '.' dot) (by decide)

theorem noId_of_plain {nick : List Char} (plain : '.' ∉ nick) : nick.head? ≠ some '.' := fun head =>
  plain (List.mem_of_head? head)

variable {s t : State} {clientP source target : ClientId} {nick : List Char}
  {parv : List (List Char)} {newts : ℤ}

/-- Who is found under a clean nick is no server. -/
theorem Listed.found (listed : Listed s) (plain : '.' ∉ nick)
    (run : s.findClient nick = some (some target)) :
    target ∈ s.globalClientList ∧ (s.client target).Tabled ∧ IrcEq nick (s.client target).name ∧
      (s.client target).IsUser := by
  obtain ⟨found, lookup, some, -⟩ := listed.find (noId_of_plain plain)
  obtain rfl := Option.some.inj (lookup.symm.trans run)
  obtain ⟨member, tabled, same⟩ := some target rfl
  refine ⟨member, tabled, same, by_contra fun server => ?_⟩
  exact plain (dot_mem_of_ircEq same.symm (listed.dotted target member server))

/-- A nick that nobody is found under is free. -/
theorem Listed.free (listed : Listed s) (plain : '.' ∉ nick) (nonempty : nick ≠ [])
    (run : s.findClient nick = some none) : Intact.Free s none nick := by
  obtain ⟨found, lookup, -, none⟩ := listed.find (noId_of_plain plain)
  obtain rfl := Option.some.inj (lookup.symm.trans run)
  intro c member _ same
  refine none rfl c member (Or.inl fun nameless => nonempty ?_) same
  rw [nameless] at same
  exact ircEq_nil.mp same

/-- Only who is found has the nick. -/
theorem Listed.freeBut (listed : Listed s) (nonempty : nick ≠ [])
    (member : target ∈ s.globalClientList) (same : IrcEq nick (s.client target).name) :
    Intact.Free s (some target) nick := by
  intro c other isOther equal
  refine isOther (congrArg some ?_)
  have named : (s.client target).name ≠ [] := fun empty => nonempty (by
    rw [empty] at same
    exact ircEq_nil.mp same)
  exact (listed.unique target member c other named (same.symm.trans equal)).symm

/-- A client that is no server has been removed, and nothing else has changed on the list. -/
structure Removed (target : ClientId) (s u : State) : Prop where
  intact : Intact u
  same : SameClients s u
  list : u.globalClientList = s.globalClientList.erase target

theorem Removed.exitClient {one : Option ClientId} (intact : Intact s)
    (user : (s.client target).IsUser) (run : s.exitClient one target = some t) :
    Removed target s t :=
  ⟨(intact.exitClient user.2 run).1, exitClient_same run, (intact.exitClient user.2 run).2 user.1⟩

theorem Intact.killClientButone (intact : Intact s) (one : Option ClientId) (c : ClientId) :
    Intact (s.killClientButone one c) :=
  intact.congr (SameClients.ofEq rfl rfl rfl) rfl rfl fun _ => rfl

theorem Removed.exitKilled {one : Option ClientId} (intact : Intact s)
    (user : (s.client target).IsUser) (run : s.exitKilled one target = some t) :
    Removed target s t :=
  ⟨(intact.exitKilled user.2 run).1, exitKilled_same run, (intact.exitKilled user.2 run).2 user.1⟩

/-- Who had the nick is gone, so that the nick is free. -/
theorem Removed.free {u : State} (removed : Removed target s u) (listed : Listed s)
    (nonempty : nick ≠ []) (member : target ∈ s.globalClientList)
    (same : IrcEq nick (s.client target).name) : Intact.Free u none nick := by
  intro c inside _
  rw [removed.list] at inside
  obtain ⟨other, inside⟩ := listed.nodup.mem_erase_iff.mp inside
  rw [removed.same.name]
  exact listed.freeBut nonempty member same c inside fun equal => other (Option.some.inj equal)

theorem Removed.mem {u : State} (removed : Removed target s u) (listed : Listed s) {c : ClientId}
    (member : c ∈ s.globalClientList) (other : c ≠ target) : c ∈ u.globalClientList := by
  rw [removed.list]
  exact listed.nodup.mem_erase_iff.mpr ⟨other, member⟩

/-! ### Local clients -/

/-- A change of nick changes the client, and the table. -/
theorem rename_client (run : s.rename source nick = some t) :
    t.client source = (s.client source).setName nick ∧
      t.globalClientList = s.globalClientList := by
  unfold State.rename at run
  rw [Option.bind_eq_bind, Option.bind_eq_some_iff] at run
  obtain ⟨u, unnamed, run⟩ := run
  obtain rfl := Option.some.inj run
  have kept : u.client = s.client ∧ u.globalClientList = s.globalClientList := by
    unfold State.unname at unnamed
    split at unnamed
    · obtain ⟨table, -, rfl⟩ := Option.map_eq_some_iff.mp unnamed
      exact ⟨rfl, rfl⟩
    · obtain rfl := Option.some.inj unnamed
      exact ⟨rfl, rfl⟩
  rw [← kept.1]
  exact ⟨State.client_setClient_self .., kept.2⟩

theorem Intact.Takes.congr (takes : Intact.Takes s source nick) (same : SameClients s t)
    (list : t.globalClientList = s.globalClientList) : Intact.Takes t source nick where
  member := by rw [list]; exact takes.member
  user := by rw [Client.IsUser, same.status]; exact takes.user
  short := takes.short
  plain := takes.plain
  free nonempty c member other := by
    rw [list] at member
    rw [same.name]
    exact takes.free nonempty c member other
  tabled := by rw [same.status]; exact takes.tabled
  source := by rw [same.source]; exact takes.source

theorem setInitialNick_intact (intact : Intact s) (takes : Intact.Takes s source nick)
    (nonempty : nick ≠ []) (unknown : (s.client source).status = .unknown)
    (run : s.setInitialNick clientP source nick = some t) : Intact t := by
  unfold State.setInitialNick at run
  dsimp only at run
  rw [Option.bind_eq_bind, Option.bind_eq_some_iff] at run
  obtain ⟨u, renamed, run⟩ := run
  have stamped : SameClients s
      (s.setClient source { s.client source with tsinfo := s.currentTime }) :=
    SameClients.setClient rfl rfl rfl
  have intact' : Intact (s.setClient source { s.client source with tsinfo := s.currentTime }) :=
    intact.setClient rfl rfl rfl rfl
  have takes' := takes.congr stamped rfl
  rw [← stamped.status] at unknown
  generalize s.setClient source { s.client source with tsinfo := s.currentTime } = s'
    at renamed intact' takes' unknown
  have after : Intact u := intact'.rename takes'
    (Or.inr (by rw [unknown]; exact Status.noConfusion)) renamed
  obtain ⟨client, -⟩ := rename_client renamed
  split at run
  · refine after.registers (Registers.registerLocalUser run) ?_ ?_
    · rw [client]
      exact takes'.user
    · rw [client]
      rwa [show ((s'.client source).setName nick).name = nick from
        List.take_of_length_le takes.short]
  · obtain rfl := Option.some.inj run
    exact after

theorem mrNick_intact (intact : Intact s) (member : source ∈ s.globalClientList)
    (unknown : (s.client source).status = .unknown)
    (nonempty : 2 ≤ parv.length → Handler.mrNick.nick parv ≠ [])
    (run : s.mrNick clientP source parv = some t) : Intact t := by
  unfold State.mrNick at run
  dsimp only at run
  split at run
  · obtain rfl := Option.some.inj run
    exact intact
  next long =>
    split at run
    · obtain rfl := Option.some.inj run
      exact intact
    next clean =>
      split at run
      · obtain rfl := Option.some.inj run
        exact intact
      · rw [Option.bind_eq_bind, Option.bind_eq_some_iff] at run
        obtain ⟨found, lookup, run⟩ := run
        split at run
        · have named : Handler.mrNick.nick parv ≠ [] := nonempty (Nat.le_of_not_lt long)
          have plain : '.' ∉ Handler.mrNick.nick parv :=
            plain_of_clean ((Bool.not_eq_false _).mp clean)
          refine setInitialNick_intact intact ⟨member, ?_, ?_, plain, ?_, Or.inl named, ?_⟩ named
            unknown run
          · rw [Client.IsUser, unknown]
            exact ⟨Status.noConfusion, Status.noConfusion⟩
          · exact (List.length_take_le _ _).trans (by decide)
          · exact fun _ c inside _ => intact.free plain named lookup c inside (by simp)
          · exact fun empty => absurd empty named
        · obtain rfl := Option.some.inj run
          exact intact

theorem changeLocalNick_intact (intact : Intact s) (takes : Intact.Takes s source nick)
    (registered : (s.client source).status = .client)
    (run : s.changeLocalNick clientP source nick = some t) : Intact t := by
  unfold State.changeLocalNick at run
  dsimp only at run
  have counted : SameClients s (s.countNickChange source) := SameClients.setClient rfl rfl rfl
  have intact' : Intact (s.countNickChange source) := intact.setClient rfl rfl rfl rfl
  have takes' := takes.congr counted rfl
  rw [← counted.status] at registered
  generalize s.countNickChange source = s' at run intact' takes' registered
  have tabled : (s'.client source).Tabled := Or.inr registered
  split at run
  · obtain rfl := Option.some.inj run
    exact intact'
  · split at run
    · split at run
      · cases run
      · rw [Option.bind_eq_bind, Option.bind_eq_some_iff] at run
        obtain ⟨u, deleted, run⟩ := run
        obtain rfl := Option.some.inj run
        have noted : SameClients s' (s'.addHistory source true) := SameClients.ofEq rfl rfl rfl
        have intact'' : Intact (s'.addHistory source true) :=
          intact'.congr noted rfl rfl fun _ => rfl
        exact intact''.retable (takes'.congr noted rfl) tabled deleted
    · rw [Option.bind_eq_bind, Option.bind_eq_some_iff] at run
      obtain ⟨u, deleted, run⟩ := run
      obtain rfl := Option.some.inj run
      exact intact'.retable takes' tabled deleted

theorem mNick_intact (intact : Intact s) (member : source ∈ s.globalClientList)
    (registered : (s.client source).status = .client)
    (ownLink : (s.client source).source = source)
    (run : s.mNick clientP source parv = some t) : Intact t := by
  unfold State.mNick at run
  dsimp only at run
  split at run
  · obtain rfl := Option.some.inj run
    exact intact
  split at run
  · obtain rfl := Option.some.inj run
    exact intact
  next clean =>
    split at run
    · obtain rfl := Option.some.inj run
      exact intact
    have plain : '.' ∉ Handler.mNick.nick parv := plain_of_clean ((Bool.not_eq_false _).mp clean)
    have short : (Handler.mNick.nick parv).length ≤ Chan.hostLen :=
      (List.length_take_le _ _).trans (by decide)
    -- a change in the same state, once the nick is free but for the client itself
    have change : (Handler.mNick.nick parv ≠ [] →
        Intact.Free s (some source) (Handler.mNick.nick parv)) →
        s.changeLocalNick clientP source (Handler.mNick.nick parv) = some t → Intact t := by
      intro free changed
      refine changeLocalNick_intact intact
        ⟨member, ?_, short, plain, free, Or.inr registered, fun _ => ownLink⟩ registered changed
      rw [Client.IsUser, registered]
      exact ⟨Status.noConfusion, Status.noConfusion⟩
    rw [Option.bind_eq_bind, Option.bind_eq_some_iff] at run
    obtain ⟨found, lookup, run⟩ := run
    split at run
    · exact change (fun named c inside _ => intact.free plain named lookup c inside (by simp)) run
    next target =>
      obtain ⟨inside, tabled, same, user⟩ := intact.found plain lookup
      split at run
      next isSource =>
        subst isSource
        split at run
        · exact change (fun named => intact.freeBut named inside same) run
        · obtain rfl := Option.some.inj run
          exact intact
      next notSource =>
        split at run
        next unknown =>
          -- somebody who has not registered yet gives way
          rw [Option.bind_eq_bind, Option.bind_eq_some_iff] at run
          obtain ⟨u, gone, run⟩ := run
          have removed := Removed.exitClient intact user gone
          rw [← removed.same.status] at registered
          rw [← removed.same.source] at ownLink
          have left := removed.mem intact.toListed member (Ne.symm notSource)
          refine changeLocalNick_intact removed.intact
            ⟨left, ?_, short, plain, fun named c also _ => ?_, Or.inr registered, fun _ => ownLink⟩
            registered run
          · rw [Client.IsUser, registered]
            exact ⟨Status.noConfusion, Status.noConfusion⟩
          · exact removed.free intact.toListed named inside same c also (by simp)
        · obtain rfl := Option.some.inj run
          exact intact

/-! ### Clients of other servers -/

@[simp]
theorem client_newClient (s : State) (client : Client) (nick : List Char) :
    (s.newClient client nick).client s.nextClient = client.setName nick :=
  State.client_setClient_self ..

theorem newClient_intact (intact : Intact s) {client : Client} (nonempty : nick ≠ [])
    (short : nick.length ≤ Chan.hostLen) (plain : '.' ∉ nick) (free : Intact.Free s none nick)
    (dead : client.dead = false) (unknown : client.status = .unknown) :
    Intact (s.newClient client nick) := by
  have name : (client.setName nick).name = nick := List.take_of_length_le short
  have status : (client.setName nick).status = .unknown := unknown
  have entered := intact.enter (client.setName nick) (by rwa [name]) (by rwa [name]) dead
    (by rw [status]; exact Status.noConfusion) (by rw [status, name]; simp [plain])
  rwa [name] at entered

theorem newNickFromServer_intact (intact : Intact s) (nonempty : nick ≠ [])
    (short : nick.length ≤ Chan.hostLen) (plain : '.' ∉ nick) (free : Intact.Free s none nick)
    (run : s.newNickFromServer clientP parv newts nick = some t) : Intact t := by
  unfold State.newNickFromServer at run
  dsimp only at run
  have made : Intact (s.newClient (Client.ofNick clientP parv newts s.currentTime) nick) :=
    newClient_intact intact nonempty short plain free rfl rfl
  have client := client_newClient s (Client.ofNick clientP parv newts s.currentTime) nick
  have list : s.nextClient ∈
      (s.newClient (Client.ofNick clientP parv newts s.currentTime) nick).globalClientList :=
    List.mem_cons_self
  have free' : Intact.Free (s.newClient (Client.ofNick clientP parv newts s.currentTime) nick)
      (some s.nextClient) nick := by
    intro c member other
    have isOld : c ≠ s.nextClient := fun equal => other (congrArg some equal)
    rw [show (s.newClient (Client.ofNick clientP parv newts s.currentTime) nick).client c =
      s.client c from State.client_setClient_of_ne _ isOld _]
    exact free c ((List.mem_cons.mp member).resolve_left isOld) (by simp)
  generalize s.newClient (Client.ofNick clientP parv newts s.currentTime) nick = u
    at run made client list free'
  have user : (u.client s.nextClient).IsUser := by
    rw [client]
    exact ⟨Status.noConfusion, Status.noConfusion⟩
  have named : (u.client s.nextClient).name = nick := by
    rw [client]
    exact List.take_of_length_le short
  split at run
  · refine Intact.registers ?_ (Registers.doRemoteUser run) ?_ ?_
    · exact made.setClient rfl rfl rfl rfl
    · rw [State.client_setClient_self]
      exact user
    · rw [State.client_setClient_self]
      exact fun empty => nonempty (named.symm.trans empty)
  · exact made.rename ⟨list, user, short, plain, fun _ => free', Or.inl nonempty,
      fun empty => absurd empty nonempty⟩ (Or.inl (by rwa [named])) run

theorem changeNickFromServer_intact (intact : Intact s) (takes : Intact.Takes s source nick)
    (named : (s.client source).name ≠ [])
    (run : s.changeNickFromServer clientP source parv newts nick = some t) : Intact t := by
  unfold State.changeNickFromServer at run
  dsimp only at run
  rw [if_pos named] at run
  generalize (if IrcEq (param parv 0) nick then (s.client source).tsinfo
    else if newts ≠ 0 then newts else s.currentTime) = tsinfo at run
  have stamped : SameClients s (s.setClient source { s.client source with tsinfo := tsinfo }) :=
    SameClients.setClient rfl rfl rfl
  have intact' : Intact (s.setClient source { s.client source with tsinfo := tsinfo }) :=
    intact.setClient rfl rfl rfl rfl
  have takes' := takes.congr stamped rfl
  rw [← stamped.name] at named
  generalize s.setClient source { s.client source with tsinfo := tsinfo } = s'
    at run intact' takes' named
  split at run
  · have noted : SameClients s' ((s'.addHistory source true).sendtoServer (some clientP)
        ⟨param parv 0, .nick, asRead [nick] (printLu (tsinfo % 2 ^ 64).toNat)⟩) :=
      SameClients.ofEq rfl rfl rfl
    have intact'' := intact'.congr noted rfl rfl fun _ => rfl
    exact intact''.rename (takes'.congr noted rfl) (Or.inl (by rwa [noted.name])) run
  · exact intact'.rename takes' (Or.inl named) run

/-- A message from a server: its sender is behind the link that it comes from. -/
structure FromServer (s : State) (clientP source : ClientId) : Prop where
  member : source ∈ s.globalClientList
  source : (s.client source).source = clientP
  server : (s.client clientP).status = .server

theorem FromServer.named (sender : FromServer s clientP source) (listed : Listed s) :
    (s.client source).name ≠ [] ∧ (s.client source).status ≠ .me := by
  have other : (s.client source).name = [] ∨ (s.client source).status = .me → False := by
    intro nameless
    obtain rfl : clientP = source :=
      sender.source.symm.trans (listed.source source sender.member nameless)
    have dot := listed.dotted clientP sender.member fun user => user.1 sender.server
    rcases nameless with empty | isMe
    · rw [empty] at dot
      exact absurd dot List.not_mem_nil
    · rw [sender.server] at isMe
      cases isMe
  exact ⟨fun empty => other (Or.inl empty), fun isMe => other (Or.inr isMe)⟩

theorem FromServer.congr (sender : FromServer s clientP source) (same : SameClients s t)
    (member : source ∈ t.globalClientList) : FromServer t clientP source :=
  ⟨member, by rw [same.source]; exact sender.source, by rw [same.status]; exact sender.server⟩

theorem FromServer.killClientButone (sender : FromServer s clientP source) (one : Option ClientId)
    (c : ClientId) : FromServer (s.killClientButone one c) clientP source :=
  ⟨sender.member, sender.source, sender.server⟩

/-- A nick as a server may give it. -/
structure ServerNick (nick : List Char) : Prop where
  nonempty : nick ≠ []
  short : nick.length ≤ Chan.hostLen
  plain : '.' ∉ nick

theorem nickFromServer_intact (intact : Intact s) (sender : FromServer s clientP source)
    (valid : ServerNick nick)
    (free : Intact.Free s (if (s.client source).status = .server then none else some source) nick)
    (run : s.nickFromServer clientP source parv newts nick = some t) : Intact t := by
  unfold State.nickFromServer at run
  split at run
  next server =>
    rw [if_pos server] at free
    exact newNickFromServer_intact intact valid.nonempty valid.short valid.plain free run
  next other =>
    rw [if_neg other] at free
    obtain ⟨named, notMe⟩ := sender.named intact.toListed
    exact changeNickFromServer_intact intact ⟨sender.member, ⟨other, notMe⟩, valid.short,
      valid.plain, fun _ => free, Or.inl valid.nonempty, fun empty => absurd empty valid.nonempty⟩
      named run

theorem Intact.Free.but {who : Option ClientId} (free : Intact.Free s none nick) :
    Intact.Free s who nick := fun c member _ => free c member (by simp)

theorem clientFromServer_intact (intact : Intact s) (valid : ServerNick nick)
    (free : Intact.Free s none nick)
    (run : s.clientFromServer clientP parv newts nick = some t) : Intact t := by
  unfold State.clientFromServer at run
  dsimp only at run
  have made : Intact (s.newClient (Client.ofClient clientP parv newts) nick) :=
    newClient_intact intact valid.nonempty valid.short valid.plain free rfl rfl
  have client := client_newClient s (Client.ofClient clientP parv newts) nick
  generalize s.newClient (Client.ofClient clientP parv newts) nick = u at run made client
  have listed : Intact (u.addToIdHashTable (param parv 8) s.nextClient) :=
    made.congr (SameClients.ofEq rfl rfl rfl) rfl rfl fun _ => rfl
  refine listed.registers (Registers.doRemoteUser run) ?_ ?_
  · change (u.client s.nextClient).IsUser
    rw [client]
    exact ⟨Status.noConfusion, Status.noConfusion⟩
  · change (u.client s.nextClient).name ≠ []
    rw [client, show ((Client.ofClient clientP parv newts).setName nick).name = nick from
      List.take_of_length_le valid.short]
    exact valid.nonempty

/-- The holder of a nick that a server gives. -/
structure Holder (s : State) (target : ClientId) (nick : List Char) : Prop where
  member : target ∈ s.globalClientList
  user : (s.client target).IsUser
  same : IrcEq nick (s.client target).name

theorem introCollides_intact (intact : Intact s) (sender : FromServer s clientP source)
    (server : (s.client source).status = .server) (valid : ServerNick nick)
    (holder : Holder s target nick)
    (run : s.introCollides clientP source target parv newts nick = some t) : Intact t := by
  unfold State.introCollides at run
  dsimp only at run
  split at run
  · exact ((intact.killClientButone none target).exitKilled holder.user.2 run).1
  split at run
  · obtain rfl := Option.some.inj run
    exact intact
  · rw [Option.bind_eq_bind, Option.bind_eq_some_iff] at run
    obtain ⟨u, gone, run⟩ := run
    have intact' := intact.killClientButone (some source) target
    have removed := Removed.exitKilled intact' holder.user gone
    have free := removed.free intact'.toListed valid.nonempty holder.member holder.same
    have other : source ≠ target := fun equal => holder.user.1 (equal ▸ server)
    have sender' := (sender.killClientButone (some source) target).congr removed.same
      (removed.mem intact'.toListed sender.member other)
    split at run
    · exact nickFromServer_intact removed.intact sender' valid free.but run
    · split at run
      · exact clientFromServer_intact removed.intact valid free run
      · obtain rfl := Option.some.inj run
        exact removed.intact

theorem changeCollides_intact (intact : Intact s) (sender : FromServer s clientP source)
    (notServer : (s.client source).status ≠ .server) (valid : ServerNick nick)
    (holder : Holder s target nick) (other : source ≠ target)
    (run : s.changeCollides clientP source target parv newts nick = some t) : Intact t := by
  have user : (s.client source).IsUser := ⟨notServer, (sender.named intact.toListed).2⟩
  unfold State.changeCollides at run
  dsimp only at run
  split at run
  · rw [Option.bind_eq_bind, Option.bind_eq_some_iff] at run
    obtain ⟨u, gone, run⟩ := run
    have killed := (intact.killClientButone none source).killClientButone none target
    have removed := Removed.exitKilled killed holder.user gone
    refine (removed.intact.exitKilled ?_ run).1
    rw [removed.same.status]
    exact user.2
  split at run
  · exact ((intact.killClientButone (some clientP) source).exitKilled user.2 run).1
  · rw [Option.bind_eq_bind, Option.bind_eq_some_iff] at run
    obtain ⟨u, gone, run⟩ := run
    have intact' := intact.killClientButone (some source) target
    have removed := Removed.exitKilled intact' holder.user gone
    have free := removed.free intact'.toListed valid.nonempty holder.member holder.same
    have sender' := (sender.killClientButone (some source) target).congr removed.same
      (removed.mem intact'.toListed sender.member other)
    exact nickFromServer_intact removed.intact sender' valid free.but run

theorem performNickCollides_intact (intact : Intact s) (sender : FromServer s clientP source)
    (valid : ServerNick nick) (holder : Holder s target nick) (other : source ≠ target)
    (run : s.performNickCollides source clientP target parv newts nick = some t) : Intact t := by
  unfold State.performNickCollides at run
  split at run
  next server => exact introCollides_intact intact sender server valid holder run
  next user => exact changeCollides_intact intact sender user valid holder other run

/-- A client that has not registered and changes to another case of its nick is removed and then
changed: that case is left out. -/
theorem takeNick_intact (intact : Intact s) (sender : FromServer s clientP source)
    (valid : ServerNick nick)
    (registered : (s.client source).status = .unknown → ¬ IrcEq nick (s.client source).name)
    (run : s.takeNick clientP source parv newts nick = some t) : Intact t := by
  unfold State.takeNick at run
  rw [Option.bind_eq_bind, Option.bind_eq_some_iff] at run
  obtain ⟨found, lookup, run⟩ := run
  split at run
  · exact nickFromServer_intact intact sender valid
      (intact.free valid.plain valid.nonempty lookup).but run
  next target =>
    obtain ⟨member, -, same, user⟩ := intact.found valid.plain lookup
    split at run
    next unknown =>
      rw [Option.bind_eq_bind, Option.bind_eq_some_iff] at run
      obtain ⟨u, gone, run⟩ := run
      have removed := Removed.exitClient intact user gone
      have free := removed.free intact.toListed valid.nonempty member same
      have other : source ≠ target := by
        rintro rfl
        exact registered unknown same
      have sender' := sender.congr removed.same (removed.mem intact.toListed sender.member other)
      exact nickFromServer_intact removed.intact sender' valid free.but run
    split at run
    next isSource =>
      subst isSource
      split at run
      · refine nickFromServer_intact intact sender valid ?_ run
        rw [if_neg user.1]
        exact intact.freeBut valid.nonempty member same
      · obtain rfl := Option.some.inj run
        exact intact
    next notSource =>
      exact performNickCollides_intact intact sender valid ⟨member, user, same⟩
        (Ne.symm notSource) run

theorem takeClient_intact (intact : Intact s) (sender : FromServer s clientP source)
    (valid : ServerNick nick)
    (other : (s.client source).status = .unknown ∨ ¬ IrcEq nick (s.client source).name)
    (run : s.takeClient clientP source parv newts nick = some t) : Intact t := by
  unfold State.takeClient at run
  rw [Option.bind_eq_bind, Option.bind_eq_some_iff] at run
  obtain ⟨found, lookup, run⟩ := run
  split at run
  · exact clientFromServer_intact intact valid (intact.free valid.plain valid.nonempty lookup) run
  next target =>
    obtain ⟨member, -, same, user⟩ := intact.found valid.plain lookup
    split at run
    next unknown =>
      rw [Option.bind_eq_bind, Option.bind_eq_some_iff] at run
      obtain ⟨u, gone, run⟩ := run
      have removed := Removed.exitClient intact user gone
      have free := removed.free intact.toListed valid.nonempty member same
      exact clientFromServer_intact removed.intact valid free run
    next known =>
      refine performNickCollides_intact intact sender valid ⟨member, user, same⟩ ?_ run
      rintro rfl
      rcases other with unknown | different
      · exact known unknown
      · exact different same

theorem checkCleanNick_intact {newnick : List Char} {bad : Bool} (intact : Intact s)
    (sender : FromServer s clientP source)
    (run : s.checkCleanNick clientP source nick newnick = some (bad, t)) :
    Intact t ∧ (bad = false → t = s ∧ cleanNickName nick = true ∧ nick = newnick) := by
  unfold State.checkCleanNick at run
  dsimp only at run
  have told : Intact (s.sendtoOne clientP ⟨s.meName, .kill, [newnick]⟩) :=
    intact.congr (SameClients.ofEq rfl rfl rfl) rfl rfl fun _ => rfl
  split at run
  · split at run
    · obtain ⟨u, gone, equal⟩ := Option.map_eq_some_iff.mp run
      obtain ⟨rfl, rfl⟩ := Prod.mk.inj equal
      refine ⟨((told.killClientButone (some clientP) source).exitKilled ?_ gone).1,
        Bool.noConfusion⟩
      exact (sender.named intact.toListed).2
    · obtain ⟨rfl, rfl⟩ := Prod.mk.inj (Option.some.inj run)
      exact ⟨told, Bool.noConfusion⟩
  next clean =>
    obtain ⟨rfl, rfl⟩ := Prod.mk.inj (Option.some.inj run)
    obtain ⟨clean, uncut⟩ := not_or.mp clean
    exact ⟨intact, fun _ => ⟨rfl, (Bool.not_eq_false _).mp clean, not_not.mp uncut⟩⟩

theorem checkLength_eq (clientP : ClientId) (nick text : List Char) (size : ℕ) :
    ∃ sent, (s.checkLength clientP nick text size).2 = { s with sent := sent } := by
  unfold State.checkLength
  split
  · exact ⟨_, rfl⟩
  · exact ⟨s.sent, rfl⟩

theorem checkUserHost_eq (clientP : ClientId) (nick user host : List Char) :
    ∃ sent, (s.checkUserHost clientP nick user host).2 = { s with sent := sent } := by
  unfold State.checkUserHost
  obtain ⟨sent, equal⟩ := checkLength_eq (s := s) clientP nick user Chan.userLen
  dsimp only
  split
  · exact ⟨sent, equal⟩
  · obtain ⟨sent', equal'⟩ := checkLength_eq
      (s := (s.checkLength clientP nick user Chan.userLen).2) clientP nick host Chan.hostLen
    refine ⟨sent', equal'.trans ?_⟩
    rw [equal]

/-- What has been sent does not matter. -/
theorem FromServer.sent (sender : FromServer s clientP source) (sent : List (ClientId × Message)) :
    FromServer { s with sent := sent } clientP source := ⟨sender.member, sender.source, sender.server⟩

theorem Intact.sent (intact : Intact s) (sent : List (ClientId × Message)) :
    Intact { s with sent := sent } :=
  intact.congr (SameClients.ofEq rfl rfl rfl) rfl rfl fun _ => rfl

theorem serverNick_of_clean (clean : cleanNickName ((param parv 1).take (nickLen + 1)) = true)
    (nonempty : param parv 1 ≠ []) : ServerNick ((param parv 1).take (nickLen + 1)) where
  nonempty := by simpa using nonempty
  short := (List.length_take_le _ _).trans (by decide)
  plain := plain_of_clean clean

theorem tsmNick_intact (intact : Intact s) (sender : FromServer s clientP source)
    (nonempty : 3 ≤ parv.length → param parv 1 ≠ [])
    (registered : (s.client source).status = .unknown →
      ¬ IrcEq (Handler.tsmNick.nick parv) (s.client source).name)
    (run : s.tsmNick clientP source parv = some t) : Intact t := by
  unfold State.tsmNick at run
  dsimp only at run
  split at run
  · obtain rfl := Option.some.inj run
    exact intact
  next count =>
    rw [Option.bind_eq_bind, Option.bind_eq_some_iff] at run
    obtain ⟨⟨bad, s₁⟩, checked, run⟩ := run
    obtain ⟨intact', good⟩ := checkCleanNick_intact intact sender checked
    dsimp only at run
    split at run
    · obtain rfl := Option.some.inj run
      exact intact'
    next notBad =>
      obtain ⟨rfl, clean, -⟩ := good ((Bool.not_eq_true _).mp notBad)
      have checkedText : ∃ sent, (if parv.length = 9 then
          s₁.checkUserHost clientP ((param parv 1).take (nickLen + 1)) (param parv 5) (param parv 6)
        else (false, s₁)).2 = { s₁ with sent := sent } := by
        split
        · exact checkUserHost_eq clientP _ _ _
        · exact ⟨s₁.sent, rfl⟩
      generalize (if parv.length = 9 then s₁.checkUserHost clientP
          ((param parv 1).take (nickLen + 1)) (param parv 5) (param parv 6)
        else (false, s₁)) = result at run checkedText
      obtain ⟨sent, equal⟩ := checkedText
      rw [equal] at run
      split at run
      · obtain rfl := Option.some.inj run
        exact intact.sent sent
      · exact takeNick_intact (intact.sent sent) (sender.sent sent)
          (serverNick_of_clean clean (nonempty (by omega))) registered run

theorem tsmClient_intact (intact : Intact s) (sender : FromServer s clientP source)
    (nonempty : 3 ≤ parv.length → param parv 1 ≠ [])
    (other : (s.client source).status = .unknown ∨
      ¬ IrcEq (Handler.tsmClient.nick parv) (s.client source).name)
    (run : s.tsmClient clientP source parv = some t) : Intact t := by
  unfold State.tsmClient at run
  dsimp only at run
  split at run
  · obtain rfl := Option.some.inj run
    exact intact
  next count =>
    rw [Option.bind_eq_bind, Option.bind_eq_some_iff] at run
    obtain ⟨⟨bad, s₁⟩, checked, run⟩ := run
    obtain ⟨intact', good⟩ := checkCleanNick_intact intact sender checked
    dsimp only at run
    split at run
    · obtain rfl := Option.some.inj run
      exact intact'
    next notBad =>
      obtain ⟨rfl, clean, -⟩ := good ((Bool.not_eq_true _).mp notBad)
      obtain ⟨sent, equal⟩ := checkUserHost_eq (s := s₁) clientP
        ((param parv 1).take (nickLen + 1)) (param parv 5) (param parv 6)
      rw [equal] at run
      split at run
      · obtain rfl := Option.some.inj run
        exact intact.sent sent
      · exact takeClient_intact (intact.sent sent) (sender.sent sent)
          (serverNick_of_clean clean (nonempty (by omega))) other run

theorem doLocalUser_intact {username realname : List Char} (intact : Intact s)
    (user : (s.client source).IsUser)
    (run : s.doLocalUser clientP source username realname = some t) : Intact t := by
  unfold State.doLocalUser at run
  dsimp only at run
  split at run
  · obtain rfl := Option.some.inj run
    exact intact.setClient rfl rfl rfl rfl
  split at run
  next named =>
    refine Intact.registers ?_ (Registers.registerLocalUser run) ?_ ?_
    · exact intact.setClient rfl rfl rfl rfl
    · rw [State.client_setClient_self]
      exact user
    · rw [State.client_setClient_self]
      exact named
  · obtain rfl := Option.some.inj run
    exact intact.setClient rfl rfl rfl rfl

/-! ### Runs -/

/-- What can happen to the clients of a server. Lines come as the text behind their command. -/
inductive Event where
  | connect
  | server (link : Option ClientId) (name : List Char)
  | user (source : ClientId) (username realname : List Char)
  | nick (source : ClientId) (text : List Char)
  | serverNick (link source : ClientId) (text : List Char)
  | serverClient (link source : ClientId) (text : List Char)
  | exit (link : Option ClientId) (who : ClientId)

/-- What the handler of a line is given. -/
def State.para (s : State) (source : ClientId) (text : List Char) : List (List Char) :=
  (s.client source).name :: stringToArray text

def State.perform (s : State) : Event → Option State
  | .connect => some s.connect
  | .server link name => some (s.addServer link name)
  | .user source username realname => s.doLocalUser source source username realname
  | .nick source text =>
    if (s.client source).status = .unknown then s.mrNick source source (s.para source text)
    else s.mNick source source (s.para source text)
  | .serverNick link source text => s.tsmNick link source (s.para source text)
  | .serverClient link source text => s.tsmClient link source (s.para source text)
  | .exit link who => s.exitClient link who

/-- Events as they occur: those who send and leave are there, local clients are their own link, and
a server that comes has a name with a dot that no other client has. -/
def State.Possible (s : State) : Event → Prop
  | .connect => True
  | .server _ name => '.' ∈ name ∧ name.length ≤ Chan.hostLen ∧ Intact.Free s none name
  | .user source _ _ => source ∈ s.globalClientList ∧ (s.client source).status = .unknown
  | .nick source _ => source ∈ s.globalClientList ∧ (s.client source).source = source ∧
      ((s.client source).status = .unknown ∨ (s.client source).status = .client)
  | .serverNick link source _ | .serverClient link source _ => FromServer s link source
  | .exit _ who => who ∈ s.globalClientList ∧ (s.client who).status ≠ .me

/-- The lines that are not slipped over: nobody registers with an empty nick, and a client of a
server that collides with itself has registered, for `NICK`, or has not, for `CLIENT`. -/
def State.Regular (s : State) : Event → Prop
  | .nick source text => (s.client source).status = .unknown →
      2 ≤ (s.para source text).length → Handler.mrNick.nick (s.para source text) ≠ []
  | .serverNick _ source text => (s.client source).status = .unknown →
      ¬ IrcEq (Handler.tsmNick.nick (s.para source text)) (s.client source).name
  | .serverClient _ source text => (s.client source).status = .unknown ∨
      ¬ IrcEq (Handler.tsmClient.nick (s.para source text)) (s.client source).name
  | _ => True

/-- A server that knows nobody but itself. -/
structure State.Alone (s : State) : Prop where
  list : s.globalClientList = [s.me]
  old : s.me < s.nextClient
  table : s.clientTable.Holds s.key {s.me}
  status : (s.client s.me).status = .me
  dotted : '.' ∈ (s.client s.me).name
  source : (s.client s.me).source = s.me
  alive : (s.client s.me).dead = false

/-- The states that regular events lead to. -/
inductive Reached : State → Prop
  | start {s : State} (alone : s.Alone) : Reached s
  | step {s s' : State} (e : Event) (before : Reached s) (possible : s.Possible e)
      (regular : s.Regular e) (run : s.perform e = some s') : Reached s'

theorem State.Alone.intact (alone : s.Alone) : Intact s := by
  obtain ⟨list, old, table, status, dotted, source, alive⟩ := alone
  have only : ∀ c ∈ s.globalClientList, c = s.me := fun c member => by
    rw [list] at member
    exact List.mem_singleton.mp member
  refine ⟨⟨?_, ?_, ?_, ?_, ?_, ?_, ?_⟩, ?_⟩
  · intro c member
    rw [only c member]
    exact old
  · rw [list]
    exact List.nodup_singleton s.me
  · have tabled : s.tabled = {s.me} := by
      ext c
      constructor
      · exact fun member => only c member.1
      · rintro rfl
        exact ⟨by simp [list], Or.inl (List.ne_nil_of_mem dotted)⟩
    rw [tabled]
    exact table
  · intro c member d member' _ _
    rw [only c member, only d member']
  · intro c member _
    rw [only c member]
    exact dotted
  · intro c member user
    rw [only c member] at user
    exact absurd status user.2
  · intro c member _
    rw [only c member]
    exact source
  · intro c member _
    rw [only c member]
    exact alive

theorem addServer_intact {link : Option ClientId} {name : List Char} (intact : Intact s)
    (dot : '.' ∈ name) (short : name.length ≤ Chan.hostLen) (free : Intact.Free s none name) :
    Intact (s.addServer link name) := by
  have kept : name.take Chan.hostLen = name := List.take_of_length_le short
  have entered := intact.enter ({ Client.made (link.getD s.nextClient) link.isNone with
    status := .server
    servptr := some (link.getD s.me) }.setName name)
    (by simp only [Client.setName, kept]; exact List.ne_nil_of_mem dot)
    (by simpa only [Client.setName, kept] using free) rfl Status.noConfusion
    (by simp only [Client.setName, kept]; simp [dot])
  simp only [Client.setName, kept] at entered
  unfold State.addServer
  simp only [Client.setName, kept]
  split
  · exact entered.congr (SameClients.ofEq rfl rfl rfl) rfl rfl fun _ => rfl
  · exact entered

theorem Intact.perform {e : Event} (intact : Intact s) (possible : s.Possible e)
    (regular : s.Regular e) (run : s.perform e = some t) : Intact t := by
  have first : ∀ source text, 3 ≤ (s.para source text).length →
      param (s.para source text) 1 ≠ [] := by
    intro source text several
    exact stringToArray_head (Nat.le_of_succ_le_succ several)
  cases e with
  | connect =>
    obtain rfl := Option.some.inj run
    exact intact.connect
  | server link name =>
    obtain rfl := Option.some.inj run
    exact addServer_intact intact possible.1 possible.2.1 possible.2.2
  | user source username realname =>
    refine doLocalUser_intact intact ?_ run
    rw [Client.IsUser, possible.2]
    exact ⟨Status.noConfusion, Status.noConfusion⟩
  | nick source text =>
    obtain ⟨member, ownLink, status⟩ := possible
    rw [State.perform] at run
    split at run
    next unknown => exact mrNick_intact intact member unknown (regular unknown) run
    next known => exact mNick_intact intact member (status.resolve_left known) ownLink run
  | serverNick link source text =>
    exact tsmNick_intact intact possible (first source text) regular run
  | serverClient link source text =>
    exact tsmClient_intact intact possible (first source text) regular run
  | exit link who => exact (intact.exitClient possible.2 run).1

theorem Reached.intact (reached : Reached s) : Intact s := by
  induction reached with
  | start alone => exact alone.intact
  | step e _ possible regular run ih => exact ih.perform possible regular run

/-- In every state reached, no two clients have the same name, and `find_client` finds exactly the
client that has the name. Text that begins with a dot is an id. -/
theorem find_client_unique (s : State) (reached : Reached s) :
    (∀ c ∈ s.globalClientList, ∀ d ∈ s.globalClientList, (s.client c).name ≠ [] →
      IrcEq (s.client c).name (s.client d).name → c = d) ∧
    ∀ name : List Char, name ≠ [] → name.head? ≠ some '.' →
      ∃ found, s.findClient name = some found ∧
        ∀ c, found = some c ↔ c ∈ s.globalClientList ∧ IrcEq name (s.client c).name := by
  have intact := reached.intact
  refine ⟨intact.unique, fun name nonempty noId => ?_⟩
  obtain ⟨found, lookup, some, none⟩ := intact.find noId
  refine ⟨found, lookup, fun c => ⟨fun equal => ?_, fun ⟨member, same⟩ => ?_⟩⟩
  · obtain ⟨member, -, same⟩ := some c equal
    exact ⟨member, same⟩
  · have named : (s.client c).name ≠ [] := fun empty => nonempty (by
      rw [empty] at same
      exact ircEq_nil.mp same)
    cases found with
    | none => exact absurd same (none rfl c member (Or.inl named))
    | some d =>
      obtain ⟨member', -, same'⟩ := some d rfl
      rw [intact.unique c member d member' named (same.symm.trans same')]

theorem started_alone {name : List Char} (dot : '.' ∈ name) (short : name.length ≤ Chan.hostLen) :
    (State.started name).Alone where
  list := rfl
  old := Nat.one_pos
  table := by
    have empty : ChainTable.Holds (⟨fun _ => none, fun _ => none⟩ : ChainTable ClientId)
        (State.started name).key ∅ := fun bucket => ⟨[], rfl, List.nodup_nil, by simp⟩
    have added := empty.add (a := 0) (Set.notMem_empty 0) (hashNickName name)
    rw [LawfulSingleton.insert_empty_eq] at added
    refine added.congr_key fun c member => ?_
    rw [Set.mem_singleton_iff.mp member, Function.update_self]
    exact congrArg hashNickName (List.take_of_length_le short)
  status := rfl
  dotted := by
    rwa [show ((State.started name).client (State.started name).me).name = name from
      List.take_of_length_le short]
  source := rfl
  alive := rfl

/-- `hub.test`, where a client has sent `NICK foo` and `USER`. -/
theorem reached_foo :
    ∃ s, Reached s ∧ s.globalClientList = [1, 0] ∧ (s.client 1).name = "foo".toList ∧
      s.findClient ".0".toList = some (some 1) := by
  have first : ((State.started "hub.test".toList).connect.perform (.nick 1 "foo".toList)).bind
      (fun s => if 1 ∈ s.globalClientList ∧ (s.client 1).status = .unknown then
        (s.perform (.user 1 "u".toList [])).map fun s =>
          (s.globalClientList, (s.client 1).name, s.findClient ".0".toList) else none) =
      some ([1, 0], "foo".toList, some (some 1)) := by
    decide +kernel
  obtain ⟨s, nick, rest⟩ := Option.bind_eq_some_iff.mp first
  split at rest
  next possible =>
    obtain ⟨t, user, facts⟩ := Option.map_eq_some_iff.mp rest
    obtain ⟨list, facts⟩ := Prod.mk.inj facts
    obtain ⟨name, found⟩ := Prod.mk.inj facts
    have start : Reached (State.started "hub.test".toList) :=
      Reached.start (started_alone (by decide) (by decide))
    have connected := Reached.step .connect start trivial trivial rfl
    have named := Reached.step (.nick 1 "foo".toList) connected ⟨by decide, rfl, Or.inl rfl⟩
      (fun _ _ => by decide) nick
    exact ⟨t, Reached.step (.user 1 "u".toList []) named possible trivial user, list, name, found⟩
  · cases rest

theorem find_client_unique_foo :
    ∃ s, Reached s ∧ s.findClient "FOO".toList = some (some 1) := by
  obtain ⟨s, reached, list, name, -⟩ := reached_foo
  obtain ⟨found, lookup, whose⟩ := (find_client_unique s reached).2 "FOO".toList (by decide)
    (by decide)
  have isFoo := (whose 1).mpr ⟨by rw [list]; decide, by rw [name]; decide⟩
  exact ⟨s, reached, by rw [lookup, isFoo]⟩

/-- Text that begins with a dot finds a client by its id. -/
theorem found_by_id :
    ¬ ∀ s, Reached s → ∀ (name : List Char) (c : ClientId), name ≠ [] →
      s.findClient name = some (some c) → IrcEq name (s.client c).name := by
  intro claimed
  obtain ⟨s, reached, -, name, found⟩ := reached_foo
  have same := claimed s reached ".0".toList 1 (by decide) found
  rw [name] at same
  exact absurd same (by decide)

end Ircd.Nick
