import Ircd.Nick.Lookup

/-!
# Clients that arrive

What becomes of a client that a server introduces: it is registered with the data of its
introduction, and the other servers are told.
-/
namespace Ircd.Nick

open Chan (ClientId Status param)

variable {s t u : State} {link srv who : ClientId}

/-! ### Telling the others -/

/-- Lines that are no `KILL` have been sent. -/
def Told (s t : State) : Prop :=
  ∃ lines ubuf, t = { s with sent := s.sent ++ lines, ubuf := ubuf } ∧
    ∀ line ∈ lines, line.2.command ≠ .kill

namespace Told

theorem refl (s : State) : Told s s := ⟨[], s.ubuf, by rw [List.append_nil], by simp⟩

theorem trans (first : Told s t) (second : Told t u) : Told s u := by
  obtain ⟨lines, ubuf, rfl, noKill⟩ := first
  obtain ⟨lines', ubuf', rfl, noKill'⟩ := second
  refine ⟨lines ++ lines', ubuf', by rw [List.append_assoc], fun line member => ?_⟩
  rcases List.mem_append.mp member with member | member
  · exact noKill line member
  · exact noKill' line member

theorem same (told : Told s t) : SameClients s t := by
  obtain ⟨lines, ubuf, rfl, -⟩ := told
  exact SameClients.ofEq rfl rfl rfl

theorem intact (told : Told s t) (intact : Intact s) : Intact t := by
  obtain ⟨lines, ubuf, rfl, -⟩ := told
  exact intact.congr (SameClients.ofEq rfl rfl rfl) rfl rfl fun _ => rfl

end Told

theorem tsBurstClient_told {server : ClientId}
    (uplink : (s.client who).servptr = some server)
    (fits : ((s.client who).umodeBuf sendUmodes).length < 12) :
    ∃ t, s.tsBurstClient link who = some t ∧ Told s t := by
  unfold State.tsBurstClient
  rw [uplink]
  dsimp only
  rw [if_neg (Nat.not_le_of_lt fits)]
  refine ⟨_, rfl, ?_⟩
  have line : Told s { s.sendtoOne link (s.introLine link who server s.ubuf) with
      ubuf := (s.client who).umodeText } := by
    refine ⟨_, _, rfl, fun line member => ?_⟩
    rw [List.mem_singleton.mp member]
    dsimp only [State.introLine]
    split
    · exact Command.noConfusion
    · exact Command.noConfusion
  split
  · refine line.trans ⟨_, _, rfl, fun line member => ?_⟩
    obtain ⟨target, -, rfl⟩ := List.mem_map.mp member
    exact Command.noConfusion
  · exact line

theorem introduceClientGlobally_told {server : ClientId}
    (uplink : (s.client who).servptr = some server)
    (fits : ((s.client who).umodeBuf sendUmodes).length < 12) :
    ∃ t, s.introduceClientGlobally link who = some t ∧ Told s t := by
  unfold State.introduceClientGlobally
  generalize s.servList.filter (· ≠ link) = links
  induction links generalizing s with
  | nil => exact ⟨s, rfl, Told.refl s⟩
  | cons first links ih =>
    obtain ⟨t, run, told⟩ : ∃ t, s.tsBurstClient first who = some t ∧ Told s t :=
      tsBurstClient_told uplink fits
    have client : t.client = s.client := by
      obtain ⟨lines, ubuf, rfl, -⟩ := told
      rfl
    rw [← client] at uplink fits
    obtain ⟨u, rest, told'⟩ := ih uplink fits
    refine ⟨u, ?_, told.trans told'⟩
    rw [List.foldlM_cons, run]
    exact rest

/-! ### The data of an introduction -/

theorem umodesOf_subset (text : List Char) : umodesOf text ⊆ sendUmodes :=
  Finset.inter_subset_right

/-- The modes of a client of another server fit into the buffer. -/
theorem length_umodeBuf_lt {client : Client} (modes : client.umodes ⊆ sendUmodes) :
    (client.umodeBuf sendUmodes).length < 12 := by
  have letters : (userModes.filterMap fun entry =>
      if entry.1 ∈ client.umodes ∧ (client.mine = true → entry.1 ∈ sendUmodes) then some entry.2
      else none).length ≤ 5 := by
    have few : ∀ entries : List (Umode × Char), (entries.filterMap fun entry =>
        if entry.1 ∈ client.umodes ∧ (client.mine = true → entry.1 ∈ sendUmodes) then some entry.2
        else none).length ≤ (entries.filter fun entry => entry.1 ∈ sendUmodes).length := by
      intro entries
      induction entries with
      | nil => exact Nat.le_refl _
      | cons entry entries ih =>
        rw [List.filterMap_cons, List.filter_cons]
        by_cases sent : entry.1 ∈ client.umodes
        · have inMask := modes sent
          simpa [sent, inMask] using ih
        · rw [if_neg fun both => sent both.1]
          dsimp only
          split
          · exact ih.trans (Nat.le_succ _)
          · exact ih
    exact (few userModes).trans (by decide)
  unfold Client.umodeBuf
  dsimp only
  split
  · exact Nat.succ_pos _
  · rw [List.length_cons]
    omega

/-- A client as it is registered. -/
def Client.arrived (client : Client) (srv : ClientId) (username host realname : List Char)
    (id : Option (List Char)) : Client :=
  { { ({ client with user := some (id.getD (client.user.getD [])) }.setHost host).setInfo realname
    with servptr := some srv }.setUsername username with status := .client }

/-- A server that is known under a name, behind a link that is there. -/
structure Knows (s : State) (link srv : ClientId) (server : List Char) : Prop where
  member : srv ∈ s.globalClientList
  same : IrcEq server (s.client srv).name
  noId : server.head? ≠ some '.'
  status : (s.client srv).status = .server
  source : (s.client srv).source = link
  alive : (s.client link).dead = false

theorem Knows.find {server : List Char} (knows : Knows s link srv server) (listed : Listed s) :
    s.findClient server = some (some srv) := by
  obtain ⟨found, lookup, some, none⟩ := listed.find knows.noId
  have dot := listed.dotted srv knows.member fun user => user.1 knows.status
  have named : (s.client srv).name ≠ [] := List.ne_nil_of_mem dot
  cases found with
  | none => exact absurd knows.same (none rfl srv knows.member (Or.inl named))
  | some d =>
    obtain ⟨member, -, same⟩ := some d rfl
    rw [lookup, listed.unique srv knows.member d member named (knows.same.symm.trans same)]

theorem Knows.setClient {server : List Char} (knows : Knows s link srv server) {c : ClientId}
    {client : Client} (name : client.name = (s.client c).name)
    (status : client.status = (s.client c).status) (source : client.source = (s.client c).source)
    (dead : client.dead = (s.client c).dead) : Knows (s.setClient c client) link srv server := by
  have same : SameClients s (s.setClient c client) := SameClients.setClient name status source
  refine ⟨knows.member, ?_, knows.noId, ?_, ?_, ?_⟩
  · rw [same.name]
    exact knows.same
  · rw [same.status]
    exact knows.status
  · rw [same.source]
    exact knows.source
  · by_cases isLink : link = c
    · subst isLink
      rw [State.client_setClient_self, dead]
      exact knows.alive
    · rw [State.client_setClient_of_ne _ isLink]
      exact knows.alive

/-- `register_remote_user` lets a client pass whose server is behind the link. -/
theorem registerRemoteUser_told (username : List Char)
    (uplink : (s.client who).servptr = some srv) (other : srv ≠ who)
    (modes : (s.client who).umodes ⊆ sendUmodes) (status : (s.client srv).status = .server)
    (source : (s.client srv).source = link) (alive : (s.client link).dead = false) :
    ∃ t, s.registerRemoteUser link who username = some t ∧
      Told (s.setClient who { (s.client who).setUsername username with status := .client }) t := by
  unfold State.registerRemoteUser
  dsimp only
  have server : (s.setClient who ((s.client who).setUsername username)).client srv =
      s.client srv := State.client_setClient_of_ne s other _
  have linkAlive : ((s.setClient who ((s.client who).setUsername username)).client link).dead =
      false := by
    by_cases isLink : link = who
    · subst isLink
      rw [State.client_setClient_self]
      exact alive
    · rw [State.client_setClient_of_ne _ isLink]
      exact alive
  rw [State.client_setClient_self, show ((s.client who).setUsername username).servptr = some srv
    from uplink]
  dsimp only
  rw [server, if_neg (not_not_intro status), if_neg (not_not_intro source), linkAlive,
    if_neg Bool.false_ne_true, State.setClient_setClient]
  refine introduceClientGlobally_told (?_ : _ = some srv) ?_
  · rw [State.client_setClient_self]
  · rw [State.client_setClient_self]
    exact length_umodeBuf_lt modes

theorem doRemoteUser_told (username host realname : List Char) (id : Option (List Char))
    {server : List Char} (intact : Intact s) (unknown : (s.client who).status = .unknown)
    (modes : (s.client who).umodes ⊆ sendUmodes) (knows : Knows s link srv server) :
    ∃ t, s.doRemoteUser link who username host server realname id = some t ∧
      Told (s.setClient who ((s.client who).arrived srv username host realname id)) t := by
  have other : srv ≠ who := by
    rintro rfl
    rw [knows.status] at unknown
    cases unknown
  unfold State.doRemoteUser
  dsimp only
  generalize filled : ((({ s.client who with
    user := some (id.getD ((s.client who).user.getD [])) } : Client).setHost host).setInfo
      realname) = client
  have same : client.name = (s.client who).name ∧ client.status = (s.client who).status ∧
      client.source = (s.client who).source ∧ client.dead = (s.client who).dead ∧
      client.umodes = (s.client who).umodes := by
    rw [← filled]
    exact ⟨rfl, rfl, rfl, rfl, rfl⟩
  obtain ⟨name, status, source, dead, umodes⟩ := same
  have knows' := knows.setClient name status source dead
  rw [knows'.find (intact.setClient name status source dead).toListed, Option.bind_eq_bind,
    Option.bind_some, State.setClient_setClient, State.client_setClient_self]
  have uplink : ((s.setClient who { client with servptr := some srv }).client who).servptr =
      some srv := by rw [State.client_setClient_self]
  have modes' : ((s.setClient who { client with servptr := some srv }).client who).umodes ⊆
      sendUmodes := by
    rw [State.client_setClient_self]
    exact umodes ▸ modes
  have server' : (s.setClient who { client with servptr := some srv }).client srv = s.client srv :=
    State.client_setClient_of_ne s other _
  have alive' : ((s.setClient who { client with servptr := some srv }).client link).dead = false := by
    by_cases isLink : link = who
    · subst isLink
      rw [State.client_setClient_self]
      exact dead.trans knows.alive
    · rw [State.client_setClient_of_ne _ isLink]
      exact knows.alive
  obtain ⟨t, run, told⟩ := registerRemoteUser_told username uplink other modes'
    (by rw [server']; exact knows.status) (by rw [server']; exact knows.source) alive'
  refine ⟨t, run, ?_⟩
  rw [State.setClient_setClient, State.client_setClient_self] at told
  rw [Client.arrived, filled]
  exact told

/-! ### Introductions -/

/-- The client that `NICK` introduces, as it is registered. -/
def Client.ofNickLine (link srv : ClientId) (parv : List (List Char)) (newts currentTime : ℤ)
    (nick : List Char) : Client :=
  Client.arrived { (Client.ofNick link parv newts currentTime).setName nick with
    umodes := umodesOf (param parv 4) } srv (param parv 5) (param parv 6) (param parv 8) none

/-- The client that `CLIENT` introduces, as it is registered. -/
def Client.ofClientLine (link srv : ClientId) (parv : List (List Char)) (newts : ℤ)
    (nick : List Char) : Client :=
  Client.arrived ((Client.ofClient link parv newts).setName nick) srv (param parv 5) (param parv 6)
    (param parv 9) (some (param parv 8))

/-- A registered client of another server comes onto the list and into the table. -/
def State.welcome (s : State) (client : Client) : State :=
  (s.makeClient client).addToClientHashTable client.name s.nextClient

theorem makeClient_setClient (s : State) (first second : Client) :
    (s.makeClient first).setClient s.nextClient second = s.makeClient second := by
  simp [State.makeClient, State.setClient]

theorem newClient_setClient (s : State) (first second : Client) (nick : List Char)
    (name : second.name = nick) :
    (s.newClient first nick).setClient s.nextClient second = s.welcome second := by
  rw [State.welcome, name, ← makeClient_setClient s (first.setName nick) second]
  rfl

theorem Knows.newClient {server : List Char} (knows : Knows s link srv server)
    (intact : Intact s) (client : Client) (nick : List Char) (linked : link ∈ s.globalClientList) :
    Knows (s.newClient client nick) link srv server := by
  have old : ∀ c ∈ s.globalClientList, (s.newClient client nick).client c = s.client c :=
    fun c member => State.client_setClient_of_ne _ (ne_of_mem_of_not_mem member intact.absent) _
  refine ⟨List.mem_cons_of_mem _ knows.member, ?_, knows.noId, ?_, ?_, ?_⟩
  · rw [old srv knows.member]
    exact knows.same
  · rw [old srv knows.member]
    exact knows.status
  · rw [old srv knows.member]
    exact knows.source
  · rw [old link linked]
    exact knows.alive

theorem newNickFromServer_told {parv : List (List Char)} {newts : ℤ} {nick : List Char}
    (intact : Intact s) (valid : ServerNick nick) (free : Intact.Free s none nick)
    (linked : link ∈ s.globalClientList) (knows : Knows s link srv (param parv 7))
    (long : 8 < parv.length) :
    ∃ t, s.newNickFromServer link parv newts nick = some t ∧
      Told (s.welcome (Client.ofNickLine link srv parv newts s.currentTime nick)) t := by
  have made : Intact (s.newClient (Client.ofNick link parv newts s.currentTime) nick) :=
    newClient_intact intact valid.nonempty valid.short valid.plain free rfl rfl
  have known := knows.newClient intact (Client.ofNick link parv newts s.currentTime) nick linked
  have client := client_newClient s (Client.ofNick link parv newts s.currentTime) nick
  unfold State.newNickFromServer
  dsimp only
  rw [if_pos long, client]
  generalize filled : ({ (Client.ofNick link parv newts s.currentTime).setName nick with
    umodes := umodesOf (param parv 4) } : Client) = second
  have same : second.name = ((Client.ofNick link parv newts s.currentTime).setName nick).name ∧
      second.status = .unknown ∧ second.source = link ∧ second.dead = false ∧
      second.umodes ⊆ sendUmodes := by
    rw [← filled]
    exact ⟨rfl, rfl, rfl, rfl, umodesOf_subset _⟩
  obtain ⟨name, status, source, dead, modes⟩ := same
  have intact' := made.setClient (c := s.nextClient) (by rw [client, name]) (by rw [client, status]; rfl)
    (by rw [client, source]; rfl) (by rw [client, dead]; rfl)
  have known' := known.setClient (c := s.nextClient) (by rw [client, name])
    (by rw [client, status]; rfl) (by rw [client, source]; rfl) (by rw [client, dead]; rfl)
  obtain ⟨t, run, told⟩ := doRemoteUser_told (param parv 5) (param parv 6) (param parv 8) none
    intact' (by rw [State.client_setClient_self, status])
    (by rw [State.client_setClient_self]; exact modes) known'
  refine ⟨t, run, ?_⟩
  have named : (second.arrived srv (param parv 5) (param parv 6) (param parv 8) none).name = nick :=
    name.trans (List.take_of_length_le valid.short)
  rw [State.setClient_setClient, State.client_setClient_self,
    newClient_setClient s _ _ nick named] at told
  rw [Client.ofNickLine, filled]
  exact told

theorem clientFromServer_told {parv : List (List Char)} {newts : ℤ} {nick : List Char}
    (intact : Intact s) (valid : ServerNick nick) (free : Intact.Free s none nick)
    (linked : link ∈ s.globalClientList) (knows : Knows s link srv (param parv 7)) :
    ∃ t, s.clientFromServer link parv newts nick = some t ∧
      Told ((s.welcome (Client.ofClientLine link srv parv newts nick)).addToIdHashTable
        (param parv 8) s.nextClient) t := by
  have made : Intact (s.newClient (Client.ofClient link parv newts) nick) :=
    newClient_intact intact valid.nonempty valid.short valid.plain free rfl rfl
  have known := knows.newClient intact (Client.ofClient link parv newts) nick linked
  have client := client_newClient s (Client.ofClient link parv newts) nick
  unfold State.clientFromServer
  dsimp only
  have intact' : Intact ((s.newClient (Client.ofClient link parv newts) nick).addToIdHashTable
      (param parv 8) s.nextClient) :=
    made.congr (SameClients.ofEq rfl rfl rfl) rfl rfl fun _ => rfl
  have known' : Knows ((s.newClient (Client.ofClient link parv newts) nick).addToIdHashTable
      (param parv 8) s.nextClient) link srv (param parv 7) :=
    ⟨known.member, known.same, known.noId, known.status, known.source, known.alive⟩
  have client' : ((s.newClient (Client.ofClient link parv newts) nick).addToIdHashTable
      (param parv 8) s.nextClient).client s.nextClient =
        (Client.ofClient link parv newts).setName nick := client
  obtain ⟨t, run, told⟩ := doRemoteUser_told (param parv 5) (param parv 6) (param parv 9)
    (some (param parv 8)) intact' (by rw [client']; rfl)
    (by rw [client']; exact umodesOf_subset _) known'
  refine ⟨t, run, ?_⟩
  rw [client'] at told
  have name : (Client.ofClientLine link srv parv newts nick).name = nick :=
    List.take_of_length_le valid.short
  rw [← newClient_setClient s (Client.ofClient link parv newts) _ nick name]
  exact told

end Ircd.Nick
