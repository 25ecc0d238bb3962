import Ircd.Nick.Kill
import Ircd.Nick.Arrive

/-!
# What a KILL does

On a server whose tables are in order a person that is killed always leaves, and whoever had the
nick, nobody has it afterwards.
-/
namespace Ircd.Nick

open Chan (ClientId Status param)

/-! ### Servers in order -/

/-- The table of ids has exactly the clients with an id. -/
def IdsHeld (s : State) : Prop :=
  s.idTable.Holds (fun c => hashId (s.client c).id)
    {c | c ∈ s.globalClientList ∧ (s.client c).hasId = true}

/-- A registered client of the list. -/
structure Person (s : State) (c : ClientId) : Prop where
  member : c ∈ s.globalClientList
  registered : (s.client c).status = .client
  user : (s.client c).user.isSome = true
  named : (s.client c).name ≠ []

/-- A server whose tables are in order, and whose history points to clients that are there or have
just left. -/
structure InOrder (s : State) : Prop extends Intact s where
  ids : IdsHeld s
  history : ∀ entry ∈ s.whowas, ∀ c, entry.online = some c → Person s c ∨ (s.client c).dead = true
  links : ∀ link ∈ s.servList, link ∈ s.globalClientList ∧ (s.client link).status = .server

theorem Person.isUser {s : State} {c : ClientId} (person : Person s c) : (s.client c).IsUser := by
  rw [Client.IsUser, person.registered]
  exact ⟨Status.noConfusion, Status.noConfusion⟩

theorem Person.isPerson {s : State} {c : ClientId} (person : Person s c) :
    (s.client c).isPerson = true := by
  rw [Client.isPerson, person.registered, person.user]
  rfl

theorem enough_list {s : State} (intact : Intact s) {members : Set ClientId}
    (subset : ∀ c ∈ members, c ∈ s.globalClientList) : Enough members s.nextClient := by
  intro l nodup inside
  have within : l ⊆ List.range s.nextClient := fun c member =>
    List.mem_range.mpr (intact.fresh c (subset c (inside c member)))
  simpa using (nodup.subperm within).length_le

/-- What is left of a server after somebody has been killed. -/
structure KilledFrom (s t : State) (h : ClientId) : Prop where
  inOrder : InOrder t
  same : SameClients s t
  list : t.globalClientList = s.globalClientList.erase h
  client : ∀ c, c ≠ h → t.client c = s.client c
  sent : t.sent = s.sent
  servList : t.servList = s.servList
  hasUid : t.hasUid = s.hasUid
  currentTime : t.currentTime = s.currentTime

variable {s t u : State} {h : ClientId}

/-- A person that is killed leaves without a line, and always. -/
theorem exitKilled_eq (inOrder : InOrder s) (person : Person s h) (one : Option ClientId) :
    ∃ idTable table, s.exitKilled one h =
        some { ((s.setClient h { s.client h with killed := true }).closing h).removeClientFromList h
          with idTable := idTable, clientTable := table } ∧
      idTable.Holds (fun c => hashId (s.client c).id)
        ({c | c ∈ s.globalClientList ∧ (s.client c).hasId = true} \ {h}) := by
  obtain ⟨table, deleted, -⟩ := inOrder.table.delete inOrder.enough
    (show h ∈ s.tabled from ⟨person.member, Or.inl person.named⟩)
  -- the id goes, if there is one
  obtain ⟨idTable, idDeleted, idHeld⟩ : ∃ idTable,
      (if (s.client h).hasId = true then s.idTable.delete s.nextClient (hashId (s.client h).id) h
        else some s.idTable) = some idTable ∧
      idTable.Holds (fun c => hashId (s.client c).id)
        ({c | c ∈ s.globalClientList ∧ (s.client c).hasId = true} \ {h}) := by
    split
    next hasId =>
      exact inOrder.ids.delete (enough_list inOrder.toIntact fun _ inside => inside.1)
        (show h ∈ {c | c ∈ s.globalClientList ∧ (s.client c).hasId = true} from
          ⟨person.member, hasId⟩)
    next noId =>
      refine ⟨s.idTable, rfl, ?_⟩
      rw [Set.sdiff_singleton_eq_self fun inside => noId inside.2]
      exact inOrder.ids
  refine ⟨idTable, table, ?_, idHeld⟩
  have alive : (s.client h).dead = false := inOrder.alive h person.member (by simp)
  have notServer : (s.client h).status ≠ .server := person.isUser.1
  have notMe : (s.client h).status ≠ .me := person.isUser.2
  unfold State.exitKilled State.exitClient
  rw [State.client_setClient_self, if_neg (by simpa using alive), if_neg (by simpa using notServer)]
  generalize closing : (s.setClient h { s.client h with killed := true }).closing h = closed
  have client : closed.client h = { s.client h with killed := true, dead := true } := by
    rw [← closing]
    simp [State.closing, State.setClient]
  have tables : closed.clientTable = s.clientTable ∧ closed.idTable = s.idTable ∧
      closed.nextClient = s.nextClient := by
    rw [← closing]
    exact ⟨rfl, rfl, rfl⟩
  obtain ⟨sameTable, sameIds, next⟩ := tables
  have quit : closed.exitPerson one h = some { closed with idTable := idTable } := by
    unfold State.exitPerson
    rw [client]
    dsimp only
    rw [if_pos ⟨person.isPerson, person.named⟩, if_pos rfl]
    change (if (s.client h).hasId = true then closed.delFromIdHashTable (s.client h).id h
      else some closed) = _
    split at idDeleted
    next hasId =>
      rw [if_pos hasId, State.delFromIdHashTable, sameIds, next, idDeleted]
      rfl
    next noId =>
      obtain rfl := Option.some.inj idDeleted
      rw [if_neg noId, ← sameIds]
  unfold State.exitOneClient
  rw [if_neg (by rw [client]; exact notMe), quit, Option.bind_eq_bind, Option.bind_some,
    State.delFromClientHashTable]
  dsimp only
  have name : hashNickName (closed.client h).name = s.key h := by
    rw [client]
    rfl
  rw [sameTable, next, name, deleted, ← next]
  rfl

theorem exitKilled_total (inOrder : InOrder s) (person : Person s h) (one : Option ClientId) :
    ∃ t, s.exitKilled one h = some t ∧ KilledFrom s t h := by
  obtain ⟨idTable, table, run, idHeld⟩ := exitKilled_eq inOrder person one
  have same := exitKilled_same run
  obtain ⟨intact, list⟩ := inOrder.toIntact.exitKilled person.isUser.2 run
  have list := list person.isUser.1
  generalize equal : ({ ((s.setClient h { s.client h with killed := true }).closing
    h).removeClientFromList h with idTable := idTable, clientTable := table } : State) = t
    at run same intact list
  have client : ∀ c, c ≠ h → t.client c = s.client c := by
    intro c other
    rw [← equal]
    simp [State.removeClientFromList, State.closing, State.setClient, other]
  have left : t.client h = { s.client h with killed := true, dead := true } := by
    rw [← equal]
    simp [State.removeClientFromList, State.closing, State.setClient]
  -- a person is no link, so that the list of links stays
  have notLink : h ∉ s.servList := fun member => person.isUser.1 (inOrder.links h member).2
  have servList : t.servList = s.servList := by
    rw [← equal]
    change (if _ then s.servList.erase h else s.servList) = s.servList
    rw [List.erase_of_not_mem notLink, ite_self]
  refine ⟨t, run, ⟨intact, ?_, ?_, ?_⟩, same, list, client, by rw [← equal]; rfl, servList,
    by rw [← equal]; rfl, by rw [← equal]; rfl⟩
  · -- the ids of those who are left are as before
    have members : {c | c ∈ t.globalClientList ∧ (t.client c).hasId = true} =
        {c | c ∈ s.globalClientList ∧ (s.client c).hasId = true} \ {h} := by
      ext c
      rw [Set.mem_ofPred_eq, list, inOrder.nodup.mem_erase_iff]
      constructor
      · rintro ⟨⟨other, member⟩, hasId⟩
        rw [client c other] at hasId
        exact ⟨⟨member, hasId⟩, other⟩
      · rintro ⟨⟨member, hasId⟩, other⟩
        rw [client c other]
        exact ⟨⟨other, member⟩, hasId⟩
    rw [IdsHeld, members, show t.idTable = idTable by rw [← equal]]
    refine idHeld.congr_key fun c member => ?_
    rw [client c member.2]
  · intro entry member c online
    rw [show t.whowas = s.whowas by rw [← equal]; rfl] at member
    by_cases isH : c = h
    · subst isH
      rw [left]
      exact Or.inr rfl
    · rcases inOrder.history entry member c online with person | dead
      · rw [client c isH]
        refine Or.inl ⟨?_, ?_, ?_, ?_⟩
        · rw [list]
          exact inOrder.nodup.mem_erase_iff.mpr ⟨isH, person.member⟩
        · rw [client c isH]
          exact person.registered
        · rw [client c isH]
          exact person.user
        · rw [client c isH]
          exact person.named
      · rw [client c isH]
        exact Or.inr dead
  · intro link member
    rw [servList] at member
    obtain ⟨listed, server⟩ := inOrder.links link member
    rw [same.status, list]
    exact ⟨inOrder.nodup.mem_erase_iff.mpr ⟨ne_of_mem_of_not_mem member notLink, listed⟩, server⟩

/-- Lines that are sent change nothing else. -/
theorem InOrder.sends (inOrder : InOrder s) (sent : List (ClientId × Message)) (ubuf : List Char) :
    InOrder { s with sent := sent, ubuf := ubuf } where
  toIntact := inOrder.toIntact.congr (SameClients.ofEq rfl rfl rfl) rfl rfl fun _ => rfl
  ids := inOrder.ids
  history entry member c online := by
    rcases inOrder.history entry member c online with person | dead
    · exact Or.inl ⟨person.member, person.registered, person.user, person.named⟩
    · exact Or.inr dead
  links := inOrder.links

theorem Told.inOrder (told : Told s t) (inOrder : InOrder s) : InOrder t := by
  obtain ⟨lines, ubuf, rfl, -⟩ := told
  exact inOrder.sends _ ubuf

/-! ### Who holds a nick -/

variable {nick : List Char}

theorem findClient_holder (intact : Intact s) (person : Person s h) (plain : '.' ∉ nick)
    (name : (s.client h).name = nick) : s.findClient nick = some (some h) := by
  obtain ⟨found, lookup, some, none⟩ := intact.find (noId_of_plain plain)
  have same : IrcEq nick (s.client h).name := by rw [name]; exact IrcEq.refl nick
  cases found with
  | none => exact absurd same (none rfl h person.member (Or.inl person.named))
  | some d =>
    obtain ⟨member, -, same'⟩ := some d rfl
    rw [lookup, intact.unique h person.member d member person.named (same.symm.trans same')]

theorem findClient_free (intact : Intact s) (plain : '.' ∉ nick)
    (free : Intact.Free s none nick) : s.findClient nick = some none := by
  obtain ⟨found, lookup, some, -⟩ := intact.find (noId_of_plain plain)
  cases found with
  | none => exact lookup
  | some d =>
    obtain ⟨member, -, same⟩ := some d rfl
    exact absurd same (free d member (by simp))

/-- Nobody has the id. -/
def Strange (s : State) (id : List Char) : Prop :=
  ∀ c ∈ s.globalClientList, (s.client c).user ≠ some id

theorem findId_strange (inOrder : InOrder s) {id : List Char} (strange : Strange s id) :
    s.findId id = some none := by
  obtain ⟨found, lookup, some, -⟩ := inOrder.ids.find
    (enough_list inOrder.toIntact fun _ inside => inside.1) (hashId id)
    fun who => (s.client who).user = some id
  cases found with
  | none => exact lookup
  | some d =>
    obtain ⟨inside, -, same⟩ := some d rfl
    exact absurd (of_decide_eq_true same) (strange d inside.1)

theorem KilledFrom.free (killed : KilledFrom s t h) (intact : Intact s) (person : Person s h)
    (name : (s.client h).name = nick) : Intact.Free t none nick := by
  have nonempty : nick ≠ [] := name ▸ person.named
  have removed : Removed h s t := ⟨killed.inOrder.toIntact, killed.same, killed.list⟩
  exact removed.free intact.toListed nonempty person.member (by rw [name]; exact IrcEq.refl nick)

theorem KilledFrom.freeStill (killed : KilledFrom s t h) (free : Intact.Free s none nick) :
    Intact.Free t none nick := by
  intro c member _
  rw [killed.list] at member
  rw [killed.same.name]
  exact free c (List.mem_of_mem_erase member) (by simp)

theorem KilledFrom.strange (killed : KilledFrom s t h) {id : List Char} (strange : Strange s id)
    (intact : Intact s) : Strange t id := by
  intro c member
  rw [killed.list] at member
  obtain ⟨other, member⟩ := intact.nodup.mem_erase_iff.mp member
  rw [killed.client c other]
  exact strange c member

/-! ### KILL -/

/-- A link to a server. -/
structure Linked (s : State) (link : ClientId) : Prop where
  member : link ∈ s.globalClientList
  status : (s.client link).status = .server
  source : (s.client link).source = link
  modes : Umode.oper ∉ (s.client link).umodes
  inServList : link ∈ s.servList

variable {link : ClientId}

theorem Linked.killedFrom (linked : Linked s link) (person : Person s h)
    (killed : KilledFrom s t h) (intact : Intact s) : Linked t link := by
  have other : link ≠ h := by
    rintro rfl
    exact person.isUser.1 linked.status
  have client := killed.client link other
  refine ⟨?_, by rw [client, linked.status], by rw [client, linked.source],
    by rw [client]; exact linked.modes, by rw [killed.servList]; exact linked.inServList⟩
  rw [killed.list]
  exact intact.nodup.mem_erase_iff.mpr ⟨other, linked.member⟩

theorem Linked.told (linked : Linked s link) (told : Told s t) : Linked t link := by
  obtain ⟨lines, ubuf, rfl, -⟩ := told
  exact ⟨linked.member, linked.status, linked.source, linked.modes, linked.inServList⟩

/-- The mark `FLAGS_KILLED` on somebody who has left. -/
theorem InOrder.mark (inOrder : InOrder s) (c : ClientId) :
    InOrder (s.setClient c { s.client c with killed := true }) := by
  have client : ∀ d, ((s.setClient c { s.client c with killed := true }).client d).user =
      (s.client d).user ∧ ((s.setClient c { s.client c with killed := true }).client d).status =
        (s.client d).status ∧ ((s.setClient c { s.client c with killed := true }).client d).name =
          (s.client d).name ∧
      ((s.setClient c { s.client c with killed := true }).client d).dead = (s.client d).dead := by
    intro d
    by_cases same : d = c
    · subst same
      rw [State.client_setClient_self]
      exact ⟨rfl, rfl, rfl, rfl⟩
    · rw [State.client_setClient_of_ne _ same]
      exact ⟨rfl, rfl, rfl, rfl⟩
  refine ⟨inOrder.toIntact.setClient rfl rfl rfl rfl, ?_, fun entry member d online => ?_,
    fun l member => ?_⟩
  · have hasId : ∀ d, ((s.setClient c { s.client c with killed := true }).client d).hasId =
        (s.client d).hasId := fun d => by
      rw [Client.hasId, Client.hasId, (client d).1, (client d).2.1]
    have id : ∀ d, ((s.setClient c { s.client c with killed := true }).client d).id =
        (s.client d).id := fun d => by rw [Client.id, Client.id, (client d).1]
    unfold IdsHeld
    simp only [hasId, id]
    exact inOrder.ids
  · obtain ⟨user, status, name, dead⟩ := client d
    rcases inOrder.history entry member d online with person | gone
    · refine Or.inl ⟨person.member, ?_, ?_, ?_⟩
      · rw [status]
        exact person.registered
      · rw [user]
        exact person.user
      · rw [name]
        exact person.named
    · exact Or.inr (by rwa [dead])
  · rw [(client l).2.1]
    exact inOrder.links l member

theorem killUser_killed (inOrder : InOrder s) (linked : Linked s link) (person : Person s h) :
    ∃ t, s.killUser link link h = some t ∧ KilledFrom (s.relayKill link link h) t h := by
  unfold State.killUser
  rw [if_pos (Or.inr (Or.inr linked.modes))]
  have relayed : InOrder (s.relayKill link link h) := inOrder.sends _ s.ubuf
  exact exitKilled_total relayed ⟨person.member, person.registered, person.user, person.named⟩
    (some link)

/-- What a server is like where a nick has become free. -/
structure Vacant (s : State) (link : ClientId) (nick : List Char) : Prop where
  inOrder : InOrder s
  linked : Linked s link
  free : Intact.Free s none nick

theorem KilledFrom.vacant (killed : KilledFrom s t h) (inOrder : InOrder s)
    (linked : Linked s link) (person : Person s h) (name : (s.client h).name = nick) :
    Vacant t link nick :=
  ⟨killed.inOrder, linked.killedFrom person killed inOrder.toIntact,
    killed.free inOrder.toIntact person name⟩

theorem Vacant.sends (vacant : Vacant s link nick) (sent : List (ClientId × Message)) :
    Vacant { s with sent := sent } link nick :=
  ⟨vacant.inOrder.sends sent s.ubuf,
    ⟨vacant.linked.member, vacant.linked.status, vacant.linked.source, vacant.linked.modes,
      vacant.linked.inServList⟩, vacant.free⟩

theorem Vacant.mark (vacant : Vacant s link nick) {c : ClientId} (dead : (s.client c).dead = true) :
    Vacant (s.setClient c { s.client c with killed := true }) link nick := by
  have other : link ≠ c := by
    rintro rfl
    rw [vacant.inOrder.alive link vacant.linked.member (by simp)] at dead
    cases dead
  have client : (s.setClient c { s.client c with killed := true }).client link = s.client link :=
    State.client_setClient_of_ne _ other _
  have same : SameClients s (s.setClient c { s.client c with killed := true }) :=
    SameClients.setClient rfl rfl rfl
  refine ⟨vacant.inOrder.mark c, ⟨vacant.linked.member, ?_, ?_, ?_, vacant.linked.inServList⟩, ?_⟩
  · rw [client]
    exact vacant.linked.status
  · rw [client]
    exact vacant.linked.source
  · rw [client]
    exact vacant.linked.modes
  · intro d member other
    rw [same.name]
    exact vacant.free d member other

theorem strange_mark {id : List Char} {c : ClientId} (strange : Strange s id) :
    Strange (s.setClient c { s.client c with killed := true }) id := by
  intro d member
  by_cases same : d = c
  · subst same
    rw [State.client_setClient_self]
    exact strange d member
  · rw [State.client_setClient_of_ne _ same]
    exact strange d member

theorem mem_of_getHistory {timelimit : ℤ} {c : ClientId} (found : s.getHistory nick timelimit = some c) :
    ∃ entry ∈ s.whowas, entry.online = some c := by
  obtain ⟨entry, first, online⟩ := Option.bind_eq_some_iff.mp found
  exact ⟨entry, List.mem_of_find?_eq_some first, online⟩

/-- A `KILL` for a free nick, or for an id that nobody has, frees nothing that matters: at most it
chases somebody who has had the nick. -/
theorem Vacant.msKill (vacant : Vacant s link nick) (plain : '.' ∉ nick) (nonempty : nick ≠ [])
    (sender : List Char) {victim : List Char}
    (who : victim = nick ∨ (victim.head? = some '.' ∧ Strange s victim)) :
    ∃ t, s.msKill link link [sender, victim] = some t ∧ Vacant t link nick ∧
      ∀ id, Strange s id → Strange t id := by
  have named : victim ≠ [] := by
    rcases who with rfl | ⟨dot, -⟩
    · exact nonempty
    · rintro rfl
      cases dot
  unfold State.msKill
  rw [show param [sender, victim] 1 = victim from rfl, if_neg named,
    if_neg fun both => both.1 vacant.linked.status]
  -- nobody is found, and somebody who has had the nick may be chased
  have lookup : s.findClient victim = some none := by
    rcases who with rfl | ⟨dot, strange⟩
    · exact findClient_free vacant.inOrder.toIntact plain vacant.free
    · rw [State.findClient, if_pos dot]
      exact findId_strange vacant.inOrder strange
  have target : s.killTarget victim = some (if victim.head? = some '.' then none
      else s.getHistory victim killChaseTimeLimit) := by
    rw [State.killTarget, lookup]
    rfl
  rw [target, Option.bind_eq_bind, Option.bind_some]
  cases chased : (if victim.head? = some '.' then none
      else s.getHistory victim killChaseTimeLimit) with
  | none => exact ⟨s, rfl, vacant, fun _ strange => strange⟩
  | some c =>
    dsimp only
    split
    · exact ⟨s, rfl, vacant, fun _ strange => strange⟩
    · split at chased
      · cases chased
      obtain ⟨entry, member, online⟩ := mem_of_getHistory chased
      have relayed : Vacant (s.relayKill link link c) link nick := vacant.sends _
      rcases vacant.inOrder.history entry member c online with person | dead
      · obtain ⟨t, run, killed⟩ := killUser_killed vacant.inOrder vacant.linked person
        have person' : Person (s.relayKill link link c) c :=
          ⟨person.member, person.registered, person.user, person.named⟩
        refine ⟨t, run, ⟨killed.inOrder,
          relayed.linked.killedFrom person' killed relayed.inOrder.toIntact,
          killed.freeStill relayed.free⟩, fun id strange => ?_⟩
        exact killed.strange strange relayed.inOrder.toIntact
      · -- somebody who has left already, and is not freed yet
        have run : s.killUser link link c = some ((s.relayKill link link c).setClient c
            { (s.relayKill link link c).client c with killed := true }) := by
          unfold State.killUser
          rw [if_pos (Or.inr (Or.inr vacant.linked.modes))]
          unfold State.exitKilled State.exitClient
          rw [State.client_setClient_self, if_pos]
          exact dead
        exact ⟨_, run, relayed.mark dead, fun id strange => strange_mark strange⟩

/-- The other server's `KILL`s, one after the other. -/
def State.takeKills (s : State) (link : ClientId) (sender : List Char)
    (kills : List (List (List Char))) : Option State :=
  kills.foldlM (fun s params => s.msKill link link (sender :: params)) s

theorem Vacant.takeKills (vacant : Vacant s link nick) (plain : '.' ∉ nick) (nonempty : nick ≠ [])
    (sender : List Char) {victim : List Char}
    (who : victim = nick ∨ (victim.head? = some '.' ∧ Strange s victim)) {kills : List (List (List Char))} (all : ∀ params ∈ kills, params = [victim]) :
    ∃ t, s.takeKills link sender kills = some t ∧ Vacant t link nick := by
  induction kills generalizing s with
  | nil => exact ⟨s, rfl, vacant⟩
  | cons params kills ih =>
    obtain rfl := all params List.mem_cons_self
    obtain ⟨t, run, vacant', stranger⟩ := vacant.msKill plain nonempty sender who
    have who' : victim = nick ∨ (victim.head? = some '.' ∧ Strange t victim) :=
      who.imp_right fun both => ⟨both.1, stranger victim both.2⟩
    obtain ⟨u, rest, vacant''⟩ := ih vacant' who' fun params member =>
      all params (List.mem_cons_of_mem _ member)
    refine ⟨u, ?_, vacant''⟩
    unfold State.takeKills
    rw [List.foldlM_cons, run]
    exact rest

/-- A `KILL` that finds the holder of the nick. -/
theorem msKill_holder (inOrder : InOrder s) (linked : Linked s link) (person : Person s h)
    (name : (s.client h).name = nick) (sender : List Char) {victim : List Char} (named : victim ≠ [])
    (found : s.findClient victim = some (some h)) :
    ∃ t, s.msKill link link [sender, victim] = some t ∧ Vacant t link nick ∧
      ∀ id, (∀ c ∈ s.globalClientList, c ≠ h → (s.client c).user ≠ some id) → Strange t id := by
  obtain ⟨t, run, killed⟩ := killUser_killed inOrder linked person
  have relayed : InOrder (s.relayKill link link h) := inOrder.sends _ s.ubuf
  have linked' : Linked (s.relayKill link link h) link :=
    ⟨linked.member, linked.status, linked.source, linked.modes, linked.inServList⟩
  have person' : Person (s.relayKill link link h) h :=
    ⟨person.member, person.registered, person.user, person.named⟩
  refine ⟨t, ?_, killed.vacant relayed linked' person' name, fun id others c member => ?_⟩
  · unfold State.msKill
    rw [show param [sender, victim] 1 = victim from rfl, if_neg named,
      if_neg fun both => both.1 linked.status, State.killTarget, found, Option.map_some,
      Option.bind_eq_bind, Option.bind_some]
    dsimp only
    rw [if_neg (not_or.mpr person.isUser)]
    exact run
  · rw [killed.list] at member
    obtain ⟨other, member⟩ := relayed.nodup.mem_erase_iff.mp member
    rw [killed.client c other]
    exact others c member other

/-- The `KILL`s of the other server, where they find the holder of the nick. -/
theorem takeKills_holder (inOrder : InOrder s) (linked : Linked s link) (person : Person s h)
    (name : (s.client h).name = nick) (plain : '.' ∉ nick) (sender : List Char)
    {victim : List Char} (named : victim ≠ []) (found : s.findClient victim = some (some h))
    (who : victim = nick ∨ (victim.head? = some '.' ∧
      ∀ c ∈ s.globalClientList, c ≠ h → (s.client c).user ≠ some victim))
    {kills : List (List (List Char))} (all : ∀ params ∈ kills, params = [victim])
    (nonempty : kills ≠ []) :
    ∃ t, s.takeKills link sender kills = some t ∧ Vacant t link nick := by
  cases kills with
  | nil => exact absurd rfl nonempty
  | cons params kills =>
    obtain rfl := all params List.mem_cons_self
    obtain ⟨t, run, vacant, stranger⟩ := msKill_holder inOrder linked person name sender
      named found
    have who' : victim = nick ∨ (victim.head? = some '.' ∧ Strange t victim) :=
      who.imp_right fun both => ⟨both.1, stranger victim both.2⟩
    obtain ⟨u, rest, vacant'⟩ := vacant.takeKills plain (name ▸ person.named) sender
      who' fun params member => all params (List.mem_cons_of_mem _ member)
    refine ⟨u, ?_, vacant'⟩
    unfold State.takeKills
    rw [List.foldlM_cons, run]
    exact rest

/-- `KILL`s for an id that nobody has are ignored. -/
theorem takeKills_strange (inOrder : InOrder s) (linked : Linked s link) (sender : List Char)
    {victim : List Char} (dot : victim.head? = some '.') (strange : Strange s victim)
    {kills : List (List (List Char))} (all : ∀ params ∈ kills, params = [victim]) :
    s.takeKills link sender kills = some s := by
  have named : victim ≠ [] := by
    rintro rfl
    cases dot
  have lookup : s.findClient victim = some none := by
    rw [State.findClient, if_pos dot]
    exact findId_strange inOrder strange
  have target : s.killTarget victim = some none := by
    rw [State.killTarget, lookup, Option.map_some]
    dsimp only
    rw [if_pos dot]
  have ignored : s.msKill link link [sender, victim] = some s := by
    unfold State.msKill
    rw [show param [sender, victim] 1 = victim from rfl, if_neg named,
      if_neg fun both => both.1 linked.status, target]
    rfl
  induction kills with
  | nil => rfl
  | cons params kills ih =>
    obtain rfl := all params List.mem_cons_self
    unfold State.takeKills
    rw [List.foldlM_cons, ignored]
    exact ih fun params member => all params (List.mem_cons_of_mem _ member)

end Ircd.Nick
