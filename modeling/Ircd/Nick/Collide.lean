import Ircd.Nick.KillSteps
import Ircd.Numbers

/-!
# Nick collisions

Two linked servers hold different clients under one nick. Each of them decides about the newcomer on
its own, and sends a `KILL` where it removes both.
-/
namespace Ircd.Nick

open Chan (ClientId Status param)

/-! ### Introductions -/

/-- The introduction of a client as the other server is given it. -/
def State.introParv (s : State) (link who : ClientId) (sender server umodes : List Char) :
    List (List Char) :=
  let client := s.client who
  sender :: (client.introParams server umodes (s.hasUid link && client.hasId) ++ [client.info])

/-- An introduction with an id is a `CLIENT`, and one without is a `NICK`. -/
def State.takeIntro (s : State) (link : ClientId) (parv : List (List Char)) : Option State :=
  if parv.length = 10 then s.tsmClient link link parv else s.tsmNick link link parv

/-- How a timestamp is heard that has been sent with `%lu`. -/
def heard (ts : ℤ) : ℤ := atol (printLu (ts % 2 ^ 64).toNat)

/-- What a collision reads of an introduction. -/
structure IntroLine (parv : List (List Char)) (nick : List Char) (ts : ℤ) : Prop where
  count : parv.length = 9 ∨ parv.length = 10
  nick : param parv 1 = nick
  ts : atol (param parv 3) = ts
  user : (param parv 5).length ≤ Chan.userLen
  host : (param parv 6).length ≤ Chan.hostLen
  id : parv.length = 10 → param parv 8 ≠ []

variable {s t u : State} {link h who : ClientId} {nick : List Char} {parv : List (List Char)} {ts : ℤ}

theorem introLine_introParv (sender server umodes : List Char) :
    IntroLine (s.introParv link who sender server umodes) (s.client who).name
      (heard (s.client who).tsinfo) := by
  unfold State.introParv Client.introParams
  dsimp only
  cases withId : s.hasUid link && (s.client who).hasId with
  | false =>
    exact ⟨Or.inl rfl, rfl, rfl, (s.client who).username_len, (s.client who).host_len,
      fun count => absurd count (by simp)⟩
  | true =>
    refine ⟨Or.inr rfl, rfl, rfl, (s.client who).username_len, (s.client who).host_len, fun _ => ?_⟩
    have hasId := (Bool.and_eq_true_iff.mp withId).2
    have user := (Bool.and_eq_true_iff.mp hasId).2
    change (s.client who).id ≠ []
    rw [Client.id]
    cases given : (s.client who).user with
    | none =>
      rw [given] at user
      cases user
    | some id =>
      rw [given] at user
      simpa using user

/-- A nick as the servers take it. -/
structure GoodNick (nick : List Char) : Prop where
  clean : cleanNickName nick = true
  nonempty : nick ≠ []
  short : nick.length ≤ nickLen

theorem GoodNick.plain (good : GoodNick nick) : '.' ∉ nick := plain_of_clean good.clean

theorem GoodNick.serverNick (good : GoodNick nick) : ServerNick nick :=
  ⟨good.nonempty, good.short.trans (by decide), good.plain⟩

theorem checkUserHost_short {user host : List Char} (userFits : user.length ≤ Chan.userLen)
    (hostFits : host.length ≤ Chan.hostLen) :
    s.checkUserHost link nick user host = (false, s) := by
  unfold State.checkUserHost State.checkCleanUser State.checkCleanHost State.checkLength
  rw [if_neg (Nat.not_lt_of_le userFits)]
  dsimp only
  rw [if_neg Bool.false_ne_true, if_neg (Nat.not_lt_of_le hostFits)]

/-- An introduction passes the checks of its text. -/
theorem takeIntro_checked (good : GoodNick nick) (intro : IntroLine parv nick ts) :
    s.takeIntro link parv = if parv.length = 10 then s.takeClient link link parv ts nick
      else s.takeNick link link parv (s.newtsOf link parv) nick := by
  have whole : (param parv 1).take (nickLen + 1) = nick := by
    rw [intro.nick]
    exact List.take_of_length_le (good.short.trans (Nat.le_succ _))
  have checked : s.checkCleanNick link link nick (param parv 1) = some (false, s) := by
    unfold State.checkCleanNick
    rw [if_neg]
    rw [not_or, Bool.not_eq_false, not_not]
    exact ⟨good.clean, intro.nick.symm⟩
  have text : s.checkUserHost link nick (param parv 5) (param parv 6) = (false, s) :=
    checkUserHost_short intro.user intro.host
  unfold State.takeIntro
  split
  next count =>
    unfold State.tsmClient
    rw [if_neg (by omega)]
    dsimp only
    rw [whole, checked, Option.bind_eq_bind, Option.bind_some]
    dsimp only
    rw [if_neg Bool.false_ne_true, text]
    dsimp only
    rw [if_neg Bool.false_ne_true, intro.ts]
  next count =>
    have nine : parv.length = 9 := intro.count.resolve_right count
    unfold State.tsmNick
    rw [if_neg (by omega)]
    dsimp only
    rw [whole, checked, Option.bind_eq_bind, Option.bind_some]
    dsimp only
    rw [if_neg Bool.false_ne_true, if_pos nine, text]
    dsimp only
    rw [if_neg Bool.false_ne_true]

theorem newtsOf_intro (status : (s.client link).status = .server) (intro : IntroLine parv nick ts)
    (count : parv.length ≠ 10) : s.newtsOf link parv = ts := by
  rw [State.newtsOf, if_pos (intro.count.resolve_right count), if_pos status, intro.ts]

/-- Where the nick is in use, an introduction is a collision. -/
theorem takeIntro_eq (intact : Intact s) (linked : Linked s link) (person : Person s h)
    (name : (s.client h).name = nick) (good : GoodNick nick) (intro : IntroLine parv nick ts) :
    s.takeIntro link parv = s.introCollides link link h parv ts nick := by
  have lookup : s.findClient nick = some (some h) := findClient_holder intact person good.plain name
  have known : (s.client h).status ≠ .unknown := by
    rw [person.registered]
    exact Status.noConfusion
  have other : h ≠ link := by
    rintro rfl
    exact person.isUser.1 linked.status
  rw [takeIntro_checked good intro]
  split
  next count =>
    rw [State.takeClient, lookup, Option.bind_eq_bind, Option.bind_some]
    dsimp only
    rw [if_neg known, State.performNickCollides, if_pos linked.status]
  next count =>
    rw [State.takeNick, lookup, Option.bind_eq_bind, Option.bind_some]
    dsimp only
    rw [if_neg known, if_neg other, State.performNickCollides, if_pos linked.status,
      newtsOf_intro linked.status intro count]

/-- The `KILL`s that have been sent over a link on the way from one state to another. -/
def killsTo (s t : State) (link : ClientId) : List (List (List Char)) :=
  ((t.sent.drop s.sent.length).filter fun line => line.1 = link ∧ line.2.command = .kill).map
    fun line => line.2.params

theorem killsTo_append {lines : List (ClientId × Message)} (sent : t.sent = s.sent ++ lines) :
    killsTo s t link = (lines.filter fun line => line.1 = link ∧ line.2.command = .kill).map
      fun line => line.2.params := by
  rw [killsTo, sent, List.drop_left]

/-- Whom a `KILL` names. -/
def State.victim (s : State) (link h : ClientId) : List Char :=
  if (s.client h).hasId = true ∧ s.hasUid link = true then (s.client h).id else (s.client h).name

/-- Both are removed: the holder here, and the newcomer by a `KILL`. -/
theorem collide_both (inOrder : InOrder s) (linked : Linked s link) (person : Person s h)
    (name : (s.client h).name = nick) (both : bothKilled ts (s.client h).tsinfo = true) :
    ∃ t, s.introCollides link link h parv ts nick = some t ∧ Vacant t link nick ∧
      (∀ params ∈ killsTo s t link, params = [s.victim link h]) ∧ killsTo s t link ≠ [] ∧
      ∀ id, Strange s id → Strange t id := by
  have sent : InOrder (s.killClientButone none h) := inOrder.sends _ s.ubuf
  have linked' : Linked (s.killClientButone none h) link :=
    ⟨linked.member, linked.status, linked.source, linked.modes, linked.inServList⟩
  have person' : Person (s.killClientButone none h) h :=
    ⟨person.member, person.registered, person.user, person.named⟩
  obtain ⟨t, run, killed⟩ := exitKilled_total sent person' (some link)
  refine ⟨t, ?_, killed.vacant sent linked' person' name, ?_, ?_, fun id strange =>
    killed.strange strange sent.toIntact⟩
  · unfold State.introCollides
    dsimp only
    rw [if_pos both]
    exact run
  · rw [killsTo_append killed.sent]
    intro params member
    obtain ⟨line, inside, rfl⟩ := List.mem_map.mp member
    obtain ⟨inside, isLink⟩ := List.mem_filter.mp inside
    obtain ⟨target, -, rfl⟩ := List.mem_map.mp inside
    obtain rfl : target = link := (of_decide_eq_true isLink).1
    rfl
  · rw [killsTo_append killed.sent]
    apply List.ne_nil_of_mem
    apply List.mem_map.mpr
    refine ⟨(link, ⟨s.meName, .kill, [s.victim link h]⟩), List.mem_filter.mpr ⟨?_, by simp⟩, rfl⟩
    exact List.mem_map.mpr ⟨link, List.mem_filter.mpr ⟨linked.inServList, rfl⟩, rfl⟩

theorem collide_keep (both : bothKilled ts (s.client h).tsinfo = false)
    (loses : newcomerLoses ((s.client h).user.isSome &&
      (s.client h).sameUser (param parv 5) (param parv 6)) ts (s.client h).tsinfo = true) :
    s.introCollides link link h parv ts nick = some s := by
  unfold State.introCollides
  dsimp only
  rw [both, if_neg Bool.false_ne_true, loses, if_pos rfl]

theorem killsTo_self : killsTo s s link = [] := by
  rw [killsTo, List.drop_length]
  rfl

/-- A client that is welcomed with an id, or without one. -/
theorem InOrder.welcome (inOrder : InOrder s) {client : Client} (name : client.name ≠ [])
    (free : Intact.Free s none client.name) (dead : client.dead = false)
    (registered : client.status = .client) (user : client.user.isSome = true)
    (plain : '.' ∉ client.name) {table : ChainTable ClientId}
    (held : table.Holds
      (Function.update (fun c => hashId (s.client c).id) s.nextClient (hashId client.id))
      (if client.hasId = true then
        insert s.nextClient {c | c ∈ s.globalClientList ∧ (s.client c).hasId = true}
      else {c | c ∈ s.globalClientList ∧ (s.client c).hasId = true})) :
    InOrder { s.welcome client with idTable := table } := by
  have old : ∀ c ∈ s.globalClientList, (s.welcome client).client c = s.client c :=
    fun c member => State.client_setClient_of_ne _ (ne_of_mem_of_not_mem member inOrder.absent) _
  have new : (s.welcome client).client s.nextClient = client := State.client_setClient_self ..
  have list : (s.welcome client).globalClientList = s.nextClient :: s.globalClientList := rfl
  have entered : Intact (s.welcome client) := inOrder.toIntact.enter client name free dead
    (by rw [registered]; exact Status.noConfusion) (by rw [registered]; simp [plain])
  refine ⟨entered.congr (SameClients.ofEq rfl rfl rfl) rfl rfl fun _ => rfl, ?_,
    fun entry member c online => ?_, fun link member => ?_⟩
  · -- the id table gets the newcomer if it has an id
    have members : {c | c ∈ (s.welcome client).globalClientList ∧
        ((s.welcome client).client c).hasId = true} = (if client.hasId = true then
          insert s.nextClient {c | c ∈ s.globalClientList ∧ (s.client c).hasId = true}
        else {c | c ∈ s.globalClientList ∧ (s.client c).hasId = true}) := by
      ext c
      rw [Set.mem_ofPred_eq, list, List.mem_cons]
      by_cases isNew : c = s.nextClient
      · subst isNew
        rw [new]
        split
        next hasId => simp [hasId]
        next noId => simp [noId, inOrder.absent]
      · have same : c ∈ s.globalClientList ∧ ((s.welcome client).client c).hasId = true ↔
            c ∈ s.globalClientList ∧ (s.client c).hasId = true :=
          and_congr_right fun member => by rw [old c member]
        rw [or_iff_right isNew, same]
        split
        · rw [Set.mem_insert_iff, or_iff_right isNew, Set.mem_ofPred_eq]
        · rw [Set.mem_ofPred_eq]
    change table.Holds (fun c => hashId ((s.welcome client).client c).id) {c | c ∈ (s.welcome client).globalClientList ∧
      ((s.welcome client).client c).hasId = true}
    rw [members]
    refine held.congr_key fun c member => ?_
    by_cases isNew : c = s.nextClient
    · subst isNew
      rw [Function.update_self, new]
    · have listed : c ∈ s.globalClientList := by
        split at member
        · exact ((Set.mem_insert_iff.mp member).resolve_left isNew).1
        · exact member.1
      rw [Function.update_of_ne isNew, old c listed]
  · by_cases isNew : c = s.nextClient
    · subst isNew
      refine Or.inl ⟨List.mem_cons_self, ?_, ?_, ?_⟩
      · exact (congrArg Client.status new).trans registered
      · exact (congrArg (fun client : Client => client.user.isSome) new).trans user
      · exact fun empty => name ((congrArg Client.name new).symm.trans empty)
    · have same : (s.welcome client).client c = s.client c := State.client_setClient_of_ne _ isNew _
      rcases inOrder.history entry member c online with person | gone
      · refine Or.inl ⟨List.mem_cons_of_mem _ person.member, ?_, ?_, ?_⟩
        · exact (congrArg Client.status same).trans person.registered
        · exact (congrArg (fun client : Client => client.user.isSome) same).trans person.user
        · exact fun empty => person.named ((congrArg Client.name same).symm.trans empty)
      · exact Or.inr ((congrArg Client.dead same).trans gone)
  · obtain ⟨listed, server⟩ := inOrder.links link member
    exact ⟨List.mem_cons_of_mem _ listed, (congrArg Client.status (old link listed)).trans server⟩

theorem Knows.killedFrom {srv : ClientId} {server : List Char} (knows : Knows s link srv server)
    (killed : KilledFrom s t h) (person : Person s h) (intact : Intact s) (linked : Linked s link) :
    Knows t link srv server := by
  have other : srv ≠ h := by
    rintro rfl
    exact person.isUser.1 knows.status
  have linkOther : link ≠ h := by
    rintro rfl
    exact person.isUser.1 linked.status
  refine ⟨?_, ?_, knows.noId, ?_, ?_, ?_⟩
  · rw [killed.list]
    exact intact.nodup.mem_erase_iff.mpr ⟨other, knows.member⟩
  · rw [killed.same.name]
    exact knows.same
  · rw [killed.same.status]
    exact knows.status
  · rw [killed.same.source]
    exact knows.source
  · rw [killed.client link linkOther]
    exact knows.alive

/-- What a server is like that has taken a newcomer in. -/
structure TookIn (t : State) (link new : ClientId) (nick : List Char) : Prop where
  inOrder : InOrder t
  linked : Linked t link
  person : Person t new
  name : (t.client new).name = nick

/-- The newcomer is the one with the id. -/
structure KnownById (t : State) (new : ClientId) (id : List Char) : Prop where
  found : t.findId id = some (some new)
  only : ∀ c ∈ t.globalClientList, c ≠ new → (t.client c).user ≠ some id

theorem TookIn.told {new : ClientId} (took : TookIn s link new nick) (told : Told s t) :
    TookIn t link new nick := by
  refine ⟨told.inOrder took.inOrder, took.linked.told told, ?_, ?_⟩
  · obtain ⟨lines, ubuf, rfl, -⟩ := told
    exact ⟨took.person.member, took.person.registered, took.person.user, took.person.named⟩
  · rw [told.same.name]
    exact took.name

/-- A registered client is welcomed. -/
theorem InOrder.tookIn (inOrder : InOrder s) (linked : Linked s link) {client : Client}
    (good : GoodNick nick) (free : Intact.Free s none nick) (name : client.name = nick)
    (dead : client.dead = false) (registered : client.status = .client)
    (user : client.user.isSome = true) {table : ChainTable ClientId}
    (held : table.Holds
      (Function.update (fun c => hashId (s.client c).id) s.nextClient (hashId client.id))
      (if client.hasId = true then
        insert s.nextClient {c | c ∈ s.globalClientList ∧ (s.client c).hasId = true}
      else {c | c ∈ s.globalClientList ∧ (s.client c).hasId = true})) :
    TookIn { s.welcome client with idTable := table } link s.nextClient nick := by
  subst name
  have new : (s.welcome client).client s.nextClient = client := State.client_setClient_self ..
  have old : (s.welcome client).client link = s.client link :=
    State.client_setClient_of_ne _ (ne_of_mem_of_not_mem linked.member inOrder.absent) _
  refine ⟨inOrder.welcome good.nonempty free dead registered user good.plain held,
    ⟨List.mem_cons_of_mem _ linked.member, ?_, ?_, ?_, linked.inServList⟩,
    ⟨List.mem_cons_self, ?_, ?_, ?_⟩, ?_⟩
  · exact (congrArg Client.status old).trans linked.status
  · exact (congrArg Client.source old).trans linked.source
  · exact fun oper => linked.modes ((congrArg Client.umodes old) ▸ oper)
  · exact (congrArg Client.status new).trans registered
  · exact (congrArg (fun client : Client => client.user.isSome) new).trans user
  · exact fun empty => good.nonempty ((congrArg Client.name new).symm.trans empty)
  · exact congrArg Client.name new

theorem newNickFromServer_tookIn {srv : ClientId} (inOrder : InOrder s) (linked : Linked s link)
    (good : GoodNick nick) (free : Intact.Free s none nick)
    (knows : Knows s link srv (param parv 7)) (long : 8 < parv.length) :
    ∃ t lines, s.newNickFromServer link parv ts nick = some t ∧ t.sent = s.sent ++ lines ∧
      (∀ line ∈ lines, line.2.command ≠ .kill) ∧ TookIn t link s.nextClient nick := by
  obtain ⟨t, run, told⟩ := newNickFromServer_told inOrder.toIntact good.serverNick free
    linked.member knows long
  have name : (Client.ofNickLine link srv parv ts s.currentTime nick).name = nick :=
    List.take_of_length_le good.serverNick.short
  have noId : (Client.ofNickLine link srv parv ts s.currentTime nick).hasId = false := rfl
  have held : s.idTable.Holds (Function.update (fun c => hashId (s.client c).id) s.nextClient
      (hashId (Client.ofNickLine link srv parv ts s.currentTime nick).id))
      {c | c ∈ s.globalClientList ∧ (s.client c).hasId = true} :=
    inOrder.ids.congr_key fun c member =>
      Function.update_of_ne (ne_of_mem_of_not_mem member.1 inOrder.absent) _ _
  have took : TookIn (s.welcome (Client.ofNickLine link srv parv ts s.currentTime nick)) link
      s.nextClient nick :=
    inOrder.tookIn linked good free name rfl rfl rfl (by
      rw [noId, if_neg Bool.false_ne_true]
      exact held)
  have took' := took.told told
  obtain ⟨lines, ubuf, rfl, noKill⟩ := told
  exact ⟨_, lines, run, rfl, noKill, took'⟩

theorem clientFromServer_tookIn {srv : ClientId} (inOrder : InOrder s) (linked : Linked s link)
    (good : GoodNick nick) (free : Intact.Free s none nick)
    (knows : Knows s link srv (param parv 7)) (id : param parv 8 ≠ []) :
    ∃ t lines, s.clientFromServer link parv ts nick = some t ∧ t.sent = s.sent ++ lines ∧
      (∀ line ∈ lines, line.2.command ≠ .kill) ∧ TookIn t link s.nextClient nick ∧
      (Strange s (param parv 8) → KnownById t s.nextClient (param parv 8)) := by
  obtain ⟨t, run, told⟩ := clientFromServer_told inOrder.toIntact good.serverNick free
    linked.member knows
  generalize made : Client.ofClientLine link srv parv ts nick = client at told
  have data : client.name = nick ∧ client.dead = false ∧ client.status = .client ∧
      client.user = some (param parv 8) := by
    rw [← made]
    exact ⟨List.take_of_length_le good.serverNick.short, rfl, rfl, rfl⟩
  obtain ⟨name, dead, registered, user⟩ := data
  have hasId : client.hasId = true := by
    rw [Client.hasId, registered, user]
    simpa using id
  have isId : client.id = param parv 8 := by
    rw [Client.id, user]
    rfl
  have held := inOrder.ids.add (a := s.nextClient) (fun member => inOrder.absent member.1)
    (hashId (param parv 8))
  have took : TookIn ((s.welcome client).addToIdHashTable (param parv 8) s.nextClient) link
      s.nextClient nick :=
    inOrder.tookIn linked good free name dead registered (by rw [user]; rfl) (by
      rw [hasId, if_pos rfl, isId]
      exact held)
  have took' := took.told told
  have new : ((s.welcome client).client s.nextClient).user = some (param parv 8) :=
    (congrArg Client.user (State.client_setClient_self ..)).trans user
  obtain ⟨lines, ubuf, rfl, noKill⟩ := told
  refine ⟨_, lines, run, rfl, noKill, took', fun strange => ⟨?_, fun c member other => ?_⟩⟩
  · -- the new entry is the first of its bucket
    change ((s.idTable.add (hashId (param parv 8)) s.nextClient).find (s.nextClient + 1)
      (hashId (param parv 8)) fun who => ((s.welcome client).client who).user =
        some (param parv 8)) = some (some s.nextClient)
    rw [ChainTable.find, show (s.idTable.add (hashId (param parv 8)) s.nextClient).heads
      (hashId (param parv 8)) = some s.nextClient from Function.update_self .., findFrom,
      if_pos (decide_eq_true new)]
  · have listed : c ∈ s.globalClientList := (List.mem_cons.mp member).resolve_left other
    change ((s.welcome client).client c).user ≠ some (param parv 8)
    rw [show (s.welcome client).client c = s.client c from State.client_setClient_of_ne _ other _]
    exact strange c listed

/-- The newcomer is taken in, and the holder removed. The other server is not told: it has decided
for itself. -/
theorem collide_take {srv : ClientId} (inOrder : InOrder s) (linked : Linked s link)
    (person : Person s h) (name : (s.client h).name = nick) (good : GoodNick nick)
    (intro : IntroLine parv nick ts) (knows : Knows s link srv (param parv 7))
    (both : bothKilled ts (s.client h).tsinfo = false)
    (wins : newcomerLoses ((s.client h).user.isSome &&
      (s.client h).sameUser (param parv 5) (param parv 6)) ts (s.client h).tsinfo = false) :
    ∃ t, s.introCollides link link h parv ts nick = some t ∧ killsTo s t link = [] ∧
      TookIn t link s.nextClient nick ∧
      (parv.length = 10 → Strange s (param parv 8) → KnownById t s.nextClient (param parv 8)) := by
  have sent : InOrder (s.killClientButone (some link) h) := inOrder.sends _ s.ubuf
  have linked' : Linked (s.killClientButone (some link) h) link :=
    ⟨linked.member, linked.status, linked.source, linked.modes, linked.inServList⟩
  have person' : Person (s.killClientButone (some link) h) h :=
    ⟨person.member, person.registered, person.user, person.named⟩
  have knows' : Knows (s.killClientButone (some link) h) link srv (param parv 7) :=
    ⟨knows.member, knows.same, knows.noId, knows.status, knows.source, knows.alive⟩
  obtain ⟨u, gone, killed⟩ := exitKilled_total sent person' (some link)
  have left := killed.vacant sent linked' person' name
  have known := knows'.killedFrom killed person' sent.toIntact linked'
  have next : u.nextClient = s.nextClient := killed.same.nextClient
  -- the `KILL`s for the holder go everywhere else
  have silent : ∀ v lines, v.sent = u.sent ++ lines → (∀ line ∈ lines, line.2.command ≠ .kill) →
      killsTo s v link = [] := by
    intro v lines equal noKill
    rw [killed.sent] at equal
    change v.sent = s.sent ++ _ ++ lines at equal
    rw [List.append_assoc] at equal
    rw [killsTo_append equal, List.map_eq_nil_iff, List.filter_eq_nil_iff]
    intro line member
    rw [decide_eq_true_eq]
    rintro ⟨isLink, isKill⟩
    rcases List.mem_append.mp member with member | member
    · obtain ⟨target, inside, rfl⟩ := List.mem_map.mp member
      obtain rfl : target = link := isLink
      have other := (List.mem_filter.mp inside).2
      simp [linked.source] at other
    · exact noKill line member isKill
  have run : s.introCollides link link h parv ts nick =
      if parv.length = 9 then u.nickFromServer link link parv ts nick
      else if parv.length = 10 then u.clientFromServer link parv ts nick else some u := by
    unfold State.introCollides
    dsimp only
    rw [both, if_neg Bool.false_ne_true, wins, if_neg Bool.false_ne_true, gone]
    rfl
  rw [run, ← next]
  rcases intro.count with nine | ten
  · obtain ⟨t, lines, took, equal, noKill, tookIn⟩ :=
      newNickFromServer_tookIn left.inOrder left.linked good left.free known (by omega)
    refine ⟨t, ?_, silent t lines equal noKill, tookIn, fun ten => by omega⟩
    rw [if_pos nine, State.nickFromServer, if_pos left.linked.status, took]
  · obtain ⟨t, lines, took, equal, noKill, tookIn, byId⟩ :=
      clientFromServer_tookIn left.inOrder left.linked good left.free known (intro.id ten)
    refine ⟨t, ?_, silent t lines equal noKill, tookIn, fun _ strange => byId ?_⟩
    · rw [if_neg (by omega), if_pos ten, took]
    · exact killed.strange strange sent.toIntact

/-! ### One side -/

/-- A server with a link to the other, and its holder of the nick. -/
structure Side (s : State) (link h : ClientId) (nick : List Char) : Prop where
  inOrder : InOrder s
  linked : Linked s link
  person : Person s h
  name : (s.client h).name = nick
  idForm : (s.client h).hasId = true → (s.client h).id.head? = some '.'

/-- The `KILL`s a server sends: none, or some that name the same. -/
def KillsOf (kills : List (List (List Char))) (sent : Bool) (victim : List Char) : Prop :=
  if sent then kills ≠ [] ∧ ∀ params ∈ kills, params = [victim] else kills = []

/-- The `KILL`s of the other server name the nick, or the id of its own client, which nobody has
here unless the client is taken in. -/
def Aims (s : State) (nick : List Char) (parv : List (List Char)) (byId : Bool)
    (victim : List Char) : Prop :=
  if byId then victim.head? = some '.' ∧ Strange s victim ∧ parv.length = 10 ∧
    param parv 8 = victim
  else victim = nick

/-- Who holds the nick in the end: where both are removed nobody, else who has won, unless a `KILL`
finds it. A `KILL` for an id does not find the holder that has been kept. -/
def holderAfter (both loses killed byId : Bool) (h new : ClientId) : Option ClientId :=
  if both then none
  else if loses then if killed && !byId then none else some h
  else if killed then none else some new

theorem Side.result {srv : ClientId} (side : Side s link h nick) (good : GoodNick nick)
    (intro : IntroLine parv nick ts) (knows : Knows s link srv (param parv 7)) :
    ∃ s₁, s.takeIntro link parv = some s₁ ∧
      KillsOf (killsTo s s₁ link) (bothKilled ts (s.client h).tsinfo) (s.victim link h) ∧
      ∀ sender victim kills killed byId, KillsOf kills killed victim → Aims s nick parv byId victim →
        ∃ s₂, s₁.takeKills link sender kills = some s₂ ∧
          s₂.findClient nick = some (holderAfter (bothKilled ts (s.client h).tsinfo)
            (newcomerLoses ((s.client h).sameUser (param parv 5) (param parv 6)) ts
              (s.client h).tsinfo) killed byId h s.nextClient) := by
  obtain ⟨inOrder, linked, person, name, -⟩ := side
  rw [takeIntro_eq inOrder.toIntact linked person name good intro]
  have sameuser : ((s.client h).user.isSome &&
      (s.client h).sameUser (param parv 5) (param parv 6)) =
        (s.client h).sameUser (param parv 5) (param parv 6) := by
    rw [person.user, Bool.true_and]
  have vacantEnd : ∀ u, Vacant u link nick → u.findClient nick = some none := fun u vacant =>
    findClient_free vacant.inOrder.toIntact good.plain vacant.free
  -- both are killed, the newcomer is, or the old holder is
  cases both : bothKilled ts (s.client h).tsinfo with
  | true =>
    obtain ⟨s₁, run, vacant, all, some, stranger⟩ := collide_both inOrder linked person name both
    refine ⟨s₁, run, ⟨some, all⟩, fun sender victim kills killed byId sent aims => ?_⟩
    have who : victim = nick ∨ (victim.head? = Option.some '.' ∧ Strange s₁ victim) := by
      unfold Aims at aims
      split at aims
      · exact Or.inr ⟨aims.1, stranger victim aims.2.1⟩
      · exact Or.inl aims
    have params : ∀ params ∈ kills, params = [victim] := by
      unfold KillsOf at sent
      split at sent
      · exact sent.2
      · rw [sent]
        simp
    obtain ⟨s₂, rest, vacant'⟩ := vacant.takeKills good.plain good.nonempty sender who params
    exact ⟨s₂, rest, vacantEnd s₂ vacant'⟩
  | false =>
    cases loses : newcomerLoses ((s.client h).sameUser (param parv 5) (param parv 6)) ts
      (s.client h).tsinfo with
    | true =>
      rw [← sameuser] at loses
      refine ⟨s, collide_keep both loses, killsTo_self,
        fun sender victim kills killed byId sent aims => ?_⟩
      have found := findClient_holder inOrder.toIntact person good.plain name
      -- the kills of the other side may hit the holder, by its name only
      cases killed with
      | false =>
        obtain rfl : kills = [] := sent
        exact ⟨s, rfl, found⟩
      | true =>
        obtain ⟨some, params⟩ : kills ≠ [] ∧ ∀ params ∈ kills, params = [victim] := sent
        cases byId with
        | false =>
          obtain rfl : victim = nick := aims
          obtain ⟨s₂, rest, vacant⟩ := takeKills_holder inOrder linked person name good.plain sender
            good.nonempty found (Or.inl rfl) params some
          exact ⟨s₂, rest, vacantEnd s₂ vacant⟩
        | true =>
          obtain ⟨dot, strange, -, -⟩ := aims
          exact ⟨s, takeKills_strange inOrder linked sender dot strange params, found⟩
    | false =>
      rw [← sameuser] at loses
      obtain ⟨s₁, run, silent, took, byId⟩ := collide_take inOrder linked person name good intro
        knows both loses
      refine ⟨s₁, run, silent, fun sender victim kills killed isId sent aims => ?_⟩
      have found := findClient_holder took.inOrder.toIntact took.person good.plain took.name
      cases killed with
      | false =>
        obtain rfl : kills = [] := sent
        exact ⟨s₁, rfl, found⟩
      | true =>
        obtain ⟨some, params⟩ : kills ≠ [] ∧ ∀ params ∈ kills, params = [victim] := sent
        cases isId with
        | false =>
          obtain rfl : victim = nick := aims
          obtain ⟨s₂, rest, vacant⟩ := takeKills_holder took.inOrder took.linked took.person
            took.name good.plain sender good.nonempty found (Or.inl rfl) params some
          exact ⟨s₂, rest, vacantEnd s₂ vacant⟩
        | true =>
          obtain ⟨dot, strange, ten, equal⟩ := aims
          subst equal
          obtain ⟨foundId, only⟩ := byId ten strange
          have named := intro.id ten
          obtain ⟨s₂, rest, vacant⟩ := takeKills_holder took.inOrder took.linked took.person
            took.name good.plain sender named (by rw [State.findClient, if_pos dot, foundId])
            (Or.inr ⟨dot, only⟩) params some
          exact ⟨s₂, rest, vacantEnd s₂ vacant⟩

/-! ### Both sides -/

/-- Two linked servers that hold `x` and `y` under one nick. Each knows the server of the other's
client, and nobody has that client's id. -/
structure Collision (a b : State) (linkA linkB x y : ClientId) (nick serverX serverY : List Char) :
    Prop where
  left : Side a linkA x nick
  right : Side b linkB y nick
  good : GoodNick nick
  leftKnows : ∃ srv, Knows a linkA srv serverY
  rightKnows : ∃ srv, Knows b linkB srv serverX
  leftStrange : (b.client y).hasId = true → Strange a (b.client y).id
  rightStrange : (a.client x).hasId = true → Strange b (a.client x).id

/-- Whether a server names a client by its id. -/
def State.usesId (s : State) (link who : ClientId) : Bool :=
  s.hasUid link && (s.client who).hasId

theorem aims_victim {a b : State} {linkA x : ClientId} (name : (a.client x).name = nick)
    (idForm : (a.client x).hasId = true → (a.client x).id.head? = some '.')
    (strange : (a.client x).hasId = true → Strange b (a.client x).id)
    (sender server umodes : List Char) :
    Aims b nick (a.introParv linkA x sender server umodes) (a.usesId linkA x) (a.victim linkA x) := by
  unfold Aims State.usesId State.victim State.introParv Client.introParams
  dsimp only
  cases uses : a.hasUid linkA && (a.client x).hasId with
  | false =>
    rw [if_neg Bool.false_ne_true, if_neg]
    · exact name
    · rintro ⟨hasId, uid⟩
      rw [hasId, uid] at uses
      cases uses
  | true =>
    obtain ⟨uid, hasId⟩ := Bool.and_eq_true_iff.mp uses
    rw [if_pos rfl, if_pos ⟨hasId, uid⟩]
    exact ⟨idForm hasId, strange hasId, rfl, rfl⟩

/-- What the two servers end with. -/
theorem Collision.result {a b : State} {linkA linkB x y : ClientId} {serverX serverY : List Char}
    (collision : Collision a b linkA linkB x y nick serverX serverY)
    (senderA senderB umodesX umodesY : List Char) :
    ∃ a₁ b₁ a₂ b₂,
      a.takeIntro linkA (b.introParv linkB y senderB serverY umodesY) = some a₁ ∧
      b.takeIntro linkB (a.introParv linkA x senderA serverX umodesX) = some b₁ ∧
      a₁.takeKills linkA senderB (killsTo b b₁ linkB) = some a₂ ∧
      b₁.takeKills linkB senderA (killsTo a a₁ linkA) = some b₂ ∧
      a₂.findClient nick = some (holderAfter
        (bothKilled (heard (b.client y).tsinfo) (a.client x).tsinfo)
        (newcomerLoses ((a.client x).sameUser (b.client y).username (b.client y).host)
          (heard (b.client y).tsinfo) (a.client x).tsinfo)
        (bothKilled (heard (a.client x).tsinfo) (b.client y).tsinfo) (b.usesId linkB y) x
        a.nextClient) ∧
      b₂.findClient nick = some (holderAfter
        (bothKilled (heard (a.client x).tsinfo) (b.client y).tsinfo)
        (newcomerLoses ((b.client y).sameUser (a.client x).username (a.client x).host)
          (heard (a.client x).tsinfo) (b.client y).tsinfo)
        (bothKilled (heard (b.client y).tsinfo) (a.client x).tsinfo) (a.usesId linkA x) y
        b.nextClient) := by
  obtain ⟨left, right, good, ⟨srvY, leftKnows⟩, ⟨srvX, rightKnows⟩, leftStrange, rightStrange⟩ :=
    collision
  have introY : IntroLine (b.introParv linkB y senderB serverY umodesY) (b.client y).name
      (heard (b.client y).tsinfo) := introLine_introParv ..
  have introX : IntroLine (a.introParv linkA x senderA serverX umodesX) (a.client x).name
      (heard (a.client x).tsinfo) := introLine_introParv ..
  rw [right.name] at introY
  rw [left.name] at introX
  have serverOfY : param (b.introParv linkB y senderB serverY umodesY) 7 = serverY := rfl
  have serverOfX : param (a.introParv linkA x senderA serverX umodesX) 7 = serverX := rfl
  obtain ⟨a₁, runA, killsA, restA⟩ := left.result good introY (serverOfY ▸ leftKnows)
  obtain ⟨b₁, runB, killsB, restB⟩ := right.result good introX (serverOfX ▸ rightKnows)
  obtain ⟨a₂, endA, foundA⟩ := restA senderB _ _ _ _ killsB
    (aims_victim right.name right.idForm leftStrange senderB serverY umodesY)
  obtain ⟨b₂, endB, foundB⟩ := restB senderA _ _ _ _ killsA
    (aims_victim left.name left.idForm rightStrange senderA serverX umodesX)
  exact ⟨a₁, b₁, a₂, b₂, runA, runB, endA, endB, foundA, foundB⟩

/-! ### Agreement -/

/-- The timestamps `t1` and `t2` compare on the wire as they do at home. Where only one server
removes both, its `KILL` finds whom the other has kept. -/
structure Settles (t1 t2 : ℤ) (sameuser byIdX byIdY : Bool) : Prop where
  compare : bothKilled (heard t2) t1 = false → bothKilled (heard t1) t2 = false →
    (heard t2 < t1 ↔ t2 < heard t1)
  left : bothKilled (heard t2) t1 = true → bothKilled (heard t1) t2 = false → byIdX = true →
    newcomerLoses sameuser (heard t1) t2 = false
  right : bothKilled (heard t1) t2 = true → bothKilled (heard t2) t1 = false → byIdY = true →
    newcomerLoses sameuser (heard t2) t1 = false

/-- A server where nobody has an id, and nobody has left. -/
theorem Intact.inOrder (intact : Intact s) (table : s.idTable = ⟨fun _ => none, fun _ => none⟩)
    (noIds : ∀ c ∈ s.globalClientList, (s.client c).hasId = false) (history : s.whowas = [])
    (links : ∀ link ∈ s.servList, link ∈ s.globalClientList ∧ (s.client link).status = .server) :
    InOrder s := by
  refine ⟨intact, ?_, fun entry member => ?_, links⟩
  · rw [IdsHeld, table]
    refine fun bucket => ⟨[], rfl, List.nodup_nil, fun c => ?_⟩
    refine iff_of_false (by simp) fun held => ?_
    have hasId : (s.client c).hasId = true := held.1.2
    rw [noIds c held.1.1] at hasId
    cases hasId
  · rw [history] at member
    cases member

end Ircd.Nick
