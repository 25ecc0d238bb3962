import Ircd.Nick.KillSteps
import Ircd.Nick.RoundTrip

/-!
# The table of ids

`find_id` follows the table of ids. A client is put into it before it is accepted, and taken out where a person that
has a name exits.
-/
namespace Ircd.Nick

open Chan (ClientId Status param)

/-! ### What is asked of the table -/

/-- The table has exactly the live clients with an id, each once and in the bucket of its id, no two of them have the
same id, and `find_id` finds the one that has an id. -/
structure IdsExact (s : State) : Prop where
  held : IdsHeld s
  unique : ∀ c ∈ s.globalClientList, ∀ d ∈ s.globalClientList, (s.client c).hasId = true →
    (s.client d).hasId = true → (s.client c).id = (s.client d).id → c = d
  find : ∀ text, ∃ found, s.findId text = some found ∧ ∀ c, found = some c ↔
    c ∈ s.globalClientList ∧ (s.client c).hasId = true ∧ (s.client c).id = text

/-- What registers, introduces, renames and removes clients. -/
inductive IdEvent where
  | connect
  | server (link : Option ClientId) (name : List Char)
  | user (source : ClientId) (username realname : List Char)
  | register (source : ClientId)
  | nick (source : ClientId) (nick : List Char)
  | introduceNick (link : ClientId) (parv : List (List Char)) (newts : ℤ) (nick : List Char)
  | introduceClient (link : ClientId) (parv : List (List Char)) (newts : ℤ) (nick : List Char)
  | exit (link : Option ClientId) (who : ClientId)
  | kill (link : Option ClientId) (who : ClientId)

def State.performId (s : State) : IdEvent → Option State
  | .connect => some s.connect
  | .server link name => some (s.addServer link name)
  | .user source username realname => s.doLocalUser source source username realname
  | .register source => s.registerLocalUser source source
  | .nick source nick => s.rename source nick
  | .introduceNick link parv newts nick => s.newNickFromServer link parv newts nick
  | .introduceClient link parv newts nick => s.clientFromServer link parv newts nick
  | .exit link who => s.exitClient link who
  | .kill link who => s.exitKilled link who

/-- Clients that are there are renamed, and only those that have not registered yet do so. -/
def State.PossibleId (s : State) : IdEvent → Prop
  | .register source => (s.client source).status = .unknown
  | .nick source _ => source < s.nextClient
  | _ => True

/-! ### The condition on the steps -/

/-- Whoever leaves with a client: the client, and the dependents of a server. -/
def State.Leaves (s : State) (who c : ClientId) : Prop :=
  c = who ∨ (s.client who).status = .server ∧ c ∈ s.dependents s.nextClient who

/-- Whoever has an id and leaves is a person with a name. -/
def State.LeavesNamed (s : State) (who : ClientId) : Prop :=
  (s.client who).dead = false → ∀ c ∈ s.globalClientList, s.Leaves who c → (s.client c).hasId = true →
    (s.client c).isPerson = true ∧ (s.client c).name ≠ []

/-- A client that is rejected has no id yet, and one that gets an id is still there. -/
def State.RegistersAlive (s : State) (source : ClientId) : Prop :=
  match s.register source with
  | .waits => True
  | .rejected => (s.client source).dead = false → source ∈ s.globalClientList → (s.client source).hasId = false
  | .accepted _ => (s.client source).id = [] → source ∈ s.globalClientList

/-- The id of an introduction fits and is nobody's, and the server of it is known and behind the link. -/
structure State.Introduces (s : State) (link : ClientId) (parv : List (List Char)) (nick : List Char) : Prop where
  given : param parv 8 ≠ []
  fits : (param parv 8).length ≤ idLen
  free : ∀ c ∈ s.globalClientList, (s.client c).hasId = true → (s.client c).id ≠ param parv 8
  server : ∃ srv, s.findClient (param parv 7) = some (some srv) ∧ (s.client srv).status = .server ∧
    (s.client srv).source = link
  other : ¬IrcEq (param parv 7) (nick.take Chan.hostLen)

def State.KeepsIds (s : State) : IdEvent → Prop
  | .user source _ _ => (s.client source).status = .unknown → (s.client source).name ≠ [] → s.RegistersAlive source
  | .register source => s.RegistersAlive source
  | .introduceClient link parv _ nick => s.Introduces link parv nick
  | .exit _ who | .kill _ who => s.LeavesNamed who
  | _ => True

/-- A server that knows nobody but itself, with a generator whose ids begin with a dot. -/
structure State.NoIds (s : State) : Prop where
  list : s.globalClientList = [s.me]
  old : s.me < s.nextClient
  user : (s.client s.me).user = none
  table : ∀ bucket, s.idTable.heads bucket = none
  heads : ∀ bucket c, s.clientTable.heads bucket = some c → c = s.me
  next : ∀ c, s.clientTable.next c = none
  ids : ∀ n, (s.idGet n).head? = some '.'

/-- The states of the runs whose steps all meet the condition. -/
inductive IdReached : State → Prop
  | start {s : State} (noIds : s.NoIds) : IdReached s
  | step {s s' : State} (e : IdEvent) (before : IdReached s) (possible : s.PossibleId e) (keeps : s.KeepsIds e)
      (run : s.performId e = some s') : IdReached s'

/-! ### The invariant -/

/-- No chain of the table of names leads to a block that has not been given out. -/
structure State.Bounded (s : State) : Prop where
  heads : ∀ bucket c, s.clientTable.heads bucket = some c → c < s.nextClient
  next : ∀ a c, s.clientTable.next a = some c → c < s.nextClient

structure IdOrder (s : State) : Prop where
  held : IdsHeld s
  unique : ∀ c ∈ s.globalClientList, ∀ d ∈ s.globalClientList, (s.client c).hasId = true →
    (s.client d).hasId = true → (s.client c).id = (s.client d).id → c = d
  fresh : ∀ c ∈ s.globalClientList, c < s.nextClient
  nodup : s.globalClientList.Nodup
  bounded : s.Bounded
  ids : ∀ n, (s.idGet n).head? = some '.'

section

variable {s t u : State} {who : ClientId}

theorem hasId_user {client : Client} (hasId : client.hasId = true) :
    client.status ≠ .server ∧ client.user = some client.id ∧ client.id ≠ [] := by
  obtain ⟨status, user⟩ := Bool.and_eq_true_iff.mp hasId
  obtain ⟨id, isId, nonempty⟩ := (Option.any_eq_true _ _).mp user
  have same : client.id = id := by rw [Client.id, isId, Option.getD_some]
  exact ⟨by simpa using status, by rw [isId, same], by rw [same]; simpa using nonempty⟩

theorem hasId_congr {client other : Client} (user : other.user = client.user) (status : client.status ≠ .server)
    (status' : other.status ≠ .server) : other.hasId = client.hasId := by
  rw [Client.hasId, Client.hasId, user, bne_iff_ne.mpr status, bne_iff_ne.mpr status']

theorem IdOrder.absent (order : IdOrder s) : s.nextClient ∉ s.globalClientList := fun member =>
  Nat.lt_irrefl _ (order.fresh _ member)

theorem IdOrder.enough (order : IdOrder s) :
    Enough {c | c ∈ s.globalClientList ∧ (s.client c).hasId = true} s.nextClient := by
  intro l nodup inside
  have within : l ⊆ List.range s.nextClient := fun c member =>
    List.mem_range.mpr (order.fresh c (inside c member).1)
  simpa using (nodup.subperm within).length_le

/-- `find_id` walks along live clients, and ends. -/
theorem IdOrder.find (order : IdOrder s) (text : List Char) :
    ∃ found, s.findId text = some found ∧ ∀ c, found = some c ↔
      c ∈ s.globalClientList ∧ (s.client c).hasId = true ∧ (s.client c).id = text := by
  obtain ⟨found, lookup, some, none⟩ := order.held.find order.enough (hashId text)
    fun who => (s.client who).user = some text
  refine ⟨found, lookup, fun c => ⟨fun equal => ?_, fun ⟨member, hasId, same⟩ => ?_⟩⟩
  · obtain ⟨⟨member, hasId⟩, -, user⟩ := some c equal
    have user : (s.client c).user = Option.some text := of_decide_eq_true user
    exact ⟨member, hasId, by rw [Client.id, user, Option.getD_some]⟩
  · have user := (hasId_user hasId).2.1
    rw [same] at user
    cases found with
    | none =>
      have missed := none rfl c ⟨member, hasId⟩ (congrArg hashId same)
      exact absurd user (of_decide_eq_false missed)
    | some d =>
      obtain ⟨⟨member', hasId'⟩, -, user'⟩ := some d rfl
      have user' : (s.client d).user = Option.some text := of_decide_eq_true user'
      rw [order.unique d member' c member hasId' hasId (by rw [Client.id, Client.id, user, user'])]

theorem IdOrder.exact (order : IdOrder s) : IdsExact s := ⟨order.held, order.unique, order.find⟩

/-! ### Steps that leave the ids alone -/

/-- The same clients with the same ids. -/
structure SameIds (s t : State) : Prop where
  list : t.globalClientList = s.globalClientList
  next : t.nextClient = s.nextClient
  table : t.idTable = s.idTable
  idGet : t.idGet = s.idGet
  hasId : ∀ c, (t.client c).hasId = (s.client c).hasId
  id : ∀ c, (t.client c).id = (s.client c).id
  bounded : s.Bounded → t.Bounded

theorem SameIds.refl (s : State) : SameIds s s := ⟨rfl, rfl, rfl, rfl, fun _ => rfl, fun _ => rfl, fun bounded => bounded⟩

theorem SameIds.trans (first : SameIds s t) (second : SameIds t u) : SameIds s u where
  list := second.list.trans first.list
  next := second.next.trans first.next
  table := second.table.trans first.table
  idGet := second.idGet.trans first.idGet
  hasId c := (second.hasId c).trans (first.hasId c)
  id c := (second.id c).trans (first.id c)
  bounded := fun bounded => second.bounded (first.bounded bounded)

theorem SameIds.setClient {client : Client} (hasId : client.hasId = (s.client who).hasId)
    (id : client.id = (s.client who).id) : SameIds s (s.setClient who client) where
  list := rfl
  next := rfl
  table := rfl
  idGet := rfl
  hasId c := by
    by_cases same : c = who
    · subst same
      rw [State.client_setClient_self, hasId]
    · rw [State.client_setClient_of_ne _ same]
  id c := by
    by_cases same : c = who
    · subst same
      rw [State.client_setClient_self, id]
    · rw [State.client_setClient_of_ne _ same]
  bounded := fun bounded => ⟨bounded.heads, bounded.next⟩

/-- What is sent does not matter, nor the counters of the generator. -/
theorem SameIds.ofEq (client : t.client = s.client) (list : t.globalClientList = s.globalClientList)
    (next : t.nextClient = s.nextClient) (table : t.idTable = s.idTable) (idGet : t.idGet = s.idGet)
    (names : t.clientTable = s.clientTable) : SameIds s t where
  list := list
  next := next
  table := table
  idGet := idGet
  hasId c := by rw [client]
  id c := by rw [client]
  bounded := fun bounded => ⟨by rw [names, next]; exact bounded.heads, by rw [names, next]; exact bounded.next⟩

theorem IdOrder.same (order : IdOrder s) (same : SameIds s t) : IdOrder t where
  held := by
    have held := order.held
    rw [IdsHeld] at held ⊢
    simpa only [same.table, same.list, same.hasId, same.id] using held
  unique := by
    simpa only [same.list, same.hasId, same.id] using order.unique
  fresh := by
    simpa only [same.list, same.next] using order.fresh
  nodup := by
    rw [same.list]
    exact order.nodup
  bounded := same.bounded order.bounded
  ids := by
    rw [same.idGet]
    exact order.ids

theorem State.Bounded.add (bounded : s.Bounded) (name : List Char) (old : who < s.nextClient) :
    (s.addToClientHashTable name who).Bounded where
  heads bucket c head := by
    simp only [State.addToClientHashTable, ChainTable.add] at head
    by_cases here : bucket = hashNickName name
    · subst here
      rw [Function.update_self] at head
      exact Option.some.inj head ▸ old
    · rw [Function.update_of_ne here] at head
      exact bounded.heads bucket c head
  next a c next := by
    simp only [State.addToClientHashTable, ChainTable.add] at next
    by_cases here : a = who
    · subst here
      rw [Function.update_self] at next
      exact bounded.heads _ c next
    · rw [Function.update_of_ne here] at next
      exact bounded.next a c next

theorem State.Bounded.delete (bounded : s.Bounded) {name : List Char}
    (run : s.delFromClientHashTable name who = some t) : t.Bounded := by
  obtain ⟨table, deleted, rfl⟩ := Option.map_eq_some_iff.mp run
  obtain ⟨walk, -, rfl⟩ := Option.map_eq_some_iff.mp deleted
  match walk with
  | none => exact ⟨bounded.heads, bounded.next⟩
  | some none =>
    constructor
    · intro bucket c head
      by_cases here : bucket = hashNickName name
      · subst here
        exact bounded.next who c (by simpa using head)
      · exact bounded.heads bucket c (by simpa [here] using head)
    · intro a c next
      by_cases here : a = who
      · simp [here] at next
      · exact bounded.next a c (by simpa [here] using next)
  | some (some before) =>
    constructor
    · exact bounded.heads
    · intro a c next
      by_cases here : a = who
      · simp [here] at next
      · by_cases there : a = before
        · subst there
          exact bounded.next who c (by simpa [here] using next)
        · exact bounded.next a c (by simpa [here, there] using next)

/-! ### New clients -/

/-- A client in the next block, with an id that nobody has, or without one. -/
theorem IdOrder.enter (order : IdOrder s) (list : t.globalClientList = s.nextClient :: s.globalClientList)
    (next : t.nextClient = s.nextClient + 1) (idGet : t.idGet = s.idGet) (bounded : t.Bounded)
    (old : ∀ c, c ≠ s.nextClient → t.client c = s.client c)
    (table : (t.client s.nextClient).hasId = false ∧ t.idTable = s.idTable ∨
      (t.client s.nextClient).hasId = true ∧
        t.idTable = s.idTable.add (hashId (t.client s.nextClient).id) s.nextClient ∧
        ∀ c ∈ s.globalClientList, (s.client c).hasId = true → (s.client c).id ≠ (t.client s.nextClient).id) :
    IdOrder t := by
  have isOld : ∀ c ∈ s.globalClientList, t.client c = s.client c := fun c member =>
    old c (ne_of_mem_of_not_mem member order.absent)
  constructor
  · rw [IdsHeld]
    -- the table gets the client exactly if it has an id
    rcases table with ⟨noId, same⟩ | ⟨hasId, added, -⟩
    · have members : {c | c ∈ t.globalClientList ∧ (t.client c).hasId = true} =
          {c | c ∈ s.globalClientList ∧ (s.client c).hasId = true} := by
        ext c
        rw [Set.mem_ofPred_eq, Set.mem_ofPred_eq, list, List.mem_cons]
        constructor
        · rintro ⟨rfl | member, hasId⟩
          · rw [noId] at hasId
            cases hasId
          · exact ⟨member, isOld c member ▸ hasId⟩
        · rintro ⟨member, hasId⟩
          exact ⟨Or.inr member, (isOld c member).symm ▸ hasId⟩
      rw [members, same]
      exact order.held.congr_key fun c member => by rw [isOld c member.1]
    · have members : {c | c ∈ t.globalClientList ∧ (t.client c).hasId = true} =
          insert s.nextClient {c | c ∈ s.globalClientList ∧ (s.client c).hasId = true} := by
        ext c
        rw [Set.mem_ofPred_eq, Set.mem_insert_iff, Set.mem_ofPred_eq, list, List.mem_cons]
        constructor
        · rintro ⟨isNew | member, hasId'⟩
          · exact Or.inl isNew
          · exact Or.inr ⟨member, isOld c member ▸ hasId'⟩
        · rintro (rfl | ⟨member, hasId'⟩)
          · exact ⟨Or.inl rfl, hasId⟩
          · exact ⟨Or.inr member, (isOld c member).symm ▸ hasId'⟩
      rw [members, added]
      refine (order.held.add (fun inside => order.absent inside.1) _).congr_key fun c member => ?_
      by_cases isNew : c = s.nextClient
      · subst isNew
        rw [Function.update_self]
      · rw [Function.update_of_ne isNew, old c isNew]
  · -- a new id is nobody else's
    have apart : ∀ c ∈ s.globalClientList, (t.client c).hasId = true → (t.client s.nextClient).hasId = true →
        (t.client c).id ≠ (t.client s.nextClient).id := by
      intro c member hasId new
      rw [isOld c member] at hasId ⊢
      rcases table with ⟨noId, -⟩ | ⟨-, -, free⟩
      · rw [noId] at new
        cases new
      · exact free c member hasId
    rw [list]
    intro c member d member' hasId hasId' same
    rcases List.mem_cons.mp member with rfl | member <;> rcases List.mem_cons.mp member' with rfl | member'
    · rfl
    · exact absurd same.symm (apart d member' hasId' hasId)
    · exact absurd same (apart c member hasId hasId')
    · rw [isOld c member, isOld d member'] at same
      exact order.unique c member d member' (isOld c member ▸ hasId) (isOld d member' ▸ hasId') same
  · rw [list, next]
    intro c member
    rcases List.mem_cons.mp member with rfl | member
    · exact Nat.lt_succ_self _
    · exact Nat.lt_succ_of_lt (order.fresh c member)
  · rw [list]
    exact List.nodup_cons.mpr ⟨order.absent, order.nodup⟩
  · exact bounded
  · rw [idGet]
    exact order.ids

theorem State.Bounded.makeClient (bounded : s.Bounded) (client : Client) : (s.makeClient client).Bounded :=
  ⟨fun bucket c head => Nat.lt_succ_of_lt (bounded.heads bucket c head),
    fun a c next => Nat.lt_succ_of_lt (bounded.next a c next)⟩

theorem IdOrder.makeClient (order : IdOrder s) {client : Client} (noUser : client.user = none) :
    IdOrder (s.makeClient client) := by
  refine order.enter rfl rfl rfl (order.bounded.makeClient client)
    (fun c other => State.client_setClient_of_ne _ other _) (Or.inl ⟨?_, rfl⟩)
  have new : (s.makeClient client).client s.nextClient = client := State.client_setClient_self ..
  rw [new, Client.hasId, noUser]
  simp

theorem SameIds.addToClientHashTable (s : State) {who : ClientId} (name : List Char) (old : who < s.nextClient) :
    SameIds s (s.addToClientHashTable name who) :=
  ⟨rfl, rfl, rfl, rfl, fun _ => rfl, fun _ => rfl, fun bounded => bounded.add name old⟩

theorem SameIds.delFromClientHashTable {name : List Char} (run : s.delFromClientHashTable name who = some t) :
    SameIds s t := by
  have bounds : s.Bounded → t.Bounded := fun bounded => bounded.delete run
  obtain ⟨table, -, rfl⟩ := Option.map_eq_some_iff.mp run
  exact ⟨rfl, rfl, rfl, rfl, fun _ => rfl, fun _ => rfl, bounds⟩

theorem IdOrder.addServer (order : IdOrder s) (link : Option ClientId) (name : List Char) :
    IdOrder (s.addServer link name) := by
  unfold State.addServer
  dsimp only
  generalize made : ({ Client.made (link.getD s.nextClient) link.isNone with
    status := .server, servptr := some (link.getD s.me) } : Client).setName name = client
  have noUser : client.user = none := by
    rw [← made]
    rfl
  have entered := (order.makeClient noUser).same
    (SameIds.addToClientHashTable (s.makeClient client) name (Nat.lt_succ_self s.nextClient))
  split
  · exact entered.same (SameIds.ofEq rfl rfl rfl rfl rfl rfl)
  · exact entered

theorem SameIds.rename {nick : List Char} (old : who < s.nextClient) (run : s.rename who nick = some t) :
    SameIds s t := by
  unfold State.rename at run
  rw [Option.bind_eq_bind, Option.bind_eq_some_iff] at run
  obtain ⟨u, unnamed, run⟩ := run
  obtain rfl := Option.some.inj run
  have first : SameIds s u := by
    unfold State.unname at unnamed
    split at unnamed
    · exact SameIds.delFromClientHashTable unnamed
    · obtain rfl := Option.some.inj unnamed
      exact SameIds.refl s
  have second : SameIds u (u.setClient who ((u.client who).setName nick)) := SameIds.setClient rfl rfl
  refine first.trans (second.trans (SameIds.addToClientHashTable _ nick ?_))
  exact (first.next.symm ▸ old : who < u.nextClient)

/-! ### Exits -/

/-- Nobody's name, status or id changes. -/
structure SameUsers (s t : State) : Prop where
  same : SameClients s t
  user : ∀ c, (t.client c).user = (s.client c).user
  list : ∀ c ∈ t.globalClientList, c ∈ s.globalClientList

theorem SameUsers.refl (s : State) : SameUsers s s := ⟨SameClients.refl s, fun _ => rfl, fun _ member => member⟩

theorem SameUsers.trans (first : SameUsers s t) (second : SameUsers t u) : SameUsers s u where
  same := first.same.trans second.same
  user c := (second.user c).trans (first.user c)
  list c member := first.list c (second.list c member)

theorem SameUsers.setClient {client : Client} (name : client.name = (s.client who).name)
    (status : client.status = (s.client who).status) (source : client.source = (s.client who).source)
    (user : client.user = (s.client who).user) : SameUsers s (s.setClient who client) where
  same := SameClients.setClient name status source
  user c := by
    by_cases isWho : c = who
    · subst isWho
      rw [State.client_setClient_self, user]
    · rw [State.client_setClient_of_ne _ isWho]
  list _ member := member

theorem SameUsers.hasId (same : SameUsers s t) (c : ClientId) : (t.client c).hasId = (s.client c).hasId := by
  rw [Client.hasId, Client.hasId, same.same.status, same.user]

theorem SameUsers.id (same : SameUsers s t) (c : ClientId) : (t.client c).id = (s.client c).id := by
  rw [Client.id, Client.id, same.user]

theorem SameUsers.isPerson (same : SameUsers s t) (c : ClientId) : (t.client c).isPerson = (s.client c).isPerson := by
  rw [Client.isPerson, Client.isPerson, same.same.status, same.user]

/-- The id of whoever leaves goes out of the table. -/
theorem exitPerson_held {one : Option ClientId} (order : IdOrder s)
    (named : who ∈ s.globalClientList → (s.client who).hasId = true →
      (s.client who).isPerson = true ∧ (s.client who).name ≠ [])
    (run : s.exitPerson one who = some t) :
    t.idTable.Holds (fun c => hashId (s.client c).id)
      ({c | c ∈ s.globalClientList ∧ (s.client c).hasId = true} \ {who}) := by
  by_cases inTable : who ∈ s.globalClientList ∧ (s.client who).hasId = true
  · obtain ⟨member, hasId⟩ := inTable
    obtain ⟨table, deleted, held⟩ := order.held.delete order.enough
      (show who ∈ {c | c ∈ s.globalClientList ∧ (s.client c).hasId = true} from ⟨member, hasId⟩)
    have quit : ∃ sent, (if (s.client who).killed = true then s
        else s.sendtoServer one ⟨(s.client who).name, .quit, []⟩) = { s with sent := sent } := by
      split
      · exact ⟨s.sent, rfl⟩
      · exact ⟨_, rfl⟩
    obtain ⟨sent, quit⟩ := quit
    unfold State.exitPerson at run
    dsimp only at run
    rw [if_pos (named member hasId), quit, if_pos hasId, State.delFromIdHashTable] at run
    dsimp only at run
    rw [deleted] at run
    obtain rfl := Option.some.inj run
    exact held
  · -- nothing is taken out, as the client is not in the table
    rw [Set.sdiff_singleton_eq_self (by exact inTable)]
    have same : t.idTable = s.idTable := by
      unfold State.exitPerson at run
      dsimp only at run
      split at run
      · split at run
        next hasId =>
          obtain ⟨table, deleted, rfl⟩ := Option.map_eq_some_iff.mp run
          have absent := order.held.delete_absent order.enough (a := who) (by exact inTable)
            (hashId (s.client who).id)
          have fields : ∀ s' : State, s'.idTable = s.idTable → s'.nextClient = s.nextClient →
              s'.idTable.delete s'.nextClient (hashId (s.client who).id) who = some s.idTable := by
            intro s' sameTable sameNext
            rw [sameTable, sameNext]
            exact absent
          refine Option.some.inj (deleted.symm.trans (fields _ ?_ ?_))
          · split <;> rfl
          · split <;> rfl
        · obtain rfl := Option.some.inj run
          split <;> rfl
      · obtain rfl := Option.some.inj run
        rfl
    rw [same]
    exact order.held

theorem IdOrder.exitOneClient {one : Option ClientId} (order : IdOrder s)
    (named : who ∈ s.globalClientList → (s.client who).hasId = true →
      (s.client who).isPerson = true ∧ (s.client who).name ≠ [])
    (run : s.exitOneClient one who = some t) : IdOrder t ∧ SameUsers s t := by
  have same := exitOneClient_same run
  unfold State.exitOneClient at run
  dsimp only at run
  split at run
  · obtain rfl := Option.some.inj run
    exact ⟨order, SameUsers.refl s⟩
  rw [Option.bind_eq_bind, Option.bind_eq_some_iff] at run
  obtain ⟨s₁, person, run⟩ := run
  rw [Option.bind_eq_some_iff] at run
  obtain ⟨s₂, gone, run⟩ := run
  have held := exitPerson_held order named person
  obtain ⟨sent, idTable, rfl⟩ := exitPerson_eq person
  have first : ({ s with sent := sent, idTable := idTable } : State).Bounded :=
    ⟨order.bounded.heads, order.bounded.next⟩
  have bounded := first.delete gone
  obtain ⟨table, -, rfl⟩ := Option.map_eq_some_iff.mp gone
  obtain rfl := Option.some.inj run
  have users : ∀ c, (({ s with sent := sent, idTable := idTable, clientTable := table } : State).removeClientFromList
      who |>.client c).user = (s.client c).user := by
    intro c
    by_cases isWho : c = who
    · subst isWho
      simp [State.removeClientFromList, State.setClient]
    · simp [State.removeClientFromList, State.setClient, isWho]
  have sameUsers : SameUsers s
      (({ s with sent := sent, idTable := idTable, clientTable := table } : State).removeClientFromList who) :=
    ⟨same, users, fun c member => List.mem_of_mem_erase member⟩
  refine ⟨⟨?_, ?_, ?_, order.nodup.erase who, ⟨bounded.heads, bounded.next⟩, order.ids⟩, sameUsers⟩
  · rw [IdsHeld]
    simp only [sameUsers.hasId, sameUsers.id]
    have members : {c | c ∈ s.globalClientList.erase who ∧ (s.client c).hasId = true} =
        {c | c ∈ s.globalClientList ∧ (s.client c).hasId = true} \ {who} := by
      ext c
      rw [Set.mem_ofPred_eq, order.nodup.mem_erase_iff, Set.mem_sdiff, Set.mem_ofPred_eq, Set.mem_singleton_iff]
      tauto
    change idTable.Holds _ {c | c ∈ s.globalClientList.erase who ∧ (s.client c).hasId = true}
    rw [members]
    exact held
  · intro c member d member'
    rw [sameUsers.hasId, sameUsers.hasId, sameUsers.id, sameUsers.id]
    exact order.unique c (sameUsers.list c member) d (sameUsers.list d member')
  · intro c member
    exact order.fresh c (sameUsers.list c member)

/-- Those behind a server leave, one after the other. -/
theorem IdOrder.exitDependents (order : IdOrder s) (l : List ClientId)
    (named : ∀ c ∈ l, c ∈ s.globalClientList → (s.client c).hasId = true →
      (s.client c).isPerson = true ∧ (s.client c).name ≠ [])
    (run : l.foldlM State.exitDependent s = some t) : IdOrder t ∧ SameUsers s t := by
  induction l generalizing s with
  | nil =>
    obtain rfl := Option.some.inj run
    exact ⟨order, SameUsers.refl s⟩
  | cons who l ih =>
    rw [List.foldlM_cons, Option.bind_eq_bind, Option.bind_eq_some_iff] at run
    obtain ⟨u, first, rest⟩ := run
    have marked : SameUsers s (s.setClient who { s.client who with killed := true }) :=
      SameUsers.setClient rfl rfl rfl rfl
    have order' : IdOrder (s.setClient who { s.client who with killed := true }) :=
      order.same (SameIds.setClient rfl rfl)
    obtain ⟨order'', gone⟩ := order'.exitOneClient (fun member hasId => by
      rw [marked.hasId] at hasId
      rw [marked.isPerson, marked.same.name]
      exact named who List.mem_cons_self member hasId) first
    have left := marked.trans gone
    obtain ⟨last, same⟩ := ih order'' (fun c member inList hasId => by
      rw [left.hasId] at hasId
      rw [left.isPerson, left.same.name]
      exact named c (List.mem_cons_of_mem _ member) (left.list c inList) hasId) rest
    exact ⟨last, left.trans same⟩

/-- The dependents of a server that is being closed are those it had. -/
theorem dependents_congr (list : t.globalClientList = s.globalClientList)
    (status : ∀ c, (t.client c).status = (s.client c).status)
    (servptr : ∀ c, (t.client c).servptr = (s.client c).servptr) (n : ℕ) (server : ClientId) :
    t.dependents n server = s.dependents n server := by
  induction n generalizing server with
  | zero => rfl
  | succ n ih => simp only [State.dependents, list, status, servptr, ih]

theorem IdOrder.exitClient {one : Option ClientId} (order : IdOrder s) (named : s.LeavesNamed who)
    (run : s.exitClient one who = some t) : IdOrder t := by
  rcases exitClient_eq run with ⟨-, rfl⟩ | ⟨alive, u, before, gone⟩
  · exact order
  have closing : SameUsers s (s.closing who) := by
    have marked : SameUsers s (s.setClient who { s.client who with dead := true }) :=
      SameUsers.setClient rfl rfl rfl rfl
    exact ⟨closing_same s who, marked.user, fun _ member => member⟩
  have order' : IdOrder (s.closing who) := by
    have marked : SameIds s (s.setClient who { s.client who with dead := true }) := SameIds.setClient rfl rfl
    exact order.same (marked.trans (SameIds.ofEq rfl rfl rfl rfl rfl rfl))
  have left : IdOrder u ∧ SameUsers s u := by
    rcases before with ⟨rfl, -⟩ | ⟨server, run⟩
    · exact ⟨order', closing⟩
    · have same : (s.closing who).dependents s.nextClient who = s.dependents s.nextClient who := by
        apply dependents_congr (s := s) (t := s.closing who) rfl closing.same.status
        intro c
        by_cases isWho : c = who
        · subst isWho
          simp [State.closing, State.setClient]
        · simp [State.closing, State.setClient, isWho]
      rw [same] at run
      obtain ⟨last, users⟩ := order'.exitDependents _ (fun c member inList hasId => by
        rw [closing.hasId] at hasId
        rw [closing.isPerson, closing.same.name]
        exact named alive c inList (Or.inr ⟨server, member⟩) hasId) run
      exact ⟨last, closing.trans users⟩
  refine (left.1.exitOneClient (fun member hasId => ?_) gone).1
  rw [left.2.hasId] at hasId
  rw [left.2.isPerson, left.2.same.name]
  exact named alive who (left.2.list who member) (Or.inl rfl) hasId

theorem IdOrder.exitKilled {one : Option ClientId} (order : IdOrder s) (named : s.LeavesNamed who)
    (run : s.exitKilled one who = some t) : IdOrder t := by
  have marked : SameUsers s (s.setClient who { s.client who with killed := true }) :=
    SameUsers.setClient rfl rfl rfl rfl
  have order' : IdOrder (s.setClient who { s.client who with killed := true }) :=
    order.same (SameIds.setClient rfl rfl)
  refine order'.exitClient ?_ run
  intro alive c member leaves hasId
  rw [State.client_setClient_self] at alive
  rw [marked.hasId] at hasId
  rw [marked.isPerson, marked.same.name]
  refine named alive c member (leaves.imp_right fun ⟨server, behind⟩ => ?_) hasId
  rw [marked.same.status] at server
  refine ⟨server, ?_⟩
  have servptr : ∀ d, ((s.setClient who { s.client who with killed := true }).client d).servptr =
      (s.client d).servptr := by
    intro d
    by_cases isWho : d = who
    · subst isWho
      rw [State.client_setClient_self]
    · rw [State.client_setClient_of_ne _ isWho]
  exact dependents_congr (s := s) (t := s.setClient who { s.client who with killed := true }) rfl
    marked.same.status servptr s.nextClient who ▸ behind

/-! ### Registrations -/

/-- Only lines have been sent. -/
def Sends (s t : State) : Prop := ∃ sent ubuf, t = { s with sent := sent, ubuf := ubuf }

theorem Sends.sameIds (sends : Sends s t) : SameIds s t := by
  obtain ⟨sent, ubuf, rfl⟩ := sends
  exact SameIds.ofEq rfl rfl rfl rfl rfl rfl

theorem introduceClientGlobally_sends {link : ClientId} (run : s.introduceClientGlobally link who = some t) :
    Sends s t := by
  refine foldlM_relates (R := Sends) (fun s => ⟨s.sent, s.ubuf, rfl⟩) ?_ ?_ _ run
  · rintro a b c ⟨sent, ubuf, rfl⟩ ⟨sent', ubuf', rfl⟩
    exact ⟨sent', ubuf', rfl⟩
  · intro b x b' burst
    unfold State.tsBurstClient at burst
    split at burst
    · cases burst
    split at burst
    · cases burst
    · dsimp only at burst
      obtain rfl := Option.some.inj burst
      split
      · exact ⟨_, _, rfl⟩
      · exact ⟨_, _, rfl⟩

/-- The id that is taken is nobody's. -/
theorem freshId_eq {n : ℕ} {id : List Char} (run : s.freshId n = some (id, t)) :
    (∃ count, t = { s with idCount := count }) ∧ s.findId id = some none ∧ ∃ k, id = s.idGet k := by
  induction n generalizing s with
  | zero => cases run
  | succ n ih =>
    rw [State.freshId] at run
    split at run
    · cases run
    next nobody =>
      obtain ⟨rfl, rfl⟩ := Prod.mk.inj (Option.some.inj run)
      exact ⟨⟨_, rfl⟩, nobody, _, rfl⟩
    · obtain ⟨⟨count, rfl⟩, nobody, k, isId⟩ := ih run
      exact ⟨⟨count, rfl⟩, nobody, k, isId⟩

theorem IdOrder.giveId (order : IdOrder s) (status : (s.client who).status ≠ .server)
    (alive : (s.client who).id = [] → who ∈ s.globalClientList) (run : s.giveId who = some t) :
    IdOrder t ∧ (t.client who).status = (s.client who).status := by
  unfold State.giveId at run
  split at run
  next noId =>
    rw [Option.bind_eq_bind, Option.bind_eq_some_iff] at run
    obtain ⟨⟨id, u⟩, fresh, run⟩ := run
    obtain ⟨⟨count, rfl⟩, nobody, k, isId⟩ := freshId_eq fresh
    obtain rfl := Option.some.inj run
    have member := alive noId
    have noId' : (s.client who).hasId = false := by
      by_contra hasId
      exact (hasId_user ((Bool.not_eq_false _).mp hasId)).2.2 noId
    have given : id ≠ [] := by
      have dot := order.ids k
      rw [← isId] at dot
      rintro rfl
      cases dot
    -- nobody on the list has the id, or it would have been found
    have free : ∀ c ∈ s.globalClientList, (s.client c).hasId = true → (s.client c).id ≠ id := by
      intro c member' hasId same
      obtain ⟨found, lookup, whose⟩ := order.find id
      have isFound := (whose c).mpr ⟨member', hasId, same⟩
      rw [nobody, isFound] at lookup
      cases Option.some.inj lookup
    have other : ∀ c, c ≠ who → (({ s with idCount := count } : State).setClient who
        { s.client who with user := some id }).client c = s.client c :=
      fun c isOther => State.client_setClient_of_ne _ isOther _
    have new : (({ s with idCount := count } : State).setClient who
        { s.client who with user := some id }).client who = { s.client who with user := some id } :=
      State.client_setClient_self ..
    have hasId' : ({ s.client who with user := some id } : Client).hasId = true := by
      simp [Client.hasId, status, given]
    refine ⟨⟨?_, ?_, order.fresh, order.nodup, ⟨order.bounded.heads, order.bounded.next⟩, order.ids⟩, ?_⟩
    · rw [IdsHeld]
      have members : {c | c ∈ s.globalClientList ∧ ((({ s with idCount := count } : State).setClient who
          { s.client who with user := some id }).client c).hasId = true} =
            insert who {c | c ∈ s.globalClientList ∧ (s.client c).hasId = true} := by
        ext c
        rw [Set.mem_ofPred_eq, Set.mem_insert_iff, Set.mem_ofPred_eq]
        by_cases isWho : c = who
        · subst isWho
          rw [new]
          simp [member, hasId']
        · rw [other c isWho]
          simp [isWho]
      change (s.idTable.add (hashId id) who).Holds _ {c | c ∈ s.globalClientList ∧
        ((({ s with idCount := count } : State).setClient who
          { s.client who with user := some id }).client c).hasId = true}
      rw [members]
      refine (order.held.add (fun inside => ?_) _).congr_key fun c _ => ?_
      · rw [Set.mem_ofPred_eq, noId'] at inside
        cases inside.2
      · by_cases isWho : c = who
        · subst isWho
          rw [Function.update_self]
          exact congrArg (fun client : Client => hashId client.id) new
        · rw [Function.update_of_ne isWho]
          exact congrArg (fun client : Client => hashId client.id) (other c isWho)
    · intro c member' d member'' hasId hasId'' same
      change ((({ s with idCount := count } : State).setClient who { s.client who with user := some id }).client
        c).hasId = true at hasId
      change ((({ s with idCount := count } : State).setClient who { s.client who with user := some id }).client
        d).hasId = true at hasId''
      change ((({ s with idCount := count } : State).setClient who { s.client who with user := some id }).client
        c).id = ((({ s with idCount := count } : State).setClient who { s.client who with user := some id }).client
          d).id at same
      by_cases isWho : c = who <;> by_cases isWho' : d = who
      · rw [isWho, isWho']
      · rw [isWho, new, other d isWho'] at same
        rw [other d isWho'] at hasId''
        exact absurd same.symm (free d member'' hasId'')
      · rw [isWho', new, other c isWho] at same
        rw [other c isWho] at hasId
        exact absurd same (free c member' hasId)
      · rw [other c isWho] at hasId same
        rw [other d isWho'] at hasId'' same
        exact order.unique c member' d member'' hasId hasId'' same
    · exact (congrArg Client.status new).trans rfl
  · obtain rfl := Option.some.inj run
    exact ⟨order, rfl⟩

/-- A client that is no server and leaves without an id, or with its name. -/
theorem leavesNamed_of_user (status : (s.client who).status ≠ .server)
    (named : (s.client who).dead = false → who ∈ s.globalClientList → (s.client who).hasId = true →
      (s.client who).isPerson = true ∧ (s.client who).name ≠ []) : s.LeavesNamed who := by
  intro alive c member leaves hasId
  obtain rfl : c = who := leaves.resolve_right fun both => status both.1
  exact named alive member hasId

theorem IdOrder.registerLocalUser {clientP : ClientId} (order : IdOrder s)
    (unknown : (s.client who).status = .unknown) (keeps : s.RegistersAlive who)
    (run : s.registerLocalUser clientP who = some t) : IdOrder t := by
  have notServer : (s.client who).status ≠ .server := by
    rw [unknown]
    exact Status.noConfusion
  unfold State.registerLocalUser at run
  unfold State.RegistersAlive at keeps
  split at run
  · obtain rfl := Option.some.inj run
    exact order
  next rejected =>
    rw [rejected] at keeps
    refine order.exitClient (leavesNamed_of_user notServer fun alive member hasId => ?_) run
    rw [keeps alive member] at hasId
    cases hasId
  next username accepted =>
    rw [accepted] at keeps
    dsimp only at run
    rw [Option.bind_eq_bind, Option.bind_eq_some_iff] at run
    obtain ⟨u, given, run⟩ := run
    have named : SameIds s (s.setClient who ((s.client who).setUsername username)) := SameIds.setClient rfl rfl
    obtain ⟨order', status⟩ := (order.same named).giveId
      (by rw [State.client_setClient_self]; exact notServer)
      (by rw [State.client_setClient_self]; exact keeps) given
    rw [State.client_setClient_self] at status
    have invisible : SameIds u (u.setClient who
        { u.client who with umodes := insert .invisible (u.client who).umodes }) := SameIds.setClient rfl rfl
    split at run
    · obtain rfl := Option.some.inj run
      exact order'.same invisible
    · rw [State.setClient_setClient, State.client_setClient_self] at run
      refine order'.same (SameIds.trans ?_ (introduceClientGlobally_sends run).sameIds)
      apply SameIds.setClient
      · have isUnknown : (u.client who).status = .unknown := status.trans unknown
        exact hasId_congr rfl (by rw [isUnknown]; exact Status.noConfusion) Status.noConfusion
      · rfl

theorem IdOrder.doLocalUser {clientP : ClientId} {username realname : List Char} (order : IdOrder s)
    (keeps : (s.client who).status = .unknown → (s.client who).name ≠ [] → s.RegistersAlive who)
    (run : s.doLocalUser clientP who username realname = some t) : IdOrder t := by
  have noNew : ∀ client : Client, ({ client with user := some (client.user.getD []) } : Client).hasId = client.hasId := by
    intro client
    rw [Client.hasId, Client.hasId]
    cases user : client.user <;> simp
  unfold State.doLocalUser at run
  dsimp only at run
  split at run
  · obtain rfl := Option.some.inj run
    exact order.same (SameIds.setClient (noNew (s.client who)) rfl)
  next unknown =>
    rw [not_not] at unknown
    split at run
    next named =>
      generalize made : ({ { s.client who with user := some ((s.client who).user.getD []) } with
        servptr := some s.me } : Client).setInfo realname = client at run
      have hasId : client.hasId = (s.client who).hasId := by
        rw [← made]
        exact noNew (s.client who)
      have id : client.id = (s.client who).id := by
        rw [← made]
        rfl
      have status : client.status = .unknown := by
        rw [← made]
        exact unknown
      refine (order.same (SameIds.setClient hasId id)).registerLocalUser ?_ ?_ run
      · rw [State.client_setClient_self, status]
      · have before := keeps unknown named
        unfold State.RegistersAlive at before ⊢
        rw [State.client_setClient_self, hasId, id]
        rw [← made]
        exact before
    · obtain rfl := Option.some.inj run
      exact order.same (SameIds.setClient (noNew (s.client who)) rfl)

/-! ### Introductions -/

/-- The client as `do_remote_user` fills it in. -/
def Client.introduced (client : Client) (host realname : List Char) (id : Option (List Char)) : Client :=
  ({ client with user := some (id.getD (client.user.getD [])) }.setHost host).setInfo realname

/-- A remote user is accepted, or left as it is if the link is dead, or sent away. -/
theorem registerRemoteUser_cases {link : ClientId} {username : List Char} {client : Client}
    (made : (s.client who).setUsername username = client) (run : s.registerRemoteUser link who username = some t) :
    ∃ srv, client.servptr = some srv ∧
      ((((s.setClient who client).client srv).status = .server ∧ ((s.setClient who client).client srv).source = link ∧
          (t = s.setClient who client ∨ Sends (s.setClient who { client with status := .client }) t)) ∨
        (¬(((s.setClient who client).client srv).status = .server ∧
            ((s.setClient who client).client srv).source = link) ∧
          ∃ one, ((s.setClient who client).killClient link who).exitKilled one who = some t)) := by
  unfold State.registerRemoteUser at run
  dsimp only at run
  rw [made, State.client_setClient_self] at run
  split at run
  · cases run
  next srv servptr =>
    refine ⟨srv, servptr, ?_⟩
    split at run
    next unknown => exact Or.inr ⟨fun both => unknown both.1, _, run⟩
    next isServer =>
      rw [not_not] at isServer
      split at run
      next wrong => exact Or.inr ⟨fun both => wrong both.2, _, run⟩
      next behind =>
        rw [not_not] at behind
        refine Or.inl ⟨isServer, behind, ?_⟩
        split at run
        · exact Or.inl (Option.some.inj run).symm
        · rw [State.setClient_setClient] at run
          exact Or.inr (introduceClientGlobally_sends run)

/-- The same for one whose data are filled in before. -/
theorem doRemoteUser_cases {link : ClientId} {username host server realname : List Char} {id : Option (List Char)}
    (run : s.doRemoteUser link who username host server realname id = some t) :
    ∃ srv client, (s.setClient who ((s.client who).introduced host realname id)).findClient server = some (some srv) ∧
      client.status = (s.client who).status ∧ client.user = some (id.getD ((s.client who).user.getD [])) ∧
      ((((s.setClient who client).client srv).status = .server ∧ ((s.setClient who client).client srv).source = link ∧
          (t = s.setClient who client ∨ Sends (s.setClient who { client with status := .client }) t)) ∨
        (¬(((s.setClient who client).client srv).status = .server ∧
            ((s.setClient who client).client srv).source = link) ∧
          ∃ one, ((s.setClient who client).killClient link who).exitKilled one who = some t)) := by
  unfold State.doRemoteUser at run
  dsimp only at run
  rw [Option.bind_eq_bind, Option.bind_eq_some_iff] at run
  obtain ⟨servptr, lookup, run⟩ := run
  generalize filled : ({ s.client who with user := some (id.getD ((s.client who).user.getD [])) }.setHost host).setInfo
    realname = client at run lookup
  have status : client.status = (s.client who).status := by
    rw [← filled]
    rfl
  have user : client.user = some (id.getD ((s.client who).user.getD [])) := by
    rw [← filled]
    rfl
  rw [State.setClient_setClient, State.client_setClient_self] at run
  obtain ⟨srv, isServer, result⟩ := registerRemoteUser_cases
    (by rw [State.client_setClient_self] : _ = { client with servptr := servptr }.setUsername username) run
  rw [State.setClient_setClient, State.setClient_setClient] at result
  obtain rfl : servptr = some srv := isServer
  refine ⟨srv, _, ?_, ?_, ?_, result⟩
  · rw [Client.introduced, filled]
    exact lookup
  · exact status
  · exact user

/-- The server of an introduction is found also when the new client is in the tables. -/
theorem findClient_entered {server nick : List Char} {srv : ClientId} (order : IdOrder s)
    (lookup : s.findClient server = some (some srv)) (status : (s.client srv).status = .server)
    (other : ¬IrcEq server (nick.take Chan.hostLen))
    (table : t.clientTable = s.clientTable.add (hashNickName nick) s.nextClient)
    (next : t.nextClient = s.nextClient + 1) (new : (t.client s.nextClient).name = nick.take Chan.hostLen)
    (old : ∀ c, c ≠ s.nextClient → t.client c = s.client c) : t.findClient server = some (some srv) := by
  unfold State.findClient at lookup ⊢
  split at lookup
  next dot =>
    -- a server has no id
    obtain ⟨found, walk, whose⟩ := order.find server
    obtain rfl := Option.some.inj (walk.symm.trans lookup)
    exact absurd status (hasId_user ((whose srv).mp rfl).2.1).1
  next noDot =>
    rw [if_neg noDot, table, next]
    unfold ChainTable.find ChainTable.add at *
    dsimp only
    have notNew : ∀ c, c < s.nextClient → c ≠ s.nextClient := fun c older => Nat.ne_of_lt older
    have same : ∀ c, c < s.nextClient → Function.update s.clientTable.next s.nextClient
        (s.clientTable.heads (hashNickName nick)) c = s.clientTable.next c ∧
          decide (IrcEq server (t.client c).name) = decide (IrcEq server (s.client c).name) := by
      intro c older
      rw [Function.update_of_ne (notNew c older), old c (notNew c older)]
      exact ⟨rfl, rfl⟩
    by_cases here : hashNickName server = hashNickName nick
    · rw [here] at lookup ⊢
      rw [Function.update_self, findFrom, if_neg (by simpa [new] using other)]
      rw [Function.update_self]
      exact findFrom_congr (· < s.nextClient) order.bounded.next same (Nat.le_refl _)
        (order.bounded.heads _) lookup
    · rw [Function.update_of_ne here]
      exact findFrom_congr (· < s.nextClient) order.bounded.next same (Nat.le_succ _)
        (order.bounded.heads _) lookup

theorem State.Bounded.newClient (bounded : s.Bounded) (client : Client) (nick : List Char) :
    (s.newClient client nick).Bounded :=
  (bounded.makeClient _).add nick (Nat.lt_succ_self s.nextClient)

theorem IdOrder.newClient (order : IdOrder s) (client : Client) (nick : List Char) (noUser : client.user = none) :
    IdOrder (s.newClient client nick) := by
  have made : IdOrder (s.makeClient (client.setName nick)) := order.makeClient noUser
  exact made.same (SameIds.addToClientHashTable _ nick (Nat.lt_succ_self _))

/-- A new client is filled in without an id. -/
theorem IdOrder.fillNick (order : IdOrder s) {link : ClientId} {parv : List (List Char)} {newts : ℤ}
    (nick : List Char) {filled : Client} (noUser : filled.user = some []) :
    IdOrder ((s.newClient (Client.ofNick link parv newts s.currentTime) nick).setClient s.nextClient filled) := by
  refine (order.newClient (Client.ofNick link parv newts s.currentTime) nick rfl).same (SameIds.setClient ?_ ?_)
  · rw [client_newClient, Client.hasId, noUser]
    simp [Client.hasId, Client.setName, Client.ofNick, Client.made]
  · rw [client_newClient, Client.id, noUser]
    rfl

theorem IdOrder.found_old (order : IdOrder s) {server : List Char} {srv : ClientId}
    (lookup : s.findClient server = some (some srv)) : srv < s.nextClient := by
  unfold State.findClient at lookup
  split at lookup
  · obtain ⟨found, walk, whose⟩ := order.find server
    obtain rfl := Option.some.inj (walk.symm.trans lookup)
    exact order.fresh srv ((whose srv).mp rfl).1
  · exact findFrom_old (· < s.nextClient) order.bounded.next (order.bounded.heads _) lookup

theorem IdOrder.newNickFromServer {link : ClientId} {parv : List (List Char)} {newts : ℤ} {nick : List Char}
    (order : IdOrder s) (run : s.newNickFromServer link parv newts nick = some t) : IdOrder t := by
  unfold State.newNickFromServer at run
  dsimp only at run
  have client := client_newClient s (Client.ofNick link parv newts s.currentTime) nick
  split at run
  · rw [client] at run
    obtain ⟨srv, filled, -, status, user, result⟩ := doRemoteUser_cases run
    rw [State.client_setClient_self] at status user
    have isUnknown : filled.status = .unknown := status
    have noUser : filled.user = some [] := user
    rw [State.setClient_setClient] at result
    rcases result with ⟨-, -, rfl | sends⟩ | ⟨-, one, run⟩
    · exact order.fillNick nick noUser
    · rw [State.setClient_setClient] at sends
      have client : IdOrder ((s.newClient (Client.ofNick link parv newts s.currentTime) nick).setClient s.nextClient
          { filled with status := .client }) := order.fillNick nick noUser
      exact client.same sends.sameIds
    · have told := (order.fillNick nick noUser).same
        (SameIds.ofEq (t := ((s.newClient (Client.ofNick link parv newts s.currentTime) nick).setClient s.nextClient
          filled).killClient link s.nextClient) rfl rfl rfl rfl rfl rfl)
      refine told.exitKilled (leavesNamed_of_user ?_ fun _ _ hasId => ?_) run
      · change (((s.newClient _ nick).setClient s.nextClient filled).client s.nextClient).status ≠ .server
        rw [State.client_setClient_self, isUnknown]
        exact Status.noConfusion
      · change (((s.newClient _ nick).setClient s.nextClient filled).client s.nextClient).hasId = true at hasId
        rw [State.client_setClient_self, Client.hasId, noUser] at hasId
        simp at hasId
  · exact (order.newClient (Client.ofNick link parv newts s.currentTime) nick rfl).same
      (SameIds.rename (Nat.lt_succ_self s.nextClient) run)

theorem IdOrder.clientFromServer {link : ClientId} {parv : List (List Char)} {newts : ℤ} {nick : List Char}
    (order : IdOrder s) (introduces : s.Introduces link parv nick)
    (run : s.clientFromServer link parv newts nick = some t) : IdOrder t := by
  obtain ⟨given, -, free, ⟨srv, lookup, server, source⟩, other⟩ := introduces
  unfold State.clientFromServer at run
  dsimp only at run
  obtain ⟨srv', filled, lookup', status, user, result⟩ := doRemoteUser_cases run
  have new : ((s.newClient (Client.ofClient link parv newts) nick).addToIdHashTable (param parv 8)
      s.nextClient).client s.nextClient = (Client.ofClient link parv newts).setName nick := client_newClient s _ nick
  rw [new] at lookup' status user
  have older : srv ≠ s.nextClient := Nat.ne_of_lt (order.found_old lookup)
  -- the server is found behind the new client too
  have found := findClient_entered (t := ((s.newClient (Client.ofClient link parv newts) nick).addToIdHashTable
    (param parv 8) s.nextClient).setClient s.nextClient (((Client.ofClient link parv newts).setName nick).introduced
      (param parv 6) (param parv 9) (some (param parv 8)))) order lookup server other rfl rfl
    (by rw [State.client_setClient_self]; rfl) (fun c isOther => by
      rw [State.client_setClient_of_ne _ isOther]
      exact State.client_setClient_of_ne _ isOther _)
  obtain rfl : srv = srv' := Option.some.inj (Option.some.inj (found.symm.trans lookup'))
  have sameServer : (((s.newClient (Client.ofClient link parv newts) nick).addToIdHashTable (param parv 8)
      s.nextClient).setClient s.nextClient filled).client srv = s.client srv := by
    rw [State.client_setClient_of_ne _ older]
    exact State.client_setClient_of_ne _ older _
  have isUnknown : filled.status = .unknown := status
  have isUser : filled.user = some (param parv 8) := user
  -- with an id that nobody has, as an unknown or a registered client
  have entered : ∀ client : Client, client.status ≠ .server → client.user = some (param parv 8) →
      IdOrder (((s.newClient (Client.ofClient link parv newts) nick).addToIdHashTable (param parv 8)
        s.nextClient).setClient s.nextClient client) := by
    intro client notServer user
    have bounded := order.bounded.newClient (Client.ofClient link parv newts) nick
    have isNew : (((s.newClient (Client.ofClient link parv newts) nick).addToIdHashTable (param parv 8)
      s.nextClient).setClient s.nextClient client).client s.nextClient = client := State.client_setClient_self ..
    have id : client.id = param parv 8 := by rw [Client.id, user, Option.getD_some]
    refine order.enter rfl rfl rfl ⟨bounded.heads, bounded.next⟩ (fun c isOther => ?_) (Or.inr ⟨?_, ?_, ?_⟩)
    · rw [State.client_setClient_of_ne _ isOther]
      exact State.client_setClient_of_ne _ isOther _
    · rw [isNew]
      simp [Client.hasId, notServer, user, given]
    · rw [isNew, id]
      rfl
    · rw [isNew, id]
      exact free
  rw [sameServer] at result
  rcases result with ⟨-, -, rfl | sends⟩ | ⟨refused, -⟩
  · exact entered filled (by rw [isUnknown]; exact Status.noConfusion) isUser
  · exact (entered { filled with status := .client } Status.noConfusion isUser).same sends.sameIds
  · exact absurd ⟨server, source⟩ refused

/-! ### Runs -/

theorem State.NoIds.idOrder (noIds : s.NoIds) : IdOrder s := by
  have only : ∀ c ∈ s.globalClientList, c = s.me := fun c member => by
    rw [noIds.list] at member
    exact List.mem_singleton.mp member
  have noId : (s.client s.me).hasId = false := by simp [Client.hasId, noIds.user]
  refine ⟨fun bucket => ⟨[], noIds.table bucket, List.nodup_nil, fun c => ?_⟩, ?_, ?_, ?_, ⟨?_, ?_⟩, noIds.ids⟩
  · constructor
    · exact fun inside => absurd inside List.not_mem_nil
    · rintro ⟨⟨member, hasId⟩, -⟩
      rw [only c member, noId] at hasId
      cases hasId
  · intro c member d member' _ _ _
    rw [only c member, only d member']
  · intro c member
    rw [only c member]
    exact noIds.old
  · rw [noIds.list]
    exact List.nodup_singleton s.me
  · intro bucket c head
    rw [noIds.heads bucket c head]
    exact noIds.old
  · intro a c next
    rw [noIds.next] at next
    cases next

theorem IdOrder.perform (order : IdOrder s) {e : IdEvent} (possible : s.PossibleId e) (keeps : s.KeepsIds e)
    (run : s.performId e = some t) : IdOrder t := by
  cases e with
  | connect =>
    obtain rfl := Option.some.inj run
    exact order.makeClient rfl
  | server link name =>
    obtain rfl := Option.some.inj run
    exact order.addServer link name
  | user source username realname => exact order.doLocalUser keeps run
  | register source => exact order.registerLocalUser possible keeps run
  | nick source nick => exact order.same (SameIds.rename possible run)
  | introduceNick link parv newts nick => exact order.newNickFromServer run
  | introduceClient link parv newts nick => exact order.clientFromServer keeps run
  | exit link who => exact order.exitClient keeps run
  | kill link who => exact order.exitKilled keeps run

end

/-- On every run whose steps all meet the condition, the table of ids is exact in every state. -/
theorem ids_exact {s : State} (reached : IdReached s) : IdsExact s := by
  have order : IdOrder s := by
    induction reached with
    | start noIds => exact noIds.idOrder
    | step e _ possible keeps run ih => exact ih.perform possible keeps run
  exact order.exact

theorem started_noIds (name : List Char) : (State.started name).NoIds where
  list := rfl
  old := Nat.one_pos
  user := rfl
  table _ := rfl
  heads bucket c head := by
    simp only [State.started, ChainTable.add, Function.update_apply] at head
    split at head
    · exact (Option.some.inj head).symm
    · cases head
  next c := by simp [State.started, ChainTable.add]
  ids _ := rfl

/-- A client of the server `c.d`, with the id `.x`. -/
def introOf (server : String) : List (List Char) :=
  [":c.d", "nick", "1", "5", "+i", "user", "host", server, ".x", "name"].map String.toList

theorem ids_exact_introduced : ∃ s, IdReached s ∧ s.findId ".x".toList = some (some 2) ∧ IdsExact s := by
  have run : (((State.started "a.b".toList).addServer none "c.d".toList).clientFromServer 1 (introOf "c.d") 5
      "nick".toList).map (fun s => s.findId ".x".toList) = some (some (some 2)) := by decide +kernel
  obtain ⟨s, run, found⟩ := Option.map_eq_some_iff.mp run
  have linked : IdReached ((State.started "a.b".toList).addServer none "c.d".toList) :=
    IdReached.step (.server none "c.d".toList) (IdReached.start (started_noIds _)) trivial trivial rfl
  have keeps : ((State.started "a.b".toList).addServer none "c.d".toList).Introduces 1 (introOf "c.d")
      "nick".toList := by
    refine ⟨by decide, by decide, ?_, ⟨1, by decide +kernel, by decide, by decide⟩, by decide⟩
    decide
  have reached := IdReached.step (.introduceClient 1 (introOf "c.d") 5 "nick".toList) linked trivial keeps run
  exact ⟨s, reached, found, ids_exact reached⟩

/-- An introduction from the wrong direction is refused, and its id stays in the table. -/
theorem refused_found :
    ∃ s, [.server none "c.d".toList, .server none "e.f".toList,
        .introduceClient 1 (introOf "e.f") 5 "nick".toList].foldlM State.performId (State.started "a.b".toList) = some s ∧
      ¬IdsExact s := by
  have found : (([.server none "c.d".toList, .server none "e.f".toList,
      .introduceClient 1 (introOf "e.f") 5 "nick".toList].foldlM State.performId
        (State.started "a.b".toList)).map fun s => (s.globalClientList, s.findId ".x".toList)) =
      some ([2, 1, 0], some (some 3)) := by decide +kernel
  obtain ⟨s, run, facts⟩ := Option.map_eq_some_iff.mp found
  obtain ⟨list, found⟩ := Prod.mk.inj facts
  refine ⟨s, run, fun exact_ => ?_⟩
  obtain ⟨who, lookup, whose⟩ := exact_.find ".x".toList
  rw [found] at lookup
  have member := ((whose 3).mp (Option.some.inj lookup).symm).1
  rw [list] at member
  exact absurd member (by decide)

end Ircd.Nick
