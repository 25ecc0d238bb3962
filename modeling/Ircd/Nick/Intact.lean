import Ircd.Nick.Steps

/-!
# The table of clients

What holds of the list of clients and of the hash table that finds them by name, and that exits,
new clients and changes of name keep it.
-/
namespace Ircd.Nick

open Chan (ClientId Status)

/-! ### Names up to case -/

/-- Names that differ in case only are in the same bucket. -/
theorem hashNickName_congr {name other : List Char} (equal : IrcEq name other) :
    hashNickName name = hashNickName other := by
  have folded : ∀ text : List Char, hashNickName text = (text.map toLower).foldl
      (fun h c => (15 * h + (2 ^ 32 - c.toNat)) % 2 ^ 32) 0 % 65536 := by
    intro text
    rw [List.foldl_map]
    rfl
  rw [folded, folded, equal.map_toLower]

theorem dot_mem_of_ircEq {name other : List Char} (equal : IrcEq name other) (dot : '.' ∈ name) :
    '.' ∈ other := by
  have upper : '.' ∈ other.map toUpper := by
    rw [← equal]
    exact List.mem_map.mpr ⟨'.', dot, rfl⟩
  obtain ⟨c, member, equal⟩ := List.mem_map.mp upper
  rwa [← eq_of_toUpper equal (by decide)]

theorem ircEq_nil {name : List Char} : IrcEq name [] ↔ name = [] := List.map_eq_nil_iff

/-! ### The invariant -/

/-- The clients of the hash table: those with a name, and registered clients. -/
def Client.Tabled (client : Client) : Prop := client.name ≠ [] ∨ client.status = .client

def State.key (s : State) (c : ClientId) : ℕ := hashNickName (s.client c).name

def State.tabled (s : State) : Set ClientId :=
  {c | c ∈ s.globalClientList ∧ (s.client c).Tabled}

/-- Neither a server nor the server itself. -/
def Client.IsUser (client : Client) : Prop := client.status ≠ .server ∧ client.status ≠ .me

/-- The list and the hash table agree, and no two clients have the same name. -/
structure Listed (s : State) : Prop where
  fresh : ∀ c ∈ s.globalClientList, c < s.nextClient
  nodup : s.globalClientList.Nodup
  table : s.clientTable.Holds s.key s.tabled
  unique : ∀ c ∈ s.globalClientList, ∀ d ∈ s.globalClientList, (s.client c).name ≠ [] →
    IrcEq (s.client c).name (s.client d).name → c = d
  dotted : ∀ c ∈ s.globalClientList, ¬(s.client c).IsUser → '.' ∈ (s.client c).name
  plain : ∀ c ∈ s.globalClientList, (s.client c).IsUser → '.' ∉ (s.client c).name
  source : ∀ c ∈ s.globalClientList, (s.client c).name = [] ∨ (s.client c).status = .me →
    (s.client c).source = c

/-- Nobody on the list is dead but `who`. -/
def Alive (s : State) (who : Option ClientId) : Prop :=
  ∀ c ∈ s.globalClientList, some c ≠ who → (s.client c).dead = false

structure Intact (s : State) : Prop extends Listed s where
  alive : Alive s none

namespace Listed

variable {s t : State}

theorem enough (listed : Listed s) : Enough s.tabled s.nextClient := by
  intro l nodup inside
  have within : l ⊆ List.range s.nextClient := fun c member =>
    List.mem_range.mpr (listed.fresh c (inside c member).1)
  simpa using (nodup.subperm within).length_le

/-- What `find_client` finds by name. -/
theorem find (listed : Listed s) {name : List Char} (noId : name.head? ≠ some '.') :
    ∃ found, s.findClient name = some found ∧
      (∀ c, found = some c →
        c ∈ s.globalClientList ∧ (s.client c).Tabled ∧ IrcEq name (s.client c).name) ∧
      (found = none → ∀ c ∈ s.globalClientList, (s.client c).Tabled →
        ¬ IrcEq name (s.client c).name) := by
  obtain ⟨found, lookup, some, none⟩ := listed.table.find listed.enough (hashNickName name)
    fun who => IrcEq name (s.client who).name
  refine ⟨found, ?_, fun c equal => ?_, fun equal c member tabled same => ?_⟩
  · rw [State.findClient, if_neg noId, lookup]
  · obtain ⟨⟨member, tabled⟩, -, same⟩ := some c equal
    exact ⟨member, tabled, of_decide_eq_true same⟩
  · have := none equal c ⟨member, tabled⟩ (hashNickName_congr same).symm
    exact of_decide_eq_false this same

/-- Nothing that the invariant speaks of has changed. -/
theorem congr (listed : Listed s) (same : SameClients s t)
    (table : t.clientTable = s.clientTable) (list : t.globalClientList = s.globalClientList) :
    Listed t := by
  obtain ⟨⟨name, next, -⟩, status, source⟩ := same
  have user : ∀ c, (t.client c).IsUser ↔ (s.client c).IsUser := fun c => by
    rw [Client.IsUser, Client.IsUser, status]
  have tabled : t.tabled = s.tabled := by
    ext c
    rw [State.tabled, Set.mem_ofPred_eq, Client.Tabled, list, name, status]
    rfl
  have key : t.key = s.key := funext fun c => by rw [State.key, State.key, name]
  constructor
  · rw [list, next]
    exact listed.fresh
  · rw [list]
    exact listed.nodup
  · rw [table, key, tabled]
    exact listed.table
  · simp only [list, name]
    exact listed.unique
  · simp only [list, name, user]
    exact listed.dotted
  · simp only [list, name, user]
    exact listed.plain
  · simp only [list, name, status, source]
    exact listed.source

/-- A client with a name may become a registered one. -/
theorem frame {who : ClientId} (listed : Listed s) (frame : Frame who s t)
    (user : (s.client who).IsUser) (named : (s.client who).name ≠ []) : Listed t := by
  have users : ∀ c, (t.client c).IsUser ↔ (s.client c).IsUser := by
    intro c
    by_cases isWho : c = who
    · subst isWho
      refine ⟨fun _ => user, fun _ => ?_⟩
      rcases frame.whoStatus with same | registered
      · rwa [Client.IsUser, same]
      · rw [Client.IsUser, registered]
        decide
    · rw [Client.IsUser, Client.IsUser, frame.status c isWho]
  have tabled : t.tabled = s.tabled := by
    ext c
    rw [State.tabled, Set.mem_ofPred_eq, Client.Tabled, frame.globalClientList, frame.name]
    by_cases isWho : c = who
    · subst isWho
      simp [State.tabled, Client.Tabled, named]
    · rw [frame.status c isWho]
      rfl
  have key : t.key = s.key := funext fun c => by rw [State.key, State.key, frame.name]
  constructor
  · rw [frame.globalClientList, frame.nextClient]
    exact listed.fresh
  · rw [frame.globalClientList]
    exact listed.nodup
  · rw [frame.clientTable, key, tabled]
    exact listed.table
  · simp only [frame.globalClientList, frame.name]
    exact listed.unique
  · simp only [frame.globalClientList, frame.name, users]
    exact listed.dotted
  · simp only [frame.globalClientList, frame.name, users]
    exact listed.plain
  · intro c member nameless
    rw [frame.globalClientList] at member
    rw [frame.source]
    apply listed.source c member
    rw [frame.name] at nameless
    by_cases isWho : c = who
    · subst isWho
      exact absurd (nameless.resolve_left named) ((users c).mpr user).2
    · rwa [frame.status c isWho] at nameless

/-- Somebody is taken off the list, and out of the table. -/
theorem exitOneClient {clientP : Option ClientId} {who : ClientId} (listed : Listed s)
    (user : (s.client who).status ≠ .me) (run : s.exitOneClient clientP who = some t) :
    Listed t ∧ t.globalClientList = s.globalClientList.erase who ∧
      ∀ c, c ≠ who → (t.client c).dead = (s.client c).dead := by
  have same := exitOneClient_same run
  rcases exitOneClient_eq run with ⟨isMe, -⟩ | ⟨-, sent, idTable, table, deleted, equal⟩
  · exact absurd isMe user
  have list : t.globalClientList = s.globalClientList.erase who := by rw [equal]; rfl
  have subset : ∀ c ∈ t.globalClientList, c ∈ s.globalClientList := fun c member => by
    rw [list] at member
    exact List.mem_of_mem_erase member
  have held : table.Holds s.key (s.tabled \ {who}) := by
    by_cases member : who ∈ s.tabled
    · obtain ⟨table', deleted', held⟩ := listed.table.delete listed.enough member
      obtain rfl := Option.some.inj (deleted.symm.trans deleted')
      exact held
    · obtain rfl := Option.some.inj
        (deleted.symm.trans (listed.table.delete_absent listed.enough member _))
      rw [Set.sdiff_singleton_eq_self member]
      exact listed.table
  have users : ∀ c, (t.client c).IsUser ↔ (s.client c).IsUser := fun c => by
    rw [Client.IsUser, Client.IsUser, same.status]
  refine ⟨⟨fun c member => ?_, ?_, ?_, ?_, ?_, ?_, ?_⟩, list, fun c other => ?_⟩
  · rw [same.nextClient]
    exact listed.fresh c (subset c member)
  · rw [list]
    exact listed.nodup.erase who
  · have key : t.key = s.key := funext fun c => by rw [State.key, State.key, same.name]
    have tabled : t.tabled = s.tabled \ {who} := by
      ext c
      rw [State.tabled, Set.mem_ofPred_eq, Client.Tabled, list, same.name, same.status,
        listed.nodup.mem_erase_iff, Set.mem_sdiff, Set.mem_singleton_iff]
      exact and_assoc.trans and_comm
    rw [key, tabled, show t.clientTable = table by rw [equal]; rfl]
    exact held
  · intro c member d member'
    rw [same.name, same.name]
    exact listed.unique c (subset c member) d (subset d member')
  · intro c member
    rw [users, same.name]
    exact listed.dotted c (subset c member)
  · intro c member
    rw [users, same.name]
    exact listed.plain c (subset c member)
  · intro c member
    rw [same.name, same.status, same.source]
    exact listed.source c (subset c member)
  · rw [equal]
    exact congrArg Client.dead (State.client_setClient_of_ne _ other _)

/-- One round of `recurse_remove_clients` keeps the list in order, and revives nobody. -/
theorem exitDependent {who : ClientId} {leaving : Option ClientId} (listed : Listed s)
    (alive : Alive s leaving) (run : s.exitDependent who = some t) :
    Listed t ∧ Alive t leaving := by
  have marked : SameClients s (s.setClient who { s.client who with killed := true }) :=
    SameClients.setClient rfl rfl rfl
  have listed' := listed.congr marked rfl rfl
  have alive' : Alive (s.setClient who { s.client who with killed := true }) leaving := by
    intro c member other
    by_cases isWho : c = who
    · subst isWho
      rw [State.client_setClient_self]
      exact alive c member other
    · rw [State.client_setClient_of_ne _ isWho]
      exact alive c member other
  rcases exitOneClient_eq run with ⟨-, rfl⟩ | ⟨notMe, -⟩
  · exact ⟨listed', alive'⟩
  · obtain ⟨left, list, dead⟩ := listed'.exitOneClient notMe run
    refine ⟨left, fun c member other => ?_⟩
    rw [list] at member
    rw [dead c (listed'.nodup.mem_erase_iff.mp member).1]
    exact alive' c (List.mem_of_mem_erase member) other

end Listed

namespace Intact

variable {s t : State} {who : ClientId}

theorem congr (intact : Intact s) (same : SameClients s t)
    (table : t.clientTable = s.clientTable) (list : t.globalClientList = s.globalClientList)
    (dead : ∀ c, (t.client c).dead = (s.client c).dead) : Intact t where
  toListed := intact.toListed.congr same table list
  alive c member other := by
    rw [list] at member
    rw [dead]
    exact intact.alive c member other

theorem setClient (intact : Intact s) {c : ClientId} {client : Client}
    (name : client.name = (s.client c).name) (status : client.status = (s.client c).status)
    (source : client.source = (s.client c).source) (dead : client.dead = (s.client c).dead) :
    Intact (s.setClient c client) := by
  refine intact.congr (SameClients.setClient name status source) rfl rfl fun d => ?_
  by_cases same : d = c
  · subst same
    rw [State.client_setClient_self, dead]
  · rw [State.client_setClient_of_ne _ same]

theorem frame (intact : Intact s) (frame : Frame who s t) (user : (s.client who).IsUser)
    (named : (s.client who).name ≠ []) : Intact t where
  toListed := intact.toListed.frame frame user named
  alive c member other := by
    rw [frame.globalClientList] at member
    rw [frame.dead]
    exact intact.alive c member other

/-- `exit_client` removes a client, and if it is a server also those behind it. -/
theorem exitClient {clientP : Option ClientId} (intact : Intact s)
    (user : (s.client who).status ≠ .me) (run : s.exitClient clientP who = some t) :
    Intact t ∧ ((s.client who).status ≠ .server →
      t.globalClientList = s.globalClientList.erase who) := by
  rcases exitClient_eq run with ⟨dead, rfl⟩ | ⟨-, u, before, gone⟩
  · refine ⟨intact, fun _ => ?_⟩
    rw [List.erase_of_not_mem]
    intro member
    exact absurd (intact.alive who member (by simp)) (by rw [dead]; decide)
  have closing := closing_same s who
  have listed : Listed (s.closing who) := intact.toListed.congr closing rfl rfl
  have alive : Alive (s.closing who) (some who) := by
    intro c member other
    have isOther : c ≠ who := fun equal => other (congrArg some equal)
    rw [show (s.closing who).client c = s.client c from State.client_setClient_of_ne _ isOther _]
    exact intact.alive c member (by simp)
  have behind : Listed u ∧ Alive u (some who) ∧ (u.client who).status ≠ .me ∧
      ((s.client who).status ≠ .server → u.globalClientList = s.globalClientList) := by
    rcases before with ⟨rfl, -⟩ | ⟨server, run⟩
    · refine ⟨listed, alive, ?_, fun _ => rfl⟩
      rwa [closing.status]
    · have same := foldlM_relates SameClients.refl SameClients.trans
        (fun _ _ _ run => exitDependent_same run) _ run
      have kept := foldlM_relates
        (R := fun b b' => Listed b ∧ Alive b (some who) → Listed b' ∧ Alive b' (some who))
        (fun _ holds => holds) (fun first second holds => second (first holds))
        (fun _ _ _ run holds => holds.1.exitDependent holds.2 run) _ run ⟨listed, alive⟩
      refine ⟨kept.1, kept.2, ?_, fun other => absurd server other⟩
      rwa [same.status, closing.status]
  obtain ⟨listed, alive, notMe, list⟩ := behind
  obtain ⟨left, erased, dead⟩ := listed.exitOneClient notMe gone
  refine ⟨⟨left, fun c member other => ?_⟩, fun other => by rw [erased, list other]⟩
  rw [erased] at member
  obtain ⟨isOther, member⟩ := listed.nodup.mem_erase_iff.mp member
  rw [dead c isOther]
  exact alive c member fun equal => isOther (Option.some.inj equal)

theorem exitKilled {clientP : Option ClientId} (intact : Intact s)
    (user : (s.client who).status ≠ .me) (run : s.exitKilled clientP who = some t) :
    Intact t ∧ ((s.client who).status ≠ .server →
      t.globalClientList = s.globalClientList.erase who) := by
  have marked : Intact (s.setClient who { s.client who with killed := true }) :=
    intact.setClient rfl rfl rfl rfl
  have status : ((s.setClient who { s.client who with killed := true }).client who).status =
      (s.client who).status := by
    rw [State.client_setClient_self]
  have left := marked.exitClient (by rwa [status]) run
  rwa [status] at left

/-- Registration keeps the table, also where it fails. -/
theorem registers (intact : Intact s) (registers : Registers who s t)
    (user : (s.client who).IsUser) (named : (s.client who).name ≠ []) : Intact t := by
  rcases registers with frame | ⟨u, one, frame, gone⟩
  · exact intact.frame frame user named
  · refine ((intact.frame frame user named).exitClient ?_ gone).1
    rcases frame.whoStatus with same | registered
    · rw [same]
      exact user.2
    · rw [registered]
      decide

/-- No client but `who` has the name. -/
def Free (s : State) (who : Option ClientId) (name : List Char) : Prop :=
  ∀ c ∈ s.globalClientList, some c ≠ who → ¬ IrcEq name (s.client c).name

theorem absent (intact : Intact s) : s.nextClient ∉ s.globalClientList := fun member =>
  absurd (intact.fresh _ member) (Nat.lt_irrefl _)

/-- A new client comes onto the list, if the table has it where it belongs. -/
theorem arrive (intact : Intact s) (client : Client) {table : ChainTable ClientId}
    (held : table.Holds (s.makeClient client).key (s.makeClient client).tabled)
    (free : client.name ≠ [] → Free s none client.name) (dead : client.dead = false)
    (notMe : client.status ≠ .me) (dot : client.status = .server ↔ '.' ∈ client.name)
    (source : client.name = [] → client.source = s.nextClient) :
    Intact { s.makeClient client with clientTable := table } := by
  have old : ∀ c ∈ s.globalClientList, (s.makeClient client).client c = s.client c :=
    fun c member => State.client_setClient_of_ne _ (ne_of_mem_of_not_mem member intact.absent) _
  have new : (s.makeClient client).client s.nextClient = client := State.client_setClient_self ..
  refine ⟨⟨fun c member => ?_, ?_, held, fun c member d member' named same => ?_,
    fun c member notUser => ?_, fun c member user => ?_, fun c member nameless => ?_⟩,
    fun c member _ => ?_⟩
  · rcases List.mem_cons.mp member with rfl | member
    · exact Nat.lt_succ_self _
    · exact Nat.lt_succ_of_lt (intact.fresh c member)
  · exact List.nodup_cons.mpr ⟨intact.absent, intact.nodup⟩
  · dsimp only at named same
    rcases List.mem_cons.mp member with rfl | member
    · rw [new] at named same
      rcases List.mem_cons.mp member' with rfl | member'
      · rfl
      · rw [old d member'] at same
        exact absurd same (free named d member' (by simp))
    · rw [old c member] at named same
      rcases List.mem_cons.mp member' with rfl | member'
      · rw [new] at same
        have named' : client.name ≠ [] := fun empty => named (ircEq_nil.mp (empty ▸ same))
        exact absurd same.symm (free named' c member (by simp))
      · rw [old d member'] at same
        exact intact.unique c member d member' named same
  · dsimp only at notUser ⊢
    rcases List.mem_cons.mp member with rfl | member
    · rw [new] at notUser ⊢
      exact dot.mp (by_contra fun other => notUser ⟨other, notMe⟩)
    · rw [old c member] at notUser ⊢
      exact intact.dotted c member notUser
  · dsimp only at user ⊢
    rcases List.mem_cons.mp member with rfl | member
    · rw [new] at user ⊢
      exact fun dotted => user.1 (dot.mpr dotted)
    · rw [old c member] at user ⊢
      exact intact.plain c member user
  · dsimp only at nameless ⊢
    rcases List.mem_cons.mp member with rfl | member
    · rw [new] at nameless ⊢
      exact source (nameless.resolve_right notMe)
    · rw [old c member] at nameless ⊢
      exact intact.source c member nameless
  · dsimp only
    rcases List.mem_cons.mp member with rfl | member
    · rw [new]
      exact dead
    · rw [old c member]
      exact intact.alive c member (by simp)

/-- A new client with a name is in the table, too. -/
theorem enter (intact : Intact s) (client : Client) (name : client.name ≠ [])
    (free : Free s none client.name) (dead : client.dead = false) (notMe : client.status ≠ .me)
    (dot : client.status = .server ↔ '.' ∈ client.name) :
    Intact ((s.makeClient client).addToClientHashTable client.name s.nextClient) := by
  have old : ∀ c ∈ s.globalClientList, (s.makeClient client).client c = s.client c :=
    fun c member => State.client_setClient_of_ne _ (ne_of_mem_of_not_mem member intact.absent) _
  have new : (s.makeClient client).client s.nextClient = client := State.client_setClient_self ..
  refine intact.arrive client ?_ (fun _ => free) dead notMe dot fun empty => absurd empty name
  have added := intact.table.add (a := s.nextClient)
    (fun member => intact.absent member.1) (hashNickName client.name)
  have tabled : (s.makeClient client).tabled = insert s.nextClient s.tabled := by
    ext c
    rw [State.tabled, Set.mem_ofPred_eq, Set.mem_insert_iff]
    by_cases isNew : c = s.nextClient
    · subst isNew
      simp [Client.Tabled, name, State.makeClient]
    · rw [or_iff_right isNew,
        show (s.makeClient client).globalClientList = s.nextClient :: s.globalClientList from rfl,
        List.mem_cons, or_iff_right isNew]
      exact and_congr_right fun member => by rw [old c member]
  rw [tabled]
  refine added.congr_key fun c member => ?_
  rcases Set.mem_insert_iff.mp member with rfl | member
  · rw [Function.update_self, State.key, new]
  · rw [Function.update_of_ne (ne_of_mem_of_not_mem member.1 intact.absent), State.key, State.key,
      old c member.1]

/-- Somebody connects, without a name. -/
theorem connect (intact : Intact s) : Intact s.connect := by
  have old : ∀ c ∈ s.globalClientList, s.connect.client c = s.client c := fun c member =>
    State.client_setClient_of_ne _ (ne_of_mem_of_not_mem member intact.absent) _
  have new : s.connect.client s.nextClient = Client.made s.nextClient true :=
    State.client_setClient_self ..
  refine intact.arrive (Client.made s.nextClient true) ?_ (fun named => absurd rfl named)
    rfl Status.noConfusion ⟨Status.noConfusion, fun dot => absurd dot List.not_mem_nil⟩ fun _ => rfl
  have tabled : s.connect.tabled = s.tabled := by
    ext c
    rw [State.tabled, Set.mem_ofPred_eq,
      show s.connect.globalClientList = s.nextClient :: s.globalClientList from rfl, List.mem_cons]
    by_cases isNew : c = s.nextClient
    · subst isNew
      rw [new]
      constructor
      · rintro ⟨-, named | registered⟩
        · exact absurd rfl named
        · cases registered
      · exact fun member => absurd member.1 intact.absent
    · rw [or_iff_right isNew]
      exact and_congr_right fun member => by rw [old c member]
  change s.clientTable.Holds s.connect.key s.connect.tabled
  rw [tabled]
  refine intact.table.congr_key fun c member => ?_
  rw [State.key, State.key, old c member.1]

/-! ### Changes of name -/

/-- A nick that a client may get: it fits, has no dot, and nobody else has it. -/
structure Takes (s : State) (source : ClientId) (nick : List Char) : Prop where
  member : source ∈ s.globalClientList
  user : (s.client source).IsUser
  short : nick.length ≤ Chan.hostLen
  plain : '.' ∉ nick
  free : nick ≠ [] → Free s (some source) nick
  tabled : nick ≠ [] ∨ (s.client source).status = .client
  source : nick = [] → (s.client source).source = source

/-- A client that is out of the table comes back under its new name. -/
theorem setNick (intact : Intact s) {source : ClientId} {nick : List Char}
    (takes : Takes s source nick) {table : ChainTable ClientId}
    (held : table.Holds s.key (s.tabled \ {source})) :
    Intact (({ s with clientTable := table }.setClient source
      ((s.client source).setName nick)).addToClientHashTable nick source) := by
  generalize equal : ({ s with clientTable := table }.setClient source
    ((s.client source).setName nick)).addToClientHashTable nick source = t
  have new : t.client source = (s.client source).setName nick := by
    rw [← equal]
    exact State.client_setClient_self ..
  have old : ∀ c, c ≠ source → t.client c = s.client c := fun c other => by
    rw [← equal]
    exact State.client_setClient_of_ne _ other _
  have list : t.globalClientList = s.globalClientList := by rw [← equal]; rfl
  have name : (t.client source).name = nick := by
    rw [new]
    exact List.take_of_length_le takes.short
  have users : ∀ c, (t.client c).IsUser ↔ (s.client c).IsUser := by
    intro c
    by_cases isSource : c = source
    · subst isSource
      rw [new]
      rfl
    · rw [old c isSource]
  refine ⟨⟨?_, ?_, ?_, ?_, ?_, ?_, ?_⟩, ?_⟩
  · rw [list, ← equal]
    exact intact.fresh
  · rw [list]
    exact intact.nodup
  · have added := held.add (a := source) (fun member => member.2 rfl) (hashNickName nick)
    have tabled : t.tabled = insert source (s.tabled \ {source}) := by
      ext c
      rw [State.tabled, Set.mem_ofPred_eq, list, Set.mem_insert_iff]
      by_cases isSource : c = source
      · subst isSource
        refine ⟨fun _ => Or.inl rfl, fun _ => ⟨takes.member, ?_⟩⟩
        rw [Client.Tabled, name, new]
        exact takes.tabled
      · rw [old c isSource]
        simp [isSource, State.tabled]
    rw [show t.clientTable = table.add (hashNickName nick) source by rw [← equal]; rfl, tabled]
    refine added.congr_key fun c member => ?_
    rcases Set.mem_insert_iff.mp member with rfl | member
    · rw [Function.update_self, State.key, name]
    · rw [Function.update_of_ne member.2, State.key, State.key, old c member.2]
  -- nobody else has the new name, since it is free
  · intro c member d member' named same
    rw [list] at member member'
    by_cases isSource : c = source
    · subst isSource
      by_cases other : d = c
      · exact other.symm
      · rw [name] at named same
        rw [old d other] at same
        exact absurd same (takes.free named d member' fun equal => other (Option.some.inj equal))
    · rw [old c isSource] at named same
      by_cases other : d = source
      · subst other
        rw [name] at same
        have named' : nick ≠ [] := fun empty => named (ircEq_nil.mp (empty ▸ same))
        exact absurd same.symm
          (takes.free named' c member fun equal => isSource (Option.some.inj equal))
      · rw [old d other] at same
        exact intact.unique c member d member' named same
  · intro c member notUser
    rw [list] at member
    rw [users] at notUser
    by_cases isSource : c = source
    · subst isSource
      exact absurd takes.user notUser
    · rw [old c isSource]
      exact intact.dotted c member notUser
  · intro c member user
    rw [list] at member
    rw [users] at user
    by_cases isSource : c = source
    · subst isSource
      rw [name]
      exact takes.plain
    · rw [old c isSource]
      exact intact.plain c member user
  · intro c member nameless
    rw [list] at member
    by_cases isSource : c = source
    · subst isSource
      rw [name] at nameless
      rw [new] at nameless ⊢
      exact takes.source (nameless.resolve_right takes.user.2)
    · rw [old c isSource] at nameless ⊢
      exact intact.source c member nameless
  · intro c member _
    rw [list] at member
    by_cases isSource : c = source
    · subst isSource
      rw [new]
      exact intact.alive c member (by simp)
    · rw [old c isSource]
      exact intact.alive c member (by simp)

/-- Out of the table under the old name, and back in under the new. -/
theorem retable (intact : Intact s) {source : ClientId} {nick : List Char}
    (takes : Takes s source nick) (tabled : (s.client source).Tabled) {u : State}
    (deleted : s.delFromClientHashTable (s.client source).name source = some u) :
    Intact ((u.setClient source ((u.client source).setName nick)).addToClientHashTable nick
      source) := by
  obtain ⟨table, removed, rfl⟩ := Option.map_eq_some_iff.mp deleted
  obtain ⟨table', removed', held⟩ := intact.table.delete intact.enough
    (show source ∈ s.tabled from ⟨takes.member, tabled⟩)
  obtain rfl := Option.some.inj (removed.symm.trans removed')
  exact intact.setNick takes held

theorem rename (intact : Intact s) {source : ClientId} {nick : List Char}
    (takes : Takes s source nick)
    (named : (s.client source).name ≠ [] ∨ (s.client source).status ≠ .client)
    (run : s.rename source nick = some t) : Intact t := by
  unfold State.rename at run
  rw [Option.bind_eq_bind, Option.bind_eq_some_iff] at run
  obtain ⟨u, unnamed, run⟩ := run
  obtain rfl := Option.some.inj run
  unfold State.unname at unnamed
  split at unnamed
  next name => exact intact.retable takes (Or.inl name) unnamed
  next empty =>
    obtain rfl := Option.some.inj unnamed
    have notTabled : source ∉ s.tabled := fun member =>
      named.resolve_left empty (member.2.resolve_left empty)
    have held : s.clientTable.Holds s.key (s.tabled \ {source}) := by
      rw [Set.sdiff_singleton_eq_self notTabled]
      exact intact.table
    exact intact.setNick takes held

end Intact

end Ircd.Nick
