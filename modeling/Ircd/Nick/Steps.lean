import Ircd.Nick.Change

/-!
# What the operations on clients change

Most of the code for clients leaves their names and the tables alone. `Frame` says so of the code
that changes nothing but one client and sends lines, and `SameNames` also of the code that lets
clients go.
-/
namespace Ircd.Nick

open Chan (ClientId)

/-- A relation that holds of every step holds of a fold. -/
theorem foldlM_relates {α β : Type} {R : β → β → Prop} (refl : ∀ b, R b b)
    (trans : ∀ {a b c}, R a b → R b c → R a c) {f : β → α → Option β}
    (step : ∀ b x b', f b x = some b' → R b b') (l : List α) {b b' : β}
    (run : l.foldlM f b = some b') : R b b' := by
  induction l generalizing b with
  | nil =>
    obtain rfl : b = b' := Option.some.inj run
    exact refl b
  | cons x l ih =>
    rw [List.foldlM_cons, Option.bind_eq_bind, Option.bind_eq_some_iff] at run
    obtain ⟨mid, first, rest⟩ := run
    exact trans (step b x mid first) (ih rest)

/-! ### Names -/

/-- The same clients, under the same names. -/
structure SameNames (s s' : State) : Prop where
  name : ∀ c, (s'.client c).name = (s.client c).name
  nextClient : s'.nextClient = s.nextClient
  me : s'.me = s.me

namespace SameNames

theorem refl (s : State) : SameNames s s := ⟨fun _ => rfl, rfl, rfl⟩

theorem trans {s t u : State} (first : SameNames s t) (second : SameNames t u) : SameNames s u where
  name c := (second.name c).trans (first.name c)
  nextClient := second.nextClient.trans first.nextClient
  me := second.me.trans first.me

theorem setClient {s : State} {c : ClientId} {client : Client}
    (name : client.name = (s.client c).name) : SameNames s (s.setClient c client) where
  name d := by
    by_cases same : d = c
    · subst same
      simp [State.setClient, name]
    · simp [State.setClient, same]
  nextClient := rfl
  me := rfl

theorem ofEq {s t : State} (client : t.client = s.client) (next : t.nextClient = s.nextClient)
    (me : t.me = s.me) : SameNames s t := ⟨fun c => by rw [client], next, me⟩

theorem delFromClientHashTable {s t : State} {name : List Char} {who : ClientId}
    (run : s.delFromClientHashTable name who = some t) : SameNames s t := by
  obtain ⟨table, -, rfl⟩ := Option.map_eq_some_iff.mp run
  exact ofEq rfl rfl rfl

end SameNames

/-! ### Exits -/

/-- Nobody's name, status or link changes. -/
structure SameClients (s s' : State) : Prop extends SameNames s s' where
  status : ∀ c, (s'.client c).status = (s.client c).status
  source : ∀ c, (s'.client c).source = (s.client c).source

namespace SameClients

theorem refl (s : State) : SameClients s s := ⟨SameNames.refl s, fun _ => rfl, fun _ => rfl⟩

theorem trans {s t u : State} (first : SameClients s t) (second : SameClients t u) :
    SameClients s u where
  toSameNames := first.toSameNames.trans second.toSameNames
  status c := (second.status c).trans (first.status c)
  source c := (second.source c).trans (first.source c)

theorem setClient {s : State} {c : ClientId} {client : Client}
    (name : client.name = (s.client c).name) (status : client.status = (s.client c).status)
    (source : client.source = (s.client c).source) : SameClients s (s.setClient c client) where
  toSameNames := SameNames.setClient name
  status d := by
    by_cases same : d = c
    · subst same
      simp [State.setClient, status]
    · simp [State.setClient, same]
  source d := by
    by_cases same : d = c
    · subst same
      simp [State.setClient, source]
    · simp [State.setClient, same]

theorem ofEq {s t : State} (client : t.client = s.client) (next : t.nextClient = s.nextClient)
    (me : t.me = s.me) : SameClients s t :=
  ⟨SameNames.ofEq client next me, fun c => by rw [client], fun c => by rw [client]⟩

theorem setDead (s : State) (who : ClientId) :
    SameClients s (s.setClient who { s.client who with dead := true }) := setClient rfl rfl rfl

end SameClients

section

variable {s t : State} {clientP : Option ClientId} {who : ClientId}

/-- For a person lines are sent, and the table of ids changes. -/
theorem exitPerson_eq (run : s.exitPerson clientP who = some t) :
    ∃ sent idTable, t = { s with sent := sent, idTable := idTable } := by
  unfold State.exitPerson at run
  dsimp only at run
  split at run
  · have quit : ∃ sent, (if (s.client who).killed = true then s
        else s.sendtoServer clientP ⟨(s.client who).name, .quit, []⟩) = { s with sent := sent } := by
      split
      · exact ⟨s.sent, rfl⟩
      · exact ⟨_, rfl⟩
    obtain ⟨sent, quit⟩ := quit
    rw [quit] at run
    split at run
    · obtain ⟨idTable, -, rfl⟩ := Option.map_eq_some_iff.mp run
      exact ⟨sent, idTable, rfl⟩
    · obtain rfl := Option.some.inj run
      exact ⟨sent, s.idTable, rfl⟩
  · obtain rfl := Option.some.inj run
    exact ⟨s.sent, s.idTable, rfl⟩

/-- Whoever leaves is taken off the list and out of the hash table, but the server itself stays. -/
theorem exitOneClient_eq (run : s.exitOneClient clientP who = some t) :
    ((s.client who).status = .me ∧ t = s) ∨
      ((s.client who).status ≠ .me ∧ ∃ sent idTable table,
        s.clientTable.delete s.nextClient (hashNickName (s.client who).name) who = some table ∧
        t = { s with sent := sent, idTable := idTable, clientTable := table }.removeClientFromList
          who) := by
  unfold State.exitOneClient at run
  dsimp only at run
  split at run
  next isMe =>
    obtain rfl := Option.some.inj run
    exact Or.inl ⟨isMe, rfl⟩
  next notMe =>
    rw [Option.bind_eq_bind, Option.bind_eq_some_iff] at run
    obtain ⟨s₁, person, run⟩ := run
    rw [Option.bind_eq_some_iff] at run
    obtain ⟨s₂, gone, run⟩ := run
    obtain rfl := Option.some.inj run
    obtain ⟨sent, idTable, rfl⟩ := exitPerson_eq person
    obtain ⟨table, deleted, rfl⟩ := Option.map_eq_some_iff.mp gone
    exact Or.inr ⟨notMe, sent, idTable, table, deleted, rfl⟩

theorem exitOneClient_same (run : s.exitOneClient clientP who = some t) : SameClients s t := by
  rcases exitOneClient_eq run with ⟨-, rfl⟩ | ⟨-, sent, idTable, table, -, rfl⟩
  · exact SameClients.refl t
  · exact (SameClients.setDead s who).trans (SameClients.ofEq rfl rfl rfl)

theorem exitDependent_same (run : s.exitDependent who = some t) : SameClients s t := by
  refine SameClients.trans ?_ (exitOneClient_same run)
  exact SameClients.setClient rfl rfl rfl

theorem closing_same (s : State) (who : ClientId) : SameClients s (s.closing who) :=
  (SameClients.setDead s who).trans (SameClients.ofEq rfl rfl rfl)

theorem exitClient_eq (run : s.exitClient clientP who = some t) :
    ((s.client who).dead = true ∧ t = s) ∨
      ((s.client who).dead = false ∧ ∃ u,
        ((u = s.closing who ∧ (s.client who).status ≠ .server) ∨
          ((s.client who).status = .server ∧
            ((s.closing who).dependents s.nextClient who).foldlM State.exitDependent
              (s.closing who) = some u)) ∧
        u.exitOneClient clientP who = some t) := by
  unfold State.exitClient at run
  dsimp only at run
  split at run
  next dead =>
    obtain rfl := Option.some.inj run
    exact Or.inl ⟨dead, rfl⟩
  next alive =>
    refine Or.inr ⟨(Bool.not_eq_true _).mp alive, ?_⟩
    split at run
    next server =>
      obtain ⟨u, behind, run⟩ := Option.bind_eq_some_iff.mp run
      exact ⟨u, Or.inr ⟨server, behind⟩, run⟩
    next other => exact ⟨s.closing who, Or.inl ⟨rfl, other⟩, run⟩

theorem exitClient_same (run : s.exitClient clientP who = some t) : SameClients s t := by
  rcases exitClient_eq run with ⟨-, rfl⟩ | ⟨-, u, ⟨rfl, -⟩ | ⟨-, behind⟩, gone⟩
  · exact SameClients.refl t
  · exact (closing_same s who).trans (exitOneClient_same gone)
  · have left := foldlM_relates SameClients.refl SameClients.trans
      (fun _ _ _ run => exitDependent_same run) _ behind
    exact ((closing_same s who).trans left).trans (exitOneClient_same gone)

theorem exitKilled_same (run : s.exitKilled clientP who = some t) : SameClients s t := by
  refine SameClients.trans ?_ (exitClient_same run)
  exact SameClients.setClient rfl rfl rfl

end

/-! ### Frames -/

/-- Nobody comes, goes or gets another name, and the only status that may change is that `who`
becomes a registered client. -/
structure Frame (who : ClientId) (s s' : State) : Prop where
  clientTable : s'.clientTable = s.clientTable
  globalClientList : s'.globalClientList = s.globalClientList
  nextClient : s'.nextClient = s.nextClient
  me : s'.me = s.me
  name : ∀ c, (s'.client c).name = (s.client c).name
  source : ∀ c, (s'.client c).source = (s.client c).source
  dead : ∀ c, (s'.client c).dead = (s.client c).dead
  status : ∀ c, c ≠ who → (s'.client c).status = (s.client c).status
  whoStatus : (s'.client who).status = (s.client who).status ∨ (s'.client who).status = .client

namespace Frame

variable {who : ClientId} {s t u : State}

theorem refl (who : ClientId) (s : State) : Frame who s s :=
  ⟨rfl, rfl, rfl, rfl, fun _ => rfl, fun _ => rfl, fun _ => rfl, fun _ _ => rfl, Or.inl rfl⟩

theorem trans (first : Frame who s t) (second : Frame who t u) : Frame who s u where
  clientTable := second.clientTable.trans first.clientTable
  globalClientList := second.globalClientList.trans first.globalClientList
  nextClient := second.nextClient.trans first.nextClient
  me := second.me.trans first.me
  name c := (second.name c).trans (first.name c)
  source c := (second.source c).trans (first.source c)
  dead c := (second.dead c).trans (first.dead c)
  status c other := (second.status c other).trans (first.status c other)
  whoStatus := by
    rcases second.whoStatus with same | client
    · rw [same]
      exact first.whoStatus
    · exact Or.inr client

theorem sameNames (frame : Frame who s t) : SameNames s t := ⟨frame.name, frame.nextClient, frame.me⟩

/-- A client is replaced by one of the same name. -/
theorem setClient {c : ClientId} {client : Client} (name : client.name = (s.client c).name)
    (source : client.source = (s.client c).source) (dead : client.dead = (s.client c).dead)
    (status : client.status = (s.client c).status ∨ (c = who ∧ client.status = .client)) :
    Frame who s (s.setClient c client) where
  clientTable := rfl
  globalClientList := rfl
  nextClient := rfl
  me := rfl
  name d := by
    by_cases same : d = c
    · subst same
      simp [State.setClient, name]
    · simp [State.setClient, same]
  source d := by
    by_cases same : d = c
    · subst same
      simp [State.setClient, source]
    · simp [State.setClient, same]
  dead d := by
    by_cases same : d = c
    · subst same
      simp [State.setClient, dead]
    · simp [State.setClient, same]
  status d other := by
    by_cases same : d = c
    · subst same
      rcases status with status | ⟨equal, -⟩
      · simp [State.setClient, status]
      · exact absurd equal other
    · simp [State.setClient, same]
  whoStatus := by
    by_cases same : who = c
    · subst same
      rcases status with status | ⟨-, status⟩
      · simp [State.setClient, status]
      · simp [State.setClient, status]
    · simp [State.setClient, same]

/-- What is sent, and the tables of ids, are outside of every frame. -/
theorem ofEq (client : t.client = s.client) (table : t.clientTable = s.clientTable)
    (list : t.globalClientList = s.globalClientList) (next : t.nextClient = s.nextClient)
    (me : t.me = s.me) : Frame who s t where
  clientTable := table
  globalClientList := list
  nextClient := next
  me := me
  name c := by rw [client]
  source c := by rw [client]
  dead c := by rw [client]
  status c _ := by rw [client]
  whoStatus := Or.inl (by rw [client])

theorem tsBurstClient {link target : ClientId} (run : s.tsBurstClient link target = some t) :
    Frame who s t := by
  unfold State.tsBurstClient at run
  split at run
  · cases run
  · split at run
    · cases run
    · dsimp only at run
      obtain rfl := Option.some.inj run
      split
      · exact ofEq rfl rfl rfl rfl rfl
      · exact ofEq rfl rfl rfl rfl rfl

theorem introduceClientGlobally {clientP source : ClientId}
    (run : s.introduceClientGlobally clientP source = some t) : Frame who s t :=
  foldlM_relates (R := Frame who) (Frame.refl who) Frame.trans
    (fun _ _ _ run => Frame.tsBurstClient run) _ run

theorem freshId {n : ℕ} {id : List Char} (run : s.freshId n = some (id, t)) : Frame who s t := by
  induction n generalizing s with
  | zero => cases run
  | succ n ih =>
    rw [State.freshId] at run
    split at run
    · cases run
    · obtain ⟨-, rfl⟩ := Prod.mk.inj (Option.some.inj run)
      exact ofEq rfl rfl rfl rfl rfl
    · refine trans ?_ (ih run)
      exact ofEq rfl rfl rfl rfl rfl

theorem giveId (run : s.giveId who = some t) : Frame who s t := by
  unfold State.giveId at run
  split at run
  · rw [Option.bind_eq_bind, Option.bind_eq_some_iff] at run
    obtain ⟨⟨id, s₁⟩, fresh, run⟩ := run
    obtain rfl := Option.some.inj run
    refine (freshId fresh).trans ((setClient (c := who) ?_ ?_ ?_ ?_).trans (ofEq rfl rfl rfl rfl rfl))
    · rfl
    · rfl
    · rfl
    · exact Or.inl rfl
  · obtain rfl := Option.some.inj run
    exact refl who s

end Frame

/-! ### Registration -/

/-- A client is registered, if it is not sent away for it. -/
def Registers (who : ClientId) (s s' : State) : Prop :=
  Frame who s s' ∨ ∃ t one, Frame who s t ∧ t.exitClient one who = some s'

namespace Registers

variable {who : ClientId} {s t u : State}

theorem after (frame : Frame who s t) (registers : Registers who t u) : Registers who s u := by
  rcases registers with rest | ⟨v, one, rest, gone⟩
  · exact Or.inl (frame.trans rest)
  · exact Or.inr ⟨v, one, frame.trans rest, gone⟩

theorem sameNames (registers : Registers who s t) : SameNames s t := by
  rcases registers with frame | ⟨v, one, frame, gone⟩
  · exact frame.sameNames
  · exact frame.sameNames.trans (exitClient_same gone).toSameNames

theorem exitKilled {one : Option ClientId} (run : s.exitKilled one who = some t) :
    Registers who s t := by
  refine Or.inr ⟨_, one, ?_, run⟩
  exact Frame.setClient rfl rfl rfl (Or.inl rfl)

theorem registerLocalUser {clientP : ClientId} (run : s.registerLocalUser clientP who = some t) :
    Registers who s t := by
  unfold State.registerLocalUser at run
  split at run
  · obtain rfl := Option.some.inj run
    exact Or.inl (Frame.refl who s)
  · exact Or.inr ⟨s, some clientP, Frame.refl who s, run⟩
  next username _ =>
    dsimp only at run
    refine after (t := s.setClient who ((s.client who).setUsername username))
      (Frame.setClient rfl rfl rfl (Or.inl rfl)) ?_
    generalize s.setClient who ((s.client who).setUsername username) = s₁ at run ⊢
    rw [Option.bind_eq_bind, Option.bind_eq_some_iff] at run
    obtain ⟨s₂, id, run⟩ := run
    refine after (Frame.giveId id) ?_
    split at run
    · obtain rfl := Option.some.inj run
      exact Or.inl (Frame.setClient rfl rfl rfl (Or.inl rfl))
    · rw [State.setClient_setClient, State.client_setClient_self] at run
      refine Or.inl (Frame.trans ?_ (Frame.introduceClientGlobally run))
      exact Frame.setClient rfl rfl rfl (Or.inr ⟨rfl, rfl⟩)

theorem registerRemoteUser {clientP : ClientId} {username : List Char}
    (run : s.registerRemoteUser clientP who username = some t) : Registers who s t := by
  unfold State.registerRemoteUser at run
  dsimp only at run
  refine after (t := s.setClient who ((s.client who).setUsername username))
    (Frame.setClient rfl rfl rfl (Or.inl rfl)) ?_
  generalize s.setClient who ((s.client who).setUsername username) = s₁ at run ⊢
  have kill : Frame who s₁ (s₁.killClient clientP who) := Frame.ofEq rfl rfl rfl rfl rfl
  split at run
  · cases run
  · split at run
    · exact after kill (exitKilled run)
    · split at run
      · exact after kill (exitKilled run)
      · split at run
        · obtain rfl := Option.some.inj run
          exact Or.inl (Frame.refl who _)
        · refine Or.inl (Frame.trans ?_ (Frame.introduceClientGlobally run))
          exact Frame.setClient rfl rfl rfl (Or.inr ⟨rfl, rfl⟩)

theorem doRemoteUser {clientP : ClientId} {username host server realname : List Char}
    {id : Option (List Char)}
    (run : s.doRemoteUser clientP who username host server realname id = some t) :
    Registers who s t := by
  unfold State.doRemoteUser at run
  dsimp only at run
  rw [Option.bind_eq_bind, Option.bind_eq_some_iff] at run
  obtain ⟨servptr, -, run⟩ := run
  rw [State.setClient_setClient, State.client_setClient_self] at run
  refine after ?_ (registerRemoteUser run)
  exact Frame.setClient rfl rfl rfl (Or.inl rfl)

end Registers

end Ircd.Nick
