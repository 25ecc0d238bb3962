import Ircd.Lib.Mirror
import Ircd.Lib.Run
import Ircd.Message.TargetList

/-!
# Caller id

The lists of whom a client takes private messages from: `m_accept` of `modules/m_accept.c`, `del_from_accept` and
`del_all_accepts` of `src/client.c`, and the nick changes and exits that call the latter. Each client has the list
`allow_list` of those it accepts and the list `on_allow_list` of those that accept it.
-/
namespace Ircd.Message.Accept

open Command (tokens)

/-- The address of a `struct Client`. -/
abbrev ClientId := ℕ

/-- Of `struct Client`, what `find_client` looks at and whether `IsPerson` holds. A client without an id has an empty
one. -/
structure Client where
  name : List Char
  id : List Char
  person : Bool
deriving DecidableEq

/-- The lists `allow_list` on the left and `on_allow_list` on the right, the clients, those of them that have not left,
and the hash tables in the order of their chains. -/
structure State where
  lists : Mirror ClientId ClientId
  client : ClientId → Client
  nextClient : ClientId
  live : ClientId → Bool
  clientTable : List ClientId
  idTable : List ClientId
  maxAccept : ℕ

def start (maxAccept : ℕ) : State where
  lists := ⟨fun _ => [], fun _ => []⟩
  client := fun _ => ⟨[], [], false⟩
  nextClient := 0
  live := fun _ => false
  clientTable := []
  idTable := []
  maxAccept := maxAccept

namespace State

/-! ### `client.c` -/

/-- `find_client`. -/
def findClient (s : State) (name : List Char) : Option ClientId :=
  if name.head? = some '.' then s.idTable.find? fun c => decide ((s.client c).id = name)
  else s.clientTable.find? fun c => decide (IrcEq name (s.client c).name)

/-- What `m_accept` takes a name for: a client, and a person. -/
def findPerson (s : State) (name : List Char) : Option ClientId :=
  (s.findClient name).filter fun c => (s.client c).person

/-- `accept_message`. -/
def acceptMessage (lists : Mirror ClientId ClientId) (source target : ClientId) : Bool :=
  decide (source ∈ lists.left target)

/-- `del_from_accept`. The list of the source is walked for each node that goes from the list of the target. -/
def delFromAccept (lists : Mirror ClientId ClientId) (source target : ClientId) : Mirror ClientId ClientId :=
  if source ∈ lists.left target then
    { left := Function.update lists.left target ((lists.left target).filter (· ≠ source))
      right := Function.update lists.right source ((lists.right source).filter (· ≠ target)) }
  else lists

/-- `del_all_accepts`. The second list is looked at when the first has been walked. -/
def delAllAccepts (lists : Mirror ClientId ClientId) (client : ClientId) : Mirror ClientId ClientId :=
  let first := (lists.left client).foldl (fun lists target => delFromAccept lists target client) lists
  (first.right client).foldl (fun lists target => delFromAccept lists client target) first

/-! ### `m_accept.c` -/

/-- `BUFSIZE`. -/
def bufSize : ℕ := 512

/-- A buffer of names, and the length that `build_nicklist` counts for it. -/
structure Names where
  text : List Char
  len : ℕ

/-- A name goes behind those that are there. -/
def Names.put (buf : Names) (name : List Char) : Names where
  text := (if buf.text = [] then [] else buf.text ++ [',']) ++ name.take (bufSize - buf.len - 1)
  len := buf.len + name.length + 1

/-- One round of `build_nicklist`. -/
def sort (s : State) (bufs : Names × Names) (token : List Char) : Names × Names :=
  let del := token.head? = some '-'
  let name := if del then token.tail else token
  match s.findPerson name with
  | none => bufs
  | some _ => if del then (bufs.1, bufs.2.put name) else (bufs.1.put name, bufs.2)

/-- `build_nicklist`: `addbuf` and `delbuf`. -/
def buildNicklist (s : State) (nicks : List Char) : List Char × List Char :=
  let bufs := (tokens nicks).foldl s.sort (⟨[], 0⟩, ⟨[], 0⟩)
  (bufs.1.text, bufs.2.text)

/-- A round of the loop over the names to delete. -/
def deleteRound (s : State) (source : ClientId) (lists : Mirror ClientId ClientId) (nick : List Char) :
    Mirror ClientId ClientId :=
  match s.findPerson nick with
  | none => lists
  | some target => if acceptMessage lists target source then delFromAccept lists target source else lists

/-- `add_accept`. -/
def addAccept (lists : Mirror ClientId ClientId) (source target : ClientId) : Mirror ClientId ClientId :=
  lists.link source target

/-- The loop over the names to add. `accept_num` counts the rounds, also those that add nothing. -/
def addRounds (s : State) (source : ClientId) :
    ℕ → List (List Char) → Mirror ClientId ClientId → Mirror ClientId ClientId
  | _, [], lists => lists
  | acceptNum, nick :: nicks, lists =>
    match s.findPerson nick with
    | none => addRounds s source (acceptNum + 1) nicks lists
    | some target =>
      if acceptMessage lists target source then addRounds s source (acceptNum + 1) nicks lists
      else if s.maxAccept ≤ acceptNum then lists
      else addRounds s source (acceptNum + 1) nicks (addAccept lists source target)

/-- `m_accept`. A `*` only asks for the list. -/
def mAccept (s : State) (source : ClientId) (nicks : List Char) : State :=
  if nicks.head? = some '*' then s
  else
    let (addbuf, delbuf) := s.buildNicklist nicks
    let lists := (tokens delbuf).foldl (s.deleteRound source) s.lists
    { s with lists := s.addRounds source (lists.left source).length (tokens addbuf) lists }

/-! ### Clients -/

/-- `make_client`. -/
def makeClient (s : State) : State :=
  { s with
    client := Function.update s.client s.nextClient ⟨[], [], false⟩
    live := Function.update s.live s.nextClient true
    nextClient := s.nextClient + 1 }

/-- A client gets a name, or another one. `change_local_nick` and `nick_from_server` clear the lists of a person. -/
def setNick (s : State) (who : ClientId) (nick : List Char) : State :=
  { s with
    client := Function.update s.client who { s.client who with name := nick }
    clientTable := who :: s.clientTable.filter (· ≠ who)
    lists := if (s.client who).person then delAllAccepts s.lists who else s.lists }

/-- A client gets an id. -/
def setId (s : State) (who : ClientId) (id : List Char) : State :=
  { s with
    client := Function.update s.client who { s.client who with id := id }
    idTable := who :: s.idTable }

/-- `SetClient`, where a client registers. -/
def setClient (s : State) (who : ClientId) : State :=
  { s with client := Function.update s.client who { s.client who with person := true } }

/-- `exit_one_client`. Nothing is cleaned up for a person without a name. -/
def exitOneClient (s : State) (who : ClientId) : State :=
  let client := s.client who
  let cleaned := decide (client.person = true ∧ client.name ≠ [])
  { s with
    lists := if cleaned then delAllAccepts s.lists who else s.lists
    idTable := if cleaned ∧ client.id ≠ [] then s.idTable.filter (· ≠ who) else s.idTable
    clientTable := s.clientTable.filter (· ≠ who)
    live := Function.update s.live who false }

end State

/-! ### Runs -/

inductive Op where
  | connect
  | nick (who : ClientId) (nick : List Char)
  | uid (who : ClientId) (id : List Char)
  | register (who : ClientId)
  | accept (source : ClientId) (nicks : List Char)
  | delAllAccepts (who : ClientId)
  | exit (who : ClientId)
deriving DecidableEq

/-- Whom the operations are about: clients that have not left, persons for ACCEPT, and an id goes to a client that is
about to register and has none. -/
def Op.Live (s : State) : Op → Prop
  | .connect => True
  | .nick who _ | .delAllAccepts who | .exit who => s.live who = true
  | .uid who id => s.live who = true ∧ (s.client who).person = false ∧ (s.client who).id = [] ∧ id ≠ []
  | .register who => s.live who = true
  | .accept source _ => s.live source = true ∧ (s.client source).person = true

instance (s : State) (op : Op) : Decidable (op.Live s) := by
  cases op <;> unfold Op.Live <;> infer_instance

def State.step (s : State) (op : Op) : State :=
  if op.Live s then
    match op with
    | .connect => s.makeClient
    | .nick who nick => s.setNick who nick
    | .uid who id => s.setId who id
    | .register who => s.setClient who
    | .accept source nicks => s.mAccept source nicks
    | .delAllAccepts who => { s with lists := State.delAllAccepts s.lists who }
    | .exit who => s.exitOneClient who
  else s

def run (maxAccept : ℕ) (ops : List Op) : State := ops.foldl State.step (start maxAccept)

/-- The lists agree and tell nothing twice, no list is over the limit, and nobody who has left is on a list of one who
has not. -/
structure State.Kept (s : State) : Prop where
  mirror : s.lists.Holds
  bound : ∀ who, (s.lists.left who).length ≤ s.maxAccept
  live : ∀ a b, s.live a = true → b ∈ s.lists.left a ∨ b ∈ s.lists.right a → s.live b = true

/-- A person that leaves has a name, or it is on no other's list, has nobody else on its own ones, and has no id. -/
def State.Upheld (s : State) : Op → Prop
  | .exit who => Op.Live s (.exit who) → (s.client who).person = true → (s.client who).name ≠ [] ∨
      (s.client who).id = [] ∧ ∀ other, other ≠ who → other ∉ s.lists.left who ∧ other ∉ s.lists.right who
  | _ => True

/-! ### The lists of one client -/

section

variable {lists : Mirror ClientId ClientId} {client : ClientId}

theorem delFromAccept_eq (holds : lists.Holds) (source target : ClientId) :
    State.delFromAccept lists source target = lists.unlink target source := by
  unfold State.delFromAccept Mirror.unlink
  split
  · rw [(holds.left_nodup target).erase_eq_filter, (holds.right_nodup source).erase_eq_filter]
    simp only [ne_eq, decide_not, bne]
    rfl
  · next absent =>
    have absent' : target ∉ lists.right source := fun member => absent ((holds.back target source).mpr member)
    rw [List.erase_of_not_mem absent, List.erase_of_not_mem absent', Function.update_eq_self, Function.update_eq_self]

theorem walk_allow_list (holds : lists.Holds) (l : List ClientId) :
    l.foldl (fun lists target => State.delFromAccept lists target client) lists =
      l.foldl (fun lists target => lists.unlink client target) lists := by
  induction l generalizing lists with
  | nil => rfl
  | cons target l ih =>
    rw [List.foldl_cons, List.foldl_cons, delFromAccept_eq holds]
    exact ih (holds.unlink client target)

theorem walk_on_allow_list (holds : lists.Holds) (l : List ClientId) :
    l.foldl (fun lists target => State.delFromAccept lists client target) lists =
      l.foldl (fun lists target => lists.unlink target client) lists := by
  induction l generalizing lists with
  | nil => rfl
  | cons target l ih =>
    rw [List.foldl_cons, List.foldl_cons, delFromAccept_eq holds]
    exact ih (holds.unlink target client)

/-- All pairs that the client is in go, and no others. -/
theorem delAllAccepts_spec (holds : lists.Holds) (client : ClientId) :
    (State.delAllAccepts lists client).Holds ∧
      ∀ a b, b ∈ (State.delAllAccepts lists client).left a ↔ b ∈ lists.left a ∧ a ≠ client ∧ b ≠ client := by
  unfold State.delAllAccepts
  simp only [walk_allow_list holds]
  obtain ⟨holds₁, members₁⟩ := holds.unlinkAll_left client (lists.left client)
  set first := (lists.left client).foldl (fun lists target => lists.unlink client target) lists
  rw [walk_on_allow_list holds₁]
  obtain ⟨holds₂, members₂⟩ := holds₁.unlinkAll_right client (first.right client)
  refine ⟨holds₂, fun a b => ?_⟩
  rw [members₂, ← holds₁.back, members₁, members₁]
  constructor
  · rintro ⟨⟨member, own⟩, other⟩
    have notOwner : a ≠ client := by
      rintro rfl
      exact own ⟨member, rfl⟩
    refine ⟨member, notOwner, ?_⟩
    rintro rfl
    exact other ⟨⟨member, fun both => notOwner both.2⟩, rfl⟩
  · rintro ⟨member, notOwner, notTarget⟩
    exact ⟨⟨member, fun both => notOwner both.2⟩, fun both => notTarget both.2⟩

end

/-! ### One operation -/

/-- Behind a state that is kept: on the lists there are persons only, the tables find no person that has left, and
what is not made yet is empty. -/
structure State.Sound (s : State) : Prop where
  kept : s.Kept
  persons : ∀ a b, b ∈ s.lists.left a → (s.client a).person = true ∧ (s.client b).person = true
  named : ∀ c ∈ s.clientTable, s.live c = true
  ids : ∀ c ∈ s.idTable, (s.client c).id ≠ [] ∧ ((s.client c).person = true → s.live c = true)
  fresh : ∀ c, s.nextClient ≤ c → s.client c = ⟨[], [], false⟩ ∧ s.live c = false

section

variable {s : State} {who : ClientId}

/-- Lists that only lose pairs stay kept. -/
theorem State.Sound.lose (sound : s.Sound) {lists : Mirror ClientId ClientId} (holds : lists.Holds)
    (fewer : ∀ a b, b ∈ lists.left a → b ∈ s.lists.left a) : { s with lists := lists }.Sound where
  kept :=
    { mirror := holds
      bound := fun c => ((holds.left_nodup c).subperm (fewer c)).length_le.trans (sound.kept.bound c)
      live := fun a b here member => by
        refine sound.kept.live a b here (member.imp (fewer a b) fun back => ?_)
        exact (sound.kept.mirror.back b a).mp (fewer b a ((holds.back b a).mpr back)) }
  persons := fun a b member => sound.persons a b (fewer a b member)
  named := sound.named
  ids := sound.ids
  fresh := sound.fresh

theorem State.Sound.delAllAccepts (sound : s.Sound) (who : ClientId) :
    { s with lists := State.delAllAccepts s.lists who }.Sound := by
  obtain ⟨holds, members⟩ := delAllAccepts_spec sound.kept.mirror who
  exact sound.lose holds fun a b member => ((members a b).mp member).1

/-- Who is found and is a person has not left. -/
theorem State.Sound.found (sound : s.Sound) {nick : List Char} {target : ClientId}
    (found : s.findPerson nick = some target) : s.live target = true ∧ (s.client target).person = true := by
  obtain ⟨here, person⟩ := Option.filter_eq_some_iff.mp found
  refine ⟨?_, person⟩
  unfold State.findClient at here
  split at here
  · exact (sound.ids target (List.mem_of_find?_eq_some here)).2 person
  · exact sound.named target (List.mem_of_find?_eq_some here)

theorem deleteRounds_spec (s : State) (source : ClientId) (nicks : List (List Char)) {lists : Mirror ClientId ClientId}
    (holds : lists.Holds) :
    (nicks.foldl (s.deleteRound source) lists).Holds ∧
      ∀ a b, b ∈ (nicks.foldl (s.deleteRound source) lists).left a → b ∈ lists.left a := by
  induction nicks generalizing lists with
  | nil => exact ⟨holds, fun a b member => member⟩
  | cons nick nicks ih =>
    have round : (s.deleteRound source lists nick).Holds ∧
        ∀ a b, b ∈ (s.deleteRound source lists nick).left a → b ∈ lists.left a := by
      unfold State.deleteRound
      split
      · exact ⟨holds, fun a b member => member⟩
      · split
        · rw [delFromAccept_eq holds]
          exact ⟨holds.unlink _ _, fun a b member => ((holds.mem_unlink_left _ _ _ _).mp member).1⟩
        · exact ⟨holds, fun a b member => member⟩
    obtain ⟨after, fewer⟩ := ih round.1
    exact ⟨after, fun a b member => round.2 a b (fewer a b member)⟩

/-- `accept_num` is never less than the length of the list, so that the list keeps to the limit. What is added is
somebody who is found. -/
theorem addRounds_spec (s : State) (source : ClientId) (nicks : List (List Char)) (acceptNum : ℕ)
    {lists : Mirror ClientId ClientId} (holds : lists.Holds) (counted : (lists.left source).length ≤ acceptNum)
    (bound : ∀ who, (lists.left who).length ≤ s.maxAccept) :
    (s.addRounds source acceptNum nicks lists).Holds ∧
      (∀ who, ((s.addRounds source acceptNum nicks lists).left who).length ≤ s.maxAccept) ∧
      ∀ a b, b ∈ (s.addRounds source acceptNum nicks lists).left a →
        b ∈ lists.left a ∨ a = source ∧ ∃ nick, s.findPerson nick = some b := by
  induction nicks generalizing acceptNum lists with
  | nil => exact ⟨holds, bound, fun a b member => .inl member⟩
  | cons nick nicks ih =>
    have skipped := ih (acceptNum + 1) holds (by omega) bound
    rw [State.addRounds]
    split
    · exact skipped
    · next target found =>
      split
      · exact skipped
      · next absent =>
        split
        · exact ⟨holds, bound, fun a b member => .inl member⟩
        · next room =>
          have absent' : target ∉ lists.left source := by simpa [State.acceptMessage] using absent
          have length : ((lists.link source target).left source).length = (lists.left source).length + 1 := by
            simp [Mirror.link]
          obtain ⟨after, within, members⟩ := ih (acceptNum + 1) (holds.link absent') (by omega) (by
            intro who
            by_cases here : who = source
            · subst here
              omega
            · simpa [Mirror.link, here] using bound who)
          refine ⟨after, within, fun a b member => ?_⟩
          rcases members a b member with member | new
          · simp only [Mirror.link, Function.update_apply] at member
            split at member
            · next here =>
              subst here
              rcases List.mem_cons.mp member with rfl | member
              · exact .inr ⟨rfl, nick, found⟩
              · exact .inl member
            · exact .inl member
          · exact .inr new

theorem State.Sound.mAccept (sound : s.Sound) {source : ClientId} (live : s.live source = true)
    (person : (s.client source).person = true) (nicks : List Char) : (s.mAccept source nicks).Sound := by
  unfold State.mAccept
  split
  · exact sound
  · obtain ⟨holds, fewer⟩ := deleteRounds_spec s source (tokens (s.buildNicklist nicks).2) sound.kept.mirror
    have lost := sound.lose holds fewer
    set lists := (tokens (s.buildNicklist nicks).2).foldl (s.deleteRound source) s.lists
    obtain ⟨after, bound, members⟩ := addRounds_spec s source (tokens (s.buildNicklist nicks).1) _ holds le_rfl
      lost.kept.bound
    constructor
    · refine ⟨after, bound, fun a b here member => ?_⟩
      rcases member with member | member
      · rcases members a b member with old | ⟨-, nick, found⟩
        · exact lost.kept.live a b here (.inl old)
        · exact (sound.found found).1
      · rcases members b a ((after.back b a).mpr member) with old | ⟨own, -⟩
        · exact lost.kept.live a b here (.inr ((holds.back b a).mp old))
        · exact own ▸ live
    · intro a b member
      rcases members a b member with old | ⟨own, nick, found⟩
      · exact lost.persons a b old
      · exact ⟨own ▸ person, (sound.found found).2⟩
    · exact sound.named
    · exact sound.ids
    · exact sound.fresh

theorem State.Sound.below (sound : s.Sound) (live : s.live who = true) : who < s.nextClient := by
  by_contra above
  rw [(sound.fresh who (Nat.le_of_not_lt above)).2] at live
  cases live

theorem State.Sound.makeClient (sound : s.Sound) : s.makeClient.Sound := by
  have blank := (sound.fresh s.nextClient le_rfl).1
  have same : Function.update s.client s.nextClient ⟨[], [], false⟩ = s.client := by
    rw [← blank, Function.update_eq_self]
  have listed : ∀ a b, b ∈ s.lists.left a → a ≠ s.nextClient ∧ b ≠ s.nextClient := by
    intro a b member
    obtain ⟨first, second⟩ := sound.persons a b member
    constructor <;> rintro rfl
    · simp [blank] at first
    · simp [blank] at second
  have grows : ∀ c, s.live c = true → s.makeClient.live c = true := by
    intro c live
    simp only [State.makeClient, Function.update_apply]
    split
    · rfl
    · exact live
  constructor
  · refine ⟨sound.kept.mirror, sound.kept.bound, fun a b here member => grows b ?_⟩
    have other : a ≠ s.nextClient := by
      rcases member with member | member
      · exact (listed a b member).1
      · exact (listed b a ((sound.kept.mirror.back b a).mpr member)).2
    simp only [State.makeClient, Function.update_of_ne other] at here
    exact sound.kept.live a b here member
  · simpa [State.makeClient, same] using sound.persons
  · exact fun c member => grows c (sound.named c member)
  · intro c member
    obtain ⟨id, live⟩ := sound.ids c member
    simp only [State.makeClient, same]
    exact ⟨id, fun person => grows c (live person)⟩
  · intro c above
    have above' : s.nextClient < c := Nat.lt_of_succ_le above
    simp only [State.makeClient, Function.update_of_ne above'.ne']
    exact sound.fresh c above'.le

/-- A client that has not left changes its name, or registers. -/
theorem State.Sound.change (sound : s.Sound) (live : s.live who = true) (client : Client) {table : List ClientId}
    (person : (s.client who).person = true → client.person = true) (id : client.id = (s.client who).id)
    (named : ∀ c ∈ table, s.live c = true) :
    { s with client := Function.update s.client who client, clientTable := table }.Sound := by
  have persons : ∀ c, (s.client c).person = true → (Function.update s.client who client c).person = true := by
    intro c before
    rw [Function.update_apply]
    split
    · next here => exact person (here ▸ before)
    · exact before
  refine ⟨⟨sound.kept.mirror, sound.kept.bound, sound.kept.live⟩, fun a b member => ?_, named, fun c member => ?_,
    fun c above => ?_⟩
  · exact (sound.persons a b member).imp (persons a) (persons b)
  · obtain ⟨nonempty, here⟩ := sound.ids c member
    simp only [Function.update_apply]
    split
    · next same =>
      subst same
      exact ⟨id ▸ nonempty, fun _ => live⟩
    · exact ⟨nonempty, here⟩
  · have other := ((sound.below live).trans_le above).ne'
    simp only [Function.update_of_ne other]
    exact sound.fresh c above

theorem State.Sound.setNick (sound : s.Sound) (live : s.live who = true) (nick : List Char) :
    (s.setNick who nick).Sound := by
  have named : ∀ c ∈ who :: s.clientTable.filter (· ≠ who), s.live c = true := by
    intro c member
    rcases List.mem_cons.mp member with rfl | member
    · exact live
    · exact sound.named c (List.mem_of_mem_filter member)
  have renamed := sound.change live { s.client who with name := nick } (fun person => person) rfl named
  unfold State.setNick
  split
  · exact renamed.delAllAccepts who
  · exact renamed

theorem State.Sound.setId (sound : s.Sound) (live : s.live who = true) (unregistered : (s.client who).person = false)
    {id : List Char} (nonempty : id ≠ []) : (s.setId who id).Sound := by
  have person : ∀ c, ((s.setId who id).client c).person = (s.client c).person := by
    intro c
    simp only [State.setId, Function.update_apply]
    split
    · next here => rw [here]
    · rfl
  refine ⟨⟨sound.kept.mirror, sound.kept.bound, sound.kept.live⟩, fun a b member => ?_, sound.named, fun c member => ?_,
    fun c above => ?_⟩
  · simp only [person]
    exact sound.persons a b member
  · rw [person]
    rcases List.mem_cons.mp member with rfl | member
    · refine ⟨?_, fun _ => live⟩
      simpa [State.setId] using nonempty
    · obtain ⟨old, here⟩ := sound.ids c member
      refine ⟨?_, here⟩
      simp only [State.setId, Function.update_apply]
      split
      · exact nonempty
      · exact old
  · have other := ((sound.below live).trans_le above).ne'
    simp only [State.setId, Function.update_of_ne other]
    exact sound.fresh c above

/-- A client leaves that no pair of the lists ties to another, and that is not found by its id any more. -/
theorem State.Sound.leave (sound : s.Sound) {lists : Mirror ClientId ClientId} {table : List ClientId}
    (holds : lists.Holds) (alone : ∀ a b, b ∈ lists.left a → b ∈ s.lists.left a ∧ (a = who ↔ b = who))
    (lost : ∀ c ∈ table, c ∈ s.idTable ∧ (c = who → (s.client who).person = false)) :
    { s with
      lists := lists
      idTable := table
      clientTable := s.clientTable.filter (· ≠ who)
      live := Function.update s.live who false }.Sound := by
  have fewer := sound.lose holds fun a b member => (alone a b member).1
  have stays : ∀ c, c ≠ who → s.live c = true → Function.update s.live who false c = true := by
    intro c other live
    rwa [Function.update_of_ne other]
  constructor
  · refine ⟨holds, fewer.kept.bound, fun a b here member => ?_⟩
    have other : a ≠ who := by
      rintro rfl
      simp at here
    have before : s.live a = true := by simpa [Function.update_of_ne other] using here
    have other' : b ≠ who := by
      rcases member with member | member
      · exact fun same => other ((alone a b member).2.mpr same)
      · exact fun same => other ((alone b a ((holds.back b a).mpr member)).2.mp same)
    exact stays b other' (fewer.kept.live a b before member)
  · exact fewer.persons
  · intro c member
    obtain ⟨member, other⟩ := List.mem_filter.mp member
    exact stays c (by simpa using other) (sound.named c member)
  · intro c member
    obtain ⟨member, unregistered⟩ := lost c member
    obtain ⟨nonempty, live⟩ := sound.ids c member
    refine ⟨nonempty, fun person => stays c ?_ (live person)⟩
    rintro rfl
    rw [unregistered rfl] at person
    cases person
  · intro c above
    obtain ⟨blank, gone⟩ := sound.fresh c above
    refine ⟨blank, ?_⟩
    simp only [Function.update_apply, gone, ite_self]

theorem State.Sound.exitOneClient (sound : s.Sound) (upheld : s.Upheld (.exit who)) (live : s.live who = true) :
    (s.exitOneClient who).Sound := by
  have upheld := upheld live
  have noId : (s.client who).id = [] → who ∉ s.idTable := fun none member => (sound.ids who member).1 none
  simp only [State.exitOneClient]
  by_cases cleaned : (s.client who).person = true ∧ (s.client who).name ≠ []
  · simp only [cleaned, ne_eq, not_false_eq_true, and_self, decide_true, if_true, true_and]
    obtain ⟨holds, members⟩ := delAllAccepts_spec sound.kept.mirror who
    refine sound.leave holds (fun a b member => ?_) fun c member => ?_
    · obtain ⟨old, first, second⟩ := (members a b).mp member
      exact ⟨old, ⟨fun same => absurd same first, fun same => absurd same second⟩⟩
    · split at member
      · obtain ⟨member, other⟩ := List.mem_filter.mp member
        exact ⟨member, fun same => by simp [same] at other⟩
      · next none => exact ⟨member, fun same => absurd (same ▸ member) (noId (not_not.mp none))⟩
  · simp only [cleaned, decide_false, Bool.false_eq_true, if_false, false_and]
    refine sound.leave sound.kept.mirror (fun a b member => ⟨member, ?_⟩) fun c member => ⟨member, ?_⟩
    · obtain ⟨first, second⟩ := sound.persons a b member
      constructor <;> rintro rfl <;> by_contra other
      · rcases upheld first with named | ⟨-, nobody⟩
        · exact cleaned ⟨first, named⟩
        · exact (nobody b other).1 member
      · rcases upheld second with named | ⟨-, nobody⟩
        · exact cleaned ⟨second, named⟩
        · exact (nobody a other).2 ((sound.kept.mirror.back a b).mp member)
    · rintro rfl
      by_contra person
      rw [Bool.not_eq_false] at person
      rcases upheld person with named | ⟨none, -⟩
      · exact cleaned ⟨person, named⟩
      · exact noId none member

theorem State.Sound.step (sound : s.Sound) {op : Op} (upheld : s.Upheld op) : (s.step op).Sound := by
  unfold State.step
  split
  · next live =>
    cases op with
    | connect => exact sound.makeClient
    | nick who nick => exact sound.setNick live nick
    | uid who id => exact sound.setId live.1 live.2.1 live.2.2.2
    | register who =>
      exact sound.change live { s.client who with person := true } (fun _ => rfl) rfl sound.named
    | accept source nicks => exact sound.mAccept live.1 live.2 nicks
    | delAllAccepts who => exact sound.delAllAccepts who
    | exit who => exact sound.exitOneClient upheld live
  · exact sound

end

/-! ### Runs -/

theorem sound_start (maxAccept : ℕ) : (start maxAccept).Sound where
  kept := ⟨⟨by simp [start], by simp [start], by simp [start]⟩, by simp [start], by simp [start]⟩
  persons := by simp [start]
  named := by simp [start]
  ids := by simp [start]
  fresh := by simp [start]

end Ircd.Message.Accept
