import Ircd.Lib.Forest
import Mathlib.Data.List.Flatten
import Ircd.Split.State

/-!
# Who goes with a server

`exit_client` on a server exits the tree below it, dependents first. The list of the dead has them in
the opposite order, and so a server is freed before its users.
-/
namespace Ircd.Split

open Chan (ClientId hostLen ircMatch)

variable {s t u : State} {who server : ClientId} {comment : List Char}

/-! ### Trees of servers -/

/-- The forest is what hangs below the server. -/
def State.Holds (s : State) (server : ClientId) : Forest ClientId → Prop
  | .nil => True
  | .cons who users below next =>
    (s.client who).status = .server ∧ (s.client who).servptr = some server ∧
      (∃ sconf, (s.client who).serv = some ⟨below.roots, users, sconf⟩) ∧
      (∀ u ∈ users, (s.client u).isPerson = true ∧ (s.client u).servptr = some who) ∧
      s.Holds who below ∧ s.Holds server next

/-- The second is on one of the lists of the first. -/
def State.Below (s : State) (y x : ClientId) : Prop :=
  ∃ serv, (s.client y).serv = some serv ∧ (x ∈ serv.servers ∨ x ∈ serv.users)

/-- What of a client stays as it is when others exit, and when it does. -/
def Client.SameClient (client client' : Client) : Prop :=
  client'.name = client.name ∧ client'.status = client.status ∧ client'.user = client.user ∧
    client'.servptr = client.servptr

/-- These clients have exited, one after the other, and nobody else. -/
structure Exits (order : List ClientId) (s t : State) : Prop where
  deadList : t.deadList = order.reverse ++ s.deadList
  globalClientList : t.globalClientList = s.globalClientList.diff order
  dead : ∀ x, (t.client x).dead = ((s.client x).dead || decide (x ∈ order))
  same : ∀ x, (s.client x).SameClient (t.client x)
  source : ∀ x, (t.client x).source = (s.client x).source
  me : t.me = s.me
  sent : t.sent = s.sent
  servList : t.servList = s.servList

theorem Client.SameClient.trans {a b c : Client} (first : a.SameClient b) (second : b.SameClient c) :
    a.SameClient c := by
  obtain ⟨name, status, user, servptr⟩ := first
  obtain ⟨name', status', user', servptr'⟩ := second
  exact ⟨name'.trans name, status'.trans status, user'.trans user, servptr'.trans servptr⟩

theorem Client.SameClient.isPerson {a b : Client} (same : a.SameClient b) :
    b.isPerson = a.isPerson := by
  unfold Client.isPerson
  rw [same.2.1, same.2.2.1]

theorem Exits.refl (s : State) : Exits [] s s := by
  constructor <;> simp [Client.SameClient]

theorem Exits.trans {a b : List ClientId} (first : Exits a s t) (second : Exits b t u) :
    Exits (a ++ b) s u where
  deadList := by rw [second.deadList, first.deadList, List.reverse_append, List.append_assoc]
  globalClientList := by rw [second.globalClientList, first.globalClientList, List.diff_append]
  dead x := by simp [second.dead, first.dead, Bool.or_assoc]
  same x := (first.same x).trans (second.same x)
  source x := (second.source x).trans (first.source x)
  me := second.me.trans first.me
  sent := second.sent.trans first.sent
  servList := second.servList.trans first.servList

/-- A tree that nobody touches is still there. -/
theorem State.Holds.congr {f : Forest ClientId} (held : s.Holds server f)
    (same : ∀ x, (s.client x).SameClient (t.client x))
    (serv : ∀ x ∈ f.nodes, (t.client x).serv = (s.client x).serv) : t.Holds server f := by
  induction f generalizing server with
  | nil => trivial
  | cons who users below next ihBelow ihNext =>
    obtain ⟨status, servptr, ⟨sconf, lists⟩, people, heldBelow, heldNext⟩ := held
    refine ⟨(same who).2.1.trans status, (same who).2.2.2.trans servptr,
      ⟨sconf, (serv who (by simp [Forest.nodes])).trans lists⟩, fun u member => ?_, ?_, ?_⟩
    · obtain ⟨person, hangs⟩ := people u member
      exact ⟨(same u).isPerson.trans person, (same u).2.2.2.trans hangs⟩
    · exact ihBelow heldBelow fun x member => serv x (by simp [Forest.nodes, member])
    · exact ihNext heldNext fun x member => serv x (by simp [Forest.nodes, member])

/-! ### One client -/

@[simp] theorem State.setClient_client (s : State) (who : ClientId) (client : Client) :
    (s.setClient who client).client who = client :=
  Function.update_self ..

theorem State.setClient_client_ne (s : State) {who other : ClientId} (client : Client)
    (different : other ≠ who) : (s.setClient who client).client other = s.client other :=
  Function.update_of_ne different ..

/-- The list of a server after one client has come off. -/
def Serv.without (serv : Serv) (who : ClientId) (isServer : Bool) : Serv :=
  if isServer then serv.delServer who else serv.delUser who

theorem State.unlink_eq {serv : Serv} (hangs : (s.client who).servptr = some server)
    (lists : (s.client server).serv = some serv) :
    s.unlink who = s.setClient server { s.client server with
      serv := some (serv.without who ((s.client who).status == .server)) } := by
  unfold State.unlink Serv.without
  simp [hangs, lists]

/-- What one exit does. -/
theorem exits_exitOneClient (clientP : Option ClientId) (sender : ClientId) (comment : List Char)
    {serv : Serv} (notMe : (s.client who).status ≠ .me)
    (hangs : (s.client who).servptr = some server)
    (lists : (s.client server).serv = some serv) (other : who ≠ server) :
    let t := s.exitOneClient clientP who sender comment
    let told := (s.unlink who).announcement clientP who sender comment
    Exits [who] { s with sent := s.sent ++ told } t ∧
      (t.client server).serv = some (serv.without who ((s.client who).status == .server)) ∧
      ∀ x, x ≠ server → (t.client x).serv = (s.client x).serv := by
  unfold State.exitOneClient
  simp only [State.unlink_eq hangs lists]
  have kept := State.setClient_client_ne s { s.client server with
    serv := some (serv.without who ((s.client who).status == .server)) } other
  rw [if_neg (by rw [kept]; exact notMe)]
  generalize (s.setClient server { s.client server with
    serv := some (serv.without who ((s.client who).status == .server)) }).announcement clientP who
      sender comment = told
  -- two records have changed: the lists of the server, and the flag of the client
  have client : ∀ x, (((s.setClient server { s.client server with
      serv := some (serv.without who ((s.client who).status == .server)) }).setClient who
        { s.client who with dead := true }).client x) =
      { s.client x with
        dead := (s.client x).dead || decide (x = who)
        serv := if x = server then some (serv.without who ((s.client who).status == .server))
          else (s.client x).serv } := by
    intro x
    by_cases isWho : x = who
    · subst isWho
      simp [other]
    · rw [State.setClient_client_ne _ _ isWho]
      by_cases isServer : x = server
      · subst isServer
        simp [isWho]
      · rw [State.setClient_client_ne _ _ isServer]
        simp [isWho, isServer]
  rw [kept]
  refine ⟨?_, ?_, fun x different => ?_⟩
  · constructor <;> simp [client, Client.SameClient, List.diff_cons]
    all_goals simp [State.setClient]
  · rw [client]
    simp
  · rw [client]
    simp [different]

/-- Only lists change. -/
theorem State.unlink_client (s : State) (who x : ClientId) :
    ∃ serv, (s.unlink who).client x = { s.client x with serv := serv } := by
  unfold State.unlink
  split
  · exact ⟨_, rfl⟩
  · split
    · exact ⟨_, rfl⟩
    next server _ _ _ _ =>
      by_cases isServer : x = server
      · subst isServer
        exact ⟨_, State.setClient_client ..⟩
      · exact ⟨_, State.setClient_client_ne _ _ isServer⟩

theorem announcement_server {clientP : Option ClientId} {sender : ClientId}
    (status : (s.client who).status = .server) :
    ∀ m ∈ s.announcement clientP who sender comment, ∃ dest,
      (s.client who).source = some dest ∧ m.1 = s.route dest := by
  unfold State.announcement
  intro m member
  simp only [status, if_true] at member
  cases source : (s.client who).source with
  | none => simp [source] at member
  | some dest =>
    refine ⟨dest, rfl, ?_⟩
    simp only [source] at member
    split at member
    · cases member
    · split at member
      · rw [List.mem_singleton.mp member]
      · cases member

/-- The mark changes nothing else. -/
theorem State.kill_client (s : State) (who x : ClientId) :
    (s.kill who).client x = { s.client x with killed := (s.client x).killed || decide (x = who) } := by
  unfold State.kill
  by_cases isWho : x = who
  · subst isWho
    simp
  · rw [State.setClient_client_ne _ _ isWho]
    simp [isWho]

theorem exits_kill_exit (sender : ClientId) (comment : List Char) {serv : Serv}
    (notMe : (s.client who).status ≠ .me) (hangs : (s.client who).servptr = some server)
    (lists : (s.client server).serv = some serv) (other : who ≠ server) :
    let t := (s.kill who).exitOneClient none who sender comment
    Exits [who] s t ∧
      (t.client server).serv = some (serv.without who ((s.client who).status == .server)) ∧
      ∀ x, x ≠ server → (t.client x).serv = (s.client x).serv := by
  have marked := s.kill_client who
  obtain ⟨exits, off, others⟩ := exits_exitOneClient (s := s.kill who) none sender comment
    (by rw [marked]; exact notMe) (by rw [marked]; exact hangs) (by rw [marked]; exact lists) other
  have silent : ((s.kill who).unlink who).announcement none who sender comment = [] := by
    obtain ⟨lists', unlinked⟩ := (s.kill who).unlink_client who who
    unfold State.announcement
    simp [unlinked, marked]
  rw [silent, List.append_nil] at exits
  dsimp only
  rw [marked] at off
  refine ⟨?_, off, fun x different => by rw [others x different, marked]⟩
  have kill : Exits [] s (s.kill who) := by
    refine ⟨rfl, rfl, fun x => ?_, fun x => ?_, fun x => ?_, rfl, rfl, rfl⟩
    · rw [marked]
      simp
    · rw [marked]
      exact ⟨rfl, rfl, rfl, rfl⟩
    · rw [marked]
  exact kill.trans exits

/-! ### The loops -/

theorem removeUsers_spec (comment : List Char) {users : List ClientId} {servers : List ClientId}
    {sconf : Option Conf} (lists : (s.client who).serv = some ⟨servers, users, sconf⟩)
    (people : ∀ u ∈ users, (s.client u).isPerson = true ∧ (s.client u).servptr = some who)
    (once : users.Nodup) (apart : who ∉ users) :
    ∃ t, (∀ fuel, users.length < fuel → s.removeUsers who comment fuel = some t) ∧ Exits users s t ∧
      (t.client who).serv = some ⟨servers, [], sconf⟩ ∧
      ∀ x, x ≠ who → (t.client x).serv = (s.client x).serv := by
  induction users generalizing s with
  | nil =>
    refine ⟨s, fun fuel enough => ?_, Exits.refl s, lists, fun _ _ => rfl⟩
    obtain ⟨n, rfl⟩ := Nat.exists_eq_succ_of_ne_zero (Nat.ne_of_gt enough)
    simp [State.removeUsers, lists]
  | cons target users ih =>
    obtain ⟨person, hangs⟩ := people target List.mem_cons_self
    have isClient : (s.client target).status = .client := by
      have both := Bool.and_eq_true_iff.mp person
      simpa using both.1
    have other : target ≠ who := fun same => apart (by simp [same])
    obtain ⟨exits, off, others⟩ := exits_kill_exit s.me comment (by rw [isClient]; decide) hangs lists
      other
    -- the loop goes on with one user less
    obtain ⟨t, done, rest, emptied, kept⟩ := ih (by
        rw [off, isClient]
        simp [Serv.without, Serv.delUser])
      (fun u member => by
        have same := exits.same u
        rw [same.isPerson, same.2.2.2]
        exact people u (List.mem_cons_of_mem _ member))
      once.of_cons (fun member => apart (List.mem_cons_of_mem _ member))
    refine ⟨t, fun fuel enough => ?_, exits.trans rest, emptied, fun x different => ?_⟩
    · obtain ⟨n, rfl⟩ := Nat.exists_eq_succ_of_ne_zero (Nat.ne_of_gt (Nat.zero_lt_of_lt enough))
      unfold State.removeUsers
      simpa [lists] using done n (by simpa using enough)
    · rw [kept x different, others x different]

/-- The loop over the servers empties the list. -/
theorem removeServers_spec (comment : List Char) {f : Forest ClientId} {users : List ClientId}
    {sconf : Option Conf} (held : s.Holds server f)
    (lists : (s.client server).serv = some ⟨f.roots, users, sconf⟩) (once : f.postorder.Nodup)
    (apart : server ∉ f.postorder) :
    ∃ t, (∀ fuel, f.size ≤ fuel → s.removeServers comment fuel server = some t) ∧
      Exits f.postorder s t ∧
      (t.client server).serv = some ⟨[], users, sconf⟩ ∧
      ∀ x, x ∉ f.nodes → x ≠ server → (t.client x).serv = (s.client x).serv := by
  induction f generalizing s server users sconf with
  | nil =>
    refine ⟨s, fun fuel enough => ?_, Exits.refl s, lists, fun _ _ _ => rfl⟩
    obtain ⟨n, rfl⟩ := Nat.exists_eq_succ_of_ne_zero (Nat.ne_of_gt enough)
    simp [State.removeServers, lists, Forest.roots]
  | cons target leaves below next ihBelow ihNext =>
    obtain ⟨status, hangs, ⟨targetConf, targetLists⟩, people, heldBelow, heldNext⟩ := held
    simp only [Forest.postorder, Forest.roots] at once apart lists
    obtain ⟨onceFront, onceRest, disjoint⟩ := List.nodup_append.mp once
    obtain ⟨onceBelow, onceLeaves, disjointLeaves⟩ := List.nodup_append.mp onceFront
    obtain ⟨apartNext, onceNext⟩ := List.nodup_cons.mp onceRest
    have apartBelow : target ∉ below.postorder := fun member =>
      disjoint target (List.mem_append_left _ member) target List.mem_cons_self rfl
    have apartLeaves : target ∉ leaves := fun member =>
      disjoint target (List.mem_append_right _ member) target List.mem_cons_self rfl
    have other : target ≠ server := by
      rintro rfl
      exact apart (by simp)
    -- the tree below the first server goes, then its users, then the server itself
    obtain ⟨s₁, done₁, exits₁, emptied₁, kept₁⟩ := ihBelow heldBelow targetLists onceBelow
      apartBelow
    obtain ⟨s₂, done₂, exits₂, emptied₂, kept₂⟩ := removeUsers_spec (s := s₁) comment
      emptied₁ (fun u member => by
        have same := exits₁.same u
        rw [same.isPerson, same.2.2.2]
        exact people u member)
      onceLeaves apartLeaves
    have same₂ := fun x => (exits₁.trans exits₂).same x
    have serv₂ : ∀ x, x ∉ below.nodes → x ≠ target → (s₂.client x).serv = (s.client x).serv :=
      fun x outside different => by rw [kept₂ x different, kept₁ x outside different]
    have belowSub : ∀ x, x ∈ below.nodes → x ∈ below.postorder := fun x member =>
      Forest.mem_postorder.mpr (Or.inl member)
    have nextSub : ∀ x, x ∈ next.nodes → x ∈ next.postorder := fun x member =>
      Forest.mem_postorder.mpr (Or.inl member)
    have serverOut : server ∉ below.nodes := fun member => apart (by simp [belowSub server member])
    have lists₂ : (s₂.client server).serv = some ⟨target :: next.roots, users, sconf⟩ := by
      rw [serv₂ server serverOut fun same => other same.symm, lists]
    have status₂ : (s₂.client target).status = .server := (same₂ target).2.1.trans status
    obtain ⟨exits₃, off, kept₃⟩ := exits_kill_exit s₂.me s₂.meName
      (by rw [status₂]; decide) ((same₂ target).2.2.2.trans hangs) lists₂ other
    generalize after : (s₂.kill target).exitOneClient none target s₂.me s₂.meName = s₃
      at exits₃ off kept₃
    have lists₃ : (s₃.client server).serv = some ⟨next.roots, users, sconf⟩ := by
      rw [off, status₂]
      simp [Serv.without, Serv.delServer]
    have nextOut : ∀ x ∈ next.nodes, x ∉ below.nodes ∧ x ≠ target ∧ x ≠ server := by
      intro x member
      refine ⟨fun both => ?_, ?_, ?_⟩
      · exact disjoint x (List.mem_append_left _ (belowSub x both)) x
          (List.mem_cons_of_mem _ (nextSub x member)) rfl
      · rintro rfl
        exact apartNext (nextSub x member)
      · rintro rfl
        exact apart (by simp [nextSub x member])
    have exits := (exits₁.trans exits₂).trans exits₃
    have heldNext₃ : s₃.Holds server next := heldNext.congr exits.same fun x member => by
      obtain ⟨notBelow, notTarget, notServer⟩ := nextOut x member
      rw [kept₃ x notServer, serv₂ x notBelow notTarget]
    obtain ⟨t, done, rest, emptied, kept⟩ := ihNext heldNext₃ lists₃ onceNext
      (fun member => apart (by simp [member]))
    refine ⟨t, fun fuel enough => ?_, ?_, emptied, fun x outside different => ?_⟩
    · simp only [Forest.size] at enough
      have nextPos := next.size_pos
      obtain ⟨n, rfl⟩ : ∃ n, fuel = n + 2 := ⟨fuel - 2, by omega⟩
      have recursion : s.recurseRemoveClients comment (n + 1) target = some s₂ := by
        unfold State.recurseRemoveClients
        rw [if_neg (by simp [status, targetLists]), done₁ n (by omega), Option.bind_some,
          done₂ n (by omega)]
      unfold State.removeServers
      rw [lists]
      simp only [Option.bind_some, List.head?_cons, recursion, after]
      exact done (n + 1) (by omega)
    · have all := exits.trans rest
      simpa [Forest.postorder] using all
    · have outside' := outside
      simp only [Forest.nodes, List.mem_cons, List.mem_append, not_or] at outside'
      obtain ⟨notTarget, notBelow, notNext⟩ := outside'
      rw [kept x notNext different, kept₃ x different, serv₂ x notBelow notTarget]

/-! ### What is sent -/

/-- The messages about a forest. -/
def treeMsgs (name : ClientId → List Char) (me : List Char) (qs : Bool) (mask comment : List Char) :
    Forest ClientId → List Msg
  | .nil => []
  | .cons who users below next =>
    let quits := users.map fun u => Msg.quit (name u) comment
    let squit := Msg.squit (name who) me
    (if qs then
        if ircMatch mask (name who) then quits ++ treeMsgs name me qs mask comment below else [squit]
      else
        quits ++ treeMsgs name me qs mask comment below ++
          if ircMatch mask (name who) then [] else [squit]) ++
      treeMsgs name me qs mask comment next

theorem recurseSendQuits_spec (qs : Bool) (mask comment : List Char) {f : Forest ClientId}
    (held : s.Holds server f) {fuel : ℕ} (enough : f.size ≤ fuel) :
    ∃ msgs, f.roots.mapM (s.recurseSendQuits qs mask comment fuel) = some msgs ∧
      msgs.flatten = treeMsgs (fun x => (s.client x).name) s.meName qs mask comment f := by
  induction f generalizing server fuel with
  | nil => exact ⟨[], rfl, rfl⟩
  | cons who users below next ihBelow ihNext =>
    obtain ⟨-, -, ⟨sconf, lists⟩, -, heldBelow, heldNext⟩ := held
    simp only [Forest.size] at enough
    have nextPos := next.size_pos
    obtain ⟨n, rfl⟩ : ∃ n, fuel = n + 1 := ⟨fuel - 1, by omega⟩
    have enoughBelow : below.size ≤ n := by omega
    have enoughNext : next.size ≤ n + 1 := by omega
    obtain ⟨first, doneBelow, flatBelow⟩ := ihBelow heldBelow enoughBelow
    obtain ⟨rest, doneNext, flatNext⟩ := ihNext heldNext enoughNext
    -- the messages about the first server, and then those about its siblings
    have here : ∃ msgs, s.recurseSendQuits qs mask comment (n + 1) who = some msgs ∧
        msgs ++ rest.flatten = treeMsgs (fun x => (s.client x).name) s.meName qs mask
          comment (.cons who users below next) := by
      unfold State.recurseSendQuits treeMsgs
      rw [lists]
      dsimp only
      rw [doneBelow, flatNext]
      cases qs with
      | true =>
        by_cases hidden : ircMatch mask (s.client who).name
        · simp [hidden, flatBelow]
        · simp [hidden]
      | false => simp [flatBelow]
    obtain ⟨msgs, done, flat⟩ := here
    refine ⟨msgs :: rest, ?_, by rw [List.flatten_cons, flat]⟩
    rw [Forest.roots, List.mapM_cons, done, doneNext]
    rfl

/-- The messages of a server about the tree of one that exits, to one link. -/
def State.splitMsgs (s : State) (who : ClientId) (users : List ClientId) (below : Forest ClientId)
    (dest : ClientId) : List Msg :=
  treeMsgs (fun x => (s.client x).name) s.meName (s.client dest).qs
    ((s.maskFor dest).take hostLen) (s.splitComment who) (.cons who users below .nil)

/-- Nobody else is sent anything. -/
theorem foldlM_sendtoOne (comment : List Char) {f : Forest ClientId} (held : s.Holds server f) {fuel : ℕ}
    (enough : f.size ≤ fuel) (root : f.roots = [who]) (dests : List ClientId) :
    dests.foldlM (fun (t : State) dest =>
        (t.recurseSendQuits (t.client dest).qs ((t.maskFor dest).take hostLen) comment fuel who).map
          fun msgs => t.sendtoOne dest msgs) s =
      some { s with sent := s.sent ++ dests.flatMap fun dest =>
        (treeMsgs (fun x => (s.client x).name) s.meName (s.client dest).qs
          ((s.maskFor dest).take hostLen) comment f).map fun msg => (s.route dest, msg) } := by
  induction dests generalizing s with
  | nil => simp
  | cons dest dests ih =>
    obtain ⟨msgs, done, flat⟩ := recurseSendQuits_spec (s.client dest).qs
      ((s.maskFor dest).take hostLen) comment held enough
    rw [root, List.mapM_cons, List.mapM_nil] at done
    obtain ⟨own, sent, rfl⟩ : ∃ own, s.recurseSendQuits (s.client dest).qs
        ((s.maskFor dest).take hostLen) comment fuel who = some own ∧ msgs = [own] := by
      cases sent : s.recurseSendQuits (s.client dest).qs ((s.maskFor dest).take hostLen) comment fuel
        who with
      | none =>
        rw [sent] at done
        cases done
      | some own =>
        rw [sent] at done
        exact ⟨own, rfl, (Option.some.inj done).symm⟩
    rw [List.flatten_cons, List.flatten_nil, List.append_nil] at flat
    rw [List.foldlM_cons, sent, Option.map_some]
    change List.foldlM _ (s.sendtoOne dest own) dests = _
    have held' : (s.sendtoOne dest own).Holds server f :=
      held.congr (fun x => ⟨rfl, rfl, rfl, rfl⟩) fun x _ => rfl
    rw [ih held', flat]
    simp [State.sendtoOne, State.route, State.maskFor]

/-! ### The whole exit -/

/-- A server that is there, on the list of another one, with a tree below it. -/
structure State.Tree (s : State) (server who : ClientId) (users : List ClientId)
    (below : Forest ClientId) : Prop where
  held : s.Holds server (.cons who users below .nil)
  once : (Forest.cons who users below .nil).postorder.Nodup
  apart : server ∉ (Forest.cons who users below .nil).postorder
  plain : ∀ u ∈ (Forest.cons who users below .nil).leaves, (s.client u).serv = none
  linked : (s.client server).serv.isSome = true
  alive : (s.client who).dead = false
  fresh : ∀ x ∈ (Forest.cons who users below .nil).postorder, x ∉ s.deadList

theorem State.depart_client (s : State) (who x : ClientId) :
    (s.depart who).client x = { s.client x with
      dead := (s.client x).dead || decide (x = who)
      source := if x = who ∧ (s.client who).localClient = true then none
        else (s.client x).source } := by
  unfold State.depart State.closeConnection
  by_cases isWho : x = who
  · subst isWho
    by_cases isLocal : (s.client x).localClient = true
    · simp [isLocal]
      split <;> simp [State.setClient]
    · simp [isLocal]
  · by_cases isLocal : (s.client who).localClient = true
    · simp [isLocal, isWho]
      split <;> simp [State.setClient, isWho]
    · simp [isLocal, isWho, State.setClient_client_ne]

theorem State.depart_rest (s : State) (who : ClientId) :
    (s.depart who).me = s.me ∧ (s.depart who).meName = s.meName ∧ (s.depart who).deadList = s.deadList ∧
      (s.depart who).globalClientList = s.globalClientList ∧ (s.depart who).sent = s.sent ∧
      (s.depart who).hideServers = s.hideServers ∧ (s.depart who).networkName = s.networkName ∧
      ((s.depart who).servList = s.servList ∨ (s.depart who).servList = s.servList.erase who) := by
  unfold State.depart State.closeConnection
  dsimp only
  split
  · split
    · exact ⟨rfl, rfl, rfl, rfl, rfl, rfl, rfl, Or.inr rfl⟩
    · exact ⟨rfl, rfl, rfl, rfl, rfl, rfl, rfl, Or.inl rfl⟩
  · exact ⟨rfl, rfl, rfl, rfl, rfl, rfl, rfl, Or.inl rfl⟩

theorem Exits.say {order : List ClientId} (exits : Exits order s t) (told : List (ClientId × Msg)) :
    Exits order { s with sent := s.sent ++ told } { t with sent := t.sent ++ told } where
  deadList := exits.deadList
  globalClientList := exits.globalClientList
  dead := exits.dead
  same := exits.same
  source := exits.source
  me := exits.me
  sent := by rw [exits.sent]
  servList := exits.servList

/-- `exit_client` on a server: the links are told, the tree goes, and then the server itself. -/
theorem exitClient_spec {users : List ClientId} {below : Forest ClientId}
    (tree : s.Tree server who users below) (clientP : Option ClientId) (sender : ClientId)
    (comment : List Char) :
    ∃ t told, (∀ fuel, (Forest.cons who users below .nil).size ≤ fuel →
        s.exitClient clientP who sender comment fuel = some t) ∧
      Exits (Forest.cons who users below .nil).postorder { s.depart who with
        sent := s.sent ++ (((s.depart who).splitLinks clientP who).flatMap fun dest =>
          ((s.depart who).splitMsgs who users below dest).map fun msg =>
            ((s.depart who).route dest, msg)) ++ told } t ∧
      ∀ m ∈ told, ∃ dest, (s.client who).source = some dest ∧ m.1 = (s.depart who).route dest := by
  have client := s.depart_client who
  obtain ⟨me, -, deadList, globalClientList, sent, -, -, -⟩ := s.depart_rest who
  have held : (s.depart who).Holds server (.cons who users below .nil) :=
    tree.held.congr (fun x => by rw [client]; exact ⟨rfl, rfl, rfl, rfl⟩) fun x _ => by rw [client]
  have source := (client who : (s.depart who).client who = _)
  generalize departed : s.depart who = s₁ at *
  generalize links : (s₁.splitLinks clientP who).flatMap (fun dest =>
    (s₁.splitMsgs who users below dest).map fun msg => (s₁.route dest, msg)) = quits
  have quitting := fun (fuel : ℕ) (enough : _ ≤ fuel) =>
    foldlM_sendtoOne (s₁.splitComment who) held enough (by rfl) (s₁.splitLinks clientP who)
  change ∀ fuel, _ → _ = some { s₁ with sent := s₁.sent ++ (s₁.splitLinks clientP who).flatMap (fun dest =>
    (s₁.splitMsgs who users below dest).map fun msg => (s₁.route dest, msg)) } at quitting
  rw [links] at quitting
  obtain ⟨status, hangs, ⟨sconf, lists⟩, people, heldBelow, -⟩ := held
  have once := tree.once
  have apart := tree.apart
  simp only [Forest.postorder] at once apart
  obtain ⟨onceFront, -, disjoint⟩ := List.nodup_append.mp once
  obtain ⟨onceBelow, onceUsers, -⟩ := List.nodup_append.mp onceFront
  have outside : ∀ x ∈ below.postorder ++ users, x ≠ who := fun x member same =>
    disjoint x member who List.mem_cons_self same
  have belowSub : ∀ x, x ∈ below.nodes → x ∈ below.postorder := fun x member =>
    Forest.mem_postorder.mpr (Or.inl member)
  have upOut : server ∉ below.nodes ∧ server ≠ who := by
    refine ⟨fun member => apart (by simp [belowSub server member]), ?_⟩
    rintro rfl
    exact apart (by simp)
  -- the tree goes
  obtain ⟨s₃, done₃, exits₃, emptied₃, kept₃⟩ := removeServers_spec
    (s := { s₁ with sent := s₁.sent ++ quits }) (s₁.splitComment who)
    (heldBelow.congr (fun x => ⟨rfl, rfl, rfl, rfl⟩) fun x _ => rfl) lists onceBelow
    (fun member => outside who (List.mem_append_left _ member) rfl)
  obtain ⟨s₄, done₄, exits₄, emptied₄, kept₄⟩ := removeUsers_spec (s₁.splitComment who) emptied₃
    (fun u member => by
      have same := exits₃.same u
      rw [same.isPerson, same.2.2.2]
      exact people u member)
    onceUsers (fun member => outside who (List.mem_append_right _ member) rfl)
  have exits := exits₃.trans exits₄
  -- and then the server
  obtain ⟨upServ, upLists⟩ := Option.isSome_iff_exists.mp tree.linked
  have upLists₄ : (s₄.client server).serv = some upServ := by
    rw [kept₄ server upOut.2, kept₃ server upOut.1 upOut.2]
    have same := congrArg Client.serv (client server)
    exact same.trans upLists
  obtain ⟨last, -, -⟩ := exits_exitOneClient (s := s₄) clientP sender comment
    (by rw [(exits.same who).2.1, status]; decide) ((exits.same who).2.2.2.trans hangs) upLists₄
    fun same => upOut.2 same.symm
  generalize told_eq : (s₄.unlink who).announcement clientP who sender comment = told at last
  have whole := (exits.say told).trans last
  refine ⟨s₄.exitOneClient clientP who sender comment, told, fun fuel enough => ?_, ?_,
    fun m member => ?_⟩
  · have alive := tree.alive
    unfold State.exitClient State.removeDependents
    rw [if_neg (by rw [alive]; decide)]
    dsimp only
    rw [departed, if_pos status, quitting fuel enough, Option.bind_some]
    simp only [Forest.size] at enough
    obtain ⟨n, rfl⟩ : ∃ n, fuel = n + 1 := ⟨fuel - 1, by omega⟩
    unfold State.recurseRemoveClients
    rw [if_neg (by simp [status, lists]), done₃ n (by omega), Option.bind_some, done₄ n (by omega)]
    rfl
  · have order : (Forest.cons who users below .nil).postorder = below.postorder ++ users ++ [who] := by
      simp [Forest.postorder]
    rw [order, ← sent]
    exact whole
  · rw [← told_eq] at member
    obtain ⟨lists', unlinked⟩ := s₄.unlink_client who who
    obtain ⟨dest, from_dest, routed⟩ := announcement_server (by
      rw [unlinked]
      exact (exits.same who).2.1.trans status) m member
    rw [unlinked] at from_dest
    have source₁ : (s₁.client who).source = some dest := (exits.source who).symm.trans from_dest
    refine ⟨dest, ?_, ?_⟩
    · rw [source] at source₁
      dsimp only at source₁
      split at source₁
      · cases source₁
      · exact source₁
    · rw [routed]
      obtain ⟨lists'', unlinked'⟩ := s₄.unlink_client who dest
      unfold State.route
      rw [unlinked']
      exact congrArg (Option.getD · dest) (exits.source dest)

/-! ### The tree and the lists of the servers -/

theorem State.Holds.node {f : Forest ClientId} (held : s.Holds server f) {x : ClientId}
    (node : x ∈ f.nodes) : (s.client x).status = .server := by
  induction f generalizing server with
  | nil => cases node
  | cons who users below next ihBelow ihNext =>
    obtain ⟨status, -, -, -, heldBelow, heldNext⟩ := held
    simp only [Forest.nodes, List.mem_cons, List.mem_append] at node
    rcases node with rfl | inBelow | inNext
    · exact status
    · exact ihBelow heldBelow inBelow
    · exact ihNext heldNext inNext

theorem State.Holds.leaf {f : Forest ClientId} (held : s.Holds server f) {u : ClientId}
    (leaf : u ∈ f.leaves) :
    (s.client u).isPerson = true ∧ ∃ y, (s.client u).servptr = some y ∧ f.Edge y u := by
  induction f generalizing server with
  | nil => cases leaf
  | cons who users below next ihBelow ihNext =>
    obtain ⟨-, -, -, people, heldBelow, heldNext⟩ := held
    simp only [Forest.leaves, List.mem_append] at leaf
    rcases leaf with here | inBelow | inNext
    · obtain ⟨person, hangs⟩ := people u here
      exact ⟨person, who, hangs, Or.inl ⟨rfl, Or.inr here⟩⟩
    · obtain ⟨person, y, hangs, edge⟩ := ihBelow heldBelow inBelow
      exact ⟨person, y, hangs, Or.inr (Or.inl edge)⟩
    · obtain ⟨person, y, hangs, edge⟩ := ihNext heldNext inNext
      exact ⟨person, y, hangs, Or.inr (Or.inr edge)⟩

/-- The edges of the tree are the entries of the lists. -/
theorem State.Holds.below_iff {f : Forest ClientId} (held : s.Holds server f)
    (once : f.postorder.Nodup) {y : ClientId} (node : y ∈ f.nodes) (x : ClientId) :
    s.Below y x ↔ f.Edge y x := by
  induction f generalizing server with
  | nil => cases node
  | cons who users below next ihBelow ihNext =>
    obtain ⟨-, -, ⟨sconf, lists⟩, -, heldBelow, heldNext⟩ := held
    simp only [Forest.postorder] at once
    obtain ⟨onceFront, onceRest, disjoint⟩ := List.nodup_append.mp once
    obtain ⟨onceBelow, -, -⟩ := List.nodup_append.mp onceFront
    obtain ⟨apartNext, onceNext⟩ := List.nodup_cons.mp onceRest
    have belowSub : ∀ x, x ∈ below.nodes → x ∈ below.postorder := fun x member =>
      Forest.mem_postorder.mpr (Or.inl member)
    have nextSub : ∀ x, x ∈ next.nodes → x ∈ next.postorder := fun x member =>
      Forest.mem_postorder.mpr (Or.inl member)
    have whoBelow : who ∉ below.nodes := fun member =>
      disjoint who (List.mem_append_left _ (belowSub who member)) who List.mem_cons_self rfl
    have whoNext : who ∉ next.nodes := fun member => apartNext (nextSub who member)
    simp only [Forest.nodes, List.mem_cons, List.mem_append] at node
    rcases node with rfl | inBelow | inNext
    · constructor
      · rintro ⟨serv, same, child | leaf⟩
        · rw [lists] at same
          obtain rfl := Option.some.inj same
          exact Or.inl ⟨rfl, Or.inl child⟩
        · rw [lists] at same
          obtain rfl := Option.some.inj same
          exact Or.inl ⟨rfl, Or.inr leaf⟩
      · rintro (⟨-, hangs⟩ | edge | edge)
        · exact ⟨_, lists, hangs⟩
        · exact absurd (Forest.edge_node edge) whoBelow
        · exact absurd (Forest.edge_node edge) whoNext
    · rw [ihBelow heldBelow onceBelow inBelow]
      constructor
      · exact fun edge => Or.inr (Or.inl edge)
      · rintro (⟨rfl, -⟩ | edge | edge)
        · exact absurd inBelow whoBelow
        · exact edge
        · exact (disjoint y (List.mem_append_left _ (belowSub y inBelow)) y
            (List.mem_cons_of_mem _ (nextSub y (Forest.edge_node edge))) rfl).elim
    · rw [ihNext heldNext onceNext inNext]
      constructor
      · exact fun edge => Or.inr (Or.inr edge)
      · rintro (⟨rfl, -⟩ | edge | edge)
        · exact absurd inNext whoNext
        · exact (disjoint y (List.mem_append_left _ (belowSub y (Forest.edge_node edge))) y
            (List.mem_cons_of_mem _ (nextSub y inNext)) rfl).elim
        · exact edge

/-- What is in a tree is what is reached over the lists. -/
theorem State.Holds.mem_iff {users : List ClientId} {below : Forest ClientId}
    (held : s.Holds server (.cons who users below .nil))
    (once : (Forest.cons who users below .nil).postorder.Nodup)
    (plain : ∀ u ∈ (Forest.cons who users below .nil).leaves, (s.client u).serv = none)
    (x : ClientId) :
    x ∈ (Forest.cons who users below .nil).postorder ↔ Relation.ReflTransGen s.Below who x := by
  have edges := fun y node x => held.below_iff once (y := y) node x
  rw [Forest.mem_postorder_iff]
  constructor
  · rintro ⟨r, isRoot, path⟩
    obtain rfl : r = who := by simpa [Forest.roots] using isRoot
    exact Relation.ReflTransGen.mono (fun y x edge => (edges y (Forest.edge_node edge) x).mpr edge) _ _
      path
  · intro path
    refine ⟨who, by simp [Forest.roots], ?_⟩
    induction path with
    | refl => exact .refl
    | @tail y x _ hangs ih =>
      have member : y ∈ (Forest.cons who users below .nil).postorder :=
        Forest.mem_postorder_iff.mpr ⟨who, by simp [Forest.roots], ih⟩
      -- a client with lists is a node
      rcases Forest.mem_postorder.mp member with node | leaf
      · exact ih.tail ((edges y node x).mp hangs)
      · obtain ⟨serv, lists, -⟩ := hangs
        rw [plain y leaf] at lists
        cases lists

theorem State.Tree.mem_iff {users : List ClientId} {below : Forest ClientId}
    (tree : s.Tree server who users below) (x : ClientId) :
    x ∈ (Forest.cons who users below .nil).postorder ↔ Relation.ReflTransGen s.Below who x :=
  tree.held.mem_iff tree.once tree.plain x

/-! ### The blocks of the dead -/

theorem Live.append {a b : List Access} :
    Live (a ++ b) ↔ Live a ∧ Live b ∧ ∀ x ∈ a, ∀ y ∈ b, ¬ x.Spoils y := by
  unfold Live
  rw [List.pairwise_append]

theorem mem_releaseClientState {c x : ClientId} : .read x ∈ s.releaseClientState c ↔
    (s.client c).isPerson = true ∧ (x = c ∨ (s.client c).servptr = some x) := by
  unfold State.releaseClientState
  split
  next person => simp [person, eq_comm]
  next other => simp [other]

theorem free_notMem_releaseClientState (c x : ClientId) : .free x ∉ s.releaseClientState c := by
  unfold State.releaseClientState
  split <;> simp

theorem State.releaseClientState_congr (same : (s.client who).SameClient (t.client who)) :
    t.releaseClientState who = s.releaseClientState who := by
  unfold State.releaseClientState
  rw [same.isPerson, same.2.2.2]

/-- Nothing is read of those who are no persons. -/
theorem live_of_servers {dead : List ClientId} (servers : ∀ c ∈ dead, (s.client c).isPerson = false) :
    Live (dead.flatMap fun c => s.releaseClientState c ++ [.free c]) := by
  have silent : (dead.flatMap fun c => s.releaseClientState c ++ [.free c]) = dead.map .free := by
    induction dead with
    | nil => rfl
    | cons c dead ih =>
      rw [List.flatMap_cons, ih fun d member => servers d (List.mem_cons_of_mem _ member)]
      simp [State.releaseClientState, servers c List.mem_cons_self]
  rw [silent]
  apply List.pairwise_of_forall_mem_list
  intro a _ b member
  obtain ⟨c, -, rfl⟩ := List.mem_map.mp member
  cases a <;> exact id

/-- A user behind its server on the list of the dead. -/
theorem not_live_of_sublist {dead : List ClientId} {u y : ClientId} (behind : [y, u].Sublist dead)
    (person : (s.client u).isPerson = true) (hangs : (s.client u).servptr = some y) :
    ¬ Live (dead.flatMap fun c => s.releaseClientState c ++ [.free c]) := by
  intro live
  have part : [Access.free y, .read y].Sublist
      (dead.flatMap fun c => s.releaseClientState c ++ [.free c]) := by
    refine List.Sublist.trans ?_ (behind.flatMap _)
    have first : [Access.free y].Sublist (s.releaseClientState y ++ [.free y]) :=
      List.sublist_append_right _ _
    have second : [Access.read y].Sublist (s.releaseClientState u ++ [.free u]) :=
      List.singleton_sublist.mpr
        (List.mem_append_left _ (mem_releaseClientState.mpr ⟨person, Or.inr hangs⟩))
    simpa using first.append second
  have apart := List.Pairwise.sublist part live
  simp [Access.Spoils] at apart

/-- What the log of the dead is like when a tree has been put in front of it. -/
theorem State.Tree.live_iff {users : List ClientId} {below : Forest ClientId}
    (tree : s.Tree server who users below)
    (same : ∀ x, (s.client x).SameClient (t.client x))
    (deadList : t.deadList =
      (Forest.cons who users below .nil).postorder.reverse ++ s.deadList) :
    Live t.freeExitedClients ↔
      (∀ x, Relation.ReflTransGen s.Below who x → (s.client x).isPerson = false) ∧
      (∀ u ∈ s.deadList, (s.client u).isPerson = true → ∀ y, (s.client u).servptr = some y →
        ¬ Relation.ReflTransGen s.Below who y) ∧ Live s.freeExitedClients := by
  have mem := tree.mem_iff
  simp only [← mem]
  have fresh := tree.fresh
  have edges : ∀ y x, (Forest.cons who users below .nil).Edge y x →
      [x, y].Sublist (Forest.cons who users below .nil).postorder := fun y x => Forest.edge_sublist
  have leaf := fun u => tree.held.leaf (u := u)
  have node := fun x => tree.held.node (x := x)
  have parts := fun x => Forest.mem_postorder (f := Forest.cons who users below .nil) (x := x)
  generalize Forest.cons who users below .nil = f at *
  unfold State.freeExitedClients
  simp only [State.releaseClientState_congr (same _), deadList]
  rw [List.flatMap_append, Live.append]
  constructor
  · rintro ⟨first, rest, cross⟩
    refine ⟨fun x member => ?_, fun u dead person y hangs member => ?_, rest⟩
    · -- a person is behind its server on the list
      rcases (parts x).mp member with isNode | isLeaf
      · simp [Client.isPerson, node x isNode]
      · obtain ⟨person, y, hangs, edge⟩ := leaf x isLeaf
        have behind := List.reverse_sublist.mpr (edges y x edge)
        exact absurd first (not_live_of_sublist behind person hangs)
    · refine cross (.free y) ?_ (.read y) ?_ rfl
      · exact List.mem_flatMap.mpr ⟨y, List.mem_reverse.mpr member, by simp⟩
      · exact List.mem_flatMap.mpr ⟨u, dead, List.mem_append_left _
          (mem_releaseClientState.mpr ⟨person, Or.inr hangs⟩)⟩
  · rintro ⟨servers, apart, rest⟩
    refine ⟨live_of_servers fun c member => servers c (List.mem_reverse.mp member), rest, ?_⟩
    intro a first b second spoils
    obtain ⟨c, inTree, ofC⟩ := List.mem_flatMap.mp first
    obtain ⟨u, dead, ofU⟩ := List.mem_flatMap.mp second
    have inTree := List.mem_reverse.mp inTree
    cases a with
    | read x => exact spoils
    | free x =>
      cases b with
      | free y => exact spoils
      | read y =>
        obtain rfl : x = y := spoils
        obtain rfl : x = c := by simpa [free_notMem_releaseClientState] using ofC
        have reads : .read x ∈ s.releaseClientState u := by simpa using ofU
        obtain ⟨person, own | hangs⟩ := mem_releaseClientState.mp reads
        · subst own
          exact fresh x inTree dead
        · exact apart u dead person x hangs inTree

/-! ### Netsplit removal -/

/-- Exactly these clients exit: those that the server leads to over its lists, each of them once and
before the server that it is on. -/
structure RemovesTree (s : State) (who : ClientId) (order : List ClientId) (t : State) : Prop where
  reached : ∀ x, x ∈ order ↔ Relation.ReflTransGen s.Below who x
  once : order.Nodup
  dependentsFirst : ∀ y ∈ order, ∀ x, s.Below y x → [x, y].Sublist order
  deadList : t.deadList = order.reverse ++ s.deadList
  globalClientList : t.globalClientList = s.globalClientList.diff order
  dead : ∀ x, (t.client x).dead = ((s.client x).dead || decide (x ∈ order))

/-- A server exits with everything below it. No block of the dead is read after it has been freed if
and only if nobody is on these servers, and nobody who is dead already was. -/
theorem exitClient_live_iff {users : List ClientId} {below : Forest ClientId}
    (tree : s.Tree server who users below) (clientP : Option ClientId) (sender : ClientId)
    (comment : List Char) :
    ∃ t order, (∀ fuel, (Forest.cons who users below .nil).size ≤ fuel →
        s.exitClient clientP who sender comment fuel = some t) ∧
      RemovesTree s who order t ∧
      (Live t.freeExitedClients ↔
        (∀ x, Relation.ReflTransGen s.Below who x → (s.client x).isPerson = false) ∧
        (∀ u ∈ s.deadList, (s.client u).isPerson = true → ∀ y, (s.client u).servptr = some y →
          ¬ Relation.ReflTransGen s.Below who y) ∧ Live s.freeExitedClients) := by
  obtain ⟨t, told, done, exits, -⟩ := exitClient_spec tree clientP sender comment
  obtain ⟨-, -, deadList, globalClientList, -, -, -, -⟩ := s.depart_rest who
  have client := s.depart_client who
  have mem := tree.mem_iff
  have self : who ∈ (Forest.cons who users below .nil).postorder := (mem who).mpr .refl
  have dead := exits.deadList.trans (congrArg (_ ++ ·) deadList)
  refine ⟨t, (Forest.cons who users below .nil).postorder, done, ?_, tree.live_iff (fun x => ?_) dead⟩
  · constructor
    · exact mem
    · exact tree.once
    · intro y member x hangs
      rcases Forest.mem_postorder.mp member with node | leaf
      · exact Forest.edge_sublist ((tree.held.below_iff tree.once node x).mp hangs)
      · obtain ⟨serv, lists, -⟩ := hangs
        rw [tree.plain y leaf] at lists
        cases lists
    · exact dead
    · exact exits.globalClientList.trans (congrArg (List.diff · _) globalClientList)
    · intro x
      rw [exits.dead x]
      dsimp only
      rw [client]
      by_cases isWho : x = who
      · subst isWho
        simp [self]
      · simp [isWho]
  · have left := exits.same x
    dsimp only at left
    rw [client] at left
    exact left

theorem smallNetwork_tree : smallNetwork.Tree 0 1 [] (.cons 2 [3] .nil .nil) where
  held := ⟨rfl, rfl, ⟨none, rfl⟩, by simp, ⟨rfl, rfl, ⟨none, rfl⟩, by decide, trivial, trivial⟩, trivial⟩
  once := by decide
  apart := by decide
  plain := by
    intro u leaf
    obtain rfl : u = 3 := by simpa [Forest.leaves] using leaf
    rfl
  linked := rfl
  alive := rfl
  fresh := by simp [smallNetwork]

theorem exitClient_live_iff_smallNetwork :
    ∃ t order, (∀ fuel, 8 ≤ fuel → smallNetwork.exitClient none 1 0 [] fuel = some t) ∧
      RemovesTree smallNetwork 1 order t ∧
      (Live t.freeExitedClients ↔
        (∀ x, Relation.ReflTransGen smallNetwork.Below 1 x →
          (smallNetwork.client x).isPerson = false) ∧
        (∀ u ∈ smallNetwork.deadList, (smallNetwork.client u).isPerson = true →
          ∀ y, (smallNetwork.client u).servptr = some y →
            ¬ Relation.ReflTransGen smallNetwork.Below 1 y) ∧ Live smallNetwork.freeExitedClients) :=
  exitClient_live_iff smallNetwork_tree none 0 []

/-- The user is freed behind the server that it was on. -/
theorem user_outlives_server : smallNetwork.Tree 0 1 [] (.cons 2 [3] .nil .nil) ∧
    ∃ t, smallNetwork.exitClient none 1 0 [] 7 = some t ∧ t.deadList = [1, 2, 3] ∧
      ¬ Live t.freeExitedClients := by
  refine ⟨smallNetwork_tree, ?_⟩
  have run : (smallNetwork.exitClient none 1 0 [] 7).map (fun t =>
      (t.deadList, decide (Live t.freeExitedClients))) = some ([1, 2, 3], false) := by
    decide +kernel
  obtain ⟨t, done, result⟩ := Option.map_eq_some_iff.mp run
  obtain ⟨dead, live⟩ := Prod.mk.inj result
  exact ⟨t, done, dead, of_decide_eq_false live⟩

end Ircd.Split
