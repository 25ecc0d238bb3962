import Ircd.Auth.Requests
import Ircd.Lib.Run

/-!
# A client is released once

All ways to finish a request unlink it before they release the client, except the loop of `timeout_auth_queries_event`.
If the client exits while it is read there, the exit frees the request and its node under the hands of the loop.
-/
namespace Ircd.Auth

/-- A request that is under way. -/
structure Conn.Waiting (c : Conn) : Prop where
  request : c.request = true
  node : c.node = true
  client : c.client = true
  dead : c.dead = false
  released : c.released = 0

/-- A request that is finished: the client has been released, or has exited before. -/
structure Conn.Over (c : Conn) : Prop where
  request : c.request = false
  node : c.node = false
  once : c.released = 1 ∨ c.released = 0 ∧ c.dead = true

/-- Every connection has been released or has exited, and its request is gone, or its request is under way and in the list;
and nothing has been used that was not allocated. -/
structure Right (s : State) : Prop where
  fine : s.fine = true
  conn : ∀ n < s.nextConn, n ∈ s.pollList ∧ (s.conn n).Waiting ∨ n ∉ s.pollList ∧ (s.conn n).Over

/-! ### The invariant -/

/-- What the fields of a connection in the list say. -/
structure Conn.Listed (c : Conn) : Prop extends c.Waiting where
  query : c.query = c.dnsPending
  open_ : c.fd = c.watch.isSome
  auth : c.doingAuth = c.fd

/-- What the fields of a connection say that is not in the list. -/
structure Conn.Unlisted (c : Conn) : Prop where
  request : c.request = false
  node : c.node = false
  query : c.query = false
  watch : c.watch = none
  client : c.client = true → c.dead = false → c.released = 1

/-- What holds between two events. -/
structure Inv (s : State) : Prop extends Right s where
  nodup : s.pollList.Nodup
  listed : ∀ n ∈ s.pollList, n < s.nextConn ∧ (s.conn n).Listed
  unlisted : ∀ n, n ∉ s.pollList → (s.conn n).Unlisted

/-- What an exit needs: all in the list are allocated, and alive. -/
structure ListOk (s : State) : Prop where
  nodup : s.pollList.Nodup
  alive : ∀ n ∈ s.pollList, (s.conn n).request = true ∧ (s.conn n).node = true ∧ (s.conn n).client = true ∧
    (s.conn n).dead = false

theorem Inv.listOk {s : State} (inv : Inv s) : ListOk s where
  nodup := inv.nodup
  alive n member := by
    have listed := (inv.listed n member).2
    exact ⟨listed.request, listed.node, listed.client, listed.dead⟩

/-- What an exit does to a connection. -/
def Conn.exit (c : Conn) (listed : Bool) : Conn :=
  if !c.client || c.dead then c
  else if listed then
    { c with dead := true, query := false, watch := if c.fd then none else c.watch, request := false, node := false }
  else { c with dead := true, query := false }

/-- What exits do to a state. -/
def State.exitAll (s : State) (l : List ConnId) : State :=
  { s with
    conn := fun n => if n ∈ l then (s.conn n).exit (decide (n ∈ s.pollList)) else s.conn n
    pollList := s.pollList.filter fun n => decide (n ∉ l) }

theorem deleteIdentdQueries_off {s : State} (target : ConnId) (l : List ConnId)
    (alive : ∀ n ∈ l, (s.conn n).request = true ∧ (s.conn n).node = true) (off : target ∉ l) :
    l.foldl (State.deleteIdentdQuery target) s = s := by
  induction l with
  | nil => rfl
  | cons n l ih =>
    obtain ⟨request, node⟩ := alive n List.mem_cons_self
    have other : n ≠ target := fun same => off (same ▸ List.mem_cons_self)
    have here : State.deleteIdentdQuery target s n = s := by
      simp [State.deleteIdentdQuery, State.useNode, State.useRequest, other, request, node]
    rw [List.foldl_cons, here]
    exact ih (fun m member => alive m (List.mem_cons_of_mem n member)) fun member => off (List.mem_cons_of_mem n member)

theorem deleteIdentdQuery_self {s : State} {n : ConnId} (request : (s.conn n).request = true)
    (node : (s.conn n).node = true) :
    State.deleteIdentdQuery n s n =
      { s.modify n fun c =>
          { c with watch := if c.fd then none else c.watch, request := false, node := false } with
        pollList := s.pollList.erase n } := by
  cases fd : (s.conn n).fd <;>
    simp [State.deleteIdentdQuery, State.useNode, State.useRequest, State.modify, State.dlinkDelete,
      State.freeAuthRequest, State.freeDlinkNode, fd, request, node]

theorem mem_exitAll {s : State} {l : List ConnId} {n : ConnId} :
    n ∈ (s.exitAll l).pollList ↔ n ∈ s.pollList ∧ n ∉ l := by
  simp [State.exitAll]

theorem exitAll_of_notMem {s : State} {l : List ConnId} {n : ConnId} (off : n ∉ l) :
    (s.exitAll l).conn n = s.conn n :=
  if_neg off

theorem ListOk.exitAll {s : State} (ok : ListOk s) (l : List ConnId) : ListOk (s.exitAll l) where
  nodup := ok.nodup.filter _
  alive n member := by
    obtain ⟨listed, off⟩ := mem_exitAll.mp member
    rw [exitAll_of_notMem off]
    exact ok.alive n listed

theorem erase_eq_filter {l : List ConnId} (nodup : l.Nodup) (n : ConnId) :
    l.erase n = l.filter fun m => decide (m ∉ [n]) := by
  rw [nodup.erase_eq_filter]
  exact List.filter_congr fun m _ => by simp [bne, Bool.beq_eq_decide_eq]

theorem exitClient_eq {s : State} (ok : ListOk s) (n : ConnId) : s.exitClient n = s.exitAll [n] := by
  have same : s.exitAll [n] = { s with
      conn := Function.update s.conn n ((s.conn n).exit (decide (n ∈ s.pollList)))
      pollList := s.pollList.erase n } := by
    simp only [State.exitAll, erase_eq_filter ok.nodup, State.mk.injEq, and_true, true_and]
    funext m
    by_cases here : m = n
    · subst here
      simp
    · simp [here]
  rw [same]
  by_cases gone : (!(s.conn n).client || (s.conn n).dead) = true
  · -- The clients in the list are alive.
    have off : n ∉ s.pollList := by
      intro member
      obtain ⟨-, -, client, dead⟩ := ok.alive n member
      simp [client, dead] at gone
    simp [State.exitClient, Conn.exit, gone, List.erase_of_not_mem off]
  simp only [State.exitClient, gone, State.deleteIdentdQueries, Bool.false_eq_true, if_false]
  set t := s.modify n fun c => { c with dead := true, query := false } with ht
  have blocks : ∀ m, (t.conn m).request = (s.conn m).request ∧ (t.conn m).node = (s.conn m).node := by
    intro m
    by_cases here : m = n
    · subst here
      simp [ht, State.modify]
    · simp [ht, State.modify, here]
  have alive : ∀ m ∈ s.pollList, (t.conn m).request = true ∧ (t.conn m).node = true := by
    intro m member
    rw [(blocks m).1, (blocks m).2]
    exact ⟨(ok.alive m member).1, (ok.alive m member).2.1⟩
  have list : t.pollList = s.pollList := rfl
  rw [list]
  by_cases member : n ∈ s.pollList
  · -- The loop passes by all requests but the one of the client.
    obtain ⟨pre, post, split⟩ := List.append_of_mem member
    have nodup := ok.nodup
    rw [split, List.nodup_middle, List.nodup_cons, List.mem_append, not_or] at nodup
    obtain ⟨⟨offPre, offPost⟩, -⟩ := nodup
    rw [split] at alive
    have before := deleteIdentdQueries_off n pre (fun m mem => alive m (List.mem_append_left _ mem)) offPre
    have here := alive n (List.mem_append_right _ List.mem_cons_self)
    have self := deleteIdentdQuery_self here.1 here.2
    rw [list] at self
    rw [split, List.foldl_append, List.foldl_cons, before, self]
    rw [deleteIdentdQueries_off n post _ offPost]
    · simp [ht, State.modify, Conn.exit, gone, split]
    · intro m mem
      have other : m ≠ n := fun same => offPost (same ▸ mem)
      simpa [State.modify, other] using alive m (List.mem_append_right _ (List.mem_cons_of_mem n mem))
  · rw [deleteIdentdQueries_off n s.pollList alive member]
    simp [ht, State.modify, Conn.exit, gone, member, List.erase_of_not_mem member]

theorem Conn.exit_exit (c : Conn) (listed again : Bool) : (c.exit listed).exit again = c.exit listed := by
  by_cases gone : (!c.client || c.dead) = true
  · simp [Conn.exit, gone]
  · cases listed <;> simp [Conn.exit, gone]

theorem exitAll_exitAll (s : State) (k l : List ConnId) : (s.exitAll k).exitAll l = s.exitAll (k ++ l) := by
  have list : (s.pollList.filter fun m => decide (m ∉ k)).filter (fun m => decide (m ∉ l)) =
      s.pollList.filter fun m => decide (m ∉ k ++ l) := by
    rw [List.filter_filter]
    exact List.filter_congr fun m _ => by simp [Bool.and_comm]
  simp only [State.exitAll, list, State.mk.injEq, true_and, and_true]
  funext n
  by_cases inK : n ∈ k <;> by_cases inL : n ∈ l <;> simp [inK, inL, Conn.exit_exit]

theorem exitAll_nil (s : State) : s.exitAll [] = s := by
  simp [State.exitAll]

/-- What the exits of the clients that `read_packet` reads come to. -/
theorem foldl_exitClient {s : State} (ok : ListOk s) (l : List ConnId) :
    l.foldl State.exitClient s = s.exitAll l := by
  induction l generalizing s with
  | nil => exact (exitAll_nil s).symm
  | cons n l ih => rw [List.foldl_cons, exitClient_eq ok, ih (ok.exitAll [n]), exitAll_exitAll, List.singleton_append]

/-! ### The connections one by one -/

/-- What is right about a connection, as it is in the list or not, and there has been one or not. -/
def Conn.Fits (c : Conn) (listed born : Prop) : Prop :=
  listed ∧ born ∧ c.Listed ∨ ¬listed ∧ c.Unlisted ∧ (born → c.Over)

theorem inv_iff {s : State} :
    Inv s ↔ s.fine = true ∧ s.pollList.Nodup ∧ ∀ n, (s.conn n).Fits (n ∈ s.pollList) (n < s.nextConn) := by
  constructor
  · intro inv
    refine ⟨inv.fine, inv.nodup, fun n => ?_⟩
    by_cases member : n ∈ s.pollList
    · exact .inl ⟨member, inv.listed n member⟩
    · refine .inr ⟨member, inv.unlisted n member, fun born => ?_⟩
      rcases inv.conn n born with ⟨here, -⟩ | ⟨-, done_⟩
      · exact absurd here member
      · exact done_
  · rintro ⟨fine, nodup, fits⟩
    refine ⟨⟨fine, fun n born => ?_⟩, nodup, fun n member => ?_, fun n off => ?_⟩
    · rcases fits n with ⟨member, -, listed⟩ | ⟨off, -, done_⟩
      · exact .inl ⟨member, listed.toWaiting⟩
      · exact .inr ⟨off, done_ born⟩
    · rcases fits n with ⟨-, rest⟩ | ⟨off, -⟩
      · exact rest
      · exact absurd member off
    · rcases fits n with ⟨member, -⟩ | ⟨-, unlisted, -⟩
      · exact absurd member off
      · exact unlisted

theorem Conn.Unlisted.exit {c : Conn} (h : c.Unlisted) : (c.exit false).Unlisted := by
  by_cases gone : (!c.client || c.dead) = true
  · simpa [Conn.exit, gone] using h
  · refine ⟨?_, ?_, ?_, ?_, ?_⟩ <;> simp [Conn.exit, gone, h.request, h.node, h.watch]

theorem Conn.Over.exit {c : Conn} (h : c.Over) : (c.exit false).Over := by
  by_cases gone : (!c.client || c.dead) = true
  · simpa [Conn.exit, gone] using h
  · refine ⟨?_, ?_, ?_⟩
    · simp [Conn.exit, gone, h.request]
    · simp [Conn.exit, gone, h.node]
    · rcases h.once with once | ⟨never, -⟩
      · simp [Conn.exit, gone, once]
      · simp [Conn.exit, gone, never]

theorem Conn.Listed.exit {c : Conn} (h : c.Listed) : (c.exit true).Unlisted ∧ (c.exit true).Over := by
  have alive : (!c.client || c.dead) = false := by simp [h.client, h.dead]
  have watch : (if c.fd then none else c.watch) = none := by
    cases open_ : c.fd
    · simpa [open_] using h.open_
    · rfl
  constructor
  · refine ⟨?_, ?_, ?_, ?_, ?_⟩ <;> simp [Conn.exit, alive, watch]
  · exact ⟨by simp [Conn.exit, alive], by simp [Conn.exit, alive], .inr (by simp [Conn.exit, alive, h.released])⟩

theorem Conn.Fits.exit {c : Conn} {listed born : Prop} [Decidable listed] (fits : c.Fits listed born) :
    (c.exit (decide listed)).Fits False born := by
  rcases fits with ⟨member, -, h⟩ | ⟨off, h, done_⟩
  · simp only [member, decide_true]
    exact .inr ⟨not_false, h.exit.1, fun _ => h.exit.2⟩
  · simp only [off, decide_false]
    exact .inr ⟨not_false, h.exit, fun b => (done_ b).exit⟩

/-- An exit keeps the invariant. -/
theorem Inv.exitAll {s : State} (inv : Inv s) (l : List ConnId) : Inv (s.exitAll l) := by
  obtain ⟨fine, nodup, fits⟩ := inv_iff.mp inv
  refine inv_iff.mpr ⟨fine, nodup.filter _, fun n => ?_⟩
  rw [mem_exitAll]
  by_cases member : n ∈ l
  · have here := (fits n).exit
    simpa [State.exitAll, member] using here
  · simpa [State.exitAll, member] using fits n

/-! ### The end of a request -/

/-- `n` is in the list, none of its queries is under way any more, and all others are as they should be. -/
structure Held (s : State) (n : ConnId) : Prop where
  fine : s.fine = true
  nodup : s.pollList.Nodup
  member : n ∈ s.pollList
  born : n < s.nextConn
  waiting : (s.conn n).Waiting
  query : (s.conn n).query = false
  watch : (s.conn n).watch = none
  fits : ∀ m ≠ n, (s.conn m).Fits (m ∈ s.pollList) (m < s.nextConn)

theorem Held.listOk {s : State} {n : ConnId} (held : Held s n) : ListOk s where
  nodup := held.nodup
  alive m member := by
    by_cases here : m = n
    · subst here
      have waiting := held.waiting
      exact ⟨waiting.request, waiting.node, waiting.client, waiting.dead⟩
    · rcases held.fits m here with ⟨-, -, h⟩ | ⟨off, -⟩
      · exact ⟨h.request, h.node, h.client, h.dead⟩
      · exact absurd member off

/-- The nodes of the list are allocated. -/
theorem foldl_useNode {s : State} (l : List ConnId) (alive : ∀ n ∈ l, (s.conn n).node = true) :
    l.foldl State.useNode s = s := by
  induction l with
  | nil => rfl
  | cons n l ih =>
    have here : s.useNode n = s := by simp [State.useNode, alive n List.mem_cons_self]
    rw [List.foldl_cons, here]
    exact ih fun m member => alive m (List.mem_cons_of_mem n member)

/-- The request that is released has been unlinked. -/
def State.unlinked (s : State) (n : ConnId) : State :=
  { s.modify n fun c => { c with node := false, released := c.released + 1 } with pollList := s.pollList.erase n }

theorem ListOk.unlinked {s : State} (ok : ListOk s) (n : ConnId) : ListOk (s.unlinked n) where
  nodup := ok.nodup.erase n
  alive m member := by
    have other := (ok.nodup.mem_erase_iff.mp member).1
    simpa [State.unlinked, State.modify, other] using ok.alive m (List.mem_of_mem_erase member)

theorem Held.finish_eq {s : State} {n : ConnId} (held : Held s n) (exits : Exits) :
    s.finish exits n = ((s.unlinked n).exitAll (exits n)).modify n fun c => { c with request := false } := by
  have ok := held.listOk
  have passed : (s.pollList.takeWhile fun m => decide (m ≠ n)).foldl State.useNode s = s :=
    foldl_useNode _ fun m member => (ok.alive m (List.takeWhile_subset _ member)).2.1
  have unlinked : s.unlinkAuthRequest n =
      { s.modify n fun c => { c with node := false } with pollList := s.pollList.erase n } := by
    simp only [State.unlinkAuthRequest, passed, held.member, if_true]
    simp [State.dlinkDelete, State.freeDlinkNode, State.useNode, State.modify, held.waiting.node]
  have released : (s.unlinkAuthRequest n).releaseAuthClient exits n = (s.unlinked n).exitAll (exits n) := by
    rw [← foldl_exitClient (ok.unlinked n), unlinked, State.releaseAuthClient]
    congr 1
    simp [State.unlinked, State.useClient, State.modify, held.waiting.client]
  have request : (((s.unlinked n).exitAll (exits n)).conn n).request = true := by
    have off : n ∉ s.pollList.erase n := fun member => (held.nodup.mem_erase_iff.mp member).1 rfl
    by_cases exited : n ∈ exits n <;>
      simp [State.exitAll, exited, State.unlinked, State.modify, off, Conn.exit, held.waiting.client,
        held.waiting.dead, held.waiting.request]
  rw [State.finish, released, State.freeAuthRequest]
  congr 1
  simp [State.useRequest, request]

/-- A request is unlinked before the client is released: the client may exit, and with it any others. -/
theorem Held.finish {s : State} {n : ConnId} (held : Held s n) (exits : Exits) : Inv (s.finish exits n) := by
  rw [held.finish_eq]
  refine inv_iff.mpr ⟨held.fine, (held.nodup.erase n).filter _, fun m => ?_⟩
  have waiting := held.waiting
  by_cases here : m = n
  · subst here
    have off : m ∉ s.pollList.erase m := fun member => (held.nodup.mem_erase_iff.mp member).1 rfl
    refine .inr ⟨fun member => off (List.mem_of_mem_filter member), ?_, fun _ => ?_⟩
    · by_cases exited : m ∈ exits m <;> constructor <;>
        simp [State.exitAll, exited, State.unlinked, State.modify, off, Conn.exit, waiting.client, waiting.dead,
          waiting.released, held.query, held.watch]
    · by_cases exited : m ∈ exits m <;> constructor <;>
        simp [State.exitAll, exited, State.unlinked, State.modify, off, Conn.exit, waiting.client, waiting.dead,
          waiting.released]
  · have fits := held.fits m here
    by_cases exited : m ∈ exits n
    · have gone := fits.exit
      simpa [State.exitAll, exited, State.unlinked, State.modify, here, List.mem_erase_of_ne here] using gone
    · simpa [State.exitAll, exited, State.unlinked, State.modify, here, List.mem_erase_of_ne here] using fits

/-! ### The steps -/

theorem Inv.member_of_query {s : State} (inv : Inv s) {n : ConnId} (query : (s.conn n).query = true) :
    n ∈ s.pollList := by
  by_contra off
  have none_ := (inv.unlisted n off).query
  simp [query] at none_

theorem Inv.member_of_watch {s : State} (inv : Inv s) {n : ConnId} {w : Watch} (watch : (s.conn n).watch = some w) :
    n ∈ s.pollList := by
  by_contra off
  have none_ := (inv.unlisted n off).watch
  simp [watch] at none_

theorem Inv.modify {s : State} (inv : Inv s) {n : ConnId} (member : n ∈ s.pollList) {f : Conn → Conn}
    (listed : (f (s.conn n)).Listed) : Inv (s.modify n f) := by
  obtain ⟨fine, nodup, fits⟩ := inv_iff.mp inv
  refine inv_iff.mpr ⟨fine, nodup, fun m => ?_⟩
  by_cases here : m = n
  · subst here
    refine .inl ⟨member, (inv.listed m member).1, ?_⟩
    simpa [State.modify] using listed
  · simpa [State.modify, here] using fits m

/-- The second of the queries comes to its end. -/
theorem Inv.held {s : State} (inv : Inv s) {n : ConnId} (member : n ∈ s.pollList) {f : Conn → Conn}
    (waiting : (f (s.conn n)).Waiting) (query : (f (s.conn n)).query = false) (watch : (f (s.conn n)).watch = none) :
    Held (s.modify n f) n := by
  obtain ⟨fine, nodup, fits⟩ := inv_iff.mp inv
  refine ⟨fine, nodup, member, (inv.listed n member).1, ?_, ?_, ?_, fun m other => ?_⟩
  · simpa [State.modify] using waiting
  · simpa [State.modify] using query
  · simpa [State.modify] using watch
  · simpa [State.modify, other] using fits m

theorem Inv.use {s : State} (inv : Inv s) {n : ConnId} (member : n ∈ s.pollList) :
    s.useRequest n = s ∧ s.useNode n = s ∧ s.useClient n = s := by
  have listed := (inv.listed n member).2
  refine ⟨?_, ?_, ?_⟩
  · simp [State.useRequest, listed.request]
  · simp [State.useNode, listed.node]
  · simp [State.useClient, listed.client]

theorem Inv.authDnsCallback {s : State} (inv : Inv s) {n : ConnId} (member : n ∈ s.pollList) (exits : Exits) :
    Inv (s.authDnsCallback exits n) := by
  have listed := (inv.listed n member).2
  rw [State.authDnsCallback, (inv.use member).1, (inv.use member).2.2]
  cases auth : (s.conn n).doingAuth
  · have watch : (s.conn n).watch = none := by
      have open_ := listed.open_
      rw [← listed.auth, auth] at open_
      simpa using open_
    have held : Held (s.modify n fun c => { c with dnsPending := false, query := false }) n :=
      inv.held member ⟨listed.request, listed.node, listed.client, listed.dead, listed.released⟩ rfl watch
    simpa [State.modify, auth] using held.finish exits
  · have keep : Inv (s.modify n fun c => { c with dnsPending := false, query := false }) :=
      inv.modify member { listed with query := rfl }
    simpa [State.modify, auth] using keep

theorem Inv.identEnds {s : State} (inv : Inv s) {n : ConnId} (member : n ∈ s.pollList) (exits : Exits) :
    Inv (s.identEnds exits n) := by
  have listed := (inv.listed n member).2
  rw [State.identEnds, (inv.use member).1, (inv.use member).2.2]
  cases pending : (s.conn n).dnsPending
  · have query : (s.conn n).query = false := listed.query.trans pending
    have held : Held (s.modify n fun c => { c with fd := false, watch := none, doingAuth := false }) n :=
      inv.held member ⟨listed.request, listed.node, listed.client, listed.dead, listed.released⟩ query rfl
    simpa [State.modify, pending] using held.finish exits
  · have keep : Inv (s.modify n fun c => { c with fd := false, watch := none, doingAuth := false }) :=
      inv.modify member { listed with open_ := rfl, auth := rfl }
    simpa [State.modify, pending] using keep

theorem Inv.readAuthReply {s : State} (inv : Inv s) {n : ConnId} (member : n ∈ s.pollList) {w : Watch}
    (watch : (s.conn n).watch = some w) (exits : Exits) (ready : Bool) : Inv (s.readAuthReply exits n ready) := by
  rw [State.readAuthReply, (inv.use member).1]
  cases ready
  · have listed := (inv.listed n member).2
    have open_ : (s.conn n).fd = true := by rw [listed.open_, watch, Option.isSome_some]
    have keep : Inv (s.modify n fun c => { c with watch := some .read }) :=
      inv.modify member { listed with open_ := open_ }
    exact keep
  · exact inv.identEnds member exits

theorem Inv.authConnectCallback {s : State} (inv : Inv s) {n : ConnId} (member : n ∈ s.pollList) {w : Watch}
    (watch : (s.conn n).watch = some w) (exits : Exits) (ok ready : Bool) :
    Inv (s.authConnectCallback exits n ok ready) := by
  rw [State.authConnectCallback, (inv.use member).1, (inv.use member).2.2]
  cases ok
  · exact inv.identEnds member exits
  · exact inv.readAuthReply member watch exits ready

theorem Inv.freeExitedClients {s : State} (inv : Inv s) : Inv s.freeExitedClients := by
  obtain ⟨fine, nodup, fits⟩ := inv_iff.mp inv
  refine inv_iff.mpr ⟨fine, nodup, fun n => ?_⟩
  rcases fits n with ⟨member, born, h⟩ | ⟨off, h, done_⟩
  · -- The clients in the list are alive.
    have client : (s.freeExitedClients.conn n).client = true := by simp [State.freeExitedClients, h.client, h.dead]
    exact .inl ⟨member, born, ⟨⟨h.request, h.node, client, h.dead, h.released⟩, h.query, h.open_, h.auth⟩⟩
  · refine .inr ⟨off, { h with client := fun client dead => ?_ }, fun born => ⟨(done_ born).request, (done_ born).node,
      (done_ born).once⟩⟩
    simp only [State.freeExitedClients, Bool.and_eq_true] at client
    exact h.client client.1 dead

theorem Inv.startAuth {s : State} (inv : Inv s) (ident : State.IdentStart) : Inv (s.startAuth ident) := by
  obtain ⟨fine, nodup, fits⟩ := inv_iff.mp inv
  have fresh : s.nextConn ∉ s.pollList := fun member => Nat.lt_irrefl _ (inv.listed _ member).1
  refine inv_iff.mpr ⟨fine, List.nodup_cons.mpr ⟨fresh, nodup⟩, fun n => ?_⟩
  by_cases here : n = s.nextConn
  · subst here
    refine .inl ⟨List.mem_cons_self, Nat.lt_succ_self _, ⟨⟨?_, ?_, ?_, ?_, ?_⟩, ?_, ?_, ?_⟩⟩ <;>
      cases ident <;> simp [State.startAuth]
  · have born : n < s.nextConn + 1 ↔ n < s.nextConn :=
      Nat.lt_succ_iff_lt_or_eq.trans (or_iff_left here)
    simpa [State.startAuth, here, born] using fits n

theorem Inv.start (now : ℤ) : Inv (State.start now) := by
  refine inv_iff.mpr ⟨rfl, List.nodup_nil, fun n => .inr ⟨List.not_mem_nil, ?_, fun born => ?_⟩⟩
  · constructor <;> simp [State.start]
  · exact absurd born (Nat.not_lt_zero n)

/-! ### The timeout -/

/-- The request that is too old is released while it is in the list. -/
def State.late (s : State) (n : ConnId) : State :=
  s.modify n fun c => { c with query := false, watch := none, released := c.released + 1 }

theorem Inv.listOk_late {s : State} (inv : Inv s) (n : ConnId) : ListOk (s.late n) where
  nodup := inv.nodup
  alive m member := by
    by_cases here : m = n
    · subst here
      simpa [State.late, State.modify] using inv.listOk.alive m member
    · simpa [State.late, State.modify, here] using inv.listOk.alive m member

theorem Inv.timeOut_eq {s : State} (inv : Inv s) {n : ConnId} (member : n ∈ s.pollList) (exits : Exits) :
    s.timeOut exits n = ((((s.late n).exitAll (exits n)).dlinkDelete n).freeDlinkNode n).freeAuthRequest n := by
  have listed := (inv.listed n member).2
  have pending := listed.query
  have open_ := listed.open_
  rw [State.timeOut, (inv.use member).2.2, ← foldl_exitClient (inv.listOk_late n)]
  congr 4
  cases dns : (s.conn n).dnsPending <;> cases watch : (s.conn n).watch <;>
    simp [dns, watch] at pending open_ <;>
    simp [State.releaseAuthClient, State.late, State.useClient, State.modify, listed.client, pending, open_, dns, watch]

/-- The loop goes on as it should if the client that it releases does not exit. -/
theorem Inv.timeOut {s : State} (inv : Inv s) {n : ConnId} (member : n ∈ s.pollList) {exits : Exits}
    (stays : n ∉ exits n) :
    Inv (s.timeOut exits n) ∧ (s.timeOut exits n).currentTime = s.currentTime ∧
      (s.timeOut exits n).pollList = (s.pollList.filter fun m => decide (m ∉ exits n)).erase n ∧
      ∀ m, ((s.timeOut exits n).conn m).timeout = (s.conn m).timeout := by
  have listed := (inv.listed n member).2
  have result : s.timeOut exits n =
      { ((s.late n).exitAll (exits n)).modify n fun c => { c with node := false, request := false } with
        pollList := (s.pollList.filter fun m => decide (m ∉ exits n)).erase n } := by
    rw [inv.timeOut_eq member]
    simp [State.dlinkDelete, State.freeDlinkNode, State.freeAuthRequest, State.useNode, State.useRequest,
      State.modify, State.exitAll, State.late, stays, listed.request, listed.node]
  obtain ⟨fine, nodup, fits⟩ := inv_iff.mp inv
  have erased : ((s.pollList.filter fun m => decide (m ∉ exits n)).erase n).Nodup := (nodup.filter _).erase n
  rw [result]
  refine ⟨inv_iff.mpr ⟨fine, erased, fun m => ?_⟩, rfl, rfl, fun m => ?_⟩
  · by_cases here : m = n
    · subst here
      have off : m ∉ (s.pollList.filter fun k => decide (k ∉ exits m)).erase m := fun mem =>
        ((nodup.filter _).mem_erase_iff.mp mem).1 rfl
      refine .inr ⟨off, ?_, fun _ => ?_⟩ <;> constructor <;>
        simp [State.modify, State.exitAll, stays, State.late, listed.released]
    · have born : ((s.late n).exitAll (exits n)).nextConn = s.nextConn := rfl
      have here' : ((s.late n).conn m) = s.conn m := by simp [State.late, State.modify, here]
      by_cases exited : m ∈ exits n
      · have gone := (fits m).exit
        have conn : ((s.late n).exitAll (exits n)).conn m = (s.conn m).exit (decide (m ∈ s.pollList)) := by
          simp only [State.exitAll, exited, if_true, here']
          rfl
        simpa [State.modify, here, conn, exited, List.mem_erase_of_ne here, born] using gone
      · have conn : ((s.late n).exitAll (exits n)).conn m = s.conn m := by
          simp [State.exitAll, exited, here']
        simpa [State.modify, here, conn, exited, List.mem_erase_of_ne here, born] using fits m
  · have exit_timeout (c : Conn) (listed : Bool) : (c.exit listed).timeout = c.timeout := by
      simp only [Conn.exit]
      split_ifs <;> rfl
    by_cases here : m = n <;> by_cases exited : m ∈ exits n <;>
      simp [State.modify, State.exitAll, State.late, here, exited, stays, exit_timeout]

/-- What has been used that was not allocated stays so. -/
theorem not_fine_exitClient {s : State} (bad : s.fine = false) (n : ConnId) : (s.exitClient n).fine = false := by
  have query (t : State) (m : ConnId) (h : t.fine = false) : (State.deleteIdentdQuery n t m).fine = false := by
    simp only [State.deleteIdentdQuery]
    split_ifs <;>
      simp [State.useNode, State.useRequest, State.modify, State.dlinkDelete, State.freeAuthRequest,
        State.freeDlinkNode, h]
  have loop (l : List ConnId) (t : State) (h : t.fine = false) :
      (l.foldl (State.deleteIdentdQuery n) t).fine = false := by
    induction l generalizing t with
    | nil => exact h
    | cons m l ih => exact ih _ (query t m h)
  rw [State.exitClient]
  split_ifs
  · exact bad
  · exact loop _ _ bad

theorem not_fine_timeOut {s : State} (bad : s.fine = false) (exits : Exits) (n : ConnId) :
    (s.timeOut exits n).fine = false := by
  have exited (l : List ConnId) (t : State) (h : t.fine = false) : (l.foldl State.exitClient t).fine = false := by
    induction l generalizing t with
    | nil => exact h
    | cons m l ih => exact ih _ (not_fine_exitClient h m)
  have released (t : State) (h : t.fine = false) : (t.releaseAuthClient exits n).fine = false :=
    exited _ _ (by simp [State.useClient, State.modify, h])
  have freed (t : State) (h : t.fine = false) :
      (((t.dlinkDelete n).freeDlinkNode n).freeAuthRequest n).fine = false := by
    simp [State.dlinkDelete, State.freeDlinkNode, State.freeAuthRequest, State.useNode, State.useRequest,
      State.modify, h]
  simp only [State.timeOut]
  refine freed _ (released _ ?_)
  split_ifs <;> simp [State.useClient, State.modify, bad]

theorem not_fine_timeoutLoop {s : State} (bad : s.fine = false) (exits : Exits) (fuel : ℕ) (ptr : Option ConnId) :
    (State.timeoutLoop exits fuel ptr s).fine = false := by
  induction fuel generalizing s ptr with
  | zero => exact bad
  | succ fuel ih =>
    cases ptr with
    | none => exact bad
    | some n =>
      have used : ((s.useNode n).useRequest n).fine = false := by simp [State.useNode, State.useRequest, bad]
      rw [State.timeoutLoop]
      split_ifs
      · exact ih (not_fine_timeOut used exits n) _
      · exact ih used _

/-- The clients that the loop releases do not exit while they are read, and neither do those that are next in the list
then. -/
inductive Quiet (timeout : ConnId → ℤ) (now : ℤ) (exits : Exits) : List ConnId → Prop
  | nil : Quiet timeout now exits []
  | young {n : ConnId} {l : List ConnId} (young : ¬timeout n < now) (rest : Quiet timeout now exits l) :
      Quiet timeout now exits (n :: l)
  | late {n : ConnId} {l : List ConnId} (late : timeout n < now) (stays : n ∉ exits n)
      (next : ∀ m ∈ l.head?, m ∉ exits n) (rest : Quiet timeout now exits (l.filter fun m => decide (m ∉ exits n))) :
      Quiet timeout now exits (n :: l)

def State.timeouts (s : State) (n : ConnId) : ℤ := (s.conn n).timeout

theorem next_eq {s : State} (nodup : s.pollList.Nodup) {pre l : List ConnId} {n : ConnId}
    (list : s.pollList = pre ++ n :: l) : s.next n = l.head? := by
  have off : n ∉ pre := by
    rw [list, List.nodup_middle, List.nodup_cons, List.mem_append, not_or] at nodup
    exact nodup.1.1
  have passed : (pre ++ n :: l).dropWhile (fun m => decide (m ≠ n)) = n :: l := by
    rw [List.dropWhile_append_of_pos fun m member => by simpa using fun same : m = n => off (same ▸ member)]
    simp
  rw [State.next, list, passed, List.tail_cons]

/-- The exit of the client that is released frees the node under the hands of the loop. -/
theorem Inv.not_fine_timeOut_self {s : State} (inv : Inv s) {n : ConnId} (member : n ∈ s.pollList) {exits : Exits}
    (exited : n ∈ exits n) : (s.timeOut exits n).fine = false := by
  have listed := (inv.listed n member).2
  have node : (((s.late n).exitAll (exits n)).conn n).node = false := by
    simp [State.exitAll, exited, State.late, State.modify, Conn.exit, listed.client, listed.dead, member]
  rw [inv.timeOut_eq member]
  simp [State.dlinkDelete, State.freeDlinkNode, State.freeAuthRequest, State.useNode, State.useRequest, State.modify,
    node]

/-- The loop reads the node of a request that is gone. -/
theorem Inv.not_fine_gone {s : State} (inv : Inv s) {n : ConnId} (off : n ∉ s.pollList) (exits : Exits) (fuel : ℕ) :
    (State.timeoutLoop exits (fuel + 1) (some n) s).fine = false := by
  have used : ((s.useNode n).useRequest n).fine = false := by
    simp [State.useNode, State.useRequest, (inv.unlisted n off).node]
  rw [State.timeoutLoop]
  split_ifs
  · exact not_fine_timeoutLoop (not_fine_timeOut used exits n) exits _ _
  · exact not_fine_timeoutLoop used exits _ _

theorem timeoutLoop_spec (exits : Exits) (fuel : ℕ) {s : State} (inv : Inv s) (pre l : List ConnId)
    (list : s.pollList = pre ++ l) (enough : l.length ≤ fuel) :
    (Quiet s.timeouts s.currentTime exits l → Inv (State.timeoutLoop exits fuel l.head? s)) ∧
      ((State.timeoutLoop exits fuel l.head? s).fine = true → Quiet s.timeouts s.currentTime exits l) := by
  induction fuel generalizing s pre l with
  | zero =>
    obtain rfl := List.length_eq_zero_iff.mp (Nat.le_zero.mp enough)
    exact ⟨fun _ => inv, fun _ => .nil⟩
  | succ fuel ih =>
    cases l with
    | nil => exact ⟨fun _ => inv, fun _ => .nil⟩
    | cons n l =>
      have member : n ∈ s.pollList := list ▸ List.mem_append_right _ List.mem_cons_self
      have enough' : l.length ≤ fuel := Nat.le_of_succ_le_succ enough
      rw [List.head?_cons, State.timeoutLoop, (inv.use member).2.1, (inv.use member).1, next_eq inv.nodup list]
      by_cases late : (s.conn n).timeout < s.currentTime
      · rw [if_pos late]
        by_cases exited : n ∈ exits n
        · have bad := not_fine_timeoutLoop (inv.not_fine_timeOut_self member exited) exits fuel l.head?
          refine ⟨fun quiet => ?_, fun fine => absurd fine (by simp [bad])⟩
          cases quiet with
          | young young _ => exact absurd late young
          | late _ stays => exact absurd exited stays
        obtain ⟨keep, now, rest, times⟩ := inv.timeOut member exited
        have times : (s.timeOut exits n).timeouts = s.timeouts := funext times
        have off : n ∉ pre.filter fun m => decide (m ∉ exits n) := by
          have nodup := inv.nodup
          rw [list, List.nodup_middle, List.nodup_cons, List.mem_append, not_or] at nodup
          exact fun mem => nodup.1.1 (List.mem_of_mem_filter mem)
        rw [list, List.filter_append, List.filter_cons_of_pos (by simp [exited]), List.erase_append_right _ off,
          List.erase_cons_head] at rest
        by_cases lost : ∃ m ∈ l.head?, m ∈ exits n
        · -- The next request is gone when the loop comes to it.
          obtain ⟨m, head, gone⟩ := lost
          obtain ⟨l, rfl⟩ : ∃ l', l = m :: l' := List.head?_eq_some_iff.mp head
          obtain ⟨fuel, rfl⟩ : ∃ k, fuel = k + 1 := ⟨fuel - 1, by rw [List.length_cons] at enough'; omega⟩
          have away : m ∉ (s.timeOut exits n).pollList := by
            rw [rest]
            simp [gone]
          have bad := keep.not_fine_gone away exits fuel
          refine ⟨fun quiet => ?_, fun fine => absurd (bad.symm.trans fine) (by decide)⟩
          cases quiet with
          | young young _ => exact absurd late young
          | late _ _ next => exact absurd gone (next m head)
        · have next : ∀ m ∈ l.head?, m ∉ exits n := fun m head gone => lost ⟨m, head, gone⟩
          have head : l.head? = (l.filter fun m => decide (m ∉ exits n)).head? := by
            cases l with
            | nil => rfl
            | cons m l =>
              have stays : m ∉ exits n := next m rfl
              rw [List.filter_cons_of_pos (by simp [stays]), List.head?_cons, List.head?_cons]
          obtain ⟨good, back⟩ := ih keep _ _ rest (Nat.le_trans (List.length_filter_le _ l) enough')
          rw [times, now, ← head] at good back
          refine ⟨fun quiet => ?_, fun fine => .late late exited next (back fine)⟩
          cases quiet with
          | young young _ => exact absurd late young
          | late _ _ _ quiet => exact good quiet
      · rw [if_neg late]
        obtain ⟨keep, back⟩ := ih inv (pre ++ [n]) l (by simp [list]) enough'
        refine ⟨fun quiet => ?_, fun fine => .young late (back fine)⟩
        cases quiet with
        | young _ rest => exact keep rest
        | late here => exact absurd here late

/-! ### Runs -/

/-- What an event must not do. -/
def Safe (s : State) : Event → Prop
  | .timeouts now exits => Quiet s.timeouts now exits s.pollList
  | _ => True

theorem Inv.at_ {s : State} (inv : Inv s) (now : ℤ) : Inv { s with currentTime := now } :=
  ⟨⟨inv.fine, inv.conn⟩, inv.nodup, inv.listed, inv.unlisted⟩

theorem Inv.step {s : State} (inv : Inv s) {e : Event} (safe : Safe s e) : Inv (step s e) := by
  cases e with
  | connect ident => exact inv.startAuth ident
  | dnsAnswer n exits =>
    rw [Auth.step]
    split_ifs with query
    · exact inv.authDnsCallback (inv.member_of_query query) exits
    · exact inv
  | identConnect n ok ready exits =>
    rw [Auth.step]
    split_ifs with watch
    · exact inv.authConnectCallback (inv.member_of_watch watch) watch exits ok ready
    · exact inv
  | identReply n ready exits =>
    rw [Auth.step]
    split_ifs with watch
    · exact inv.readAuthReply (inv.member_of_watch watch) watch exits ready
    · exact inv
  | timeouts now exits =>
    exact (timeoutLoop_spec exits _ (inv.at_ now) [] _ rfl (Nat.le_refl _)).1 safe
  | exit n =>
    rw [Auth.step, exitClient_eq inv.listOk]
    exact inv.exitAll [n]
  | freeExited => exact inv.freeExitedClients

theorem Inv.safe_of_right {s : State} (inv : Inv s) {e : Event} (right : Right (Auth.step s e)) : Safe s e := by
  cases e with
  | timeouts now exits =>
    exact (timeoutLoop_spec exits _ (inv.at_ now) [] _ rfl (Nat.le_refl _)).2 right.fine
  | _ => trivial

/-- In every state of a run all is right exactly if no client whose request times out exits while it is read, nor takes
the next in the list with it. -/
theorem released_once_iff (now : ℤ) (events : List Event) :
    (∀ k, Right ((events.take k).foldl step (State.start now))) ↔ Along step Safe (State.start now) events :=
  forall_take_iff_along (fun _ inv => inv.toRight) (fun _ _ inv => inv.safe_of_right) (fun _ _ inv safe => inv.step safe) (Inv.start now)

/-- The ident server cannot be reached, no DNS answer comes within thirty seconds, and the client has sent `QUIT`. -/
theorem quit_at_timeout :
    ¬∀ (now : ℤ) (events : List Event) (k : ℕ), Right ((events.take k).foldl step (State.start now)) := by
  intro all
  have fine := (all 0 [.connect .failed, .timeouts 31 fun n => [n]] 2).fine
  exact absurd fine (by decide)

end Ircd.Auth
