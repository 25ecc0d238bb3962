import Ircd.Routing.ClientTable

/-!
# SQUIT

Which server a SQUIT drops (`src/modules/core/m_squit.c`). `find_squit` knows the name that this server has on the link,
but the search for a server that follows writes over what it has found.
-/
namespace Ircd.Routing

open Ircd.Chan (ircMatch)

/-- The clients of a server. Whoever is found by name or id is in the list of all clients as well. -/
structure Roster extends Table where
  listed : ∀ c, c ∈ clientTable ∨ c ∈ idTable → c ∈ globalClientList

/-- A SQUIT, as its handler has it: the connection that it came over, `my_name_for_link` of its `sconf` if it has one,
`IsOperRemote` of its source, and its parameter. -/
structure Squit where
  clientP : ClientId
  myName : Option (List Char)
  operRemote : Bool
  server : List Char

/-- `struct squit_parms`. -/
structure SquitParms where
  serverName : List Char
  targetP : Option ClientId

namespace Table

variable (t : Table) (q : Squit)

/-- The parameter is the name that this server has on the link. -/
def masked : Bool :=
  q.server.head? = some '*' ∧ (t.client q.clientP).status = .server ∧ q.myName.any fun name => IrcEq q.server name

/-- Where the search for a server stops. -/
def isServer (c : ClientId) : Bool := (t.client c).status = .server ∨ (t.client c).status = .me

/-- `find_squit`. There is no result while the search goes on. -/
def findSquit (fuel : ℕ) : Option (Option SquitParms) :=
  let found : SquitParms :=
    if t.masked q then ⟨(t.client q.clientP).name, some q.clientP⟩ else ⟨[], none⟩
  match t.enumerate q.server t.isServer fuel t.globalClientList.head? with
  | none => none
  | some target =>
    -- whatever the search has found is the target
    let found := { found with serverName := q.server, targetP := target }
    let found :=
      if target.any fun c => (t.client c).status = .me then
        if (t.client q.clientP).status = .client then { found with targetP := none }
        else { found with serverName := (t.client q.clientP).name, targetP := some q.clientP }
      else found
    some (if found.targetP ≠ none then some found else none)

/-- `ms_squit`, up to the client that it gives to `exit_client`. -/
def msSquit (fuel : ℕ) : Option (Option ClientId) := (t.findSquit q fuel).map (·.bind SquitParms.targetP)

/-- `mo_squit`, up to the client that it gives to `exit_client`. -/
def moSquit (fuel : ℕ) : Option (Option ClientId) := if !q.operRemote then some none else t.msSquit q fuel

/-- The handler of a SQUIT. -/
def squit (fuel : ℕ) : Option (Option ClientId) :=
  if (t.client q.clientP).status = .server then t.msSquit q fuel else t.moSquit q fuel

/-- The server with this name, which no other client has. A name that begins with a dot is an id. -/
def Exact (server : List Char) (c : ClientId) : Prop :=
  server.head? ≠ some '.' ∧ c ∈ t.clientTable ∧ (t.client c).status = .server ∧ IrcEq server (t.client c).name ∧
    ∀ d ∈ t.clientTable, IrcEq server (t.client d).name → d = c

/-- The SQUIT may drop a server: it came over a link, or from an oper who may. -/
def maySquit : Bool := (t.client q.clientP).status = .server ∨ q.operRemote

/-- The search ends, and what is dropped is the link for the name of this server there, and otherwise the server that is
named. -/
structure Drops : Prop where
  ends : ∃ fuel, (t.squit q fuel).isSome
  link : t.masked q = true → ∀ fuel dropped, t.squit q fuel = some dropped → dropped = some q.clientP
  server : t.maySquit q = true → ∀ c, t.Exact q.server c → ∀ fuel dropped, t.squit q fuel = some dropped → dropped = some c

/-- The first of all servers whose name the mask matches, the newest first, or the server of that very name. Where the
newest client of all has the name and does not match it, the first that matches comes before it. -/
def Leads (mask : List Char) (c : ClientId) : Prop := t.reached mask t.isServer = some c

/-- The newest client of all has the name, its name does not match it, and a server comes before it for that. -/
def Passed (mask : List Char) (c : ClientId) : Prop :=
  t.globalClientList.head? = some c ∧ ircMatch mask (t.client c).name = false ∧
    ∀ x, t.globalClientList.find? (fun d => ircMatch mask (t.client d).name) = some x →
      t.isServer x = true ∧ ((t.client x).status = .me → c ≠ q.clientP)

/-- What `find_squit` makes of the client that the search has stopped at. -/
def taken (target : Option ClientId) : Option ClientId :=
  if target.any fun c => (t.client c).status = .me then
    if (t.client q.clientP).status = .client then none else some q.clientP
  else target

variable {t q} {c : ClientId} {fuel : ℕ}

/-- The masked name makes no difference to what is found. -/
theorem msSquit_eq : t.msSquit q fuel =
    (t.enumerate q.server t.isServer fuel t.globalClientList.head?).map (t.taken q) := by
  unfold msSquit findSquit taken
  cases t.enumerate q.server t.isServer fuel t.globalClientList.head? with
  | none => rfl
  | some target =>
    simp only [Option.map_some]
    split
    · split <;> rfl
    · cases target <;> rfl

theorem squit_eq (may : t.maySquit q = true) : t.squit q fuel = t.msSquit q fuel := by
  have both := decide_eq_true_iff.mp may
  unfold squit
  split
  · rfl
  next user =>
    rw [moSquit, both.resolve_left user]
    rfl

theorem maySquit_of_masked (masked : t.masked q = true) : t.maySquit q = true :=
  decide_eq_true (.inl (decide_eq_true_iff.mp masked).2.1)

/-- A client that has been found by its name is in the list, so that only this server is the last. -/
theorem stops_of_found (r : Roster) {mask : List Char} (found : r.findClient mask = some c) :
    r.isServer c = true ∨ ∃ d, r.next c = some d := by
  have listed : c ∈ r.globalClientList := by
    refine r.listed c ?_
    unfold findClient at found
    split at found
    · exact .inr (List.mem_of_find?_eq_some found)
    · exact .inl (List.mem_of_find?_eq_some found)
  obtain ⟨front, rest, split⟩ := List.append_of_mem listed
  rw [next_eq split]
  cases rest with
  | nil =>
    have last := r.last
    rw [split, List.getLast?_append_of_ne_nil _ (List.cons_ne_nil c [])] at last
    have same : c = r.me := Option.some.inj last
    rw [same]
    exact .inl (decide_eq_true (.inr r.isMe))
  | cons d rest => exact .inr ⟨d, rfl⟩

/-- What is dropped is the server that the search leads to, or the link where it leads here. -/
theorem squit_iff (r : Roster) (may : r.maySquit q = true) :
    (∃ fuel, (r.squit q fuel).isSome) ∧
      ∀ fuel dropped, r.squit q fuel = some dropped → dropped = r.taken q (r.reached q.server r.isServer) := by
  obtain ⟨fuel, ended⟩ := exists_enumerate_eq r.isServer fun c found _ => stops_of_found r found
  constructor
  · refine ⟨fuel, ?_⟩
    rw [squit_eq may, msSquit_eq, ended]
    rfl
  · intro fuel' dropped result
    rw [squit_eq may, msSquit_eq] at result
    obtain ⟨target, ended', rfl⟩ := Option.map_eq_some_iff.mp result
    rw [enumerate_unique ended' ended]

/-- A server with this name is found by it. -/
theorem findClient_of_exact (exact_ : t.Exact q.server c) : t.findClient q.server = some c := by
  obtain ⟨name, member, -, equal, only⟩ := exact_
  unfold findClient
  rw [if_neg name]
  cases found : t.clientTable.find? fun c => IrcEq q.server (t.client c).name with
  | none =>
    have no := List.find?_eq_none.mp found c member
    exact absurd (decide_eq_true equal) no
  | some d =>
    have named := List.find?_some found
    rw [only d (List.mem_of_find?_eq_some found) (by simpa using named)]

/-- The link has its name here, and the search leads to it or to this server. -/
theorem taken_link (server : (t.client q.clientP).status = .server) (target : Option ClientId) :
    t.taken q target = some q.clientP ↔ ∃ c, target = some c ∧ ((t.client c).status = .me ∨ c = q.clientP) := by
  unfold taken
  cases target with
  | none => simp
  | some c =>
    by_cases me : (t.client c).status = .me
    · simp [me, server]
    · simp [me]

theorem taken_of_not_me (other : (t.client c).status ≠ .me) : t.taken q (some c) = some c := by
  simp [taken, other]

/-- A server that is named is dropped, unless it is passed over. -/
theorem taken_exact (exact_ : t.Exact q.server c) :
    t.taken q (t.reached q.server t.isServer) = some c ↔ ¬t.Passed q q.server c := by
  have server := exact_.2.2.1
  have stops : t.isServer c = true := decide_eq_true (.inl server)
  have other : (t.client c).status ≠ .me := by simp [server]
  unfold reached Passed
  rw [findClient_of_exact exact_]
  simp only [stops, if_true]
  by_cases first : t.globalClientList.head? = some c ∧ ircMatch q.server (t.client c).name = false
  · simp only [first, and_self, if_true, true_and]
    cases scanned : t.globalClientList.find? fun d => ircMatch q.server (t.client d).name with
    | none => simp [taken]
    | some x =>
      have differ : x ≠ c := by
        rintro rfl
        have yes := List.find?_some scanned
        rw [first.2] at yes
        cases yes
      simp only [Option.some.injEq, forall_eq']
      by_cases server_ : t.isServer x = true
      · rw [if_pos server_, and_iff_right server_]
        by_cases me : (t.client x).status = .me
        · -- the search leads here, which means the link
          have link : t.taken q (some x) = some c ↔ q.clientP = c := by
            by_cases user : (t.client q.clientP).status = .client
            · refine iff_of_false (by simp [taken, me, user]) ?_
              rintro rfl
              rw [user] at server
              cases server
            · simp [taken, me, user]
          rw [link, eq_comm]
          simp [me]
        · rw [taken_of_not_me me]
          simp [me, differ]
      · rw [if_neg server_, taken_of_not_me other]
        simp [server_]
  · simp only [if_neg first, taken_of_not_me other, true_iff]
    exact fun passed => first ⟨passed.1, passed.2.1⟩

end Table

/-- A SQUIT drops what it names exactly if its masked name leads to the link or to this server, and no named server is
passed over. -/
theorem Table.drops_iff (r : Roster) (q : Squit) :
    r.Drops q ↔
      (r.masked q = true → ∃ c, r.Leads q.server c ∧ ((r.client c).status = .me ∨ c = q.clientP)) ∧
        (r.maySquit q = true → ∀ c, r.Exact q.server c → ¬r.Passed q q.server c) := by
  constructor
  · rintro ⟨-, link, server⟩
    constructor
    · intro masked
      obtain ⟨⟨fuel, ended⟩, result⟩ := squit_iff r (maySquit_of_masked masked)
      obtain ⟨dropped, here⟩ := Option.isSome_iff_exists.mp ended
      have same := (link masked fuel dropped here).symm.trans (result fuel dropped here)
      exact (taken_link (decide_eq_true_iff.mp masked).2.1 _).mp same.symm
    · intro may c exact_
      obtain ⟨⟨fuel, ended⟩, result⟩ := squit_iff r may
      obtain ⟨dropped, here⟩ := Option.isSome_iff_exists.mp ended
      have same := (server may c exact_ fuel dropped here).symm.trans (result fuel dropped here)
      exact (taken_exact exact_).mp same.symm
  · rintro ⟨link, server⟩
    refine ⟨?_, ?_, ?_⟩
    · by_cases may : r.maySquit q = true
      · exact (squit_iff r may).1
      · have refused := not_or.mp (decide_eq_true_iff.not.mp may)
        refine ⟨0, ?_⟩
        rw [squit, if_neg refused.1, moSquit, if_pos (by simpa using refused.2)]
        rfl
    · intro masked fuel dropped here
      rw [(squit_iff r (maySquit_of_masked masked)).2 fuel dropped here]
      exact (taken_link (decide_eq_true_iff.mp masked).2.1 _).mpr (link masked)
    · intro may c exact_ fuel dropped here
      rw [(squit_iff r may).2 fuel dropped here]
      exact (taken_exact exact_).mpr (server may c exact_)

/-- `m.a` is `*.a` to its link `l.b`, behind which is `x.a`. -/
def twoUnderOneDomain : Roster where
  client
    | 0 => ⟨"m.a".toList, [], .me, 0, true, false⟩
    | 1 => ⟨"l.b".toList, [], .server, 1, true, false⟩
    | 2 => ⟨"x.a".toList, [], .server, 1, false, false⟩
    | _ => ⟨[], [], .unknown, 0, false, false⟩
  me := 0
  globalClientList := [2, 1, 0]
  clientTable := [2, 1, 0]
  idTable := []
  isMe := rfl
  last := rfl
  nodup := by decide
  own := by
    rintro (_ | _ | _ | c) direct
    · rfl
    · rfl
    · cases direct
    · cases direct
  direct := by
    rintro (_ | _ | _ | c) <;> rfl
  listed := by
    rintro c (named | known)
    · exact named
    · cases known

/-- The link is to be dropped, and another server is. -/
theorem squit_other_server : twoUnderOneDomain.squit ⟨1, some "*.a".toList, false, "*.a".toList⟩ 1 = some (some 2) ∧
    ¬twoUnderOneDomain.Drops ⟨1, some "*.a".toList, false, "*.a".toList⟩ := by
  have other : twoUnderOneDomain.squit ⟨1, some "*.a".toList, false, "*.a".toList⟩ 1 = some (some 2) := by decide +kernel
  refine ⟨other, fun drops => ?_⟩
  have link := drops.link (by decide +kernel) 1 _ other
  cases link

end Ircd.Routing
