import Ircd.Channel.Mask
import Ircd.Text
import Mathlib.Data.List.TakeWhile

/-!
# Clients by name

The hash tables of `src/hash.c`, in which clients are found by name and by id, and `GlobalClientList`, along which
`next_client` looks for names that match a mask. The server itself is the last of the list.
-/
namespace Ircd.Routing

open Ircd.Chan (ircMatch)

/-- The address of a `struct Client`. -/
abbrev ClientId := ℕ

/-- `STAT_*`. -/
inductive Status
  | connecting | handshake | me | unknown | server | client
  deriving DecidableEq, Repr

/-- `struct Client`. A client without a `user` has no id. `link` is `from`. -/
structure Client where
  name : List Char
  id : List Char
  status : Status
  link : ClientId
  myConnect : Bool
  capUid : Bool

/-- `IsRegistered`. -/
def Client.registered (c : Client) : Bool := c.status = .server ∨ c.status = .client

/-- The clients, and where they are found. `clientTable` and `idTable` are the clients in the order in which a chain of the
hash table has them. The link of a client is connected to this server, and is its own link. -/
structure Table where
  client : ClientId → Client
  me : ClientId
  globalClientList : List ClientId
  clientTable : List ClientId
  idTable : List ClientId
  isMe : (client me).status = .me
  last : globalClientList.getLast? = some me
  nodup : globalClientList.Nodup
  own : ∀ c, (client c).myConnect = true → (client c).link = c
  direct : ∀ c, (client (client c).link).myConnect = true

namespace Table

variable (t : Table)

/-! ### `hash.c` -/

/-- `find_client`. -/
def findClient (name : List Char) : Option ClientId :=
  if name.head? = some '.' then t.idTable.find? fun c => decide ((t.client c).id = name)
  else t.clientTable.find? fun c => IrcEq name (t.client c).name

/-- The loop of `hash_find_masked_server`, behind the first character of what is left of the name. -/
def findMask : List Char → Option ClientId
  | [] => none
  | c :: rest =>
    if c = '.' then
      match t.findClient ('*' :: c :: rest) with
      | some server => some server
      | none => findMask rest
    else findMask rest

/-- `HOSTLEN`. -/
def hostlen : ℕ := 63

/-- `hash_find_masked_server`. -/
def hashFindMaskedServer (name : List Char) : Option ClientId :=
  if name.head? = some '*' ∨ name.head? = some '.' then none else t.findMask (name.take hostlen)

/-- `find_server`. -/
def findServer (name : List Char) : Option ClientId :=
  match t.clientTable.find? fun c =>
      ((t.client c).status = .server ∨ (t.client c).status = .me) ∧ IrcEq name (t.client c).name with
  | some server => some server
  | none => t.hashFindMaskedServer name

/-! ### `GlobalClientList` -/

/-- What is reached from a client by its `next` pointers, the client first. -/
def chain (c : ClientId) : List ClientId :=
  if c ∈ t.globalClientList then t.globalClientList.dropWhile (· ≠ c) else [c]

/-- `next`. -/
def next (c : ClientId) : Option ClientId := (t.chain c).tail.head?

/-- `prev`. -/
def prev (c : ClientId) : Option ClientId :=
  if c ∈ t.globalClientList then (t.globalClientList.takeWhile (· ≠ c)).getLast? else none

/-- The loop of `next_client`. -/
def scan (start : Option ClientId) (mask : List Char) : Option ClientId :=
  start.bind fun c => (t.chain c).find? fun d => ircMatch mask (t.client d).name

/-- `next_client`. -/
def nextClient (tmp : Option ClientId) (mask : List Char) : Option ClientId :=
  match t.findClient mask with
  | none => t.scan tmp mask
  | some found =>
    if tmp.bind t.prev = some found then none
    else if some found ≠ tmp then some found
    else t.scan tmp mask

/-- A loop `for (x = client; x = next_client(x, mask); x = x->next)` that ends with the first client that `stop` holds
of. The outer `none` is a loop that has not come to an end yet. -/
def enumerate (mask : List Char) (stop : ClientId → Bool) : ℕ → Option ClientId → Option (Option ClientId)
  | 0, _ => none
  | fuel + 1, target =>
    match t.nextClient target mask with
    | none => some none
    | some c => if stop c then some (some c) else enumerate mask stop fuel (t.next c)

/-! ### What is found -/

/-- The client has the name, or the id. -/
def Named (name : List Char) (c : ClientId) : Prop :=
  if name.head? = some '.' then (t.client c).id = name else IrcEq name (t.client c).name

/-- The client has a name that stands for all servers below a domain of the name. -/
def Masks (name : List Char) (c : ClientId) : Prop :=
  ∃ host domain, name.take hostlen = host ++ '.' :: domain ∧ IrcEq ('*' :: '.' :: domain) (t.client c).name

variable {t} {name mask : List Char} {c d : ClientId}

theorem named_of_findClient (found : t.findClient name = some c) : t.Named name c := by
  unfold findClient at found
  unfold Named
  split at found
  next id =>
    rw [if_pos id]
    simpa using List.find?_some found
  next plain =>
    rw [if_neg plain]
    simpa using List.find?_some found

theorem masks_of_findMask (found : t.findMask name = some c) :
    ∃ host domain, name = host ++ '.' :: domain ∧ IrcEq ('*' :: '.' :: domain) (t.client c).name := by
  induction name with
  | nil => cases found
  | cons a rest ih =>
    have later (found : t.findMask rest = some c) :
        ∃ host domain, a :: rest = host ++ '.' :: domain ∧ IrcEq ('*' :: '.' :: domain) (t.client c).name := by
      obtain ⟨host, domain, same, mask⟩ := ih found
      exact ⟨a :: host, domain, by rw [same, List.cons_append], mask⟩
    unfold findMask at found
    split at found
    next dot =>
      subst dot
      split at found
      next server first =>
        cases found
        have named := named_of_findClient first
        unfold Named at named
        rw [if_neg (by simp)] at named
        exact ⟨[], rest, rfl, named⟩
      · exact later found
    · exact later found

/-- `find_server` finds a server by its name, or by the mask that hides it. -/
theorem findServer_spec (found : t.findServer name = some c) :
    IrcEq name (t.client c).name ∨ t.Masks name c := by
  unfold findServer at found
  split at found
  next server first =>
    cases found
    have named := List.find?_some first
    simp only [decide_eq_true_eq] at named
    exact Or.inl named.2
  · unfold hashFindMaskedServer at found
    split at found
    · cases found
    · exact Or.inr (masks_of_findMask found)

/-! ### The enumeration comes to an end -/

theorem chain_eq {front rest : List ClientId} (split : t.globalClientList = front ++ c :: rest) :
    t.chain c = c :: rest := by
  have fresh : c ∉ front := fun member =>
    (List.nodup_append.mp (split ▸ t.nodup)).2.2 c member c List.mem_cons_self rfl
  have skips : front.dropWhile (fun x => decide (x ≠ c)) = [] := by
    rw [List.dropWhile_eq_nil_iff]
    intro x member
    simpa using fun same : x = c => fresh (same ▸ member)
  unfold chain
  rw [if_pos (by rw [split]; simp), split, List.dropWhile_append, skips]
  simp

theorem next_eq {front rest : List ClientId} (split : t.globalClientList = front ++ c :: rest) :
    t.next c = rest.head? := by
  rw [next, chain_eq split, List.tail_cons]

/-- The `prev` pointer leads back. -/
theorem prev_of_next (following : t.next c = some d) : t.prev d = some c := by
  have here : c ∈ t.globalClientList := by
    by_contra absent
    unfold next chain at following
    rw [if_neg absent] at following
    cases following
  obtain ⟨front, rest, split⟩ := List.append_of_mem here
  rw [next_eq split] at following
  cases rest with
  | nil => cases following
  | cons d' rest =>
    cases following
    have fresh : d ∉ front ++ [c] := by
      have split' : t.globalClientList = (front ++ [c]) ++ d :: rest := by rw [split]; simp
      exact fun member => (List.nodup_append.mp (split' ▸ t.nodup)).2.2 d member d List.mem_cons_self rfl
    have taken : (front ++ c :: d :: rest).takeWhile (fun x => decide (x ≠ d)) = front ++ [c] := by
      have same : front ++ c :: d :: rest = (front ++ [c]) ++ d :: rest := by simp
      rw [same, List.takeWhile_append_of_pos]
      · simp
      · intro x member
        simpa using fun equal : x = d => fresh (equal ▸ member)
    unfold prev
    rw [if_pos (by rw [split]; simp), split, taken]
    simp

theorem prev_head {front : List ClientId} (split : t.globalClientList = d :: front) : t.prev d = none := by
  unfold prev
  rw [split]
  simp

/-- Without a client of that very name the loop goes along the list, to the first that it stops at. -/
theorem enumerate_of_not_found (stop : ClientId → Bool) (missing : t.findClient mask = none) {fuel : ℕ}
    {front rest : List ClientId} (split : t.globalClientList = front ++ rest) (enough : rest.length < fuel) :
    t.enumerate mask stop fuel rest.head? = some (rest.find? fun d => ircMatch mask (t.client d).name && stop d) := by
  induction fuel generalizing front rest with
  | zero => omega
  | succ fuel ih =>
    unfold enumerate nextClient
    rw [missing]
    cases rest with
    | nil => rfl
    | cons c rest =>
      have scans : t.scan (c :: rest).head? mask =
          (c :: rest).find? fun d => ircMatch mask (t.client d).name := by
        rw [scan, List.head?_cons, Option.bind_some, chain_eq split]
      simp only [scans]
      cases found : (c :: rest).find? fun d => ircMatch mask (t.client d).name with
      | none =>
        have nothing : ((c :: rest).find? fun d => ircMatch mask (t.client d).name && stop d) = none := by
          rw [List.find?_eq_none] at found ⊢
          intro d inside both
          exact found d inside (Bool.and_eq_true_iff.mp both).1
        rw [nothing]
      | some d =>
        simp only
        obtain ⟨matches_, skipped, behind, cut, others⟩ := List.find?_eq_some_iff_append.mp found
        have passed : (skipped.find? fun d => ircMatch mask (t.client d).name && stop d) = none := by
          rw [List.find?_eq_none]
          intro e inside both
          have no := others e inside
          rw [(Bool.and_eq_true_iff.mp both).1] at no
          cases no
        rw [cut, List.find?_append, passed, Option.none_or]
        split
        next stops =>
          rw [List.find?_cons_of_pos (by rw [matches_, stops]; rfl)]
        next goes =>
        have split' : t.globalClientList = (front ++ skipped) ++ d :: behind := by
          rw [split, cut, List.append_assoc]
        rw [next_eq split', List.find?_cons_of_neg (by simp [goes])]
        have resplit : t.globalClientList = (front ++ skipped ++ [d]) ++ behind := by
          rw [split']
          simp
        apply ih resplit
        have shorter := congrArg List.length cut
        simp only [List.length_cons, List.length_append] at shorter enough
        omega

/-- With such a client the loop comes to an end behind it, if something follows it. -/
theorem enumerate_of_found (stop : ClientId → Bool) (found : t.findClient mask = some c)
    (ends : stop c = true ∨ ∃ d, t.next c = some d) (fuel : ℕ) {target : Option ClientId}
    (here : t.nextClient target mask = some c) :
    t.enumerate mask stop (fuel + 2) target = some (if stop c then some c else none) := by
  unfold enumerate
  rw [here]
  simp only
  split
  · rfl
  next goes =>
  obtain ⟨d, following⟩ := ends.resolve_left goes
  rw [following]
  unfold enumerate nextClient
  rw [found]
  simp [prev_of_next following]

/-- A client that the loop does not stop at, and that nothing follows, is found again and again. -/
theorem enumerate_stuck {stop : ClientId → Bool} (found : t.findClient mask = some c) (goes : stop c = false)
    (end_ : t.next c = none) (fuel : ℕ) {target : Option ClientId} (here : t.nextClient target mask = some c) :
    t.enumerate mask stop fuel target = none := by
  induction fuel generalizing target with
  | zero => rfl
  | succ fuel ih =>
    unfold enumerate
    rw [here]
    simp only
    rw [if_neg (by simp [goes]), end_]
    apply ih
    unfold nextClient
    rw [found]
    simp

/-- What the loop comes to: the client of that very name, or the first that it stops at. The name is not found at once
if the first client of all has it and its own name does not match it. -/
def reached (t : Table) (mask : List Char) (stop : ClientId → Bool) : Option ClientId :=
  match t.findClient mask with
  | none => t.globalClientList.find? fun d => ircMatch mask (t.client d).name && stop d
  | some c =>
    if t.globalClientList.head? = some c ∧ ircMatch mask (t.client c).name = false then
      match t.globalClientList.find? fun d => ircMatch mask (t.client d).name with
      | none => none
      | some x => if stop x then some x else if stop c then some c else none
    else if stop c then some c
    else none

/-- The loop from the head of the list ends, if it is not stuck at the client that has the mask for a name. -/
theorem exists_enumerate_eq (stop : ClientId → Bool) (free : ∀ c, t.findClient mask = some c →
    t.nextClient t.globalClientList.head? mask = some c → stop c = true ∨ ∃ d, t.next c = some d) :
    ∃ fuel, t.enumerate mask stop fuel t.globalClientList.head? = some (t.reached mask stop) := by
  unfold reached
  cases found : t.findClient mask with
  | none =>
    have whole : t.globalClientList = [] ++ t.globalClientList := rfl
    exact ⟨t.globalClientList.length + 1, enumerate_of_not_found stop found whole (by omega)⟩
  | some c =>
    obtain ⟨head, rest, split⟩ : ∃ head rest, t.globalClientList = head :: rest := by
      cases list : t.globalClientList with
      | nil => exact absurd t.last (by rw [list]; simp)
      | cons head rest => exact ⟨head, rest, rfl⟩
    have whole : t.globalClientList = [] ++ head :: rest := split
    have named : t.nextClient (some head) mask = if head = c then t.scan (some c) mask else some c := by
      unfold nextClient
      rw [found]
      simp only [Option.bind_some, prev_head split, reduceCtorEq, if_false]
      by_cases same : head = c
      · simp [same]
      · rw [if_neg same, if_pos fun equal => same (Option.some.inj equal).symm]
    by_cases self : t.globalClientList.head? = some c ∧ ircMatch mask (t.client c).name = false
    · -- the loop scans from the client itself, which its own name does not match
      obtain ⟨first, no⟩ := self
      simp only [first, no, and_self, if_true]
      rw [split, List.head?_cons, Option.some.injEq] at first
      subst first
      rw [if_pos rfl] at named
      have scans : t.scan (some head) mask = t.globalClientList.find? fun d => ircMatch mask (t.client d).name := by
        rw [scan, Option.bind_some, chain_eq whole, split]
      cases scanned : t.globalClientList.find? fun d => ircMatch mask (t.client d).name with
      | none =>
        refine ⟨1, ?_⟩
        unfold enumerate
        rw [named, scans, scanned]
      | some x =>
        have other : x ≠ head := by
          rintro rfl
          have yes := List.find?_some scanned
          rw [no] at yes
          cases yes
        have member : x ∈ head :: rest := split ▸ List.mem_of_find?_eq_some scanned
        have follows : ∃ d, t.next head = some d := by
          rw [next_eq whole]
          cases rest with
          | nil => exact absurd (by simpa using member) other
          | cons d rest => exact ⟨d, rfl⟩
        -- the scan comes back to the client that has the mask for a name
        have again : t.nextClient (t.next x) mask = some head := by
          unfold nextClient
          rw [found]
          cases following : t.next x with
          | none => simp
          | some n =>
            have back := prev_of_next following
            have later : head ≠ n := by
              rintro rfl
              rw [prev_head split] at back
              cases back
            simp [back, other, later]
        refine ⟨3, ?_⟩
        unfold enumerate
        rw [named, scans, scanned]
        simp only
        split
        · rfl
        · exact enumerate_of_found stop found (Or.inr follows) 0 again
    · simp only [if_neg self]
      have here : t.nextClient t.globalClientList.head? mask = some c := by
        rw [split, List.head?_cons, named]
        split
        next same =>
          subst same
          have yes : ircMatch mask (t.client head).name = true := by
            rw [split, List.head?_cons] at self
            simpa using self
          rw [scan, Option.bind_some, chain_eq whole]
          exact List.find?_cons_of_pos (by exact yes)
        · rfl
      exact ⟨2, enumerate_of_found stop found (free c found here) 0 here⟩

theorem exists_enumerate (stop : ClientId → Bool) (free : ∀ c, t.findClient mask = some c →
    t.nextClient t.globalClientList.head? mask = some c → stop c = true ∨ ∃ d, t.next c = some d) :
    ∃ fuel, (t.enumerate mask stop fuel t.globalClientList.head?).isSome := by
  obtain ⟨fuel, ended⟩ := exists_enumerate_eq stop free
  exact ⟨fuel, by rw [ended]; rfl⟩

/-- More turns change nothing. -/
theorem enumerate_succ {stop : ClientId → Bool} {fuel : ℕ} {start result : Option ClientId}
    (ended : t.enumerate mask stop fuel start = some result) : t.enumerate mask stop (fuel + 1) start = some result := by
  induction fuel generalizing start with
  | zero => cases ended
  | succ fuel ih =>
    unfold enumerate at ended ⊢
    split at ended
    · exact ended
    next c found =>
    split at ended
    next stops => rw [if_pos stops, ended]
    next goes =>
      rw [if_neg goes]
      exact ih ended

theorem enumerate_unique {stop : ClientId → Bool} {fuel fuel' : ℕ} {start result result' : Option ClientId}
    (ended : t.enumerate mask stop fuel start = some result) (ended' : t.enumerate mask stop fuel' start = some result') :
    result = result' := by
  have later (n m : ℕ) {r : Option ClientId} (ended : t.enumerate mask stop n start = some r) :
      t.enumerate mask stop (n + m) start = some r := by
    induction m with
    | zero => exact ended
    | succ m ih => exact enumerate_succ ih
  have both := (later fuel fuel' ended).symm.trans (Nat.add_comm fuel' fuel ▸ later fuel' fuel ended')
  exact Option.some.inj both

end Table

end Ircd.Routing
