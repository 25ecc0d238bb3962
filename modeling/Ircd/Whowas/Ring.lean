import Ircd.Lib.DoublyLinked
import Ircd.Channel.State

/-!
# The history of nicks

`whowas.c`: a ring of slots, each of them in a chain of `WHOWASHASH` and, while its client is online, in the list
of that client.
-/
namespace Ircd.Whowas

open Chan (ClientId nickLen)

def nicknameHistoryLength : ℕ := 15000

/-- What `add_history` reads of a client. -/
structure Client where
  id : ClientId
  name : List Char
  username : List Char
  host : List Char
  info : List Char
  server : List Char
  deriving DecidableEq

/-- `struct Whowas` without its links. `hashv` is `none` for -1. -/
structure Slot where
  hashv : Option ℕ
  name : List Char
  username : List Char
  hostname : List Char
  servername : List Char
  realname : List Char
  logoff : ℤ
  online : Option ClientId
  deriving DecidableEq

/-- `WHOWAS`, `WHOWASHASH` with the links `next` and `prev`, and the lists `client_p->whowas` with the links `cnext`
and `cprev`. -/
structure State where
  slots : ℕ → Slot
  hash : LinkTable ℕ ℕ
  clists : LinkTable ℕ ClientId
  whowasNext : ℕ
  currentTime : ℤ

/-- `initwhowas`. -/
def State.start (now : ℤ) : State where
  slots := fun _ => ⟨none, [], [], [], [], [], 0, none⟩
  hash := ⟨fun _ => none, fun _ => none, fun _ => none⟩
  clists := ⟨fun _ => none, fun _ => none, fun _ => none⟩
  whowasNext := 0
  currentTime := now

/-- `hash_whowas_name`, in 32 bits: `h * 16 - (h + c)`. -/
def hashWhowasName (name : List Char) : ℕ :=
  name.foldl (fun h c => (15 * h + (2 ^ 32 - (toLower c).toNat)) % 2 ^ 32) 0 % 65536

/-- What is written into a slot. The name is cut to the size of the slot's. -/
def Client.slot (c : Client) (logoff : ℤ) (online : Option ClientId) : Slot where
  hashv := some (hashWhowasName c.name)
  name := c.name.take nickLen
  username := c.username
  hostname := c.host
  servername := c.server
  realname := c.info
  logoff := logoff
  online := online

/-- A slot that is used is taken out of the lists it is in. -/
def State.release (s : State) (who : ℕ) : State :=
  match (s.slots who).hashv with
  | none => s
  | some hashv =>
    { s with
      clists :=
        match (s.slots who).online with
        | some c => s.clists.unlink c who
        | none => s.clists
      hash := s.hash.unlink hashv who }

/-- The next slot is filled and linked in. -/
def State.record (s : State) (c : Client) (online : Bool) : State where
  slots := Function.update s.slots s.whowasNext (c.slot s.currentTime (if online then some c.id else none))
  clists := if online then s.clists.push c.id s.whowasNext else s.clists
  hash := s.hash.push (hashWhowasName c.name) s.whowasNext
  whowasNext := if s.whowasNext + 1 = nicknameHistoryLength then 0 else s.whowasNext + 1
  currentTime := s.currentTime

def State.addHistory (s : State) (c : Client) (online : Bool) : State :=
  (s.release s.whowasNext).record c online

/-- The loop of `off_history`. A list has no more entries than there are slots. -/
def offFrom (c : ClientId) : ℕ → Option ℕ → State → State
  | 0, _, s => s
  | _ + 1, none, s => s
  | n + 1, some temp, s =>
    offFrom c n (s.clists.next temp)
      { s with
        slots := Function.update s.slots temp { s.slots temp with online := none }
        clists := s.clists.unlink c temp }

def State.offHistory (s : State) (c : ClientId) : State :=
  offFrom c nicknameHistoryLength (s.clists.heads c) s

/-- The slot that the loop of `get_history` stops at. -/
def State.recentSlot (s : State) (nick : List Char) (timelimit : ℤ) : Option ℕ :=
  (findFrom s.hash.next
    (fun temp => decide (IrcEq nick (s.slots temp).name ∧ ¬(s.slots temp).logoff < s.currentTime - timelimit))
    nicknameHistoryLength (s.hash.heads (hashWhowasName nick))).join

def State.getHistory (s : State) (nick : List Char) (timelimit : ℤ) : Option ClientId :=
  (s.recentSlot nick timelimit).bind fun temp => (s.slots temp).online

/-- The slots in a chain of `WHOWASHASH`. -/
def State.chain (s : State) (hashv : ℕ) : List ℕ :=
  follow s.hash.next nicknameHistoryLength (s.hash.heads hashv)

/-- The slots in the list of a client. -/
def State.clist (s : State) (c : ClientId) : List ℕ :=
  follow s.clists.next nicknameHistoryLength (s.clists.heads c)

inductive Op where
  | add (c : Client) (online : Bool)
  | off (c : ClientId)
  | clock (now : ℤ)

def State.step (s : State) : Op → State
  | .add c online => s.addHistory c online
  | .off c => s.offHistory c
  | .clock now => { s with currentTime := now }

def State.run (now : ℤ) (ops : List Op) : State := ops.foldl State.step (State.start now)

/-! ### What was recorded -/

/-- A call of `add_history`. `stays` says that `off_history` has not been called for the client since. -/
structure Record where
  client : Client
  logoff : ℤ
  online : Bool
  stays : Bool

/-- The client for which a slot was recorded, while it is online. -/
def Record.live (r : Record) : Option ClientId := if r.online && r.stays then some r.client.id else none

def Record.left (c : ClientId) (r : Record) : Record := if r.client.id = c then { r with stays := false } else r

/-- All records up to now, the newest first, and the clock. -/
structure Past where
  records : List Record
  currentTime : ℤ

def Past.step (h : Past) : Op → Past
  | .add c online => { h with records := ⟨c, h.currentTime, online, true⟩ :: h.records }
  | .off c => { h with records := h.records.map (Record.left c) }
  | .clock now => { h with currentTime := now }

def Past.run (now : ℤ) (ops : List Op) : Past := ops.foldl Past.step ⟨[], now⟩

/-- The slots of the ring with their records, the newest first: a record takes the slot next to that of the record
before it. -/
def ring : List Record → List (ℕ × Record)
  | [] => []
  | r :: records =>
    (records.length % nicknameHistoryLength, r) ::
      (ring records).filter (fun entry => entry.1 ≠ records.length % nicknameHistoryLength)

theorem ring_nodup (records : List Record) : ((ring records).map Prod.fst).Nodup := by
  induction records with
  | nil => simp [ring]
  | cons r records ih =>
    rw [ring, List.map_cons, List.nodup_cons]
    constructor
    · simp
    · exact ih.sublist (List.filter_sublist.map _)

/-- The slots, by their numbers. -/
theorem ring_slots (records : List Record) :
    (ring records).map Prod.snd = records.take nicknameHistoryLength ∧
      ∀ j (inside : j < (ring records).length),
        (ring records)[j].1 = (records.length - 1 - j) % nicknameHistoryLength := by
  induction records with
  | nil => simp [ring]
  | cons r records ih =>
    obtain ⟨taken, numbers⟩ := ih
    have long : (ring records).length = min nicknameHistoryLength records.length := by
      rw [← List.length_map Prod.snd, taken, List.length_take]
    -- only the record that is `nicknameHistoryLength` records old loses its slot
    have kept : (ring records).filter (fun entry => entry.1 ≠ records.length % nicknameHistoryLength) =
        (ring records).take (nicknameHistoryLength - 1) := by
      conv_lhs => rw [← List.take_append_drop (nicknameHistoryLength - 1) (ring records)]
      rw [List.filter_append, List.filter_eq_self.mpr, List.filter_eq_nil_iff.mpr, List.append_nil]
      · intro entry member
        obtain ⟨j, inside, rfl⟩ := List.getElem_of_mem member
        have bound := inside
        rw [List.length_drop] at bound
        rw [List.getElem_drop, numbers]
        have same : (records.length - 1 - (nicknameHistoryLength - 1 + j)) % nicknameHistoryLength =
            records.length % nicknameHistoryLength := by
          simp only [nicknameHistoryLength] at long bound ⊢
          omega
        simp [same]
      · intro entry member
        obtain ⟨j, inside, rfl⟩ := List.getElem_of_mem member
        have bound := inside
        rw [List.length_take] at bound
        rw [List.getElem_take, numbers]
        have other : (records.length - 1 - j) % nicknameHistoryLength ≠ records.length % nicknameHistoryLength := by
          simp only [nicknameHistoryLength] at long bound ⊢
          omega
        simp [other]
    rw [ring, kept]
    constructor
    · rw [List.map_cons, List.map_take, taken, List.take_take]
      simp [nicknameHistoryLength]
    · intro j inside
      cases j with
      | zero => simp
      | succ j =>
        simp only [List.getElem_cons_succ, List.getElem_take, numbers, List.length_cons]
        congr 1
        omega

end Ircd.Whowas
