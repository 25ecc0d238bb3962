import Mathlib.Algebra.Ring.Int.Defs
import Mathlib.Algebra.Ring.Nat
import Mathlib.Logic.Function.Basic
import Mathlib.Data.List.Infix

/-!
# Counted bytes

The bytes that are sent and received, by each client and by the server itself: the loop of `send_queued_write` in
`src/send.c` and `client_dopacket` of `src/packet.c`. A `short` takes the bytes below a kilobyte.
-/
namespace Ircd.Traffic

/-- `sendK` and `sendB`, or `receiveK` and `receiveB`. -/
structure Bytes where
  k : UInt32
  b : UInt16
deriving DecidableEq

namespace Bytes

def add (count : Bytes) (n : ℕ) : Bytes := { count with b := count.b + UInt16.ofNat n }

/-- The kilobytes among the bytes are carried. -/
def carry (count : Bytes) : Bytes :=
  if count.b > 1023 then { k := count.k + (count.b >>> 10).toUInt32, b := count.b &&& 0x03ff } else count

/-- What has been counted. -/
def total (count : Bytes) : ℕ := 1024 * count.k.toNat + count.b.toNat

end Bytes

/-- The counters of `struct LocalUser`. -/
structure LocalUser where
  send : Bytes
  receive : Bytes
  receiveM : UInt32
deriving DecidableEq

structure State (ι : Type) where
  me : LocalUser
  client : ι → LocalUser

def start (ι : Type) : State ι where
  me := ⟨⟨0, 0⟩, ⟨0, 0⟩, 0⟩
  client := fun _ => ⟨⟨0, 0⟩, ⟨0, 0⟩, 0⟩

/-- `write` has taken some bytes for a client, or some have been read from it. -/
inductive Transfer (ι : Type) where
  | sent (client : ι) (retlen : ℕ)
  | received (client : ι) (length : ℕ)

variable {ι : Type} [DecidableEq ι]

/-- A round of the loop in `send_queued_write`. -/
def sendQueuedWrite (s : State ι) (client : ι) (retlen : ℕ) : State ι :=
  let user := { s.client client with send := (s.client client).send.add retlen }
  let me := { s.me with send := s.me.send.add retlen }
  if user.send.b > 1023 then
    { s with me := me, client := Function.update s.client client { user with send := user.send.carry } }
  else
    { s with me := { me with send := me.send.carry }, client := Function.update s.client client user }

/-- `client_dopacket`, before the line is parsed. -/
def clientDopacket (s : State ι) (client : ι) (length : ℕ) : State ι :=
  let user := s.client client
  { s with
    me := { s.me with receive := (s.me.receive.add length).carry, receiveM := s.me.receiveM + 1 }
    client := Function.update s.client client
      { user with receive := (user.receive.add length).carry, receiveM := user.receiveM + 1 } }

def step (s : State ι) : Transfer ι → State ι
  | .sent client retlen => sendQueuedWrite s client retlen
  | .received client length => clientDopacket s client length

/-- The state after some transfers, the latest of them first. -/
def run : List (Transfer ι) → State ι
  | [] => start ι
  | e :: past => step (run past) e

/-! ### What should be counted -/

/-- The bytes sent to a client. -/
def sentTo (c : ι) : List (Transfer ι) → ℕ
  | [] => 0
  | .sent client retlen :: past => (if client = c then retlen else 0) + sentTo c past
  | .received _ _ :: past => sentTo c past

/-- The bytes sent. -/
def sent : List (Transfer ι) → ℕ
  | [] => 0
  | .sent _ retlen :: past => retlen + sent past
  | .received _ _ :: past => sent past

/-- The bytes received from a client. -/
def receivedFrom (c : ι) : List (Transfer ι) → ℕ
  | [] => 0
  | .sent _ _ :: past => receivedFrom c past
  | .received client length :: past => (if client = c then length else 0) + receivedFrom c past

/-- The bytes received. -/
def received : List (Transfer ι) → ℕ
  | [] => 0
  | .sent _ _ :: past => received past
  | .received _ length :: past => length + received past

/-- Every pair of counters has counted every byte. -/
structure Exact (s : State ι) (past : List (Transfer ι)) : Prop where
  sent : s.me.send.total = Traffic.sent past
  received : s.me.receive.total = Traffic.received past
  sentTo : ∀ c, (s.client c).send.total = Traffic.sentTo c past
  receivedFrom : ∀ c, (s.client c).receive.total = Traffic.receivedFrom c past

/-- The bytes have room for more before they are carried. -/
def Bytes.Room (count : Bytes) (n : ℕ) : Prop := count.b.toNat + n < 2 ^ 16

/-- No `unsigned short` wraps in a transfer. -/
def State.Room (s : State ι) : Transfer ι → Prop
  | .sent client retlen => (s.client client).send.Room retlen ∧ s.me.send.Room retlen
  | .received client length => (s.client client).receive.Room length ∧ s.me.receive.Room length

/-- All is counted after any of the transfers, and no `unsigned short` has wrapped. -/
structure Counted (log : List (Transfer ι)) : Prop where
  exact : ∀ past, past <:+ log → Exact (run past) past
  room : ∀ past e, e :: past <:+ log → (run past).Room e

/-! ### What may be transferred -/

/-- A write takes its client past a full kilobyte. -/
def Crosses (past : List (Transfer ι)) (client : ι) (retlen : ℕ) : Prop :=
  1024 ≤ sentTo client past % 1024 + retlen

instance (past : List (Transfer ι)) (client : ι) (retlen : ℕ) : Decidable (Crosses past client retlen) :=
  inferInstanceAs (Decidable (_ ≤ _))

/-- The bytes sent that wait for the server to carry them. They are all carried when a write does not take its client
past a kilobyte. -/
def pending : List (Transfer ι) → ℕ
  | [] => 0
  | .sent client retlen :: past =>
    if Crosses past client retlen then pending past + retlen else sent (.sent client retlen :: past) % 1024
  | .received _ _ :: past => pending past

/-- Of `total` bytes the last `waiting` are not carried yet. There is room beside them for `n` more, and for all of it in
both counters. -/
def Fits (waiting total n : ℕ) : Prop := waiting + n < 2 ^ 16 ∧ total + n < 2 ^ 42

/-- What may be transferred next. -/
def May (past : List (Transfer ι)) : Transfer ι → Prop
  | .sent client retlen =>
    Fits (sentTo client past % 1024) (sentTo client past) retlen ∧ pending past + retlen < 2 ^ 16 ∧
      (¬Crosses past client retlen → sent past + retlen < 2 ^ 42)
  | .received client length =>
    Fits (receivedFrom client past % 1024) (receivedFrom client past) length ∧
      Fits (received past % 1024) (received past) length

/-! ### One pair of counters -/

namespace Bytes

variable {count : Bytes} {n : ℕ}

theorem add_b (count : Bytes) (n : ℕ) : (count.add n).b.toNat = (count.b.toNat + n) % 2 ^ 16 := by
  rw [add, UInt16.toNat_add, UInt16.toNat_ofNat', Nat.add_mod_mod]

theorem carry_b : count.carry.b.toNat = count.b.toNat % 1024 := by
  unfold carry
  split
  · rw [UInt16.toNat_and]
    exact Nat.and_two_pow_sub_one_eq_mod _ 10
  · next small =>
    have small' : count.b.toNat ≤ 1023 := UInt16.le_iff_toNat_le.mp (UInt16.not_lt.mp small)
    exact (Nat.mod_eq_of_lt (Nat.lt_succ_of_le small')).symm

theorem carry_k : count.carry.k.toNat = (count.k.toNat + count.b.toNat / 1024) % 2 ^ 32 := by
  unfold carry
  split
  · rw [UInt32.toNat_add, UInt16.toNat_toUInt32, UInt16.toNat_shiftRight, Nat.shiftRight_eq_div_pow]
    rfl
  · next small =>
    have small' : count.b.toNat ≤ 1023 := UInt16.le_iff_toNat_le.mp (UInt16.not_lt.mp small)
    have below := count.k.toNat_lt
    omega

/-- Bytes are counted if they have room. -/
theorem total_add : (count.add n).total = count.total + n ↔ count.Room n := by
  have bytes := add_b count n
  have below := count.b.toNat_lt
  unfold total Room
  rw [bytes, add]
  dsimp only
  omega

/-- Bytes that are carried are counted if they have room, and the kilobytes too. -/
theorem total_carry : (count.add n).carry.total = count.total + n ↔ count.Room n ∧ count.total + n < 2 ^ 42 := by
  have below := count.b.toNat_lt
  have below' := count.k.toNat_lt
  have same : (count.add n).k = count.k := rfl
  unfold total Room
  rw [carry_b, carry_k, add_b, same]
  omega

end Bytes

/-! ### One transfer -/

section Transfers

variable {s : State ι} {past : List (Transfer ι)}

/-- What is counted for a client is carried in either branch. -/
theorem sendQueuedWrite_client (c : ι) (n : ℕ) : (sendQueuedWrite s c n).client =
    Function.update s.client c { s.client c with send := ((s.client c).send.add n).carry } := by
  unfold sendQueuedWrite
  dsimp only
  split
  · rfl
  · next small =>
    have whole : ((s.client c).send.add n).carry = (s.client c).send.add n := if_neg small
    rw [whole]

theorem sendQueuedWrite_me (c : ι) (n : ℕ) : (sendQueuedWrite s c n).me = { s.me with
    send := if ((s.client c).send.add n).b > 1023 then s.me.send.add n else (s.me.send.add n).carry } := by
  unfold sendQueuedWrite
  dsimp only
  split <;> rfl

theorem clientDopacket_client (c : ι) (n : ℕ) : (clientDopacket s c n).client = Function.update s.client c
    { s.client c with
      receive := ((s.client c).receive.add n).carry
      receiveM := (s.client c).receiveM + 1 } := rfl

theorem clientDopacket_me (c : ι) (n : ℕ) : (clientDopacket s c n).me =
    { s.me with receive := (s.me.receive.add n).carry, receiveM := s.me.receiveM + 1 } := rfl

section

variable {client : ι → LocalUser} {count : LocalUser → Bytes} {told : ι → ℕ}

/-- If all clients have been counted, they are counted on exactly if one of them is. -/
theorem told_update (exact : ∀ c, (count (client c)).total = told c) (c : ι) (user : LocalUser) (n : ℕ) :
    (∀ c', (count (Function.update client c user c')).total = (if c = c' then n else 0) + told c') ↔
      (count user).total = (count (client c)).total + n := by
  constructor
  · intro all
    have here := all c
    rw [Function.update_self, if_pos rfl, ← exact, Nat.add_comm] at here
    exact here
  · intro here c'
    by_cases same : c = c'
    · subst same
      rw [Function.update_self, if_pos rfl, here, exact, Nat.add_comm]
    · rw [Function.update_of_ne (Ne.symm same), if_neg same, exact, Nat.zero_add]

/-- The other counters of a client are as they were. -/
theorem told_frame (exact : ∀ c, (count (client c)).total = told c) {c : ι} {user : LocalUser}
    (same : count user = count (client c)) (c' : ι) :
    (count (Function.update client c user c')).total = told c' := by
  by_cases here : c' = c
  · subst here
    rw [Function.update_self, same, exact]
  · rw [Function.update_of_ne here, exact]

end

theorem exact_sent_iff (exact : Exact s past) (c : ι) (n : ℕ) :
    Exact (sendQueuedWrite s c n) (.sent c n :: past) ↔
      ((s.client c).send.add n).carry.total = (s.client c).send.total + n ∧
        (sendQueuedWrite s c n).me.send.total = s.me.send.total + n := by
  have clients := sendQueuedWrite_client (s := s) c n
  have others := told_update exact.sentTo c { s.client c with send := ((s.client c).send.add n).carry } n
  constructor
  · intro exact'
    have mine := exact'.sent
    rw [Traffic.sent, ← exact.sent, Nat.add_comm] at mine
    have all := exact'.sentTo
    rw [clients] at all
    exact ⟨others.mp all, mine⟩
  · rintro ⟨here, mine⟩
    constructor
    · rw [mine, exact.sent, Traffic.sent, Nat.add_comm]
    · rw [sendQueuedWrite_me]
      exact exact.received
    · rw [clients]
      exact others.mpr here
    · rw [clients]
      exact told_frame exact.receivedFrom rfl

theorem exact_received_iff (exact : Exact s past) (c : ι) (n : ℕ) :
    Exact (clientDopacket s c n) (.received c n :: past) ↔
      ((s.client c).receive.add n).carry.total = (s.client c).receive.total + n ∧
        (s.me.receive.add n).carry.total = s.me.receive.total + n := by
  have clients := clientDopacket_client (s := s) c n
  have others := told_update exact.receivedFrom c
    { s.client c with receive := ((s.client c).receive.add n).carry, receiveM := (s.client c).receiveM + 1 } n
  constructor
  · intro exact'
    have mine := exact'.received
    rw [clientDopacket_me, Traffic.received, ← exact.received, Nat.add_comm] at mine
    have all := exact'.receivedFrom
    rw [clients] at all
    exact ⟨others.mp all, mine⟩
  · rintro ⟨here, mine⟩
    constructor
    · exact exact.sent
    · rw [clientDopacket_me, Traffic.received, ← exact.received, Nat.add_comm]
      exact mine
    · rw [clients]
      exact told_frame exact.sentTo rfl
    · rw [clients]
      exact others.mpr here

/-- All is counted, and what waits to be carried is known. -/
structure Sound (s : State ι) (past : List (Transfer ι)) : Prop extends Exact s past where
  clientSend : ∀ c, (s.client c).send.b.toNat < 1024
  clientReceive : ∀ c, (s.client c).receive.b.toNat < 1024
  meReceive : s.me.receive.b.toNat < 1024
  waiting : s.me.send.b.toNat = pending past

theorem start_sound : Sound (start ι) [] := by
  constructor
  case toExact => exact ⟨rfl, rfl, fun _ => rfl, fun _ => rfl⟩
  all_goals simp [start, pending]

omit [DecidableEq ι] in
theorem Bytes.rest_eq {count : Bytes} {total : ℕ} (exact : count.total = total) (small : count.b.toNat < 1024) :
    count.b.toNat = total % 1024 := by
  rw [← exact, Bytes.total]
  omega

/-- The client's own bytes tell whether the write crosses. -/
theorem Sound.crosses_iff (sound : Sound s past) {c : ι} {n : ℕ} (room : (s.client c).send.Room n) :
    ((s.client c).send.add n).b > 1023 ↔ Crosses past c n := by
  have rest := Bytes.rest_eq (sound.sentTo c) (sound.clientSend c)
  have bytes := Bytes.add_b (s.client c).send n
  rw [Nat.mod_eq_of_lt room] at bytes
  rw [gt_iff_lt, UInt16.lt_iff_toNat_lt, bytes, rest, Crosses]
  exact Nat.lt_iff_add_one_le

/-- What may be transferred is what is counted. -/
theorem Sound.exact_iff (sound : Sound s past) (e : Transfer ι) : Exact (step s e) (e :: past) ↔ May past e := by
  cases e with
  | sent c n =>
    have rest := Bytes.rest_eq (sound.sentTo c) (sound.clientSend c)
    have here : ((s.client c).send.add n).carry.total = (s.client c).send.total + n ↔
        Fits (sentTo c past % 1024) (sentTo c past) n := by
      rw [Bytes.total_carry, Bytes.Room, rest, sound.sentTo, Fits]
    rw [step, exact_sent_iff sound.toExact, May, here, sendQueuedWrite_me]
    -- the rest is about the server, where the client's bytes have room
    apply and_congr_right
    intro fits
    have crosses := sound.crosses_iff (c := c) (n := n) (by rw [Bytes.Room, rest]; exact fits.1)
    by_cases crossing : Crosses past c n
    · rw [if_pos (crosses.mpr crossing), Bytes.total_add, Bytes.Room, sound.waiting]
      exact (and_iff_left (absurd crossing)).symm
    · rw [if_neg (fun more => crossing (crosses.mp more)), Bytes.total_carry, Bytes.Room, sound.waiting, sound.sent]
      exact and_congr_right fun _ => ⟨fun below _ => below, fun below => below crossing⟩
  | received c n =>
    have rest := Bytes.rest_eq (sound.receivedFrom c) (sound.clientReceive c)
    have mine := Bytes.rest_eq sound.received sound.meReceive
    rw [step, exact_received_iff sound.toExact, May, Bytes.total_carry, Bytes.total_carry, Bytes.Room, Bytes.Room,
      rest, mine, sound.receivedFrom, sound.received, Fits, Fits]

theorem Sound.room (sound : Sound s past) {e : Transfer ι} (may : May past e) : s.Room e := by
  cases e with
  | sent c n =>
    have rest := Bytes.rest_eq (sound.sentTo c) (sound.clientSend c)
    rw [State.Room, Bytes.Room, Bytes.Room, rest, sound.waiting]
    exact ⟨may.1.1, may.2.1⟩
  | received c n =>
    have rest := Bytes.rest_eq (sound.receivedFrom c) (sound.clientReceive c)
    have mine := Bytes.rest_eq sound.received sound.meReceive
    rw [State.Room, Bytes.Room, Bytes.Room, rest, mine]
    exact ⟨may.1.1, may.2.1⟩

omit [DecidableEq ι] in
theorem Bytes.carry_small {count : Bytes} : count.carry.b.toNat < 1024 := by
  rw [Bytes.carry_b]
  exact Nat.mod_lt _ (by decide)

theorem Sound.step (sound : Sound s past) {e : Transfer ι} (may : May past e) : Sound (step s e) (e :: past) := by
  have exact := (sound.exact_iff e).mpr may
  have room := sound.room may
  cases e with
  | sent c n =>
    refine ⟨exact, ?_, ?_, ?_, ?_⟩
    · rw [Traffic.step, sendQueuedWrite_client,
        Function.forall_update_iff s.client fun _ user => user.send.b.toNat < 1024]
      exact ⟨Bytes.carry_small, fun c' _ => sound.clientSend c'⟩
    · rw [Traffic.step, sendQueuedWrite_client,
        Function.forall_update_iff s.client fun _ user => user.receive.b.toNat < 1024]
      exact ⟨sound.clientReceive c, fun c' _ => sound.clientReceive c'⟩
    · rw [Traffic.step, sendQueuedWrite_me]
      exact sound.meReceive
    · have all := exact.sent
      rw [Traffic.step, sendQueuedWrite_me] at all ⊢
      rw [pending]
      by_cases crossing : Crosses past c n
      · -- the server's bytes are left as they are
        rw [if_pos ((sound.crosses_iff room.1).mpr crossing), if_pos crossing, Bytes.add_b, Nat.mod_eq_of_lt room.2,
          sound.waiting]
      · have small : ¬((s.client c).send.add n).b > 1023 := fun more =>
          crossing ((sound.crosses_iff room.1).mp more)
        rw [if_neg small] at all ⊢
        rw [if_neg crossing]
        exact Bytes.rest_eq all Bytes.carry_small
  | received c n =>
    refine ⟨exact, ?_, ?_, ?_, ?_⟩
    · rw [Traffic.step, clientDopacket_client,
        Function.forall_update_iff s.client fun _ user => user.send.b.toNat < 1024]
      exact ⟨sound.clientSend c, fun c' _ => sound.clientSend c'⟩
    · rw [Traffic.step, clientDopacket_client,
        Function.forall_update_iff s.client fun _ user => user.receive.b.toNat < 1024]
      exact ⟨Bytes.carry_small, fun c' _ => sound.clientReceive c'⟩
    · exact Bytes.carry_small
    · exact sound.waiting

end Transfers

/-! ### All transfers -/

theorem sound_of_may {log : List (Transfer ι)} (may : ∀ past e, e :: past <:+ log → May past e) :
    Sound (run log) log := by
  induction log with
  | nil => exact start_sound
  | cons e past ih =>
    have before := ih fun earlier e' here => may earlier e' (here.trans (List.suffix_cons e past))
    exact before.step (may past e List.suffix_rfl)

theorem sound_of_exact {log : List (Transfer ι)} (exact : ∀ past, past <:+ log → Exact (run past) past) :
    Sound (run log) log := by
  induction log with
  | nil => exact start_sound
  | cons e past ih =>
    have before := ih fun earlier here => exact earlier (here.trans (List.suffix_cons e past))
    exact before.step ((before.exact_iff e).mp (exact _ List.suffix_rfl))

/-- All bytes are counted at every point exactly if the kilobyte counters have room, and no writes that each take their
client past a kilobyte follow one another until they fill the `short` of the server. -/
theorem transfers_counted_iff (log : List (Transfer ι)) :
    Counted log ↔ ∀ past e, e :: past <:+ log → May past e := by
  constructor
  · intro counted past e here
    have before : Sound (run past) past := by
      apply sound_of_exact
      intro earlier there
      exact counted.exact earlier (there.trans ((List.suffix_cons e past).trans here))
    exact (before.exact_iff e).mp (counted.exact _ here)
  · intro may
    have sound : ∀ past, past <:+ log → Sound (run past) past := fun past here =>
      sound_of_may fun earlier e there => may earlier e (there.trans here)
    constructor
    · exact fun past here => (sound past here).toExact
    · intro past e here
      exact (sound past ((List.suffix_cons e past).trans here)).room (may past e here)

/-- Two writes for each of 128 clients, and then one more for each. -/
def crowd : List (Transfer ℕ) :=
  (List.range 128).map (.sent · 512) ++ (List.range 128).flatMap fun c => [.sent c 511, .sent c 512]

/-- Every write of the last 128 takes its client past a kilobyte, and 64 kilobytes are lost. -/
theorem crowd_not_counted : ¬Counted crowd := by
  intro counted
  have all := (counted.exact crowd List.suffix_rfl).sent
  revert all
  decide +kernel

end Ircd.Traffic
