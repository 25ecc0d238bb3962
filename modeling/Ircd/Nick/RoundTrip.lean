import Ircd.Nick.Collide
import Ircd.Wire

/-!
# The round trip of an introduction

The line that introduces a client is taken apart by `parse`, and what `tsm_nick` or `tsm_client`
makes of it has the data of the client.
-/
namespace Ircd.Nick

open Chan (ClientId Status param)

/-! ### The text of an introduction -/

/-- The command as it stands in a line. -/
def Command.text : Command → List Char
  | .nick => "NICK".toList
  | .client => "CLIENT".toList
  | .mode => "MODE".toList
  | .kill => "KILL".toList
  | .quit => "QUIT".toList

def idLen : ℕ := 12

/-- A registered client with text and numbers that a line can carry. -/
structure Presentable (s : State) (target server : ClientId) : Prop where
  registered : (s.client target).status = .client
  user : (s.client target).user.isSome = true
  uplink : (s.client target).servptr = some server
  nick : GoodNick (s.client target).name
  username : IsParam (s.client target).username
  host : IsParam (s.client target).host
  server : IsParam (s.client server).name
  id : (s.client target).id ≠ [] → IsParam (s.client target).id
  idFits : (s.client target).id.length ≤ idLen
  hops : -2 ^ 31 ≤ (s.client target).hopcount + 1 ∧ (s.client target).hopcount + 1 < 2 ^ 31
  time : 0 ≤ (s.client target).tsinfo ∧ (s.client target).tsinfo < 10 ^ 10
  info : ∀ c ∈ (s.client target).info, c ≠ '\r' ∧ c ≠ '\n' ∧ c ≠ '\x00'

variable {s t : State} {link target server : ClientId} {umodes : List Char}

theorem GoodNick.isParam {nick : List Char} (good : GoodNick nick) : IsParam nick := by
  have all := List.all_eq_true.mp (Bool.and_eq_true_iff.mp good.clean).2
  refine ⟨good.nonempty, fun space => absurd (all ' ' space) (by decide), fun colon => ?_⟩
  exact absurd (all ':' (List.mem_of_head? colon)) (by decide)

theorem id_of_hasId {client : Client} (hasId : client.hasId = true) : client.id ≠ [] := by
  have some := (Bool.and_eq_true_iff.mp hasId).2
  rw [Client.id]
  cases given : client.user with
  | none =>
    rw [given] at some
    cases some
  | some id =>
    rw [given] at some
    simpa using some

/-- The parameters before the real name, the modes apart, are as `parse` wants them. -/
theorem Presentable.isParam (presentable : Presentable s target server) {withId : Bool}
    (id : withId = true → (s.client target).hasId = true) :
    ∀ p ∈ (s.client target).introParams (s.client server).name umodes withId,
      p = umodes ∨ IsParam p := by
  intro p member
  have time : ((s.client target).tsinfo % 2 ^ 64).toNat < 10 ^ 10 := by
    obtain ⟨nonneg, small⟩ := presentable.time
    omega
  rw [Client.introParams] at member
  rcases List.mem_append.mp member with first | last
  · simp only [List.mem_cons, List.not_mem_nil, or_false] at first
    rcases first with rfl | rfl | rfl | rfl | rfl | rfl | rfl
    · exact Or.inr presentable.nick.isParam
    · exact Or.inr (isParam_printD _)
    · exact Or.inr (isParam_of_allDigits (allDigits_printLu time))
    · exact Or.inl rfl
    · exact Or.inr presentable.username
    · exact Or.inr presentable.host
    · exact Or.inr presentable.server
  · split at last
    next given =>
      obtain rfl := List.mem_singleton.mp last
      exact Or.inr (presentable.id (id_of_hasId (id given)))
    · cases last

/-- A client as it should be where it has been introduced: the one it is at home, behind a server
that is known. There is an id only where it has been sent. -/
structure Introduced (home there : Client) (srv : ClientId) (withId : Bool) (now : ℤ) : Prop where
  name : there.name = home.name
  tsinfo : there.tsinfo = if withId = true ∨ home.tsinfo ≠ 0 then home.tsinfo else now
  username : there.username = home.username
  host : there.host = home.host
  info : there.info = home.info
  id : there.user = some (if withId then home.id else [])
  uplink : there.servptr = some srv
  umodes : there.umodes = home.umodes ∩ sendUmodes
  registered : there.status = .client

end Ircd.Nick
