import Ircd.Nick.Ids

/-!
# Counters

The counters `Count` beside the state of the nick code. A client is counted where it is registered,
its modes where they are read, and it is counted out where it leaves the list.
-/
namespace Ircd.Nick

open Chan (ClientId Status param)

/-! ### Counters -/

/-- `struct Counter`, of clients and servers anywhere. -/
structure Counts where
  server : ℤ
  total : ℤ
  maxTot : ℤ
  oper : ℤ
  invisi : ℤ
deriving DecidableEq

/-- `++Count.total`, with the maximum. -/
def Counts.enter (count : Counts) : Counts :=
  let total := count.total + 1
  { count with total := total, maxTot := if count.maxTot < total then total else count.maxTot }

/-- `update_client_exit_stats`, without the check for a split. -/
def Counts.exit (count : Counts) (client : Client) : Counts :=
  if client.status = .server then { count with server := count.server - 1 }
  else if client.status = .client then
    { count with
      total := count.total - 1
      oper := if .oper ∈ client.umodes then count.oper - 1 else count.oper
      invisi := if .invisible ∈ client.umodes then count.invisi - 1 else count.invisi }
  else count

/-- A mode of a new client is counted. -/
def Counts.mode (count : Counts) (flag : Umode) : Counts :=
  { count with
    oper := if flag = .oper then count.oper + 1 else count.oper
    invisi := if flag = .invisible then count.invisi + 1 else count.invisi }

/-- The modes of `NICK`: a letter counts if the client has not had the mode before. -/
def Counts.nickModes (count : Counts) (umodes : Finset Umode) : List Char → Counts
  | [] => count
  | letter :: text =>
    match umodeOfLetter letter with
    | none => count.nickModes umodes text
    | some flag =>
      let counted := if flag ∈ umodes then count else count.mode flag
      counted.nickModes (umodes ∪ ({flag} ∩ sendUmodes)) text

/-- The modes of `CLIENT`: every letter counts. -/
def Counts.clientModes (count : Counts) : List Char → Counts
  | [] => count
  | letter :: text =>
    match umodeOfLetter letter with
    | none => count.clientModes text
    | some flag => (count.mode flag).clientModes text

theorem Counts.total_nickModes (count : Counts) (umodes : Finset Umode) (text : List Char) :
    (count.nickModes umodes text).total = count.total := by
  induction text generalizing count umodes with
  | nil => rfl
  | cons letter text ih =>
    unfold Counts.nickModes
    split
    · exact ih count umodes
    · rw [ih]
      split
      · rfl
      · rfl

theorem Counts.total_clientModes (count : Counts) (text : List Char) :
    (count.clientModes text).total = count.total := by
  induction text generalizing count with
  | nil => rfl
  | cons letter text ih =>
    unfold Counts.clientModes
    split
    · exact ih count
    · exact ih (count.mode _)

/-! ### The server with its counters -/

structure Tally where
  state : State
  count : Counts

/-- `exit_one_client`. Whoever leaves the list is counted. -/
def Tally.exitOneClient (c : Tally) (clientP : Option ClientId) (who : ClientId) : Option Tally :=
  (c.state.exitOneClient clientP who).map fun s => ⟨s, c.count.exit (c.state.client who)⟩

/-- One round of `recurse_remove_clients`. -/
def Tally.exitDependent (c : Tally) (who : ClientId) : Option Tally :=
  Tally.exitOneClient
    { c with state := c.state.setClient who { c.state.client who with killed := true } } none who

/-- `exit_client`. -/
def Tally.exitClient (c : Tally) (clientP : Option ClientId) (who : ClientId) : Option Tally :=
  if (c.state.client who).dead then some c
  else
    let closed := { c with state := c.state.closing who }
    if (c.state.client who).status = .server then
      ((closed.state.dependents closed.state.nextClient who).foldlM Tally.exitDependent closed).bind
        fun c => c.exitOneClient clientP who
    else closed.exitOneClient clientP who

/-- `FLAGS_KILLED` and `exit_client`. -/
def Tally.exitKilled (c : Tally) (clientP : Option ClientId) (who : ClientId) : Option Tally :=
  Tally.exitClient
    { c with state := c.state.setClient who { c.state.client who with killed := true } } clientP who

/-- `register_remote_user`. The client is counted before its server is looked at. -/
def Tally.registerRemoteUser (c : Tally) (clientP source : ClientId) (username : List Char) :
    Option Tally :=
  let s := c.state.setClient source ((c.state.client source).setUsername username)
  let count := c.count.enter
  match (s.client source).servptr with
  | none => none
  | some server =>
    if (s.client server).status ≠ .server then
      Tally.exitKilled ⟨s.killClient clientP source, count⟩ none source
    else if (s.client server).source ≠ clientP then
      Tally.exitKilled ⟨s.killClient clientP source, count⟩ (some source) source
    else if (s.client clientP).dead then some ⟨s, count⟩
    else ((s.setClient source { s.client source with status := .client }).introduceClientGlobally
      clientP source).map fun s => ⟨s, count⟩

/-- `do_remote_user`. -/
def Tally.doRemoteUser (c : Tally) (clientP source : ClientId)
    (username host server realname : List Char) (id : Option (List Char)) : Option Tally :=
  let s := c.state.setClient source ((c.state.client source).introduced host realname id)
  (s.findClient server).bind fun servptr =>
    Tally.registerRemoteUser
      ⟨s.setClient source { s.client source with servptr := servptr }, c.count⟩ clientP source username

/-- What `tsm_nick` and `tsm_client` pass on for a new client. -/
inductive Introduction where
  | nick (parv : List (List Char)) (newts : ℤ) (nick : List Char) (long : 8 < parv.length)
  | client (parv : List (List Char)) (newts : ℤ) (nick : List Char)

def Introduction.parv : Introduction → List (List Char)
  | .nick parv _ _ _ => parv
  | .client parv _ _ => parv

def Introduction.realname : Introduction → List Char
  | .nick parv _ _ _ => param parv 8
  | .client parv _ _ => param parv 9

def Introduction.id : Introduction → Option (List Char)
  | .nick _ _ _ _ => none
  | .client parv _ _ => some (param parv 8)

/-- A new client is put into the tables, in `nick_from_server` and in `client_from_server`. -/
def State.present (s : State) (link : ClientId) : Introduction → State
  | .nick parv newts nick _ =>
    let t := s.newClient (Client.ofNick link parv newts s.currentTime) nick
    t.setClient s.nextClient { t.client s.nextClient with umodes := umodesOf (param parv 4) }
  | .client parv newts nick =>
    (s.newClient (Client.ofClient link parv newts) nick).addToIdHashTable (param parv 8) s.nextClient

/-- Its modes are counted there. -/
def Counts.modes (count : Counts) : Introduction → Counts
  | .nick parv _ _ _ => count.nickModes ∅ ((param parv 4).drop 1)
  | .client parv _ _ => count.clientModes ((param parv 4).drop 1)

/-- `nick_from_server` for a new client, and `client_from_server`. -/
def Tally.introduce (c : Tally) (link : ClientId) (i : Introduction) : Option Tally :=
  Tally.doRemoteUser ⟨c.state.present link i, c.count.modes i⟩ link c.state.nextClient
    (param i.parv 5) (param i.parv 6) (param i.parv 7) i.realname i.id

/-! ### The state without the counters -/

theorem foldlM_map {α β γ : Type} (g : β → γ) {f : β → α → Option β} {f' : γ → α → Option γ}
    (step : ∀ b a, (f b a).map g = f' (g b) a) (l : List α) (b : β) :
    (l.foldlM f b).map g = l.foldlM f' (g b) := by
  induction l generalizing b with
  | nil => rfl
  | cons a l ih =>
    rw [List.foldlM_cons, List.foldlM_cons, ← step, Option.bind_eq_bind, Option.bind_eq_bind,
      Option.map_bind, Option.bind_map]
    exact congrArg _ (funext ih)

section

variable (c : Tally) (one : Option ClientId) (who link : ClientId)

theorem Tally.state_exitOneClient :
    (c.exitOneClient one who).map Tally.state = c.state.exitOneClient one who := by
  rw [Tally.exitOneClient, Option.map_map]
  exact Option.map_id_fun' ▸ rfl

theorem Tally.state_exitDependent (c : Tally) (who : ClientId) :
    (c.exitDependent who).map Tally.state = c.state.exitDependent who :=
  Tally.state_exitOneClient _ none who

theorem Tally.state_exitClient :
    (c.exitClient one who).map Tally.state = c.state.exitClient one who := by
  unfold Tally.exitClient State.exitClient
  split
  · rfl
  · dsimp only
    split
    · have dependents : ∀ l : List ClientId,
          (l.foldlM Tally.exitDependent ⟨c.state.closing who, c.count⟩).map Tally.state =
            l.foldlM State.exitDependent (c.state.closing who) := fun l =>
        foldlM_map Tally.state Tally.state_exitDependent l _
      rw [Option.bind_eq_bind, ← dependents, Option.map_bind, Option.bind_map]
      exact congrArg _ (funext fun c => c.state_exitOneClient one who)
    · exact Tally.state_exitOneClient _ one who

theorem Tally.state_exitKilled :
    (c.exitKilled one who).map Tally.state = c.state.exitKilled one who :=
  Tally.state_exitClient _ one who

theorem Tally.state_registerRemoteUser (username : List Char) :
    (c.registerRemoteUser link who username).map Tally.state =
      c.state.registerRemoteUser link who username := by
  unfold Tally.registerRemoteUser State.registerRemoteUser
  generalize c.state.setClient who _ = s
  dsimp only
  cases (s.client who).servptr with
  | none => rfl
  | some server =>
    dsimp only
    split
    · exact Tally.state_exitKilled _ none who
    · split
      · exact Tally.state_exitKilled _ (some who) who
      · split
        · rfl
        · rw [Option.map_map]
          exact Option.map_id_fun' ▸ rfl

theorem Tally.state_doRemoteUser (username host server realname : List Char)
    (id : Option (List Char)) :
    (c.doRemoteUser link who username host server realname id).map Tally.state =
      c.state.doRemoteUser link who username host server realname id := by
  unfold Tally.doRemoteUser State.doRemoteUser
  rw [Option.map_bind]
  exact congrArg _ (funext fun servptr => Tally.state_registerRemoteUser _ who link username)

/-- Without the counters, an introduction is that of the handlers. -/
theorem Tally.state_introduce (i : Introduction) :
    (c.introduce link i).map Tally.state = match i with
      | .nick parv newts nick _ => c.state.newNickFromServer link parv newts nick
      | .client parv newts nick => c.state.clientFromServer link parv newts nick := by
  rw [Tally.introduce, Tally.state_doRemoteUser]
  cases i with
  | nick parv newts nick long =>
    unfold State.newNickFromServer
    dsimp only
    rw [if_pos long]
    rfl
  | client parv newts nick => rfl

end

end Ircd.Nick
