import Ircd.Channel.Mask
import Ircd.Lib.Blocks

/-!
# CHALLENGE

`m_challenge` of `modules/m_challenge.c`. A request for an operator block sends a secret under the key of the block, and
notes down what the secret is and the name of the block. A response gives the secret back. The two strings are blocks of
memory, and the fields of the user point to them.
-/
namespace Ircd.Oper

open Ircd.Chan (ircMatch)

/-- The number of an operator block in the configuration, its address. -/
abbrev ConfId := ℕ

/-- The address of a string. -/
abbrev Ptr := ℕ

/-- What the configuration says in an operator block. Keys and privileges are told apart by numbers. -/
structure Block where
  name : List Char
  user : List Char
  host : List Char
  key : Option ℕ
  privs : ℕ
  deriving DecidableEq

/-- `struct ConfItem` of an operator block. `maxLinks` is that of the class. -/
structure ConfItem where
  id : ConfId
  block : Block
  clients : ℤ
  maxLinks : ℤ

/-- The 32 random bytes that a challenge is made of. -/
abbrev Secret := Fin 32 → BitVec 8

/-- The digits of `binary_to_hex`. -/
def hexDigit (n : ℕ) : Char := ("0123456789ABCDEF".toList)[n]?.getD '0'

/-- `binary_to_hex`. -/
def binaryToHex (secret : Secret) : List Char :=
  (List.ofFn secret).flatMap fun byte => [hexDigit (byte.toNat / 16), hexDigit (byte.toNat % 16)]

/-- A challenge that has been sent: the block that it was made for, the key the secret was encrypted under, and how many
times somebody has become operator with it. -/
structure Sent where
  block : Block
  key : ℕ
  secret : Secret
  worked : ℕ

/-- A client, the operator blocks of `ConfigItemList`, and the strings. `attached` is `confs`, the head first; `live` are
the strings that are allocated, and `nextString` is the next one. `sent` is the latest challenge. -/
structure State where
  username : List Char
  host : List Char
  sockhost : List Char
  configItemList : List ConfItem
  attached : List ConfId
  response : Option Ptr
  authOper : Option Ptr
  text : Ptr → List Char
  live : Ptr → Bool
  nextString : Ptr
  sent : Option Sent

inductive Reply
  | passwdMismatch
  | noOperHost
  | cantAttach
  | noKey
  | rsaChallenge (key : ℕ) (secret : Secret)

/-- What a command does: the state behind it, the replies, the block that the client becomes operator with, and what
happens to the strings. -/
structure Outcome where
  state : State
  replies : List Reply
  operUp : Option Block
  ops : List (BlockOp Ptr)

namespace State

variable (s : State)

/-- `find_conf_exact`. -/
def findConfExact (name host : List Char) : Option ConfItem :=
  s.configItemList.find? fun tmp =>
    IrcEq tmp.block.name name && ircMatch tmp.block.host host && ircMatch tmp.block.user s.username &&
      decide (tmp.clients < tmp.maxLinks)

/-- `find_conf_by_name`. -/
def findConfByName (name : List Char) : Option ConfItem :=
  s.configItemList.find? fun conf => ircMatch name conf.block.name

/-- `detach_conf`, for what it does to the counters. -/
def detachConf (conf : ConfId) : State :=
  if conf ∈ s.attached then
    { s with
      configItemList := s.configItemList.map fun c => if c.id = conf then { c with clients := c.clients - 1 } else c
      attached := s.attached.erase conf }
  else s

/-- `attach_conf` of an operator block, which fails if it is attached. -/
def attachConf (conf : ConfId) : Option State :=
  if conf ∈ s.attached then none
  else some { s with
    configItemList := s.configItemList.map fun c => if c.id = conf then { c with clients := c.clients + 1 } else c
    attached := conf :: s.attached }

/-- `MyFree` of both strings. -/
def freeStrings : List (BlockOp Ptr) := s.response.toList.map .free ++ s.authOper.toList.map .free

/-- The state when things have been done with the strings. -/
def run (ops : List (BlockOp Ptr)) : State := { s with live := liveAfter s.live ops }

/-- A response, as `m_challenge` answers it. -/
def answer (arg : List Char) : Outcome :=
  match s.response, s.authOper with
  | some response, some authOper =>
    if ¬ IrcEq (s.text response) arg then ⟨s, [.passwdMismatch], none, [.use response]⟩
    else
      match s.findConfByName (s.text authOper) with
      | none => ⟨s, [.noOperHost], none, [.use response, .use authOper]⟩
      | some aconf =>
        match s.attached with
        | [] => ⟨s, [], none, [.use response, .use authOper]⟩
        | oconf :: _ =>
          match (s.detachConf oconf).attachConf aconf.id with
          | none =>
            ⟨((s.detachConf oconf).attachConf oconf).getD s, [.cantAttach], none, [.use response, .use authOper]⟩
          | some s' =>
            let ops := [.use response, .use authOper, .use authOper, .use authOper] ++ s.freeStrings
            ⟨{ s'.run ops with
                response := none
                authOper := none
                sent := s.sent.map fun sent => { sent with worked := sent.worked + 1 } },
              [], some aconf.block, ops⟩
  | some response, none =>
    -- the name would be read at a null pointer
    ⟨s, [], none, [.use response]⟩
  | none, _ => ⟨s, [], none, []⟩

/-- A request, as `m_challenge` answers it. `response` is set to null twice, `auth_oper` is not. -/
def request (arg : List Char) (secret : Secret) : Outcome :=
  let ops := s.freeStrings
  let s' := { s.run ops with response := none }
  match (s.findConfExact arg s.host).or (s.findConfExact arg s.sockhost) with
  | none => ⟨s', [.noOperHost], none, ops⟩
  | some aconf =>
    match aconf.block.key with
    | none => ⟨s', [.noKey], none, ops⟩
    | some key =>
      -- the old strings have been freed, and two new ones are allocated
      let response := s.nextString
      let authOper := s.nextString + 1
      let ops := ops ++ [.alloc response, .alloc authOper]
      ⟨{ s.run ops with
          response := some response
          authOper := some authOper
          text := Function.update (Function.update s.text response (binaryToHex secret)) authOper aconf.block.name
          nextString := s.nextString + 2
          sent := some ⟨aconf.block, key, secret, 0⟩ },
        [.rsaChallenge key secret], none, ops⟩

/-- `m_challenge`. A text that begins with a plus is a response. -/
def mChallenge (arg : List Char) (secret : Secret) : Outcome :=
  if arg.head? = some '+' then s.answer arg.tail else s.request arg secret

end State

/-- A CHALLENGE, with the random bytes that it draws if it needs them, or a rehash, which reads the configuration again;
between two commands other clients come and go as operators too. -/
inductive Event
  | challenge (arg : List Char) (secret : Secret)
  | rehash (configItemList : List ConfItem)

def step (s : State) : Event → State
  | .challenge arg secret => (s.mChallenge arg secret).state
  | .rehash configItemList => { s with configItemList := configItemList }

/-- A client that has registered. An I-line is attached to it. -/
def State.registered (username host sockhost : List Char) (configItemList : List ConfItem) (iline : ConfId) : State where
  username := username
  host := host
  sockhost := sockhost
  configItemList := configItemList
  attached := [iline]
  response := none
  authOper := none
  text _ := []
  live _ := false
  nextString := 0
  sent := none

/-! ### What a CHALLENGE should do -/

/-- The block is for this user and host. -/
def Block.MadeFor (b : Block) (s : State) : Prop :=
  (ircMatch b.host s.host = true ∨ ircMatch b.host s.sockhost = true) ∧ ircMatch b.user s.username = true

/-- A client becomes operator only with the block of the latest challenge, which is for its user and host and under whose
key the secret was sent, by that secret, and once; and the strings are freed once, not used behind that, and not lost. -/
structure Right (s : State) (arg : List Char) (o : Outcome) : Prop where
  latest : ∀ b, o.operUp = some b → ∃ sent text, s.sent = some sent ∧ sent.block = b ∧ b.MadeFor s ∧
    b.key = some sent.key ∧ arg = '+' :: text ∧ IrcEq (binaryToHex sent.secret) text ∧ sent.worked = 0
  sound : Sound s.live o.ops
  live : o.state.live = liveAfter s.live o.ops
  kept : ∀ p, o.state.live p = true → o.state.response = some p ∨ o.state.authOper = some p

def Event.Right (s : State) : Event → Prop
  | .challenge arg secret => Oper.Right s arg (s.mChallenge arg secret)
  | .rehash _ => True

/-- The first operator block that the name of the challenged block matches is that block, if the secret is answered; and no
request is made while `auth_oper` is set and `response` is not. -/
def Event.Safe (s : State) : Event → Prop
  | .challenge arg _ =>
    if arg.head? = some '+' then
      ∀ sent conf, s.response.isSome → s.sent = some sent → IrcEq (binaryToHex sent.secret) arg.tail →
        s.findConfByName sent.block.name = some conf → conf.block = sent.block
    else s.authOper.isSome → s.response.isSome
  | .rehash _ => True

/-! ### The strings -/

/-- What the fields say. A pending challenge has both strings; without one, `auth_oper` may dangle. -/
structure Inv (s : State) : Prop where
  attached : ∃ conf, s.attached = [conf]
  pending : ∀ p, s.response = some p → ∃ q sent, s.authOper = some q ∧ s.sent = some sent ∧ p ≠ q ∧
    s.live p = true ∧ s.live q = true ∧ s.text p = binaryToHex sent.secret ∧ s.text q = sent.block.name ∧
    sent.block.MadeFor s ∧ sent.block.key = some sent.key ∧ sent.worked = 0
  dangling : s.response = none → ∀ p, s.live p = false
  kept : ∀ p, s.live p = true → s.response = some p ∨ s.authOper = some p
  new : ∀ p, s.nextString ≤ p → s.live p = false ∧ s.authOper ≠ some p

theorem inv_registered (username host sockhost : List Char) (configItemList : List ConfItem) (iline : ConfId) :
    Inv (State.registered username host sockhost configItemList iline) where
  attached := ⟨iline, rfl⟩
  pending p is := by cases is
  dangling _ _ := rfl
  kept p is := by cases is
  new _ _ := ⟨rfl, by simp [State.registered]⟩

/-- What happens to the strings when a client becomes operator. -/
def operUpOps (response authOper : Ptr) : List (BlockOp Ptr) :=
  [.use response, .use authOper, .use authOper, .use authOper, .free response, .free authOper]

/-- A response to nothing, a wrong one, or one whose block is gone changes nothing; the one that is right makes the client
operator with the block that is found by the name. -/
theorem answer_cases {s : State} (inv : Inv s) (text : List Char) :
    ((s.answer text).state = s ∧ (s.answer text).operUp = none ∧ Sound s.live (s.answer text).ops ∧
      liveAfter s.live (s.answer text).ops = s.live ∧
      ∀ sent conf, s.response.isSome → s.sent = some sent → IrcEq (binaryToHex sent.secret) text →
        s.findConfByName sent.block.name ≠ some conf) ∨
    ∃ p q sent conf list, s.response = some p ∧ s.authOper = some q ∧ s.sent = some sent ∧
      IrcEq (binaryToHex sent.secret) text ∧ s.findConfByName sent.block.name = some conf ∧
      s.answer text = ⟨{ s with
          configItemList := list
          attached := [conf.id]
          live := liveAfter s.live (operUpOps p q)
          response := none
          authOper := none
          sent := some { sent with worked := sent.worked + 1 } },
        [], some conf.block, operUpOps p q⟩ := by
  obtain ⟨oconf, attached⟩ := inv.attached
  cases response : s.response with
  | none =>
    left
    simp [State.answer, response]
  | some p =>
    obtain ⟨q, sent, authOper, latest, -, liveP, liveQ, secret, name, -⟩ := inv.pending p response
    by_cases right : IrcEq (s.text p) text
    · -- the block may be gone since the request
      cases found : s.findConfByName (s.text q) with
      | none =>
        left
        rw [name] at found
        have refused : ∀ sent' conf, s.response.isSome → s.sent = some sent' →
            IrcEq (binaryToHex sent'.secret) text → s.findConfByName sent'.block.name ≠ some conf := by
          intro sent' conf _ is _
          cases latest.symm.trans is
          simp [found]
        rw [response] at refused
        simpa [State.answer, response, authOper, right, name, found, liveP, liveQ] using refused
      | some conf =>
        right
        rw [secret] at right
        rw [name] at found
        have detached : (s.detachConf oconf).attached = [] := by simp [State.detachConf, attached]
        have fits : ∃ s', (s.detachConf oconf).attachConf conf.id = some s' ∧
            ∃ list, s' = { s with configItemList := list, attached := [conf.id] } := by
          unfold State.attachConf
          rw [detached, if_neg (by simp)]
          refine ⟨_, rfl, (s.detachConf oconf).configItemList.map fun c =>
            if c.id = conf.id then { c with clients := c.clients + 1 } else c, ?_⟩
          simp only [State.detachConf, attached, List.mem_singleton, if_true]
        obtain ⟨s', attaches, list, rfl⟩ := fits
        refine ⟨p, q, sent, conf, list, rfl, authOper, latest, right, found, ?_⟩
        simp only [State.answer, response, authOper, secret, name, right, not_true_eq_false, if_false, found, attached,
          attaches, State.freeStrings, State.run, latest]
        rfl
    · left
      have refused : ∀ sent' conf, s.response.isSome → s.sent = some sent' →
          IrcEq (binaryToHex sent'.secret) text → s.findConfByName sent'.block.name ≠ some conf := by
        intro sent' conf _ is answered
        cases latest.symm.trans is
        rw [← secret] at answered
        exact absurd answered right
      rw [response] at refused
      simpa [State.answer, response, authOper, right, liveP] using refused

/-- A request frees both strings, and allocates two new ones if it sends a challenge. -/
theorem request_cases (s : State) (arg : List Char) (secret : Secret) :
    (s.request arg secret).operUp = none ∧
    (((s.request arg secret).ops = s.freeStrings ∧
        (s.request arg secret).state = { s with live := liveAfter s.live s.freeStrings, response := none }) ∨
      ∃ (conf : ConfItem) (key : ℕ), conf.block.MadeFor s ∧ conf.block.key = some key ∧
        (s.request arg secret).ops = s.freeStrings ++ [.alloc s.nextString, .alloc (s.nextString + 1)] ∧
        (s.request arg secret).state = { s with
          live := liveAfter s.live (s.freeStrings ++ [.alloc s.nextString, .alloc (s.nextString + 1)])
          response := some s.nextString
          authOper := some (s.nextString + 1)
          text := Function.update (Function.update s.text s.nextString (binaryToHex secret)) (s.nextString + 1)
            conf.block.name
          nextString := s.nextString + 2
          sent := some ⟨conf.block, key, secret, 0⟩ }) := by
  unfold State.request
  cases found : (s.findConfExact arg s.host).or (s.findConfExact arg s.sockhost) with
  | none => exact ⟨rfl, .inl ⟨rfl, rfl⟩⟩
  | some conf =>
    have made : conf.block.MadeFor s := by
      rcases Option.or_eq_some_iff.mp found with first | ⟨-, second⟩
      · have holds := List.find?_some first
        simp only [Bool.and_eq_true] at holds
        exact ⟨.inl holds.1.1.2, holds.1.2⟩
      · have holds := List.find?_some second
        simp only [Bool.and_eq_true] at holds
        exact ⟨.inr holds.1.1.2, holds.1.2⟩
    dsimp only
    split
    · exact ⟨rfl, .inl ⟨rfl, rfl⟩⟩
    next k key => exact ⟨rfl, .inr ⟨conf, k, made, key, rfl, rfl⟩⟩

/-- The frees of a request are allowed, if `auth_oper` does not dangle; then nothing is left. -/
theorem sound_freeStrings {s : State} (inv : Inv s) :
    Sound s.live s.freeStrings ↔ (s.authOper.isSome → s.response.isSome) := by
  cases response : s.response with
  | none =>
    have gone := inv.dangling response
    cases authOper : s.authOper <;> simp [State.freeStrings, response, authOper, gone]
  | some p =>
    obtain ⟨q, -, authOper, -, differ, liveP, liveQ, -⟩ := inv.pending p response
    simp [State.freeStrings, response, authOper, liveP, liveQ, differ.symm]

theorem liveAfter_freeStrings {s : State} (inv : Inv s) : liveAfter s.live s.freeStrings = fun _ => false := by
  funext p
  cases response : s.response with
  | none =>
    have gone := inv.dangling response
    cases authOper : s.authOper with
    | none => simp [State.freeStrings, response, authOper, gone]
    | some q => by_cases same : p = q <;> simp [State.freeStrings, response, authOper, gone, same]
  | some r =>
    obtain ⟨q, -, authOper, -⟩ := inv.pending r response
    by_cases first : p = r
    · subst first
      by_cases second : p = q <;> simp [State.freeStrings, response, authOper, second]
    · by_cases second : p = q
      · simp [State.freeStrings, response, authOper, second]
      · have other : s.live p = false := by
          cases is : s.live p with
          | false => rfl
          | true =>
            rcases inv.kept p is with left | right
            · exact absurd (Option.some.inj (response.symm.trans left)).symm first
            · exact absurd (Option.some.inj (authOper.symm.trans right)).symm second
        simp [State.freeStrings, response, authOper, first, second, other]

theorem operUp_live {s : State} (inv : Inv s) {p q : Ptr} (response : s.response = some p)
    (authOper : s.authOper = some q) : liveAfter s.live (operUpOps p q) = fun _ => false := by
  rw [← liveAfter_freeStrings inv]
  simp [operUpOps, State.freeStrings, response, authOper]

/-! ### Single commands -/

theorem answer_right_iff {s : State} (inv : Inv s) (text : List Char) :
    Oper.Right s ('+' :: text) (s.answer text) ↔
      ∀ sent conf, s.response.isSome → s.sent = some sent → IrcEq (binaryToHex sent.secret) text →
        s.findConfByName sent.block.name = some conf → conf.block = sent.block := by
  rcases answer_cases inv text with ⟨state, nobody, sound, live, refused⟩ |
    ⟨p, q, sent, conf, list, response, authOper, latest, answered, found, outcome⟩
  · -- the response is not taken
    apply iff_of_true _ fun sent conf pending latest answered found =>
      absurd found (refused sent conf pending latest answered)
    refine ⟨?_, sound, ?_, ?_⟩
    · intro b becomes
      rw [nobody] at becomes
      cases becomes
    · rw [state, live]
    · rw [state]
      exact inv.kept
  · obtain ⟨q', sent', authOper', latest', differ, liveP, liveQ, -, -, made, key, fresh⟩ := inv.pending p response
    cases authOper.symm.trans authOper'
    cases latest.symm.trans latest'
    constructor
    · rintro ⟨only, -⟩ sent' conf' - latest' - found'
      cases latest.symm.trans latest'
      cases found.symm.trans found'
      obtain ⟨sent', -, latest', same, -⟩ := only conf.block (by rw [outcome])
      cases latest.symm.trans latest'
      exact same.symm
    · intro safe
      have same := safe sent conf (by rw [response]; rfl) latest answered found
      rw [outcome]
      refine ⟨?_, ?_, rfl, ?_⟩
      · intro b becomes
        obtain rfl : conf.block = b := Option.some.inj becomes
        refine ⟨sent, text, latest, same.symm, ?_, ?_, rfl, answered, fresh⟩
        · rw [same]
          exact made
        · rw [same]
          exact key
      · simp [operUpOps, liveP, liveQ, differ.symm]
      · simp [operUp_live inv response authOper]

theorem request_right_iff {s : State} (inv : Inv s) (arg : List Char) (secret : Secret) :
    Oper.Right s arg (s.request arg secret) ↔ (s.authOper.isSome → s.response.isSome) := by
  rw [← sound_freeStrings inv]
  obtain ⟨nobody, ⟨ops, state⟩ | ⟨conf, key, -, -, ops, state⟩⟩ := request_cases s arg secret
  · constructor
    · rintro ⟨-, sound, -⟩
      rwa [ops] at sound
    · intro sound
      refine ⟨?_, ?_, ?_, ?_⟩
      · intro b becomes
        rw [nobody] at becomes
        cases becomes
      · rwa [ops]
      · rw [ops, state]
      · rw [state]
        simp [liveAfter_freeStrings inv]
  · have new : Sound (fun _ => false) [BlockOp.alloc s.nextString, .alloc (s.nextString + 1)] := by
      simp
    constructor
    · rintro ⟨-, sound, -⟩
      rw [ops, sound_append] at sound
      exact sound.1
    · intro sound
      refine ⟨?_, ?_, ?_, ?_⟩
      · intro b becomes
        rw [nobody] at becomes
        cases becomes
      · rw [ops, sound_append, liveAfter_freeStrings inv]
        exact ⟨sound, new⟩
      · rw [ops, state]
      · rw [state]
        intro p live
        simp only [liveAfter_append, liveAfter_freeStrings inv, liveAfter_cons, liveAfter_nil, after_alloc] at live
        by_cases first : p = s.nextString
        · exact .inl (congrArg some first.symm)
        · by_cases second : p = s.nextString + 1
          · exact .inr (congrArg some second.symm)
          · simp [first, second] at live

theorem right_iff_safe (s : State) (e : Event) (inv : Inv s) : e.Right s ↔ e.Safe s := by
  cases e with
  | rehash => exact Iff.rfl
  | challenge arg secret =>
    unfold Event.Right Event.Safe State.mChallenge
    dsimp only
    by_cases plus : arg.head? = some '+'
    · obtain ⟨text, rfl⟩ := List.head?_eq_some_iff.mp plus
      rw [if_pos plus, if_pos plus]
      exact answer_right_iff inv text
    · rw [if_neg plus, if_neg plus]
      exact request_right_iff inv arg secret

theorem answer_keeps {s : State} (inv : Inv s) (text : List Char) : Inv (s.answer text).state := by
  rcases answer_cases inv text with ⟨state, -⟩ | ⟨p, q, sent, conf, list, response, authOper, -, -, -, outcome⟩
  · rw [state]
    exact inv
  · rw [outcome]
    have gone := operUp_live inv response authOper
    exact {
      attached := ⟨conf.id, rfl⟩
      pending := fun p is => by cases is
      dangling := fun _ p => congrFun gone p
      kept := fun p live => by simp [gone] at live
      new := fun p _ => ⟨congrFun gone p, by simp⟩ }

theorem request_keeps {s : State} (inv : Inv s) (arg : List Char) (secret : Secret) :
    Inv (s.request arg secret).state := by
  have gone := liveAfter_freeStrings inv
  obtain ⟨-, ⟨-, state⟩ | ⟨conf, key, made, isKey, -, state⟩⟩ := request_cases s arg secret
  · rw [state]
    exact {
      attached := inv.attached
      pending := fun p is => by cases is
      dangling := fun _ p => congrFun gone p
      kept := fun p live => by simp [gone] at live
      new := fun p above => ⟨congrFun gone p, (inv.new p above).2⟩ }
  · rw [state]
    have live : ∀ p, liveAfter s.live (s.freeStrings ++ [.alloc s.nextString, .alloc (s.nextString + 1)]) p = true ↔
        p = s.nextString ∨ p = s.nextString + 1 := by
      intro p
      simp only [liveAfter_append, gone, liveAfter_cons, liveAfter_nil, after_alloc]
      by_cases first : p = s.nextString
      · by_cases second : p = s.nextString + 1 <;> simp [first]
      · by_cases second : p = s.nextString + 1 <;> simp [first, second]
    exact {
      attached := inv.attached
      pending := by
        rintro p ⟨⟩
        refine ⟨s.nextString + 1, _, rfl, rfl, (Nat.succ_ne_self _).symm, (live _).mpr (.inl rfl), (live _).mpr (.inr rfl), ?_, ?_,
          made, isKey, rfl⟩
        · simp
        · simp
      dangling := fun is => by cases is
      kept := by
        intro p is
        rcases (live p).mp is with rfl | rfl
        · exact .inl rfl
        · exact .inr rfl
      new := by
        intro p above
        have beyond : s.nextString + 1 < p := above
        constructor
        · rw [Bool.eq_false_iff]
          intro is
          rcases (live p).mp is with rfl | rfl
          · exact absurd beyond (Nat.not_lt.mpr (Nat.le_succ _))
          · exact absurd beyond (Nat.lt_irrefl _)
        · rintro ⟨⟩
          exact absurd beyond (Nat.lt_irrefl _) }

theorem step_keeps (s : State) (e : Event) (inv : Inv s) : Inv (step s e) := by
  cases e with
  | rehash list => exact ⟨inv.attached, inv.pending, inv.dangling, inv.kept, inv.new⟩
  | challenge arg secret =>
    unfold step State.mChallenge
    dsimp only
    split
    · exact answer_keeps inv _
    · exact request_keeps inv _ _

/-- In every run of a client, a CHALLENGE does what it should exactly if every response that is right finds the block that
was challenged, and no request is made while `auth_oper` is set and `response` is not. -/
theorem challenge_along_iff (username host sockhost : List Char) (configItemList : List ConfItem) (iline : ConfId)
    (events : List Event) :
    Along step (fun s e => e.Right s) (State.registered username host sockhost configItemList iline) events ↔
      Along step (fun s e => e.Safe s) (State.registered username host sockhost configItemList iline) events :=
  along_congr right_iff_safe (fun s e inv _ => step_keeps s e inv) (inv_registered _ _ _ _ _)

/-! ### Two blocks of one name -/

/-- The block of somebody else. -/
def otherBlock : Block := ⟨['g'], ['x'], ['x'], some 1, 7⟩

/-- The block of the client, behind it. -/
def ownBlock : Block := ⟨['g'], ['u'], ['h'], some 2, 1⟩

def twoBlocks : State := .registered ['u'] ['h'] ['i'] [⟨1, otherBlock, 0, 9⟩, ⟨2, ownBlock, 0, 9⟩] 0

/-- The client answers the challenge for its own block, and becomes operator with the other one. -/
theorem twoBlocks_mixed_up : ¬ ∀ username host sockhost configItemList iline events,
    Along step (fun s e => e.Right s) (State.registered username host sockhost configItemList iline) events := by
  intro all
  have along := all ['u'] ['h'] ['i'] [⟨1, otherBlock, 0, 9⟩, ⟨2, ownBlock, 0, 9⟩] 0
    [.challenge ['g'] fun _ => 0, .challenge ('+' :: binaryToHex fun _ => 0) fun _ => 0]
  obtain ⟨-, right, -⟩ := along
  have becomes : ((step twoBlocks (.challenge ['g'] fun _ => 0)).mChallenge ('+' :: binaryToHex fun _ => 0)
      fun _ => 0).operUp = some otherBlock := by decide
  obtain ⟨sent, _, latest, same, -⟩ := right.latest otherBlock becomes
  have own : (step twoBlocks (.challenge ['g'] fun _ => 0)).sent.map Sent.block = some ownBlock := by decide
  have latest' : (step twoBlocks (.challenge ['g'] fun _ => 0)).sent = some sent := latest
  rw [latest', Option.map_some, same] at own
  revert own
  decide

end Ircd.Oper
