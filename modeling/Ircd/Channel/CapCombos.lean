import Ircd.Channel.ModeLines
import Ircd.Lib.Run
import Mathlib.Data.List.FinRange
import Mathlib.Data.Nat.Bitwise

/-!
# Capability combinations

`init_chcap_usage_counts`, `set_chcap_usage_counts` and `unset_chcap_usage_counts` of `src/channel_mode.c`, the links
for which `server_estab` and `exit_client` call them, and the loop of `send_mode_changes` over the combinations with a
server. `sendto_server` walks `serv_list`, and a link that cannot be written to is exited at once, so that the walk
ends there.
-/
namespace Ircd.Chan.Combos

/-! ### Combinations -/

/-- `CAP_HOPS` and so on. -/
def bit : Cap → ℕ
  | .hops => 0x0800
  | .aops => 0x2000
  | .ex => 0x0008
  | .ie => 0x0040
  | .uid => 0x4000

/-- `CAP_LL`. -/
def capLl : ℕ := 0x0020

def channelCapabs : List Cap := [.hops, .aops, .ex, .ie, .uid]

/-- `NCHCAP_COMBOS`. -/
abbrev nchcapCombos : ℕ := 2 ^ channelCapabs.length

/-- The loop of `init_chcap_usage_counts` that puts capabilities together. -/
def gather (capabs : List Cap) : ℕ := capabs.foldl (fun word cap => word ||| bit cap) 0

/-- `chcap_combos[m].cap_yes`. -/
def capYes (m : ℕ) : ℕ := gather ((channelCapabs.zipIdx.filter fun cap => m.testBit cap.2).map Prod.fst)

/-- `chcap_combos[m].cap_no`. -/
def capNo (m : ℕ) : ℕ := gather ((channelCapabs.zipIdx.filter fun cap => !m.testBit cap.2).map Prod.fst)

/-- The test of the combinations, which `sendto_server` makes too. -/
def fits (caps m : ℕ) : Bool := decide (caps &&& capYes m = capYes m) && decide (caps &&& capNo m = 0)

/-- The search for the combination of a server. -/
def findCombo (caps : ℕ) : Option (Fin nchcapCombos) := (List.finRange nchcapCombos).find? fun m => fits caps m

/-- The capabilities in a word. -/
def capSet (word : ℕ) : Finset Cap := channelCapabs.toFinset.filter fun cap => word &&& bit cap ≠ 0

/-! ### One combination fits each word -/

theorem and_or_eq_iff (w a b : ℕ) : w &&& (a ||| b) = a ||| b ↔ w &&& a = a ∧ w &&& b = b := by
  constructor
  · intro whole
    have bits : ∀ i, (a ||| b).testBit i = true → w.testBit i = true := by
      intro i here
      rw [← whole, Nat.testBit_and, Bool.and_eq_true] at here
      exact here.1
    constructor <;> apply Nat.eq_of_testBit_eq <;> intro i <;> rw [Nat.testBit_and]
    · cases here : a.testBit i
      · rw [Bool.and_false]
      · rw [bits i (by rw [Nat.testBit_or, here, Bool.true_or]), Bool.and_true]
    · cases here : b.testBit i
      · rw [Bool.and_false]
      · rw [bits i (by rw [Nat.testBit_or, here, Bool.or_true]), Bool.and_true]
  · rintro ⟨first, second⟩
    rw [Nat.and_or_distrib_left, first, second]

theorem and_or_eq_zero_iff (w a b : ℕ) : w &&& (a ||| b) = 0 ↔ w &&& a = 0 ∧ w &&& b = 0 := by
  rw [Nat.and_or_distrib_left, Nat.or_eq_zero_iff]

theorem and_gather_eq_iff (w : ℕ) (capabs : List Cap) :
    w &&& gather capabs = gather capabs ↔ ∀ cap ∈ capabs, w &&& bit cap = bit cap := by
  induction capabs using List.reverseRecOn with
  | nil => simp [gather]
  | append_singleton capabs cap ih =>
    rw [gather, List.foldl_append, List.foldl_cons, List.foldl_nil, ← gather, and_or_eq_iff, ih]
    simp [or_imp, forall_and]

theorem and_gather_eq_zero_iff (w : ℕ) (capabs : List Cap) :
    w &&& gather capabs = 0 ↔ ∀ cap ∈ capabs, w &&& bit cap = 0 := by
  induction capabs using List.reverseRecOn with
  | nil => simp [gather]
  | append_singleton capabs cap ih =>
    rw [gather, List.foldl_append, List.foldl_cons, List.foldl_nil, ← gather, and_or_eq_zero_iff, ih]
    simp [or_imp, forall_and]

/-- A capability is one bit. -/
theorem and_bit (w : ℕ) (cap : Cap) : w &&& bit cap = bit cap ↔ w &&& bit cap ≠ 0 := by
  obtain ⟨k, power⟩ : ∃ k, bit cap = 2 ^ k := by
    cases cap
    exacts [⟨11, rfl⟩, ⟨13, rfl⟩, ⟨3, rfl⟩, ⟨6, rfl⟩, ⟨14, rfl⟩]
  rw [power, Nat.and_two_pow]
  cases w.testBit k
  · simp [(Nat.two_pow_pos k).ne]
  · simp

theorem fits_iff (caps m : ℕ) :
    fits caps m = true ↔ ∀ i (within : i < channelCapabs.length), m.testBit i = decide (caps &&& bit channelCapabs[i] ≠ 0) := by
  rw [fits, Bool.and_eq_true, decide_eq_true_iff, decide_eq_true_iff, capYes, capNo, and_gather_eq_iff,
    and_gather_eq_zero_iff]
  constructor
  · rintro ⟨yes, no⟩ i within
    have member : (channelCapabs[i], i) ∈ channelCapabs.zipIdx := by simp [List.mem_zipIdx_iff_getElem?]
    cases here : m.testBit i
    · have absent := no channelCapabs[i] (List.mem_map.mpr ⟨_, List.mem_filter.mpr ⟨member, by simp [here]⟩, rfl⟩)
      simp [absent]
    · have present := yes channelCapabs[i] (List.mem_map.mpr ⟨_, List.mem_filter.mpr ⟨member, here⟩, rfl⟩)
      simpa using (and_bit _ _).mp present
  · intro all
    constructor
    · intro cap member
      obtain ⟨⟨cap, i⟩, listed, rfl⟩ := List.mem_map.mp member
      obtain ⟨listed, here⟩ := List.mem_filter.mp listed
      obtain ⟨within, same⟩ := List.getElem?_eq_some_iff.mp (List.mem_zipIdx_iff_getElem?.mp listed)
      rw [all i within, same] at here
      exact (and_bit _ _).mpr (of_decide_eq_true here)
    · intro cap member
      obtain ⟨⟨cap, i⟩, listed, rfl⟩ := List.mem_map.mp member
      obtain ⟨listed, here⟩ := List.mem_filter.mp listed
      obtain ⟨within, same⟩ := List.getElem?_eq_some_iff.mp (List.mem_zipIdx_iff_getElem?.mp listed)
      rw [all i within, same] at here
      simpa using here

theorem existsUnique_fits (caps : ℕ) : ∃! n : Fin nchcapCombos, fits caps n = true := by
  let has : Fin channelCapabs.length → Bool := fun i => decide (caps &&& bit channelCapabs[i] ≠ 0)
  refine ⟨⟨Nat.ofBits has, Nat.ofBits_lt_two_pow has⟩, (fits_iff _ _).mpr fun i within => ?_, fun n here => ?_⟩
  · exact Nat.testBit_ofBits_lt has i within
  · apply Fin.ext
    apply Nat.eq_of_testBit_eq
    intro i
    by_cases within : i < channelCapabs.length
    · rw [(fits_iff _ _).mp here i within]
      exact (Nat.testBit_ofBits_lt has i within).symm
    · have above : 2 ^ channelCapabs.length ≤ 2 ^ i := Nat.pow_le_pow_right (by decide) (Nat.le_of_not_lt within)
      rw [Nat.testBit_lt_two_pow (n.isLt.trans_le above), Nat.testBit_ofBits_ge has i (Nat.le_of_not_lt within)]

theorem fits_unique {caps : ℕ} {n n' : Fin nchcapCombos} (here : fits caps n = true) (here' : fits caps n' = true) :
    n = n' := (existsUnique_fits caps).unique here here'

/-- The search comes to the combination. -/
theorem findCombo_eq_some_iff (caps : ℕ) (n : Fin nchcapCombos) : findCombo caps = some n ↔ fits caps n = true := by
  have fit : ∀ n', findCombo caps = some n' → fits caps n' = true := fun n' found =>
    List.find?_some (p := fun m : Fin nchcapCombos => fits caps m) found
  refine ⟨fit n, fun here => ?_⟩
  obtain ⟨n', found⟩ : ∃ n', findCombo caps = some n' :=
    Option.isSome_iff_exists.mp (List.find?_isSome.mpr ⟨n, List.mem_finRange n, here⟩)
  rw [found, fits_unique (fit n' found) here]

/-! ### Links -/

/-- A local client. `caps` are those of `localClient`. -/
structure Link where
  status : Status
  caps : ℕ
  dead : Bool
deriving DecidableEq

/-- Neither `IsServer` nor `IsClient`. -/
def Link.unregistered (link : Link) : Bool := link.status ≠ .server ∧ link.status ≠ .client

/-- The links, `unknown_list`, `serv_list` and the counts of `chcap_combos`. `aborted` says that an assertion has
failed. -/
structure State where
  link : ClientId → Link
  nextClient : ℕ
  unknownList : List ClientId
  servList : List ClientId
  count : Fin nchcapCombos → ℕ
  hub : Bool
  aborted : Bool

def start (hub : Bool) : State where
  link := fun _ => ⟨.unknown, 0, false⟩
  nextClient := 0
  unknownList := []
  servList := []
  count := fun _ => 0
  hub := hub
  aborted := false

namespace State

def setLink (s : State) (who : ClientId) (link : Link) : State :=
  { s with link := Function.update s.link who link }

def setChcapUsageCounts (s : State) (who : ClientId) : State :=
  match findCombo (s.link who).caps with
  | some n => { s with count := Function.update s.count n (s.count n + 1) }
  | none => { s with aborted := true }

def unsetChcapUsageCounts (s : State) (who : ClientId) : State :=
  match findCombo (s.link who).caps with
  | some n =>
    if 0 < s.count n then { s with count := Function.update s.count n (s.count n - 1) }
    else { s with aborted := true }
  | none => { s with aborted := true }

/-- `SetDead`. A client that is not registered goes from `unknown_list`. -/
def setDead (s : State) (who : ClientId) : State :=
  { s.setLink who { s.link who with dead := true } with
    unknownList := if (s.link who).unregistered then s.unknownList.erase who else s.unknownList }

/-- `exit_client`, for a local client. -/
def exitClient (s : State) (who : ClientId) : State :=
  let link := s.link who
  if link.dead then s
  else
    let s := s.setDead who
    if (link.status = .server ∨ link.status = .connecting ∨ link.status = .handshake) ∧ who ∈ s.servList then
      { s with servList := s.servList.erase who }.unsetChcapUsageCounts who
    else s

/-- `server_estab`. `dies` says that the link could not be written to before `SetServer`: the client has been exited
then, and the function goes on. -/
def serverEstab (s : State) (who : ClientId) (dies : Bool) : State :=
  let s := if dies then s.exitClient who else s
  let s := s.setLink who { s.link who with status := .server }
  let s := s.setChcapUsageCounts who
  if who ∈ s.unknownList then
    { s with unknownList := s.unknownList.erase who, servList := who :: s.servList }
  else s

end State

/-! ### A MODE -/

/-- The changes that `send_mode_changes` has to tell the servers of, and what becomes of the links meanwhile: `one` is
the link it came from, `knows` says which lazy leaves know the channel, `fails` that a link dies when the line of that
number is sent to it, and `along` who dies when it is exited. -/
structure ModeSend where
  one : Option ClientId
  chname : List Char
  header : Finset Cap → List Char
  minus : List ChModeChange
  plus : List ChModeChange
  knows : ClientId → Bool
  fails : ClientId → ℕ → Bool
  along : ClientId → List ClientId

/-- The lines of `send_cap_mode_changes` for a combination. -/
def ModeSend.lines (m : ModeSend) (n : ℕ) : List ModeLine :=
  sendCapModeChanges (m.header (capSet (capYes n))) (capSet (capYes n)) (capSet (capNo n)) m.minus m.plus

/-- So many of the lines are sent in the loop over the removals, with `LL_ICHAN`. -/
def ModeSend.introducing (m : ModeSend) (n : ℕ) : ℕ :=
  (m.minus.foldl (writeMinus (m.header (capSet (capYes n))) (capSet (capYes n)) (capSet (capNo n)))
    ⟨[], if m.minus = [] then [] else ['-'], [], 0, 0⟩).sent.length

/-- The servers, the lazy leaves that know the channel, and what has been sent to whom. -/
structure Cast where
  state : State
  knows : ClientId → Bool
  sent : List (ClientId × ModeLine)

/-- A lazy leaf, for a hub. -/
def State.lazy (s : State) (who : ClientId) : Bool := s.hub && decide ((s.link who).caps &&& capLl ≠ 0)

/-- The walk of `sendto_server` along the nodes that are left, for a line of a combination. The channel is introduced
to a lazy leaf if the line has `LL_ICHAN`. A link that dies takes its node with it. -/
def ModeSend.walk (m : ModeSend) (n i : ℕ) (line : ModeLine) : List ClientId → Cast → Cast
  | [], c => c
  | who :: rest, c =>
    if m.one = some who then m.walk n i line rest c
    else if fits (c.state.link who).caps n = false then m.walk n i line rest c
    else if c.state.lazy who ∧ c.knows who = false ∧ m.introducing n ≤ i then m.walk n i line rest c
    else
      let c := { c with knows := Function.update c.knows who true }
      if m.fails who i then { c with state := (who :: m.along who).foldl State.exitClient c.state }
      else m.walk n i line rest { c with sent := c.sent ++ [(who, line)] }

/-- `sendto_server`. A local channel is none of the other servers' business. -/
def ModeSend.sendtoServer (m : ModeSend) (n : ℕ) (c : Cast) (line : ModeLine × ℕ) : Cast :=
  if m.chname.head? = some '&' then c else m.walk n line.2 line.1 c.state.servList c

/-- `send_cap_mode_changes`. -/
def ModeSend.sendCap (m : ModeSend) (c : Cast) (n : ℕ) : Cast := (m.lines n).zipIdx.foldl (m.sendtoServer n) c

/-- One round of the last loop of `send_mode_changes`. Nothing is made for a combination that no server has. -/
def ModeSend.round (m : ModeSend) (c : Cast) (n : Fin nchcapCombos) : Cast :=
  if c.state.count n ≠ 0 then m.sendCap c n else c

/-- `send_mode_changes`, for the servers. -/
def ModeSend.send (m : ModeSend) (s : State) : Cast :=
  (List.finRange nchcapCombos).foldl m.round ⟨s, m.knows, []⟩

/-! ### Runs -/

inductive Op where
  | connect
  | capab (who : ClientId) (caps : ℕ)
  | connecting (who : ClientId)
  | handshake (who : ClientId)
  | register (who : ClientId)
  | estab (who : ClientId) (dies : Bool)
  | exit (who : ClientId)
  | mode (m : ModeSend)

/-- What becomes of a link becomes of one that is there and not registered. The words of CAPAB, and what
`check_server` and `mr_server` take away, come before the link is. -/
def Op.Live (s : State) : Op → Prop
  | .connect | .mode _ => True
  | .capab who _ | .connecting who | .handshake who | .register who | .estab who _ =>
    who < s.nextClient ∧ (s.link who).dead = false ∧ (s.link who).unregistered = true
  | .exit who => who < s.nextClient

instance (s : State) (op : Op) : Decidable (op.Live s) := by
  cases op <;> unfold Op.Live <;> infer_instance

def State.step (s : State) (op : Op) : State :=
  if op.Live s then
    match op with
    | .connect =>
      { s.setLink s.nextClient ⟨.unknown, 0, false⟩ with
        nextClient := s.nextClient + 1
        unknownList := s.nextClient :: s.unknownList }
    | .capab who caps => s.setLink who { s.link who with caps := caps }
    | .connecting who => s.setLink who { s.link who with status := .connecting }
    | .handshake who => s.setLink who { s.link who with status := .handshake }
    | .register who =>
      { s.setLink who { s.link who with status := .client } with unknownList := s.unknownList.erase who }
    | .estab who dies => s.serverEstab who dies
    | .exit who => s.exitClient who
    | .mode m => (m.send s).state
  else s

def run (hub : Bool) (ops : List Op) : State := ops.foldl State.step (start hub)

/-- The counts are those of the servers, and no assertion has failed. -/
structure State.Counted (s : State) : Prop where
  asserted : s.aborted = false
  exact : ∀ n, s.count n = s.servList.countP fun who => fits (s.link who).caps n

/-- Whom a MODE is for: not the link it came from, nor anybody if the channel is local. A lazy leaf must know the
channel, or be introduced to it by the first line. -/
def ModeSend.For (m : ModeSend) (s : State) (n : ℕ) (who : ClientId) : Prop :=
  m.one ≠ some who ∧ m.chname.head? ≠ some '&' ∧ (s.lazy who = true → m.knows who = true ∨ 0 < m.introducing n)

/-- What has been sent to a server. -/
def Cast.to (c : Cast) (who : ClientId) : List ModeLine := (c.sent.filter fun entry => entry.1 = who).map Prod.snd

/-- Each server gets the lines of its own combination, each of them once, if the MODE is for it. -/
def ModeSend.Delivered (m : ModeSend) (s : State) : Prop :=
  ∀ who ∈ (m.send s).state.servList, ∀ n : Fin nchcapCombos, fits (s.link who).caps n = true →
    (m.For s n who → (m.send s).to who = m.lines n) ∧ (¬m.For s n who → (m.send s).to who = [])

/-- No link dies while it is established. When a link dies of a line of a MODE, there is no server behind it on the
list that the line is for. -/
def State.Upheld (s : State) : Op → Prop
  | .estab who dies => Op.Live s (.estab who dies) → dies = false
  | .mode m => ∀ who other (n : Fin nchcapCombos), List.Sublist [who, other] s.servList →
      fits (s.link who).caps n = true → fits (s.link other).caps n = true → m.For s n who → m.For s n other →
      ∀ i < (m.lines n).length, m.fails who i = false
  | _ => True

/-! ### Links that come and go -/

/-- Behind counts that are right: the servers are listed once, and who is not registered is on `unknown_list`. -/
structure State.Sound (s : State) : Prop where
  counted : s.Counted
  nodup : s.servList.Nodup
  servers : ∀ who ∈ s.servList, who < s.nextClient ∧ (s.link who).status = .server
  waiting : ∀ who < s.nextClient, (s.link who).dead = false → (s.link who).unregistered = true →
    who ∈ s.unknownList

section

variable {s : State} {who : ClientId}

/-- What the count of a combination is when one more server has it. -/
theorem State.Counted.set (counted : s.Counted) {n : Fin nchcapCombos} (here : fits (s.link who).caps n = true)
    (n' : Fin nchcapCombos) :
    Function.update s.count n (s.count n + 1) n' =
      (who :: s.servList).countP fun who => fits (s.link who).caps n' := by
  rw [Function.update_apply, List.countP_cons]
  split
  · next same =>
    subst same
    rw [counted.exact, if_pos here]
  · next other =>
    have misfit : fits (s.link who).caps n' = false := by
      by_contra fit
      exact other (fits_unique (Bool.not_eq_false _ ▸ fit) here)
    simp [counted.exact, misfit]

/-- There is a server that is counted, and without it the count is one less. -/
theorem State.Counted.unset (counted : s.Counted) (listed : who ∈ s.servList) {n : Fin nchcapCombos}
    (here : fits (s.link who).caps n = true) :
    0 < s.count n ∧ ∀ n', Function.update s.count n (s.count n - 1) n' =
      (s.servList.erase who).countP fun who => fits (s.link who).caps n' := by
  constructor
  · rw [counted.exact]
    exact List.countP_pos_iff.mpr ⟨who, listed, here⟩
  · intro n'
    rw [Function.update_apply, List.countP_erase]
    split
    · next same =>
      subst same
      simp [counted.exact, listed, here]
    · next other =>
      have misfit : fits (s.link who).caps n' = false := by
        by_contra fit
        exact other (fits_unique (Bool.not_eq_false _ ▸ fit) here)
      simp [counted.exact, misfit]

/-- The link of one that is not a server changes, and perhaps `unknown_list`. -/
theorem State.Sound.change (sound : s.Sound) (notListed : who ∉ s.servList) (link : Link) (unknown : List ClientId)
    (waiting : ∀ other < s.nextClient, (Function.update s.link who link other).dead = false →
      (Function.update s.link who link other).unregistered = true → other ∈ unknown) :
    { s.setLink who link with unknownList := unknown }.Sound := by
  have same : ∀ other ∈ s.servList, Function.update s.link who link other = s.link other := by
    intro other listed
    apply Function.update_of_ne
    rintro rfl
    exact notListed listed
  refine ⟨⟨sound.counted.asserted, fun n => ?_⟩, sound.nodup, fun other listed => ?_, waiting⟩
  · have count := sound.counted.exact n
    simp only [State.setLink, count]
    exact List.countP_congr fun other listed => by rw [same other listed]
  · simp only [State.setLink, same other listed]
    exact sound.servers other listed

theorem State.Sound.notListed (sound : s.Sound) (unregistered : (s.link who).unregistered = true) :
    who ∉ s.servList := by
  intro listed
  simp [Link.unregistered, (sound.servers who listed).2] at unregistered

theorem link_setDead (s : State) (who other : ClientId) :
    (s.setDead who).link other = { s.link other with dead := (s.link other).dead || decide (other = who) } := by
  simp only [State.setDead, State.setLink, Function.update_apply]
  split
  · next here => simp [here]
  · next here => simp [here]

theorem State.Sound.setDead (sound : s.Sound) (who : ClientId) : (s.setDead who).Sound := by
  have caps : ∀ other, ((s.setDead who).link other).caps = (s.link other).caps := by
    intro other
    rw [link_setDead]
  refine ⟨⟨sound.counted.asserted, fun n => ?_⟩, sound.nodup, fun other listed => ?_, ?_⟩
  · simp only [caps]
    exact sound.counted.exact n
  · obtain ⟨below, server⟩ := sound.servers other listed
    refine ⟨below, ?_⟩
    simp only [State.setDead, State.setLink, Function.update_apply]
    split
    · next here => exact here ▸ server
    · exact server
  · intro other below live unregistered
    simp only [State.setDead, State.setLink] at live unregistered ⊢
    have here : other ≠ who := by
      rintro rfl
      simp at live
    rw [Function.update_of_ne here] at live unregistered
    have member := sound.waiting other below live unregistered
    split
    · exact (List.mem_erase_of_ne here).mpr member
    · exact member

theorem State.Sound.unset (sound : s.Sound) (listed : who ∈ s.servList) :
    ({ s with servList := s.servList.erase who }.unsetChcapUsageCounts who).Sound := by
  obtain ⟨n, here, -⟩ := existsUnique_fits (s.link who).caps
  obtain ⟨positive, exact⟩ := sound.counted.unset listed here
  have found := (findCombo_eq_some_iff (s.link who).caps n).mpr here
  simp only [State.unsetChcapUsageCounts, found, if_pos positive]
  exact ⟨⟨sound.counted.asserted, exact⟩, sound.nodup.erase who,
    fun other member => sound.servers other (List.mem_of_mem_erase member), sound.waiting⟩

theorem State.Sound.exitClient (sound : s.Sound) (who : ClientId) : (s.exitClient who).Sound := by
  have dead := sound.setDead who
  unfold State.exitClient
  dsimp only
  split
  · exact sound
  · split
    · next listed => exact dead.unset listed.2
    · exact dead

theorem State.Sound.serverEstab (sound : s.Sound) (below : who < s.nextClient) (live : (s.link who).dead = false)
    (unregistered : (s.link who).unregistered = true) : (s.serverEstab who false).Sound := by
  have listed := sound.waiting who below live unregistered
  have notListed := sound.notListed unregistered
  obtain ⟨n, here, -⟩ := existsUnique_fits (s.link who).caps
  have found := (findCombo_eq_some_iff (s.link who).caps n).mpr here
  -- the server is counted, and comes to serv_list
  have same : ∀ other ∈ s.servList, (s.setLink who { s.link who with status := .server }).link other = s.link other := by
    intro other member
    apply Function.update_of_ne
    rintro rfl
    exact notListed member
  have self : (s.setLink who { s.link who with status := .server }).link who = { s.link who with status := .server } :=
    Function.update_self ..
  simp only [State.serverEstab, Bool.false_eq_true, if_false, State.setChcapUsageCounts, self, found]
  rw [if_pos (show who ∈ (s.setLink who _).unknownList from listed)]
  refine ⟨⟨sound.counted.asserted, fun n' => ?_⟩, List.nodup_cons.mpr ⟨notListed, sound.nodup⟩, ?_, ?_⟩
  · refine (sound.counted.set here n').trans (List.countP_congr fun other member => ?_)
    rcases List.mem_cons.mp member with rfl | member
    · simp only [self]
    · simp only [same other member]
  · intro other member
    rcases List.mem_cons.mp member with rfl | member
    · exact ⟨below, by simp only [self]⟩
    · simp only [same other member]
      exact sound.servers other member
  · intro other below live' unregistered'
    have different : other ≠ who := by
      rintro rfl
      simp [self, Link.unregistered] at unregistered'
    refine (List.mem_erase_of_ne different).mpr ?_
    simp only [State.setLink, Function.update_of_ne different] at live' unregistered'
    exact sound.waiting other below live' unregistered'

/-! ### What an exit leaves -/

/-- The clients on the list of servers have not been exited. -/
def State.Alive (s : State) : Prop := ∀ who ∈ s.servList, (s.link who).dead = false

/-- No word of capabilities changes, and servers only go. -/
structure State.Loses (s t : State) : Prop where
  caps : ∀ who, (t.link who).caps = (s.link who).caps
  hub : t.hub = s.hub
  servers : t.servList.Sublist s.servList

theorem State.Loses.refl (s : State) : s.Loses s := ⟨fun _ => rfl, rfl, List.Sublist.refl _⟩

theorem State.Loses.trans {t u : State} (first : s.Loses t) (second : t.Loses u) : s.Loses u :=
  ⟨fun who => (second.caps who).trans (first.caps who), second.hub.trans first.hub,
    second.servers.trans first.servers⟩

theorem unsetChcapUsageCounts_servers (s : State) (who : ClientId) :
    (s.unsetChcapUsageCounts who).servList = s.servList ∧ (s.unsetChcapUsageCounts who).link = s.link ∧
      (s.unsetChcapUsageCounts who).hub = s.hub := by
  unfold State.unsetChcapUsageCounts
  split
  · split <;> exact ⟨rfl, rfl, rfl⟩
  · exact ⟨rfl, rfl, rfl⟩

theorem exitClient_loses (s : State) (who : ClientId) : s.Loses (s.exitClient who) := by
  have dead : s.Loses (s.setDead who) := ⟨fun other => by rw [link_setDead], rfl, List.Sublist.refl _⟩
  unfold State.exitClient
  dsimp only
  split
  · exact State.Loses.refl s
  · split
    · obtain ⟨list, link, hub⟩ := unsetChcapUsageCounts_servers
        { s.setDead who with servList := (s.setDead who).servList.erase who } who
      refine dead.trans ⟨fun other => by rw [link], hub, ?_⟩
      rw [list]
      exact List.erase_sublist
    · exact dead

/-- Who is exited is no server any more. -/
theorem State.Sound.not_mem_exitClient (sound : s.Sound) (alive : s.Alive) (who : ClientId) :
    who ∉ (s.exitClient who).servList := by
  intro member
  have listed := (exitClient_loses s who).servers.subset member
  have server := (sound.servers who listed).2
  have live := alive who listed
  have both : ((s.link who).status = .server ∨ (s.link who).status = .connecting ∨
      (s.link who).status = .handshake) ∧ who ∈ (s.setDead who).servList := ⟨.inl server, listed⟩
  simp only [State.exitClient, live, Bool.false_eq_true, if_false, if_pos both] at member
  rw [(unsetChcapUsageCounts_servers _ _).1] at member
  exact ((sound.nodup.mem_erase_iff).mp member).1 rfl

theorem State.Sound.alive_exitClient (sound : s.Sound) (alive : s.Alive) (who : ClientId) :
    (s.exitClient who).Alive := by
  intro other member
  have listed := (exitClient_loses s who).servers.subset member
  have different : other ≠ who := by
    rintro rfl
    exact sound.not_mem_exitClient alive other member
  have link : (s.exitClient who).link other = s.link other := by
    have dead : (s.setDead who).link other = s.link other := by simp [link_setDead, different]
    unfold State.exitClient
    dsimp only
    split
    · rfl
    · split
      · rw [(unsetChcapUsageCounts_servers _ _).2.1]
        exact dead
      · exact dead
  rw [link]
  exact alive other listed

/-- Several are exited. -/
theorem State.Sound.exits (sound : s.Sound) (alive : s.Alive) (list : List ClientId) :
    (list.foldl State.exitClient s).Sound ∧ (list.foldl State.exitClient s).Alive ∧
      s.Loses (list.foldl State.exitClient s) := by
  induction list generalizing s with
  | nil => exact ⟨sound, alive, State.Loses.refl s⟩
  | cons who list ih =>
    obtain ⟨sound', alive', loses⟩ := ih (sound.exitClient who) (sound.alive_exitClient alive who)
    exact ⟨sound', alive', (exitClient_loses s who).trans loses⟩

end

/-! ### A walk along the servers -/

section

variable {m : ModeSend} {s : State} {c : Cast} {n i : ℕ} {line : ModeLine}

/-- The walk sends the line to a client that it comes to. -/
def ModeSend.Reach (m : ModeSend) (n i : ℕ) (c : Cast) (who : ClientId) : Prop :=
  m.one ≠ some who ∧ fits (c.state.link who).caps n = true ∧
    ¬(c.state.lazy who = true ∧ c.knows who = false ∧ m.introducing n ≤ i)

/-- The client knows the channel now. -/
def Cast.learn (c : Cast) (who : ClientId) : Cast := { c with knows := Function.update c.knows who true }

/-- The line is in the queue of the client. -/
def Cast.queue (c : Cast) (who : ClientId) (line : ModeLine) : Cast := { c with sent := c.sent ++ [(who, line)] }

theorem to_queue (c : Cast) (who other : ClientId) (line : ModeLine) :
    (c.queue who line).to other = c.to other ++ if who = other then [line] else [] := by
  simp only [Cast.to, Cast.queue, List.filter_append, List.map_append]
  congr 1
  by_cases same : who = other <;> simp [same]

theorem walk_skip {who : ClientId} (rest : List ClientId) (skipped : ¬m.Reach n i c who) :
    m.walk n i line (who :: rest) c = m.walk n i line rest c := by
  rw [ModeSend.walk]
  split
  · rfl
  · next one =>
    split
    · rfl
    · next fit =>
      split
      · rfl
      · next open_ => exact absurd ⟨one, Bool.not_eq_false _ ▸ fit, open_⟩ skipped

theorem walk_reach {who : ClientId} (rest : List ClientId) (reached : m.Reach n i c who) :
    m.walk n i line (who :: rest) c =
      if m.fails who i then
        { c.learn who with state := (who :: m.along who).foldl State.exitClient c.state }
      else m.walk n i line rest ((c.learn who).queue who line) := by
  obtain ⟨one, fit, open_⟩ := reached
  rw [ModeSend.walk, if_neg one, if_neg (by simp [fit]), if_neg open_]
  rfl

/-- While the walk goes on, only what has been sent and who knows the channel changes, and that for others. -/
theorem reach_queue {who other : ClientId} (different : other ≠ who) :
    m.Reach n i ((c.learn who).queue who line) other ↔ m.Reach n i c other := by
  simp only [ModeSend.Reach, Cast.learn, Cast.queue, Function.update_of_ne different]

theorem walk_unreached (line : ModeLine) (l : List ClientId) {other : ClientId} (unreached : other ∈ l → ¬m.Reach n i c other) :
    (m.walk n i line l c).to other = c.to other ∧ (m.walk n i line l c).knows other = c.knows other := by
  induction l generalizing c with
  | nil => exact ⟨rfl, rfl⟩
  | cons who rest ih =>
    by_cases reached : m.Reach n i c who
    · have different : other ≠ who := by
        rintro rfl
        exact unreached List.mem_cons_self reached
      rw [walk_reach rest reached]
      split
      · exact ⟨rfl, Function.update_of_ne different ..⟩
      · obtain ⟨same, knows⟩ := ih (c := (c.learn who).queue who line) fun member => by
          rw [reach_queue different]
          exact unreached (List.mem_cons_of_mem _ member)
        rw [to_queue, if_neg (Ne.symm different), List.append_nil] at same
        exact ⟨same, knows.trans (Function.update_of_ne different ..)⟩
    · rw [walk_skip rest reached]
      exact ih fun member => unreached (List.mem_cons_of_mem _ member)

/-- A server that is reached and stays gets the line, as nobody in front of it dies. -/
theorem walk_reached (sound : c.state.Sound) (alive : c.state.Alive) {l : List ClientId} (nodup : l.Nodup)
    {other : ClientId} (member : other ∈ l) (reached : m.Reach n i c other)
    (spared : ∀ who, List.Sublist [who, other] l → m.Reach n i c who → m.fails who i = false)
    (stays : other ∈ (m.walk n i line l c).state.servList) :
    (m.walk n i line l c).to other = c.to other ++ [line] ∧ (m.walk n i line l c).knows other = true := by
  induction l generalizing c with
  | nil => cases member
  | cons who rest ih =>
    obtain ⟨notLater, nodup⟩ := List.nodup_cons.mp nodup
    by_cases here : other = who
    · subst here
      rw [walk_reach rest reached] at stays ⊢
      split at stays
      · -- the link itself dies
        have gone := sound.not_mem_exitClient alive other
        have loses := ((sound.exitClient other).exits (sound.alive_exitClient alive other) (m.along other)).2.2
        exact absurd (loses.servers.subset stays) gone
      · next lives =>
        rw [if_neg lives]
        obtain ⟨same, knows⟩ := walk_unreached (m := m) (n := n) (i := i)
          (c := (c.learn other).queue other line) line rest fun later => absurd later notLater
        refine ⟨same.trans ?_, knows.trans (Function.update_self ..)⟩
        rw [to_queue, if_pos rfl]
        rfl
    · have later : other ∈ rest := (List.mem_cons.mp member).resolve_left here
      by_cases first : m.Reach n i c who
      · have lives := spared who (List.cons_sublist_cons.mpr (List.singleton_sublist.mpr later)) first
        rw [walk_reach rest first, if_neg (by simp [lives])] at stays ⊢
        obtain ⟨same, knows⟩ := ih (c := (c.learn who).queue who line) sound alive nodup later
          ((reach_queue here).mpr reached) (fun next order next' => by
            have different : next ≠ who := by
              rintro rfl
              exact notLater (order.subset List.mem_cons_self)
            exact spared next (order.cons who) ((reach_queue different).mp next')) stays
        rw [to_queue, if_neg (Ne.symm here), List.append_nil] at same
        exact ⟨same, knows⟩
      · rw [walk_skip rest first] at stays ⊢
        exact ih sound alive nodup later reached (fun next order => spared next (order.cons who)) stays

/-! ### A MODE -/

/-- While a MODE is sent, servers only go, and those that have come to know the channel were told to, or knew it. -/
structure ModeSend.Valid (m : ModeSend) (s : State) (c : Cast) : Prop where
  sound : c.state.Sound
  alive : c.state.Alive
  loses : s.Loses c.state
  learned : ∀ who (n : Fin nchcapCombos), fits (s.link who).caps n = true → s.lazy who = true →
    c.knows who = true → m.knows who = true ∨ 0 < m.introducing n
  remembers : ∀ who, m.knows who = true → c.knows who = true

theorem State.Loses.lazy {t : State} (loses : s.Loses t) (who : ClientId) : t.lazy who = s.lazy who := by
  rw [State.lazy, State.lazy, loses.hub, loses.caps]

theorem ModeSend.Valid.learn (valid : m.Valid s c) {who : ClientId} {n : Fin nchcapCombos}
    (reached : m.Reach n i c who) : m.Valid s (c.learn who) := by
  refine ⟨valid.sound, valid.alive, valid.loses, fun other n' fit isLazy known => ?_, fun other known => ?_⟩
  · by_cases here : other = who
    · subst here
      obtain ⟨-, fit', open_⟩ := reached
      rw [valid.loses.caps] at fit'
      obtain rfl := fits_unique fit fit'
      cases known' : c.knows other
      · right
        by_contra none
        exact open_ ⟨(valid.loses.lazy other).trans isLazy, known', by omega⟩
      · exact valid.learned other n' fit isLazy known'
    · simp only [Cast.learn, Function.update_of_ne here] at known
      exact valid.learned other n' fit isLazy known
  · simp only [Cast.learn, Function.update_apply]
    split
    · rfl
    · exact valid.remembers other known

theorem ModeSend.Valid.walk (valid : m.Valid s c) (n : Fin nchcapCombos) (i : ℕ) (line : ModeLine)
    (l : List ClientId) :
    m.Valid s (m.walk n i line l c) ∧ c.state.Loses (m.walk n i line l c).state := by
  induction l generalizing c with
  | nil => exact ⟨valid, State.Loses.refl _⟩
  | cons who rest ih =>
    by_cases reached : m.Reach n i c who
    · have learned := valid.learn reached
      rw [walk_reach rest reached]
      split
      · obtain ⟨sound, alive, loses⟩ := valid.sound.exits valid.alive (who :: m.along who)
        exact ⟨⟨sound, alive, valid.loses.trans loses, learned.learned, learned.remembers⟩, loses⟩
      · exact ih (c := (c.learn who).queue who line)
          ⟨valid.sound, valid.alive, valid.loses, learned.learned, learned.remembers⟩
    · rw [walk_skip rest reached]
      exact ih valid

theorem ModeSend.Valid.sendtoServer (valid : m.Valid s c) (n : Fin nchcapCombos) (line : ModeLine × ℕ) :
    m.Valid s (m.sendtoServer n c line) ∧ c.state.Loses (m.sendtoServer n c line).state := by
  unfold ModeSend.sendtoServer
  split
  · exact ⟨valid, State.Loses.refl _⟩
  · exact valid.walk n line.2 line.1 c.state.servList

theorem ModeSend.Valid.lines (valid : m.Valid s c) (n : Fin nchcapCombos) (list : List (ModeLine × ℕ)) :
    m.Valid s (list.foldl (m.sendtoServer n) c) ∧ c.state.Loses (list.foldl (m.sendtoServer n) c).state := by
  induction list generalizing c with
  | nil => exact ⟨valid, State.Loses.refl _⟩
  | cons line list ih =>
    obtain ⟨first, loses⟩ := valid.sendtoServer n line
    obtain ⟨rest, loses'⟩ := ih first
    exact ⟨rest, loses.trans loses'⟩

theorem ModeSend.Valid.round (valid : m.Valid s c) (n : Fin nchcapCombos) :
    m.Valid s (m.round c n) ∧ c.state.Loses (m.round c n).state := by
  unfold ModeSend.round
  split
  · exact valid.lines n _
  · exact ⟨valid, State.Loses.refl _⟩

theorem ModeSend.Valid.rounds (valid : m.Valid s c) (list : List (Fin nchcapCombos)) :
    m.Valid s (list.foldl m.round c) ∧ c.state.Loses (list.foldl m.round c).state := by
  induction list generalizing c with
  | nil => exact ⟨valid, State.Loses.refl _⟩
  | cons n list ih =>
    obtain ⟨first, loses⟩ := valid.round n
    obtain ⟨rest, loses'⟩ := ih first
    exact ⟨rest, loses.trans loses'⟩

theorem ModeSend.Valid.start (sound : s.Sound) (alive : s.Alive) : m.Valid s ⟨s, m.knows, []⟩ :=
  ⟨sound, alive, State.Loses.refl s, fun _ _ _ _ known => .inl known, fun _ known => known⟩

/-- The walk comes only to those that the MODE is for. -/
theorem ModeSend.Valid.for_of_reach (valid : m.Valid s c) (shown : m.chname.head? ≠ some '&') {n : Fin nchcapCombos}
    {who : ClientId} (reached : m.Reach n i c who) : fits (s.link who).caps n = true ∧ m.For s n who := by
  obtain ⟨one, fit, open_⟩ := reached
  rw [valid.loses.caps] at fit
  refine ⟨fit, one, shown, fun isLazy => ?_⟩
  cases known : c.knows who
  · right
    by_contra none
    exact open_ ⟨(valid.loses.lazy who).trans isLazy, known, by omega⟩
  · exact valid.learned who n fit isLazy known

/-- Lines of another combination, or of a MODE that is not for the server, leave it alone. -/
theorem ModeSend.Valid.lines_unreached (valid : m.Valid s c) (n : Fin nchcapCombos) {who : ClientId}
    (unreached : ¬(fits (s.link who).caps n = true ∧ m.For s n who)) (list : List (ModeLine × ℕ)) :
    (list.foldl (m.sendtoServer n) c).to who = c.to who ∧
      (list.foldl (m.sendtoServer n) c).knows who = c.knows who := by
  induction list generalizing c with
  | nil => exact ⟨rfl, rfl⟩
  | cons line list ih =>
    have first : (m.sendtoServer n c line).to who = c.to who ∧ (m.sendtoServer n c line).knows who = c.knows who := by
      unfold ModeSend.sendtoServer
      split
      · exact ⟨rfl, rfl⟩
      · next shown =>
        exact walk_unreached line.1 _ fun _ reached => unreached (valid.for_of_reach shown reached)
    obtain ⟨same, knows⟩ := ih (valid.sendtoServer n line).1
    exact ⟨same.trans first.1, knows.trans first.2⟩

/-- A server that stays gets the lines of its combination, from a number on. -/
theorem ModeSend.Valid.lines_reached (valid : m.Valid s c) (upheld : s.Upheld (.mode m)) {n : Fin nchcapCombos}
    {who : ClientId} (fit : fits (s.link who).caps n = true) (isFor : m.For s n who) (list : List ModeLine) (k : ℕ)
    (within : k + list.length ≤ (m.lines n).length)
    (ready : s.lazy who = true → c.knows who = true ∨ k < m.introducing n)
    (stays : who ∈ ((list.zipIdx k).foldl (m.sendtoServer n) c).state.servList) :
    ((list.zipIdx k).foldl (m.sendtoServer n) c).to who = c.to who ++ list := by
  induction list generalizing c k with
  | nil => exact (List.append_nil _).symm
  | cons line list ih =>
    rw [List.zipIdx_cons, List.foldl_cons] at stays ⊢
    rw [List.length_cons] at within
    have after := valid.sendtoServer n (line, k)
    have member := (after.1.lines n (list.zipIdx (k + 1))).2.servers.subset stays
    have reached : m.Reach n k c who := by
      refine ⟨isFor.1, (valid.loses.caps who).symm ▸ fit, fun closed => ?_⟩
      rcases ready ((valid.loses.lazy who).symm.trans closed.1) with known | introduced
      · rw [known] at closed
        cases closed.2.1
      · omega
    have spared : ∀ other, List.Sublist [other, who] c.state.servList → m.Reach n k c other →
        m.fails other k = false := by
      intro other order reached'
      obtain ⟨fit', isFor'⟩ := valid.for_of_reach isFor.2.1 reached'
      exact upheld other who n (order.trans valid.loses.servers) fit' fit isFor' isFor k (by omega)
    simp only [ModeSend.sendtoServer, if_neg isFor.2.1] at member after stays ⊢
    obtain ⟨got, knows⟩ := walk_reached valid.sound valid.alive valid.sound.nodup
      ((valid.walk n k line c.state.servList).2.servers.subset member) reached spared member
    rw [ih after.1 (k + 1) (by omega) (fun _ => .inl knows) stays, got, List.append_assoc]
    rfl

theorem ModeSend.Valid.rounds_unreached (valid : m.Valid s c) {who : ClientId} (list : List (Fin nchcapCombos))
    (unreached : ∀ n ∈ list, ¬(fits (s.link who).caps n = true ∧ m.For s n who)) :
    (list.foldl m.round c).to who = c.to who := by
  induction list generalizing c with
  | nil => rfl
  | cons n list ih =>
    have first : (m.round c n).to who = c.to who := by
      unfold ModeSend.round
      split
      · exact (valid.lines_unreached n (unreached n List.mem_cons_self) _).1
      · rfl
    exact (ih (valid.round n).1 fun n' member => unreached n' (List.mem_cons_of_mem n member)).trans first

/-- In the round of its combination, which is counted, a server that stays gets the lines. -/
theorem ModeSend.Valid.rounds_reached (valid : m.Valid s c) (upheld : s.Upheld (.mode m)) {n : Fin nchcapCombos}
    {who : ClientId} (fit : fits (s.link who).caps n = true) (isFor : m.For s n who)
    {list : List (Fin nchcapCombos)} (nodup : list.Nodup) (turn : n ∈ list)
    (stays : who ∈ (list.foldl m.round c).state.servList) :
    (list.foldl m.round c).to who = c.to who ++ m.lines n := by
  induction list generalizing c with
  | nil => cases turn
  | cons n' list ih =>
    obtain ⟨notLater, nodup⟩ := List.nodup_cons.mp nodup
    rw [List.foldl_cons] at stays ⊢
    have after := valid.round n'
    have member := (after.1.rounds list).2.servers.subset stays
    by_cases here : n = n'
    · subst here
      have counted : c.state.count n ≠ 0 := by
        rw [valid.sound.counted.exact]
        refine (List.countP_pos_iff.mpr ⟨who, after.2.servers.subset member, ?_⟩).ne'
        exact (valid.loses.caps who).symm ▸ fit
      have ready : s.lazy who = true → c.knows who = true ∨ 0 < m.introducing n := fun isLazy =>
        (isFor.2.2 isLazy).imp_left (valid.remembers who)
      rw [after.1.rounds_unreached list fun n' later both => notLater (fits_unique both.1 fit ▸ later)]
      simp only [ModeSend.round, if_pos counted] at member ⊢
      exact valid.lines_reached upheld fit isFor (m.lines n) 0 (by omega) ready member
    · have first : (m.round c n').to who = c.to who := by
        refine valid.rounds_unreached [n'] fun n'' single both => here ?_
        exact (fits_unique fit both.1).trans (List.mem_singleton.mp single)
      rw [ih after.1 nodup ((List.mem_cons.mp turn).resolve_left here) stays, first]

theorem ModeSend.delivered (sound : s.Sound) (alive : s.Alive) (upheld : s.Upheld (.mode m)) : m.Delivered s := by
  have valid : m.Valid s ⟨s, m.knows, []⟩ := .start sound alive
  intro who stays n fit
  unfold ModeSend.send at stays ⊢
  constructor
  · intro isFor
    rw [valid.rounds_reached upheld fit isFor (List.nodup_finRange _) (List.mem_finRange n) stays]
    rfl
  · intro notFor
    apply valid.rounds_unreached
    rintro n' - ⟨fit', isFor⟩
    obtain rfl := fits_unique fit fit'
    exact notFor isFor

theorem State.Sound.mode (sound : s.Sound) (alive : s.Alive) (m : ModeSend) :
    (m.send s).state.Sound ∧ (m.send s).state.Alive := by
  have after := ((ModeSend.Valid.start (m := m) sound alive).rounds (List.finRange nchcapCombos)).1
  unfold ModeSend.send
  exact ⟨after.sound, after.alive⟩

end

/-! ### Runs -/

section

variable {s : State}

theorem sound_start (hub : Bool) : (start hub).Sound := by
  refine ⟨⟨rfl, fun n => rfl⟩, List.nodup_nil, by simp [start], by simp [start]⟩

theorem State.Sound.connect (sound : s.Sound) :
    State.Sound { s.setLink s.nextClient ⟨.unknown, 0, false⟩ with
      nextClient := s.nextClient + 1
      unknownList := s.nextClient :: s.unknownList } := by
  have notListed : s.nextClient ∉ s.servList := fun listed => Nat.lt_irrefl _ (sound.servers _ listed).1
  have changed := sound.change notListed ⟨.unknown, 0, false⟩ (s.nextClient :: s.unknownList) (by
    intro other below live unregistered
    rw [Function.update_of_ne below.ne] at live unregistered
    exact List.mem_cons_of_mem _ (sound.waiting other below live unregistered))
  refine ⟨⟨changed.counted.asserted, changed.counted.exact⟩, changed.nodup, fun other listed => ?_, ?_⟩
  · exact (changed.servers other listed).imp_left Nat.lt_succ_of_lt
  · intro other below live unregistered
    rcases Nat.lt_succ_iff_lt_or_eq.mp below with old | rfl
    · exact changed.waiting other old live unregistered
    · exact List.mem_cons_self

/-- The link of one that is not registered changes, and if it is registered then, it is on `unknown_list` no longer. -/
theorem State.Sound.wait (sound : s.Sound) {who : ClientId} (unregistered : (s.link who).unregistered = true)
    (link : Link) (unknown : List ClientId) (others : ∀ other ≠ who, other ∈ s.unknownList → other ∈ unknown)
    (self : link.unregistered = true → link.dead = false → who < s.nextClient → who ∈ unknown) :
    { s.setLink who link with unknownList := unknown }.Sound := by
  refine sound.change (sound.notListed unregistered) link unknown fun other below live unregistered' => ?_
  by_cases here : other = who
  · subst here
    rw [Function.update_self] at live unregistered'
    exact self unregistered' live below
  · rw [Function.update_of_ne here] at live unregistered'
    exact others other here (sound.waiting other below live unregistered')

theorem State.Alive.setLink (alive : s.Alive) {who : ClientId} (notListed : who ∉ s.servList) (link : Link) :
    (s.setLink who link).Alive := by
  intro other listed
  have different : other ≠ who := by
    rintro rfl
    exact notListed listed
  simp only [State.setLink, Function.update_of_ne different]
  exact alive other listed

theorem State.Sound.alive_serverEstab (sound : s.Sound) (alive : s.Alive) {who : ClientId}
    (live : (s.link who).dead = false) (unregistered : (s.link who).unregistered = true) :
    (s.serverEstab who false).Alive := by
  have set := alive.setLink (sound.notListed unregistered) { s.link who with status := .server }
  have self : ((s.setLink who { s.link who with status := .server }).link who).dead = false := by
    simp [State.setLink, live]
  simp only [State.serverEstab, Bool.false_eq_true, if_false, State.setChcapUsageCounts]
  split <;> split
  · exact fun other listed => (List.mem_cons.mp listed).elim (fun here => here ▸ self) (set other)
  · exact set
  · exact fun other listed => (List.mem_cons.mp listed).elim (fun here => here ▸ self) (set other)
  · exact set

theorem State.Sound.step (sound : s.Sound) (alive : s.Alive) {op : Op} (upheld : s.Upheld op) :
    (s.step op).Sound ∧ (s.step op).Alive := by
  unfold State.step
  split
  · next here =>
    cases op with
    | connect =>
      have notListed : s.nextClient ∉ s.servList := fun listed => Nat.lt_irrefl _ (sound.servers _ listed).1
      exact ⟨sound.connect, alive.setLink notListed _⟩
    | capab who caps =>
      have waits := sound.waiting who here.1 here.2.1 here.2.2
      exact ⟨sound.wait here.2.2 _ _ (fun _ _ member => member) fun _ _ _ => waits,
        alive.setLink (sound.notListed here.2.2) _⟩
    | connecting who =>
      have waits := sound.waiting who here.1 here.2.1 here.2.2
      exact ⟨sound.wait here.2.2 _ _ (fun _ _ member => member) fun _ _ _ => waits,
        alive.setLink (sound.notListed here.2.2) _⟩
    | handshake who =>
      have waits := sound.waiting who here.1 here.2.1 here.2.2
      exact ⟨sound.wait here.2.2 _ _ (fun _ _ member => member) fun _ _ _ => waits,
        alive.setLink (sound.notListed here.2.2) _⟩
    | register who =>
      refine ⟨sound.wait here.2.2 _ _ (fun _ different => (List.mem_erase_of_ne different).mpr) ?_,
        alive.setLink (sound.notListed here.2.2) _⟩
      exact fun registered => absurd registered (by simp [Link.unregistered])
    | estab who dies =>
      obtain rfl := upheld here
      exact ⟨sound.serverEstab here.1 here.2.1 here.2.2, sound.alive_serverEstab alive here.2.1 here.2.2⟩
    | exit who => exact ⟨sound.exitClient who, sound.alive_exitClient alive who⟩
    | mode m => exact sound.mode alive m
  · exact ⟨sound, alive⟩

/-- Each word of capabilities has one combination. In a run in which no link dies while it is established, the counts
are always those of the servers, no assertion fails, and a MODE whose lines kill no server in front of another one
that they are for is sent to each server once, in the form of its combination. -/
theorem combos_right (hub : Bool) (ops : List Op) (upheld : Along State.step State.Upheld (start hub) ops) :
    (∀ caps, ∃! n : Fin nchcapCombos, fits caps n = true) ∧
      ∀ k, (run hub (ops.take k)).Counted ∧
        ∀ m, ops[k]? = some (.mode m) → m.Delivered (run hub (ops.take k)) := by
  have keep : ∀ (s : State) op, s.Sound ∧ s.Alive → s.Upheld op → (s.step op).Sound ∧ (s.step op).Alive :=
    fun _ _ both here => both.1.step both.2 here
  refine ⟨existsUnique_fits, fun k => ?_⟩
  have both := (upheld.take k).keeps keep ⟨sound_start hub, by simp [start, State.Alive]⟩
  exact ⟨both.1.counted, fun m at_ => m.delivered both.1 both.2 (upheld.at_index at_)⟩

/-- Somebody is made an op by a client of this server. -/
def opMode : ModeSend where
  one := none
  chname := ['#', 'a']
  header := fun _ => ":d MODE #a ".toList
  minus := []
  plus := [⟨'o', some ['e'], none, ∅, ∅, .allMembers⟩]
  knows := fun _ => false
  fails := fun _ _ => false
  along := fun _ => []

/-- A server with half ops and ids and one without are linked, and one leaves. -/
def linkAndSplit : List Op :=
  [.connect, .capab 0 0x4801, .estab 0 false, .connect, .capab 1 0x1, .handshake 1, .estab 1 false, .mode opMode,
    .exit 0]

theorem combos_right_linkAndSplit :
    (∀ caps, ∃! n : Fin nchcapCombos, fits caps n = true) ∧
      ∀ k, (run true (linkAndSplit.take k)).Counted ∧
        ∀ m, linkAndSplit[k]? = some (.mode m) → m.Delivered (run true (linkAndSplit.take k)) := by
  have upheld : Along State.step State.Upheld (start true) linkAndSplit := by
    refine ⟨trivial, trivial, fun _ => rfl, trivial, trivial, trivial, fun _ => rfl, ?_, trivial, trivial⟩
    exact fun _ _ _ _ _ _ _ _ _ _ => rfl
  exact combos_right true linkAndSplit upheld

/-- A server that is gone when it is established is counted, though it is not on the list. -/
theorem dead_server_counted :
    ¬(run true [Op.connect, Op.capab 0 0x4801, Op.handshake 0, Op.estab 0 true]).Counted := by
  intro counted
  have exact := counted.exact 17
  revert exact
  decide

end

end Ircd.Chan.Combos
