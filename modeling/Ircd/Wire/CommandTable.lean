import Ircd.Gline.Majority
import Mathlib.Tactic.IntervalCases

/-!
# The command table

`mod_add_cmd`, `mod_del_cmd` and `hash_parse` of `src/parse.c`. A module hands in the array of its messages when it is
loaded, and hands in the same array again before its code is unmapped.
-/
namespace Ircd.CommandTable

open Gline (strCaseEq)

/-- `MAX_MSG_HASH`. -/
abbrev maxMsgHash : ℕ := 387

/-- `struct Message`. A message without a protocol is for every client. -/
structure Message (π : Type) where
  cmd : List Char
  count : ℕ
  rcount : ℕ
  bytes : ℕ
  protocol : Option π
deriving DecidableEq

/-- `struct MessageHash`, with the address of the message. -/
structure MessageHash (α : Type) where
  cmd : List Char
  msg : α
deriving DecidableEq

/-- `msg_hash_table`, and the messages at their addresses, in the arrays of the modules. -/
structure State (π α : Type) where
  table : Fin maxMsgHash → List (MessageHash α)
  message : α → Message π

/-- `hash`. -/
def hash (p : List Char) : Fin maxMsgHash :=
  ⟨(p.map fun c => c.toNat &&& 0xDF).sum % maxMsgHash, Nat.mod_lt _ (by decide)⟩

variable {π α : Type}

namespace State

/-- The chain that a message belongs to. -/
def chain (s : State π α) (msg : α) : List (MessageHash α) := s.table (hash (s.message msg).cmd)

/-- An entry has the command of a message. -/
def found (s : State π α) (msg : α) (ptr : MessageHash α) : Bool := decide (strCaseEq (s.message msg).cmd ptr.cmd)

/-! ### `parse.c` -/

/-- The chain of a message has its command for its protocol. -/
def known [DecidableEq π] (s : State π α) (msg : α) : Bool :=
  (s.chain msg).any fun ptr => s.found msg ptr && decide ((s.message msg).protocol = (s.message ptr.msg).protocol)

/-- A message gets an entry in front of its chain, and its counters start. -/
def link [DecidableEq α] (s : State π α) (msg : α) : State π α where
  table := Function.update s.table (hash (s.message msg).cmd) (⟨(s.message msg).cmd, msg⟩ :: s.chain msg)
  message := Function.update s.message msg { s.message msg with count := 0, rcount := 0, bytes := 0 }

/-- `mod_add_cmd`. The array is the list of its messages, without the one at the end that has no command. -/
def modAddCmd [DecidableEq π] [DecidableEq α] (s : State π α) : List α → State π α
  | [] => s
  -- the whole call ends at a message that is there already
  | msg :: msgs => if s.known msg then s else (s.link msg).modAddCmd msgs

/-- The first entry with the command of a message is unlinked and freed. -/
def unlink (s : State π α) (msg : α) : State π α :=
  { s with table := Function.update s.table (hash (s.message msg).cmd) ((s.chain msg).eraseP (s.found msg)) }

/-- The loop of `mod_del_cmd`, and whether `last_ptr` is set. There is no result if the chain still has an entry that is
freed. -/
def delCmds (s : State π α) (lastPtr : Bool) : List α → Option (State π α)
  | [] => some s
  | msg :: msgs =>
    if (s.chain msg).any (s.found msg) then
      -- `last_ptr` of a chain before is linked to the rest, and not the head of this chain
      if lastPtr && (s.chain msg).head?.any (s.found msg) then none else some (s.unlink msg)
    else s.delCmds (lastPtr || !(s.chain msg).isEmpty) msgs

/-- `mod_del_cmd`. -/
def modDelCmd (s : State π α) (msgs : List α) : Option (State π α) := s.delCmds false msgs

/-- `hash_parse`, for a client with a protocol and the parents of it. -/
def hashParse [DecidableEq π] (s : State π α) (protocols : List π) (cmd : List Char) : Option α :=
  ((s.table (hash cmd)).find? fun ptr =>
    decide (strCaseEq cmd ptr.cmd) && (s.message ptr.msg).protocol.all (· ∈ protocols)).map (·.msg)

end State

/-! ### What unloading should leave -/

variable [DecidableEq π]

/-- Nothing of a module is left, and the rest is as it was. -/
structure Unloaded [DecidableEq α] (s s' : State π α) (msgs : List α) : Prop where
  gone : ∀ i, ∀ ptr ∈ s'.table i, ptr.msg ∉ msgs
  others : ∀ i, (s'.table i).filter (·.msg ∉ msgs) = (s.table i).filter (·.msg ∉ msgs)
  messages : ∀ msg, msg ∉ msgs → s'.message msg = s.message msg
  lookup : ∀ protocols cmd, s'.hashParse protocols cmd = s.hashParse protocols cmd

/-- A module that is loaded and unloaded again leaves no trace. -/
def Unloads [DecidableEq α] (s : State π α) (msgs : List α) : Prop :=
  ∃ s', (s.modAddCmd msgs).modDelCmd msgs = some s' ∧ Unloaded s s' msgs

/-- Two messages are for the same command and protocol. -/
def State.alike (s : State π α) (msg other : α) : Bool :=
  decide (strCaseEq (s.message other).cmd (s.message msg).cmd) &&
    decide ((s.message other).protocol = (s.message msg).protocol)

/-- The first message of an array is new, and the one behind it is not new then. -/
def State.OneNew (s : State π α) : List α → Prop
  | [] => True
  | msg :: msgs => s.known msg = false ∧ ∀ other ∈ msgs.head?, s.known other = true ∨ s.alike msg other = true

/-! ### Loading -/

theorem toLower_mask (c : Char) : c.toLower.toNat &&& 0xDF = c.toNat &&& 0xDF := by
  unfold Char.toLower
  split
  next upper =>
    obtain ⟨low, high⟩ := upper
    have low' : 65 ≤ c.toNat := low
    have high' : c.toNat ≤ 90 := high
    have moved : (c.val + ('a'.val - 'A'.val)).toNat = c.toNat + 32 := by
      rw [UInt32.toNat_add, Nat.mod_eq_of_lt]
      · rfl
      · exact Nat.lt_of_le_of_lt (Nat.add_le_add_right high' _) (by decide)
    change (c.val + ('a'.val - 'A'.val)).toNat &&& 0xDF = _
    rw [moved]
    generalize c.toNat = n at low' high'
    interval_cases n <;> rfl
  next => rfl

/-- Commands that differ in case only are in one chain. -/
theorem hash_eq {cmd cmd' : List Char} (same : strCaseEq cmd cmd') : hash cmd = hash cmd' := by
  have folded : ∀ p : List Char, (p.map fun c => c.toNat &&& 0xDF) = (p.map Char.toLower).map (·.toNat &&& 0xDF) := by
    intro p
    rw [List.map_map]
    exact List.map_congr_left fun c _ => (toLower_mask c).symm
  have lower : cmd.map Char.toLower = cmd'.map Char.toLower := same
  rw [hash, Fin.mk.injEq, folded, lower, ← folded]
  rfl

namespace State

variable [DecidableEq α] {s : State π α} {msg other : α} {msgs : List α}

omit [DecidableEq π] in
@[simp] theorem link_cmd : ((s.link msg).message other).cmd = (s.message other).cmd := by
  by_cases self : other = msg
  · subst self
    simp [link]
  · simp [link, self]

omit [DecidableEq π] in
@[simp] theorem link_protocol : ((s.link msg).message other).protocol = (s.message other).protocol := by
  by_cases self : other = msg
  · subst self
    simp [link]
  · simp [link, self]

omit [DecidableEq π] in
theorem link_table : (s.link msg).table =
    Function.update s.table (hash (s.message msg).cmd) (⟨(s.message msg).cmd, msg⟩ :: s.chain msg) := rfl

omit [DecidableEq π] in
theorem link_found : (s.link msg).found other = s.found other := by
  funext ptr
  rw [found, found, link_cmd]

omit [DecidableEq π] in
theorem link_chain : (s.link msg).chain other =
    if hash (s.message other).cmd = hash (s.message msg).cmd then ⟨(s.message msg).cmd, msg⟩ :: s.chain other
    else s.chain other := by
  rw [chain, link_cmd, link_table]
  by_cases here : hash (s.message other).cmd = hash (s.message msg).cmd
  · rw [if_pos here, here, Function.update_self, chain, chain, here]
  · rw [if_neg here, Function.update_of_ne here, chain]

omit [DecidableEq π] [DecidableEq α] in
theorem found_self : s.found msg ⟨(s.message msg).cmd, msg⟩ = true := decide_eq_true rfl

omit [DecidableEq π] in
theorem link_listed : ⟨(s.message msg).cmd, msg⟩ ∈ (s.link msg).chain msg := by
  rw [link_chain, if_pos rfl]
  exact List.mem_cons_self

/-- After a message is linked, those like it are known too. -/
theorem link_known : (s.link msg).known other = true ↔ s.known other = true ∨ s.alike msg other = true := by
  unfold known
  rw [link_chain]
  simp only [link_found, link_protocol]
  split
  next here => rw [List.any_cons, Bool.or_eq_true, or_comm]; rfl
  next apart =>
    refine (or_iff_left fun alike => apart ?_).symm
    exact hash_eq (of_decide_eq_true (Bool.and_eq_true_iff.mp alike).1)

/-- Loading leaves the command and the protocol of a message, and every chain gets longer at its front. -/
theorem modAddCmd_kept (s : State π α) (msgs : List α) :
    (∀ other, ((s.modAddCmd msgs).message other).cmd = (s.message other).cmd) ∧
      ∀ i, s.table i <:+ (s.modAddCmd msgs).table i := by
  induction msgs generalizing s with
  | nil => exact ⟨fun _ => rfl, fun i => List.suffix_rfl⟩
  | cons msg msgs ih =>
    rw [modAddCmd]
    split
    · exact ⟨fun _ => rfl, fun i => List.suffix_rfl⟩
    · obtain ⟨cmd, chains⟩ := ih (s.link msg)
      refine ⟨fun other => (cmd other).trans link_cmd, fun i => List.IsSuffix.trans ?_ (chains i)⟩
      by_cases here : i = hash (s.message msg).cmd
      · subst here
        rw [link_table, Function.update_self]
        exact List.suffix_cons _ _
      · rw [link_table, Function.update_of_ne here]

/-! ### Unloading -/

omit [DecidableEq π] [DecidableEq α] in
/-- `mod_del_cmd` unlinks the first entry with the command of the first message, if there is one, and is done. -/
theorem modDelCmd_found {ptr : MessageHash α} (listed : ptr ∈ s.chain msg) (found : s.found msg ptr = true) :
    s.modDelCmd (msg :: msgs) = some (s.unlink msg) := by
  rw [modDelCmd, delCmds, if_pos (List.any_eq_true.mpr ⟨ptr, listed, found⟩), Bool.false_and, if_neg Bool.false_ne_true]

omit [DecidableEq α] in
theorem hashParse_eq {s' : State π α} (table : s'.table = s.table)
    (protocol : ∀ msg, (s'.message msg).protocol = (s.message msg).protocol) (protocols : List π) (cmd : List Char) :
    s'.hashParse protocols cmd = s.hashParse protocols cmd := by
  simp only [hashParse, table, protocol]

omit [DecidableEq π] [DecidableEq α] in
/-- The entry that is unlinked stands behind entries that have other commands. -/
theorem unlink_table {ptr : MessageHash α} (listed : ptr ∈ s.chain msg) (found : s.found msg ptr = true) :
    ∃ first front back, (∀ ptr ∈ front, s.found msg ptr = false) ∧ s.found msg first = true ∧
      s.table (hash (s.message msg).cmd) = front ++ first :: back ∧
      (s.unlink msg).table = Function.update s.table (hash (s.message msg).cmd) (front ++ back) := by
  obtain ⟨first, front, back, others, here, split, erased⟩ := List.exists_of_eraseP listed found
  refine ⟨first, front, back, fun ptr member => Bool.eq_false_iff.mpr (others ptr member), here, split, ?_⟩
  rw [unlink, erased]

/-- A module whose first command was there already takes an entry away. -/
theorem not_unloaded_known {ptr : MessageHash α} (listed : ptr ∈ s.chain msg) (found : s.found msg ptr = true) :
    ¬Unloaded s (s.unlink msg) msgs := by
  obtain ⟨first, front, back, others, here, split, unlinked⟩ := unlink_table listed found
  intro unloaded
  by_cases own : first.msg ∈ msgs
  · -- the entry was the one that its own protocol finds
    have finds : s.hashParse (s.message first.msg).protocol.toList (s.message msg).cmd = some first.msg := by
      refine congrArg _ (List.find?_eq_some_iff_append.mpr ⟨?_, front, back, split, fun ptr member => ?_⟩)
      · have same : decide (strCaseEq (s.message msg).cmd first.cmd) = true := here
        rw [same, Bool.true_and]
        cases (s.message first.msg).protocol <;> simp
      · have other : decide (strCaseEq (s.message msg).cmd ptr.cmd) = false := others ptr member
        rw [other, Bool.false_and]
        rfl
    rw [← unloaded.lookup, hashParse, Option.map_eq_some_iff] at finds
    obtain ⟨ptr, after, same⟩ := finds
    exact unloaded.gone _ ptr (List.mem_of_find?_eq_some after) (same ▸ own)
  · -- an entry of another module is lost
    have kept := unloaded.others (hash (s.message msg).cmd)
    rw [unlinked, Function.update_self, split, List.filter_append, List.filter_append,
      List.filter_cons_of_pos (by simpa using own)] at kept
    have lengths := congrArg List.length kept
    simp at lengths

/-- Of two messages that are added one keeps its entry. -/
theorem not_gone_second (s : State π α) (msg other : α) (rest msgs : List α) :
    ∃ s', (((s.link msg).link other).modAddCmd rest).modDelCmd (msg :: msgs) = some s' ∧
      ∃ i, ∃ ptr ∈ s'.table i, ptr.msg = msg ∨ ptr.msg = other := by
  obtain ⟨cmds, chains⟩ := modAddCmd_kept ((s.link msg).link other) rest
  generalize ((s.link msg).link other).modAddCmd rest = s₁ at cmds chains
  have longer : ∀ m, ((s.link msg).link other).chain m <:+ s₁.chain m := by
    intro m
    rw [chain, chain, cmds]
    exact chains _
  have cmd : ∀ m, (s₁.message m).cmd = (s.message m).cmd := by
    intro m
    rw [cmds, link_cmd, link_cmd]
  have found : s₁.found msg ⟨(s.message msg).cmd, msg⟩ = true := by
    rw [State.found, cmd]
    exact found_self
  by_cases same : hash (s.message other).cmd = hash (s.message msg).cmd
  · -- one of the two is the entry that is unlinked
    have both : List.Sublist [⟨(s.message other).cmd, other⟩, ⟨(s.message msg).cmd, msg⟩] (s₁.chain msg) := by
      refine List.Sublist.trans ?_ (longer msg).sublist
      rw [link_chain, link_cmd, link_cmd, if_pos same.symm, link_chain, if_pos rfl]
      exact ((List.nil_sublist _).cons_cons _).cons_cons _
    refine ⟨_, modDelCmd_found (both.subset (by simp)) found, ?_⟩
    obtain ⟨gone, front, back, -, -, split, unlinked⟩ := unlink_table (both.subset (by simp)) found
    have two : _ ≤ (s₁.chain msg).countP fun ptr => decide (ptr.msg = msg ∨ ptr.msg = other) := both.countP_le
    have one : 0 < (front ++ back).countP fun ptr => decide (ptr.msg = msg ∨ ptr.msg = other) := by
      rw [chain, split, List.countP_append, List.countP_cons] at two
      rw [List.countP_append]
      simp only [List.countP_cons, List.countP_nil, or_true, true_or, decide_true, if_true] at two
      split at two <;> omega
    obtain ⟨ptr, member, own⟩ := List.countP_pos_iff.mp one
    refine ⟨hash (s₁.message msg).cmd, ptr, ?_, of_decide_eq_true own⟩
    rw [unlinked, Function.update_self]
    exact member
  · have listed : ⟨(s.message msg).cmd, msg⟩ ∈ s₁.chain msg := by
      refine (longer msg).subset ?_
      rw [link_chain, link_cmd, link_cmd, if_neg (Ne.symm same), link_chain, if_pos rfl]
      exact List.mem_cons_self
    have kept : ⟨(s.message other).cmd, other⟩ ∈ s₁.chain other := by
      refine (longer other).subset ?_
      rw [link_chain, if_pos rfl, link_cmd]
      exact List.mem_cons_self
    -- the entry of the other message is in a chain that nothing is taken from
    refine ⟨_, modDelCmd_found listed found, hash (s₁.message other).cmd, ⟨(s.message other).cmd, other⟩, ?_, .inr rfl⟩
    have apart : hash (s₁.message other).cmd ≠ hash (s₁.message msg).cmd := by
      rw [cmd, cmd]
      exact same
    have table : (s₁.unlink msg).table (hash (s₁.message other).cmd) = s₁.chain other := Function.update_of_ne apart _ _
    rw [table]
    exact kept

end State

/-- A module can be loaded and unloaded without a trace exactly if the table has no entry of it and it adds no more than
the one entry of its first message. -/
theorem unloads_iff [DecidableEq α] (s : State π α) (msgs : List α) :
    Unloads s msgs ↔ (∀ i, ∀ ptr ∈ s.table i, ptr.msg ∉ msgs) ∧ s.OneNew msgs := by
  cases msgs with
  | nil =>
    refine iff_of_true ⟨s, rfl, ?_⟩ ⟨fun _ _ _ => List.not_mem_nil, trivial⟩
    exact ⟨fun _ _ _ => List.not_mem_nil, fun _ => rfl, fun _ _ => rfl, fun _ _ => rfl⟩
  | cons msg msgs =>
    cases known : s.known msg with
    | true =>
      -- the module adds nothing, and takes the entry of another one away
      obtain ⟨ptr, listed, same⟩ := List.any_eq_true.mp known
      have found : s.found msg ptr = true := (Bool.and_eq_true_iff.mp same).1
      have loaded : s.modAddCmd (msg :: msgs) = s := if_pos known
      refine iff_of_false ?_ ?_
      · rintro ⟨s', done, unloaded⟩
        rw [loaded, State.modDelCmd_found listed found, Option.some.injEq] at done
        subst done
        exact State.not_unloaded_known listed found unloaded
      · rintro ⟨-, new, -⟩
        rw [known] at new
        cases new
    | false =>
      have loaded : s.modAddCmd (msg :: msgs) = (s.link msg).modAddCmd msgs := if_neg (by simp [known])
      by_cases next : ∀ other ∈ msgs.head?, (s.link msg).known other = true
      · -- the one entry of the module is unlinked again
        have stopped : (s.link msg).modAddCmd msgs = s.link msg := by
          cases msgs with
          | nil => rfl
          | cons other msgs => exact if_pos (next other rfl)
        have oneNew : s.OneNew (msg :: msgs) := ⟨known, fun other head => State.link_known.mp (next other head)⟩
        have table : ((s.link msg).unlink msg).table = s.table := by
          rw [State.unlink, State.link_chain, if_pos rfl, State.link_found, List.eraseP_cons_of_pos State.found_self,
            State.link_cmd, State.link_table]
          rw [Function.update_idem, State.chain, Function.update_eq_self]
        have done : (s.modAddCmd (msg :: msgs)).modDelCmd (msg :: msgs) = some ((s.link msg).unlink msg) := by
          rw [loaded, stopped]
          have found : (s.link msg).found msg ⟨(s.message msg).cmd, msg⟩ = true := by
            rw [State.link_found]
            exact State.found_self
          exact State.modDelCmd_found State.link_listed found
        rw [and_iff_left oneNew]
        constructor
        · rintro ⟨s', done', unloaded⟩
          obtain rfl := Option.some.inj (done.symm.trans done')
          exact table ▸ unloaded.gone
        · intro fresh
          refine ⟨_, done, ?_⟩
          constructor
          · rw [table]
            exact fresh
          · rw [table]
            exact fun _ => rfl
          · intro other outside
            have apart : other ≠ msg := fun self => outside (self ▸ List.mem_cons_self)
            exact Function.update_of_ne apart _ _
          · apply State.hashParse_eq table
            intro other
            change ((s.link msg).message other).protocol = _
            exact State.link_protocol
      · -- a second entry is added
        obtain ⟨other, head, new⟩ : ∃ other ∈ msgs.head?, (s.link msg).known other = false := by
          simpa using next
        obtain ⟨rest, rfl⟩ : ∃ rest, msgs = other :: rest := by
          cases msgs with
          | nil => cases head
          | cons first rest =>
            obtain rfl := Option.some.inj head
            exact ⟨rest, rfl⟩
        have both : (s.link msg).modAddCmd (other :: rest) = ((s.link msg).link other).modAddCmd rest :=
          if_neg (by simp [new])
        refine iff_of_false ?_ ?_
        · rintro ⟨s', done, unloaded⟩
          obtain ⟨s'', done', i, ptr, left, own⟩ := State.not_gone_second s msg other rest (other :: rest)
          rw [loaded, both] at done
          obtain rfl := Option.some.inj (done.symm.trans done')
          refine unloaded.gone i ptr left ?_
          rcases own with own | own
          · exact own ▸ List.mem_cons_self
          · exact own ▸ List.mem_cons_of_mem _ List.mem_cons_self
        · rintro ⟨-, -, known⟩
          have known' := State.link_known.mpr (known other rfl)
          rw [new] at known'
          cases known'

/-- Two commands of `unkline_msgtab`. -/
def unkline : State Unit ℕ where
  table := fun _ => []
  message := fun msg => ⟨if msg = 0 then ['U', 'N', 'K', 'L', 'I', 'N', 'E'] else ['U', 'N', 'D', 'L', 'I', 'N', 'E'],
    0, 0, 0, none⟩

/-- The module of `UNKLINE` and `UNDLINE` leaves its second command. -/
theorem second_command_left : ¬Unloads unkline [0, 1] := by
  rintro ⟨s', done, unloaded⟩
  obtain rfl := Option.some.inj done
  have gone := unloaded.gone (hash (unkline.message 1).cmd) ⟨(unkline.message 1).cmd, 1⟩ (by decide)
  exact gone (by decide)

end Ircd.CommandTable
