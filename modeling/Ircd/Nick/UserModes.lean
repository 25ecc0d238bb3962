import Ircd.Channel.Mode
import Ircd.Nick.Introduce
import Mathlib.Data.Finset.SDiff

/-!
# Changes of user modes

`send_umode` of `src/s_user.c`, which writes the difference between two words of user modes, and the buffers that its
callers give it. The mask is looked at for clients of this server only.
-/
namespace Ircd.Nick

open Chan (Dir)

/-- The loop of `send_umode`. `what` is the sign that has been written last. -/
def writeUmodes (mine : Bool) (old new sendmask : Finset Umode) : Dir → List (Umode × Char) → List Char
  | _, [] => []
  | what, (flag, letter) :: entries =>
    if mine = true ∧ flag ∉ sendmask then writeUmodes mine old new sendmask what entries
    else if flag ∈ old ∧ flag ∉ new then
      (if what = .del then [letter] else ['-', letter]) ++ writeUmodes mine old new sendmask .del entries
    else if flag ∉ old ∧ flag ∈ new then
      (if what = .add then [letter] else ['+', letter]) ++ writeUmodes mine old new sendmask .add entries
    else writeUmodes mine old new sendmask what entries

/-- What `send_umode` leaves in `umode_buf`. `mine` is `MyClient`. -/
def sendUmode (mine : Bool) (old new sendmask : Finset Umode) : List Char :=
  writeUmodes mine old new sendmask .query userModes

/-- The letters and signs applied to a word. A reader begins with additions. -/
def readUmodes : Dir → Finset Umode → List Char → Finset Umode
  | _, word, [] => word
  | what, word, c :: text =>
    if c = '+' then readUmodes .add word text
    else if c = '-' then readUmodes .del word text
    else
      match umodeOfLetter c with
      | some flag => readUmodes what (if what = .del then word.erase flag else insert flag word) text
      | none => readUmodes what word text

/-- The loop of `user_mode` over the letters that another server sends about its client. -/
def remoteUmodes (operOnlyUmodes : Finset Umode) : Dir → Finset Umode → List Char → Finset Umode
  | _, word, [] => word
  | what, word, c :: text =>
    if c = '+' then remoteUmodes operOnlyUmodes .add word text
    else if c = '-' then remoteUmodes operOnlyUmodes .del word text
    else if c = 'o' ∧ what = .del then
      remoteUmodes operOnlyUmodes what
        (if .oper ∈ word then (word \ {.oper, .admin}) \ operOnlyUmodes else word) text
    else
      match umodeOfLetter c with
      | some flag => remoteUmodes operOnlyUmodes what (if what = .del then word.erase flag else insert flag word) text
      | none => remoteUmodes operOnlyUmodes what word text

/-- `user_mode`, for a client of another server: it has no flag that allows `+n`. -/
def remoteUserMode (operOnlyUmodes old : Finset Umode) (text : List Char) : Finset Umode :=
  (remoteUmodes operOnlyUmodes .add old text).erase .nchange

/-- `ALL_UMODES`. -/
def allUmodes : Finset Umode :=
  sendUmodes ∪ {.servnotice, .cconn, .rej, .skill, .full, .spy, .nchange, .operwall, .debug, .bots, .external,
    .locops, .admin, .unauth, .callerid}

/-- Who calls `send_umode`: an introduction (`sendnick_TS`, `ts_burst_client` or the answer of iauth), or
`send_umode_out`, for the servers and for the client itself. -/
inductive UmodeCaller where
  | introduction
  | toServers
  | toClient
deriving DecidableEq

/-- The size of the buffer: `ubuf[12]`, or `buf[BUFSIZE]`. -/
def UmodeCaller.size : UmodeCaller → ℕ
  | .introduction => 12
  | .toServers | .toClient => Chan.bufSize

/-- The old word and the mask that a caller gives. -/
def UmodeCaller.Gives (old sendmask : Finset Umode) : UmodeCaller → Prop
  | .introduction => old = ∅ ∧ sendmask = sendUmodes
  | .toServers => sendmask = sendUmodes
  | .toClient => sendmask = allUmodes

/-- The text and its NUL fit the buffer of everybody who calls with these words. -/
def UmodesFit (mine : Bool) (old new sendmask : Finset Umode) : Prop :=
  ∀ caller : UmodeCaller, caller.Gives old sendmask → (sendUmode mine old new sendmask).length < caller.size

/-- The text turns the old word into the new one on the mask, and leaves the rest as it was. -/
def UmodesReplay (mine : Bool) (old new sendmask : Finset Umode) : Prop :=
  ∀ flag, flag ∈ readUmodes .add old (sendUmode mine old new sendmask) ↔
    if flag ∈ sendmask then flag ∈ new else flag ∈ old

/-! ### Reading what has been written -/

section

variable {mine : Bool} {old new sendmask : Finset Umode}

/-- The letter of a mode is read as that mode. -/
theorem userModes_read : ∀ entry ∈ userModes,
    umodeOfLetter entry.2 = some entry.1 ∧ entry.2 ≠ '+' ∧ entry.2 ≠ '-' := by
  decide

theorem mem_userModes (flag : Umode) : flag ∈ userModes.map Prod.fst := by
  cases flag <;> decide

theorem readUmodes_letter {entry : Umode × Char} (listed : entry ∈ userModes) (what : Dir) (word : Finset Umode)
    (text : List Char) :
    readUmodes what word (entry.2 :: text) =
      readUmodes what (if what = .del then word.erase entry.1 else insert entry.1 word) text := by
  obtain ⟨read, noPlus, noMinus⟩ := userModes_read entry listed
  rw [readUmodes, if_neg noPlus, if_neg noMinus, read]

/-- A letter behind a sign, or behind other letters of that sign. -/
theorem readUmodes_signed {entry : Umode × Char} (listed : entry ∈ userModes) {what dir sign : Dir} {c : Char}
    (read : ∀ word text, readUmodes dir word (c :: text) = readUmodes sign word text) (same : what = sign → dir = sign)
    (word : Finset Umode) (text : List Char) :
    readUmodes dir word ((if what = sign then [entry.2] else [c, entry.2]) ++ text) =
      readUmodes sign (if sign = .del then word.erase entry.1 else insert entry.1 word) text := by
  split
  · next here =>
    rw [same here]
    exact readUmodes_letter listed sign word text
  · exact (read word _).trans (readUmodes_letter listed sign word text)

/-- A mode that is written is as in the new word then, and the others are as they were. -/
theorem mem_readUmodes_writeUmodes (entries : List (Umode × Char)) (listed : ∀ entry ∈ entries, entry ∈ userModes)
    {what dir : Dir} (same : what ≠ .query → dir = what) (word : Finset Umode) (flag : Umode) :
    flag ∈ readUmodes dir word (writeUmodes mine old new sendmask what entries) ↔
      if flag ∈ entries.map Prod.fst ∧ (mine = true → flag ∈ sendmask) ∧ ¬(flag ∈ old ↔ flag ∈ new) then flag ∈ new
      else flag ∈ word := by
  induction entries generalizing what dir word with
  | nil => simp [writeUmodes, readUmodes]
  | cons entry entries ih =>
    obtain ⟨first, rest⟩ := List.forall_mem_cons.mp listed
    rw [writeUmodes, List.map_cons]
    simp only [List.mem_cons]
    split
    · -- the mode is not in the mask
      next masked =>
      rw [ih rest same word]
      by_cases here : flag = entry.1
      · have out : ¬(mine = true → flag ∈ sendmask) := fun inside => masked.2 (here ▸ inside masked.1)
        simp only [out, false_and, and_false]
      · simp only [here, false_or]
    · next shown =>
      have shown' : mine = true → entry.1 ∈ sendmask := fun isMine => by_contra fun absent => shown ⟨isMine, absent⟩
      split
      · next goes =>
        rw [readUmodes_signed first (fun _ _ => rfl) (fun here => (same (by simp [here])).trans here), if_pos rfl,
          ih rest (fun _ => rfl), Finset.mem_erase]
        by_cases here : flag = entry.1
        · subst here
          rw [if_pos (c := (_ ∨ _) ∧ _) ⟨.inl rfl, shown', by simp [goes]⟩]
          split <;> simp [goes]
        · simp only [here, false_or, ne_eq, not_false_eq_true, true_and]
      · split
        · next comes =>
          rw [readUmodes_signed first (fun _ _ => rfl) (fun here => (same (by simp [here])).trans here),
            if_neg (by decide), ih rest (fun _ => rfl), Finset.mem_insert]
          by_cases here : flag = entry.1
          · subst here
            rw [if_pos (c := (_ ∨ _) ∧ _) ⟨.inl rfl, shown', by simp [comes]⟩]
            split <;> simp [comes]
          · simp only [here, false_or]
        · next stays comes =>
          rw [ih rest same word]
          by_cases here : flag = entry.1
          · have agree : flag ∈ old ↔ flag ∈ new := by
              rw [here]
              tauto
            simp only [agree, not_true, and_false]
          · simp only [here, false_or]

theorem mem_readUmodes_sendUmode (flag : Umode) :
    flag ∈ readUmodes .add old (sendUmode mine old new sendmask) ↔
      if mine = true → flag ∈ sendmask then flag ∈ new else flag ∈ old := by
  rw [sendUmode, mem_readUmodes_writeUmodes userModes (fun _ member => member) (fun change => absurd rfl change)]
  simp only [mem_userModes, true_and]
  by_cases shown : mine = true → flag ∈ sendmask
  · by_cases agree : flag ∈ old ↔ flag ∈ new
    · simp [agree]
    · simp [agree]
  · simp [shown]

/-- For a client of another server the whole word is told. -/
theorem umodesReplay_iff :
    UmodesReplay mine old new sendmask ↔ mine = true ∨ ∀ flag ∉ sendmask, flag ∈ old ↔ flag ∈ new := by
  unfold UmodesReplay
  simp only [mem_readUmodes_sendUmode]
  cases mine with
  | true => simp
  | false =>
    simp only [Bool.false_eq_true, false_implies, if_true, false_or]
    refine forall_congr' fun flag => ?_
    split
    · next inside => simp [inside]
    · next outside => simp [outside, iff_comm]

/-! ### Introductions -/

/-- The letter of a mode that is told of a client. -/
def toldLetter (mine : Bool) (new sendmask : Finset Umode) (entry : Umode × Char) : Option Char :=
  if entry.1 ∈ new ∧ (mine = true → entry.1 ∈ sendmask) then some entry.2 else none

theorem writeUmodes_empty (what : Dir) (entries : List (Umode × Char)) :
    writeUmodes mine ∅ new sendmask what entries =
      if what = .add ∨ entries.filterMap (toldLetter mine new sendmask) = [] then
        entries.filterMap (toldLetter mine new sendmask)
      else '+' :: entries.filterMap (toldLetter mine new sendmask) := by
  induction entries generalizing what with
  | nil => simp [writeUmodes]
  | cons entry entries ih =>
    rw [writeUmodes]
    split
    · next masked =>
      have none : toldLetter mine new sendmask entry = none := if_neg fun told => masked.2 (told.2 masked.1)
      rw [List.filterMap_cons_none none]
      exact ih what
    · next shown =>
      rw [if_neg (by simp)]
      split
      · next comes =>
        have told : toldLetter mine new sendmask entry = some entry.2 :=
          if_pos ⟨comes.2, fun isMine => by_contra fun absent => shown ⟨isMine, absent⟩⟩
        have later := ih .add
        rw [if_pos (Or.inl rfl)] at later
        rw [List.filterMap_cons_some told, later]
        by_cases same : what = .add <;> simp [same]
      · next stays =>
        have none : toldLetter mine new sendmask entry = none := if_neg fun told => stays ⟨by simp, told.1⟩
        rw [List.filterMap_cons_none none]
        exact ih what

/-! ### The length -/

/-- A mode takes two characters at most. -/
theorem length_writeUmodes_le (what : Dir) (entries : List (Umode × Char)) :
    (writeUmodes mine old new sendmask what entries).length ≤ 2 * entries.length := by
  induction entries generalizing what with
  | nil => simp [writeUmodes]
  | cons entry entries ih =>
    rw [writeUmodes, List.length_cons]
    split
    · exact (ih what).trans (by omega)
    · split
      · have later := ih .del
        rw [List.length_append]
        split <;> simp <;> omega
      · split
        · have later := ih .add
          rw [List.length_append]
          split <;> simp <;> omega
        · exact (ih what).trans (by omega)

/-- Without modes before there is one sign at most, and then the letters of what is written. -/
theorem length_sendUmode_empty_le (allowed : ∀ flag ∈ new, (mine = true → flag ∈ sendmask) → flag ∈ sendmask) :
    (sendUmode mine ∅ new sendmask).length ≤ (userModes.filter fun entry => entry.1 ∈ sendmask).length + 1 := by
  have letters : (userModes.filterMap (toldLetter mine new sendmask)).length ≤
      (userModes.filter fun entry => entry.1 ∈ sendmask).length := by
    rw [← List.countP_eq_length_filter, List.length_filterMap_eq_countP]
    refine List.countP_mono_left fun entry _ told => ?_
    obtain ⟨c, told⟩ := Option.isSome_iff_exists.mp told
    obtain ⟨⟨member, shown⟩, -⟩ := Option.ite_none_right_eq_some.mp told
    exact decide_eq_true (allowed entry.1 member shown)
  rw [sendUmode, writeUmodes_empty]
  split
  · omega
  · rw [List.length_cons]
    omega

/-- The text fits if it has letters of the mask only. -/
theorem umodesFit (allowed : ∀ flag ∈ new, (mine = true → flag ∈ sendmask) → flag ∈ old ∨ flag ∈ sendmask) :
    UmodesFit mine old new sendmask := by
  have long : (sendUmode mine old new sendmask).length ≤ 2 * userModes.length :=
    length_writeUmodes_le .query userModes
  intro caller gives
  cases caller with
  | introduction =>
    obtain ⟨rfl, rfl⟩ := gives
    have short := length_sendUmode_empty_le fun flag member shown =>
      (allowed flag member shown).resolve_left (Finset.notMem_empty flag)
    exact short.trans_lt (by decide)
  | toServers => exact long.trans_lt (by decide)
  | toClient => exact long.trans_lt (by decide)

/-- The difference fits the buffer and replays exactly if the client is one of this server, or the words agree outside
the mask. -/
theorem send_umode_right_iff (mine : Bool) (old new sendmask : Finset Umode) :
    UmodesFit mine old new sendmask ∧ UmodesReplay mine old new sendmask ↔
      mine = true ∨ ∀ flag ∉ sendmask, flag ∈ old ↔ flag ∈ new := by
  rw [umodesReplay_iff, and_iff_right_iff_imp]
  intro agree
  apply umodesFit
  intro flag member shown
  rcases agree with isMine | agree
  · exact .inr (shown isMine)
  · by_cases inside : flag ∈ sendmask
    · exact .inr inside
    · exact .inl ((agree flag inside).mpr member)

/-- Another server gives its client eleven modes. The text of the introduction is longer than the buffer. -/
theorem remote_modes_overflow :
    let new := remoteUserMode ∅ ∅ "+abcdfgiklop".toList
    ¬(UmodesFit false ∅ new sendUmodes ∧ UmodesReplay false ∅ new sendUmodes) := by
  intro new both
  have fits := both.1 .introduction ⟨rfl, rfl⟩
  revert fits
  decide

end

end Ircd.Nick
