import Ircd.Channel.Burst
import Ircd.Channel.ModeSteps
import Ircd.Wire

/-!
# The mask lists of a burst

`send_mode_list`, with which `ts_burst_channel` sends the bans, the exceptions and the invite exceptions of a
channel: `MODE` lines of at most four entries each, put together in two buffers of 200 octets.
-/
namespace Ircd.Chan

/-- What is in `buf`. -/
def modeHeader (name chname : List Char) : List Char :=
  [':'] ++ name ++ [' ', 'M', 'O', 'D', 'E', ' '] ++ chname ++ [' ']

/-- The variables of `send_mode_list`: the letters in `mbuf`, the text in `pbuf`, how far `pp` points into it,
`cur_len` and `count`. -/
structure ListVars where
  mbuf : List Char
  pbuf : List Char
  pp : ℕ
  curLen : ℕ
  count : ℕ

/-- Both pointers go back to the start. The octets of `pbuf` stay what they are. -/
def ListVars.reset (clear : Bool) (mlen : ℕ) (pbuf : List Char) : ListVars :=
  ⟨[if clear then '-' else '+'], pbuf, 0, mlen, 0⟩

/-- The letter and the entry are written behind what is there, each with a NUL behind it. Nothing can be said of
what comes after a write that leaves its buffer. -/
def ListVars.put (flag : Char) (entry : List Char) (v : ListVars) : Option ListVars :=
  if v.mbuf.length + 2 ≤ modeBufLen ∧ v.pp + (entry.length + 2) ≤ modeBufLen then
    some ⟨v.mbuf ++ [flag], v.pbuf.take v.pp ++ entry ++ [' '], v.pp + (entry.length + 1),
      v.curLen + (entry.length + 1), v.count + 1⟩
  else none

/-- The line `"%s%s %s"`. -/
def ListVars.line (header : List Char) (v : ListVars) : List Char := header ++ v.mbuf ++ [' '] ++ v.pbuf

/-- The loop of `send_mode_list`, with the lines it sends. -/
def listLoop (header : List Char) (clear : Bool) (flag : Char) : List (List Char) → ListVars →
    Option (List (List Char))
  | [], v => some (if v.count ≠ 0 then [v.line header] else [])
  | entry :: rest, v =>
    if v.count ≥ maxModeParams ∨ v.curLen + (entry.length + 1) + 2 > modeBufLen then
      -- the line is sent whatever is in it
      ((ListVars.reset clear (header.length + 2) v.pbuf).put flag entry).bind fun v' =>
        (listLoop header clear flag rest v').map (v.line header :: ·)
    else (v.put flag entry).bind (listLoop header clear flag rest)

/-- `send_mode_list`. The octets that `pbuf` happens to have at first are `stale`. -/
def sendModeList (name chname : List Char) (top : List Ban) (flag : Char) (clear : Bool) (stale : List Char) :
    Option (List (List Char)) :=
  listLoop (modeHeader name chname) clear flag (top.map Ban.banstr)
    (ListVars.reset clear ((modeHeader name chname).length + 2) stale)

/-- The `MODE` lines of `ts_burst_channel` to a server that has `CAP_EX` and `CAP_IE` or not. -/
def State.burstMasks (s : State) (ch : Channel) (ex ie : Bool) (stale : MaskType → List Char) :
    Option (List (List Char)) :=
  if ch.chname.head? ≠ some '#' then some []
  else do
    let bans ← sendModeList s.meName ch.chname ch.banlist 'b' false (stale .ban)
    let exceptions ← if ex then sendModeList s.meName ch.chname ch.exceptlist 'e' false (stale .exception) else some []
    let invexes ← if ie then sendModeList s.meName ch.chname ch.invexlist 'I' false (stale .invex) else some []
    pure (bans ++ exceptions ++ invexes)

/-! ### The lines -/

/-- The line with these entries. -/
def modeLine (name chname : List Char) (clear : Bool) (flag : Char) (entries : List (List Char)) : List Char :=
  modeHeader name chname ++ ((if clear then '-' else '+') :: List.replicate entries.length flag) ++ [' '] ++
    entries.flatMap (· ++ [' '])

/-- Nothing is written outside the buffers, and the lines have all entries, in order, each with one to four of them. -/
def ListsAll (name chname : List Char) (top : List Ban) (type : MaskType) (clear : Bool) (stale : List Char) : Prop :=
  ∃ chunks : List (List (List Char)), chunks.flatten = top.map Ban.banstr ∧
    (∀ chunk ∈ chunks, chunk ≠ [] ∧ chunk.length ≤ maxModeParams) ∧
    sendModeList name chname top type.letter clear stale =
      some (chunks.map (modeLine name chname clear type.letter))

/-- The entries are not longer than a buffer, and the first one has room behind the start of the line. -/
def Fit (name chname : List Char) (top : List Ban) : Prop :=
  (∀ ban ∈ top, ban.banstr.length + 2 ≤ modeBufLen) ∧
    ∀ ban ∈ top.head?, (modeHeader name chname).length + 2 + (ban.banstr.length + 1) + 2 ≤ modeBufLen

/-! ### One entry -/

theorem length_modeHeader (name chname : List Char) :
    (modeHeader name chname).length = name.length + chname.length + 8 := by
  simp only [modeHeader, List.length_append, List.length_cons, List.length_nil]
  omega

theorem MaskType.letter_ne_space (type : MaskType) : type.letter ≠ ' ' := by
  cases type <;> decide

/-- The entries as they are written to `pbuf`. -/
def entryText (entries : List (List Char)) : List Char := entries.flatMap (· ++ [' '])

/-- The variables when these entries have been written since the last line. -/
def ListVars.filled (clear : Bool) (flag : Char) (mlen : ℕ) (stale : List Char) (entries : List (List Char)) :
    ListVars :=
  ⟨(if clear then '-' else '+') :: List.replicate entries.length flag,
    if entries = [] then stale else entryText entries, (entryText entries).length,
    mlen + (entryText entries).length, entries.length⟩

section

variable (clear : Bool) (flag : Char) (mlen : ℕ) (stale entry : List Char) (entries : List (List Char))

theorem entryText_append : entryText (entries ++ [entry]) = entryText entries ++ entry ++ [' '] := by
  simp [entryText]

theorem length_entryText_append :
    (entryText (entries ++ [entry])).length = (entryText entries).length + (entry.length + 1) := by
  rw [entryText_append]
  simp

/-- The entry is written behind the others, if there is room. -/
theorem ListVars.put_filled {entry : List Char} {entries : List (List Char)} (few : entries.length < maxModeParams)
    (room : (entryText entries).length + (entry.length + 2) ≤ modeBufLen) :
    (ListVars.filled clear flag mlen stale entries).put flag entry =
      some (.filled clear flag mlen stale (entries ++ [entry])) := by
  have before : (if entries = [] then stale else entryText entries).take (entryText entries).length =
      entryText entries := by
    by_cases none : entries = []
    · simp [none, entryText]
    · rw [if_neg none, List.take_length]
  have letters : (ListVars.filled clear flag mlen stale entries).mbuf.length + 2 ≤ modeBufLen := by
    simp only [ListVars.filled, List.length_cons, List.length_replicate]
    simp only [maxModeParams, modeBufLen] at *
    omega
  rw [ListVars.put, if_pos ⟨letters, room⟩]
  simp only [ListVars.filled, before, List.append_eq_nil_iff, List.cons_ne_nil, and_false, if_false,
    entryText_append, List.length_append, List.length_cons, List.length_nil, List.replicate_succ',
    List.cons_append, Nat.add_assoc]

theorem length_entryText_singleton : (entryText [entry]).length = entry.length + 1 := by
  simp [entryText]

/-- The first entry of a line. -/
theorem ListVars.put_reset {entry : List Char} (room : entry.length + 2 ≤ modeBufLen) :
    (ListVars.reset clear mlen stale).put flag entry = some (.filled clear flag mlen stale [entry]) := by
  have none : ListVars.reset clear mlen stale = .filled clear flag mlen stale [] := rfl
  rw [none, ListVars.put_filled clear flag mlen stale (by simp [maxModeParams])]
  · rw [List.nil_append]
  · simpa only [entryText, List.flatMap_nil, List.length_nil, Nat.zero_add] using room

/-- What has been written has left no buffer. -/
theorem ListVars.put_room {flag : Char} {entry : List Char} {v v' : ListVars} (put : v.put flag entry = some v') :
    entry.length + 2 ≤ modeBufLen := by
  unfold ListVars.put at put
  split at put
  · rename_i room
    omega
  · cases put

end

/-! ### All entries -/

section

variable (name chname : List Char) (clear : Bool) (flag : Char)

theorem ListVars.line_filled {entries : List (List Char)} (some : entries ≠ []) (mlen : ℕ) (stale : List Char) :
    (ListVars.filled clear flag mlen stale entries).line (modeHeader name chname) =
      modeLine name chname clear flag entries := by
  simp only [ListVars.line, ListVars.filled, if_neg some, modeLine, entryText]

/-- Once an entry has been written, the rest is sent in lines of one to four entries. -/
theorem listLoop_lines (rest : List (List Char)) (fit : ∀ entry ∈ rest, entry.length + 2 ≤ modeBufLen)
    (stale : List Char) {pending : List (List Char)} (some : pending ≠ []) (few : pending.length ≤ maxModeParams)
    (room : (entryText pending).length + 1 ≤ modeBufLen) :
    ∃ chunks : List (List (List Char)), chunks.flatten = pending ++ rest ∧
      (∀ chunk ∈ chunks, chunk ≠ [] ∧ chunk.length ≤ maxModeParams ∧ (entryText chunk).length + 1 ≤ modeBufLen) ∧
      listLoop (modeHeader name chname) clear flag rest
          (.filled clear flag ((modeHeader name chname).length + 2) stale pending) =
        .some (chunks.map (modeLine name chname clear flag)) := by
  induction rest generalizing stale pending with
  | nil =>
    refine ⟨[pending], by simp, by simpa [some, few] using room, ?_⟩
    have count : (ListVars.filled clear flag ((modeHeader name chname).length + 2) stale pending).count ≠ 0 := by
      simpa [ListVars.filled] using some
    rw [listLoop, if_pos count, ListVars.line_filled name chname clear flag some]
    rfl
  | cons entry rest ih =>
    have long := fit entry (by simp)
    have later : ∀ entry ∈ rest, entry.length + 2 ≤ modeBufLen := fun e member => fit e (by simp [member])
    rw [listLoop]
    split
    · -- the line is full, and the entry is the first one of the next
      rename_i full
      have width := length_entryText_singleton entry
      obtain ⟨chunks, flat, lines, sent⟩ := ih later
        (ListVars.filled clear flag ((modeHeader name chname).length + 2) stale pending).pbuf
        (List.cons_ne_nil entry []) (by simp [maxModeParams]) (by omega)
      refine ⟨pending :: chunks, by simp [flat], ?_, ?_⟩
      · simp only [List.mem_cons, forall_eq_or_imp]
        exact ⟨⟨some, few, room⟩, lines⟩
      · rw [ListVars.put_reset clear flag _ _ long, Option.bind_some, sent,
          ListVars.line_filled name chname clear flag some]
        rfl
    · rename_i notFull
      simp only [ListVars.filled, not_or, not_le, not_lt] at notFull
      have width := length_entryText_append entry pending
      have written := ListVars.put_filled clear flag ((modeHeader name chname).length + 2) stale notFull.1
        (by omega : _ + (entry.length + 2) ≤ modeBufLen)
      have more := List.append_ne_nil_of_right_ne_nil pending (List.cons_ne_nil entry [])
      obtain ⟨chunks, flat, lines, sent⟩ := ih later stale more (by simpa using notFull.1) (by omega)
      exact ⟨chunks, by simp [flat], lines, by rw [written, Option.bind_some, sent]⟩

variable {name chname : List Char} {clear : Bool} {flag : Char}

/-- What has been written has left no buffer. -/
theorem listLoop_room {header : List Char} {entries : List (List Char)} {v : ListVars} {lines : List (List Char)}
    (sent : listLoop header clear flag entries v = some lines) :
    ∀ entry ∈ entries, entry.length + 2 ≤ modeBufLen := by
  induction entries generalizing v lines with
  | nil => simp
  | cons entry rest ih =>
    simp only [List.mem_cons, forall_eq_or_imp]
    rw [listLoop] at sent
    split at sent
    · obtain ⟨v', put, sent⟩ := Option.bind_eq_some_iff.mp sent
      obtain ⟨later, sent, -⟩ := Option.map_eq_some_iff.mp sent
      exact ⟨ListVars.put_room put, ih sent⟩
    · obtain ⟨v', put, sent⟩ := Option.bind_eq_some_iff.mp sent
      exact ⟨ListVars.put_room put, ih sent⟩

/-- A first entry without room is preceded by a line without any. -/
theorem sendModeList_first {ban : Ban} {top : List Ban} {stale : List Char} {lines : List (List Char)}
    (long : (modeHeader name chname).length + 2 + (ban.banstr.length + 1) + 2 > modeBufLen)
    (sent : sendModeList name chname (ban :: top) flag clear stale = some lines) :
    lines.head? = some (modeHeader name chname ++ [if clear then '-' else '+'] ++ [' '] ++ stale) := by
  unfold sendModeList at sent
  rw [List.map_cons, listLoop] at sent
  split at sent
  · obtain ⟨v', put, sent⟩ := Option.bind_eq_some_iff.mp sent
    obtain ⟨later, -, rfl⟩ := Option.map_eq_some_iff.mp sent
    rfl
  · rename_i short
    exact absurd (Or.inr long) short

/-- Where the entries fit, they are sent in lines of one to four. -/
theorem sendModeList_lines (clear : Bool) (flag : Char) {top : List Ban} (fit : Fit name chname top) (stale : List Char) :
    ∃ chunks : List (List (List Char)), chunks.flatten = top.map Ban.banstr ∧
      (∀ chunk ∈ chunks, chunk ≠ [] ∧ chunk.length ≤ maxModeParams ∧ (entryText chunk).length + 1 ≤ modeBufLen) ∧
      sendModeList name chname top flag clear stale = some (chunks.map (modeLine name chname clear flag)) := by
  cases top with
  | nil => exact ⟨[], by simp, by simp, rfl⟩
  | cons ban top =>
    obtain ⟨short, first⟩ := fit
    have room := first ban (by simp)
    have notFull : ¬((ListVars.reset clear ((modeHeader name chname).length + 2) stale).count ≥ maxModeParams ∨
        (ListVars.reset clear ((modeHeader name chname).length + 2) stale).curLen + (ban.banstr.length + 1) + 2 >
          modeBufLen) := by
      simp only [ListVars.reset, maxModeParams, not_or, not_le, not_lt, gt_iff_lt, ge_iff_le]
      exact ⟨by decide, room⟩
    have width := length_entryText_singleton ban.banstr
    have fits := short ban (by simp)
    have later : ∀ entry ∈ top.map Ban.banstr, entry.length + 2 ≤ modeBufLen := by
      intro entry member
      obtain ⟨other, inside, rfl⟩ := List.mem_map.mp member
      exact short other (by simp [inside])
    obtain ⟨chunks, flat, lines, sent⟩ := listLoop_lines name chname clear flag (top.map Ban.banstr) later stale
      (List.cons_ne_nil ban.banstr []) (by simp [maxModeParams]) (by omega)
    refine ⟨chunks, by simpa using flat, lines, ?_⟩
    unfold sendModeList
    rw [List.map_cons, listLoop, if_neg notFull, ListVars.put_reset clear flag _ _ fits, Option.bind_some, sent]

/-- The first line of a full list has an entry, so there has been room for it. -/
theorem ListsAll.first {top : List Ban} {type : MaskType} {stale : List Char} {ban : Ban}
    (all : ListsAll name chname (ban :: top) type clear stale) :
    (modeHeader name chname).length + 2 + (ban.banstr.length + 1) + 2 ≤ modeBufLen := by
  by_contra long
  obtain ⟨chunks, -, some, sent⟩ := all
  have first := sendModeList_first (by omega) sent
  cases chunks with
  | nil => cases first
  | cons chunk chunks =>
    obtain ⟨entry, entries, rfl⟩ := List.exists_cons_of_ne_nil (some chunk (by simp)).1
    have equal := Option.some.inj first
    simp only [modeLine, List.append_assoc, List.length_cons, List.replicate_succ, List.cons_append, List.nil_append,
      List.append_cancel_left_eq, List.cons.injEq, true_and] at equal
    exact type.letter_ne_space equal.1

/-- `send_mode_list` sends all entries, and stays in its buffers, where no entry is longer than 198 octets and there
is room for the first one behind the start of the line. -/
theorem listsAll_iff (name chname : List Char) (top : List Ban) (type : MaskType) (clear : Bool) (stale : List Char) :
    ListsAll name chname top type clear stale ↔ Fit name chname top := by
  constructor
  · intro all
    refine ⟨?_, ?_⟩
    · obtain ⟨chunks, -, -, sent⟩ := all
      intro ban member
      exact listLoop_room sent ban.banstr (List.mem_map_of_mem member)
    · intro ban head
      cases top with
      | nil => cases head
      | cons first top =>
        obtain rfl := Option.some.inj head
        exact all.first
  · intro fit
    obtain ⟨chunks, flat, lines, sent⟩ := sendModeList_lines clear type.letter fit stale
    exact ⟨chunks, flat, fun chunk member => ⟨(lines chunk member).1, (lines chunk member).2.1⟩, sent⟩

/-- A channel with a long name has one ban: the first line has none. -/
theorem emptyLine_first :
    ¬ListsAll ['i', 'r', 'c'] ('#' :: List.replicate 189 'a') [⟨['*', '!', '*', '@', 'b'], [], 0⟩] .ban false [] := by
  intro all
  have room := all.first
  simp only [length_modeHeader, List.length_cons, List.length_replicate, List.length_nil, modeBufLen] at room
  omega

end

/-! ### What the other server reads -/

private theorem skipSpaces_entryText_ne {param : List Char} (isParam : IsParam param) (rest : List (List Char)) :
    skipSpaces (entryText (param :: rest)) ≠ [] := by
  have text : entryText (param :: rest) = param ++ ' ' :: entryText rest := by simp [entryText]
  rw [text, isParam.skipSpaces]
  simp

/-- Parameters with a space behind each are read as they have been written. -/
theorem stringToArray_entryText {params : List (List Char)} (all : ∀ param ∈ params, IsParam param)
    (few : params.length < maxPara - 1) : stringToArray (entryText params) = params := by
  have loop : ∀ n (params : List (List Char)), (∀ param ∈ params, IsParam param) → params.length ≤ n → params ≠ [] →
      paramLoop n (skipSpaces (entryText params)) = params := by
    intro n
    induction n with
    | zero => exact fun params _ room some => absurd (List.length_eq_zero_iff.mp (by omega)) some
    | succ n ih =>
      intro params all room some
      obtain ⟨param, rest, rfl⟩ := List.exists_cons_of_ne_nil some
      have isParam := all param (by simp)
      have text : entryText (param :: rest) = param ++ ' ' :: entryText rest := by simp [entryText]
      rw [text, isParam.skipSpaces]
      obtain ⟨c, word, rfl⟩ := List.exists_cons_of_ne_nil isParam.nonempty
      have notColon : c ≠ ':' := by simpa using isParam.noColon
      rw [List.cons_append, paramLoop.eq_3 _ _ (by simpa using notColon), ← List.cons_append,
        takeWhile_param isParam.noSpace, dropWhile_param isParam.noSpace, List.tail_cons]
      cases rest with
      | nil => rfl
      | cons next rest =>
        have later := ih (next :: rest) (fun p member => all p (by simp [member])) (by simpa using room) (by simp)
        have more := skipSpaces_entryText_ne (all next (by simp)) rest
        have room : n ≠ 0 := by
          rintro rfl
          simp at room
        rw [if_neg more, if_neg room, later]
  unfold stringToArray
  by_cases none : params = []
  · subst none
    rfl
  · have read := loop (maxPara - 2) params all (by omega) none
    obtain ⟨param, rest, rfl⟩ := List.exists_cons_of_ne_nil none
    rw [if_neg (skipSpaces_entryText_ne (all param (by simp)) rest), read]

/-- Entries that are parameters are read as they are on the list, and each line arrives whole. -/
theorem sendModeList_read {name chname : List Char} {top : List Ban} (fit : Fit name chname top)
    (server : ' ' ∉ name ∧ name.length ≤ hostLen) (channel : IsParam chname ∧ chname.length ≤ channelLen)
    (type : MaskType) (clear : Bool) (stale : List Char) (params : ∀ ban ∈ top, IsParam ban.banstr) :
    ∃ (lines : List (List Char)) (chunks : List (List (List Char))),
      sendModeList name chname top type.letter clear stale = some lines ∧ chunks.flatten = top.map Ban.banstr ∧
      lines.map (fun line => parseLine (putmsg line)) = chunks.map fun chunk =>
        some ⟨name, ['M', 'O', 'D', 'E'],
          chname :: ((if clear then '-' else '+') :: List.replicate chunk.length type.letter) :: chunk⟩ := by
  obtain ⟨chunks, flat, lines, sent⟩ := sendModeList_lines clear type.letter fit stale
  refine ⟨_, chunks, sent, flat, ?_⟩
  rw [List.map_map]
  apply List.map_congr_left
  intro chunk member
  obtain ⟨some, few, room⟩ := lines chunk member
  have line_eq : modeLine name chname clear type.letter chunk =
      ':' :: (name ++ ' ' :: (['M', 'O', 'D', 'E'] ++ ' ' ::
        entryText (chname :: ((if clear then '-' else '+') :: List.replicate chunk.length type.letter) :: chunk))) := by
    simp [modeLine, modeHeader, entryText]
  have isLetters : IsParam ((if clear then '-' else '+') :: List.replicate chunk.length type.letter) := by
    refine ⟨by simp, ?_, by cases clear <;> simp⟩
    intro space
    rcases List.mem_cons.mp space with sign | letter
    · cases clear <;> cases sign
    · exact type.letter_ne_space (List.eq_of_mem_replicate letter).symm
  have all : ∀ param ∈ chname :: ((if clear then '-' else '+') :: List.replicate chunk.length type.letter) :: chunk,
      IsParam param := by
    simp only [List.mem_cons, forall_eq_or_imp]
    refine ⟨channel.1, isLetters, ?_⟩
    intro entry inside
    have onList : entry ∈ top.map Ban.banstr := flat ▸ List.mem_flatten.mpr ⟨chunk, member, inside⟩
    obtain ⟨ban, listed, rfl⟩ := List.mem_map.mp onList
    exact params ban listed
  have short : (modeLine name chname clear type.letter chunk).length ≤ 510 := by
    have header := length_modeHeader name chname
    have text : (entryText chunk).length = (chunk.flatMap (· ++ [' '])).length := rfl
    simp only [modeLine, List.length_append, List.length_cons, List.length_replicate, List.length_nil]
    simp only [hostLen, channelLen, maxModeParams, modeBufLen] at server channel few room
    omega
  have ends : (modeLine name chname clear type.letter chunk).getLast? = .some ' ' := by
    obtain ⟨front, last, rfl⟩ := (List.eq_nil_or_concat' chunk).resolve_left some
    rw [modeLine, List.flatMap_append, List.flatMap_singleton, ← List.append_assoc, ← List.append_assoc,
      List.getLast?_concat]
  rw [Function.comp_apply, putmsg_eq short ends, line_eq, parseLine_prefixed server.1 ⟨by decide, by decide, by decide⟩,
    stringToArray_entryText all]
  simp only [maxModeParams, maxPara, List.length_cons] at few ⊢
  omega

theorem sendModeList_read_ban :
    ∃ (lines : List (List Char)) (chunks : List (List (List Char))),
      sendModeList ['m'] ['#'] [⟨['*'], [], 0⟩] 'b' false [] = some lines ∧ chunks.flatten = [['*']] ∧
      lines.map (fun line => parseLine (putmsg line)) = chunks.map fun chunk =>
        some ⟨['m'], ['M', 'O', 'D', 'E'], ['#'] :: ('+' :: List.replicate chunk.length 'b') :: chunk⟩ :=
  sendModeList_read (by simp [Fit, modeHeader, modeBufLen]) (by decide)
    ⟨⟨by decide, by decide, by decide⟩, by decide⟩ .ban false [] (by simpa using ⟨by decide, by decide, by decide⟩)

/-- Which masks a server is sent. -/
def MaskType.sent (ex ie : Bool) : MaskType → Bool
  | .ban => true
  | .exception => ex
  | .invex => ie

/-- A channel whose lists fit is sent whole: every mask is in a line, as far as the server knows its letter. -/
theorem State.burstMasks_lines {s : State} {ch : Channel} (hash : ch.chname.head? = some '#')
    (fit : ∀ type, Fit s.meName ch.chname (ch.masks type)) (ex ie : Bool) (stale : MaskType → List Char) :
    ∃ lines, s.burstMasks ch ex ie stale = some lines ∧ ∀ type ban, type.sent ex ie = true → ban ∈ ch.masks type →
      ∃ chunk, ban.banstr ∈ chunk ∧ modeLine s.meName ch.chname false type.letter chunk ∈ lines := by
  have each : ∀ type : MaskType, ∃ lines,
      sendModeList s.meName ch.chname (ch.masks type) type.letter false (stale type) = some lines ∧
      ∀ ban ∈ ch.masks type, ∃ chunk, ban.banstr ∈ chunk ∧
        modeLine s.meName ch.chname false type.letter chunk ∈ lines := by
    intro type
    obtain ⟨chunks, flat, -, sent⟩ :=
      sendModeList_lines false type.letter (fit type) (stale type)
    refine ⟨_, sent, ?_⟩
    intro ban member
    have inside : ban.banstr ∈ chunks.flatten := flat ▸ List.mem_map_of_mem member
    obtain ⟨chunk, line, entry⟩ := List.mem_flatten.mp inside
    exact ⟨chunk, entry, List.mem_map_of_mem line⟩
  obtain ⟨bans, sentBans, hasBans⟩ := each .ban
  obtain ⟨exceptions, sentExceptions, hasExceptions⟩ := each .exception
  obtain ⟨invexes, sentInvexes, hasInvexes⟩ := each .invex
  have lines_eq : s.burstMasks ch ex ie stale =
      some (bans ++ (if ex then exceptions else []) ++ if ie then invexes else []) := by
    simp only [Channel.masks, MaskType.letter] at sentBans sentExceptions sentInvexes
    unfold State.burstMasks
    rw [if_neg (by simp [hash]), sentBans, sentExceptions, sentInvexes]
    cases ex <;> cases ie <;> rfl
  refine ⟨_, lines_eq, ?_⟩
  intro type ban sent member
  cases type with
  | ban =>
    obtain ⟨chunk, entry, line⟩ := hasBans ban member
    exact ⟨chunk, entry, by simp [line]⟩
  | exception =>
    obtain ⟨chunk, entry, line⟩ := hasExceptions ban member
    exact ⟨chunk, entry, by simp [show ex = true from sent, line]⟩
  | invex =>
    obtain ⟨chunk, entry, line⟩ := hasInvexes ban member
    exact ⟨chunk, entry, by simp [show ie = true from sent, line]⟩

theorem burstMasks_lines_ban : ∃ lines, smallNetwork.burstMasks
    { emptyChannel ['#'] 5 with banlist := [⟨['*'], [], 0⟩] } true true (fun _ => []) = some lines ∧
      ∃ chunk, ['*'] ∈ chunk ∧ modeLine ['m', 'e'] ['#'] false 'b' chunk ∈ lines := by
  refine (State.burstMasks_lines rfl (fun type => ?_) true true fun _ => []).imp fun _ sent =>
    ⟨sent.1, sent.2 .ban ⟨['*'], [], 0⟩ rfl (List.mem_singleton_self _)⟩
  cases type <;> simp [Fit, Channel.masks, emptyChannel, modeHeader, smallNetwork, modeBufLen]

end Ircd.Chan
