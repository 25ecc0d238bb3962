import Ircd.Channel.Timestamps
import Ircd.Wire

/-!
# The lines of a burst

A line that `send_members` writes is taken apart by `parse` into the parameters from which
`ms_sjoin` reads the same timestamp, modes and nicks. A key that begins with a colon is taken
for the last parameter instead.
-/
namespace Ircd.Chan

/-! ### The modes -/

/-- The parameters of the mode letters. -/
def Mode.limitArg (mode : Mode) : List (List Char) :=
  if mode.limit ≠ 0 then [printD mode.limit] else []

def Mode.keyArg (mode : Mode) : List (List Char) := if mode.key ≠ [] then [mode.key] else []

/-- The letters of the simple modes, as `channel_modes` writes them. -/
def Mode.simpleLetters (mode : Mode) : List Char :=
  (modeLetters.filter fun entry => decide (entry.1 ∈ mode.mode)).map Prod.snd

theorem Mode.letters_eq (mode : Mode) :
    mode.letters = '+' :: (mode.simpleLetters ++
      ((if mode.limit ≠ 0 then ['l'] else []) ++ if mode.key ≠ [] then ['k'] else [])) := by
  have simple : (modeLetters.filterMap fun entry =>
      if entry.1 ∈ mode.mode then some entry.2 else none) = mode.simpleLetters := by
    unfold Mode.simpleLetters
    generalize modeLetters = entries
    induction entries with
    | nil => rfl
    | cons entry entries ih =>
      by_cases member : entry.1 ∈ mode.mode
      · simp [member, ih]
      · simp [member, ih]
  unfold Mode.letters
  rw [simple, List.cons_append, List.cons_append, List.append_assoc]

private theorem simpleOfLetter_modeLetters {entry : SimpleMode × Char}
    (member : entry ∈ modeLetters) :
    simpleOfLetter entry.2 = some entry.1 ∧ entry.2 ≠ 'k' ∧ entry.2 ≠ 'l' := by
  simp only [modeLetters, List.mem_cons, List.not_mem_nil, or_false] at member
  rcases member with rfl | rfl | rfl | rfl | rfl | rfl | rfl <;> decide

private theorem readModes_simple (parv : List (List Char)) {entries : List (SimpleMode × Char)}
    (known : ∀ entry ∈ entries,
      simpleOfLetter entry.2 = some entry.1 ∧ entry.2 ≠ 'k' ∧ entry.2 ≠ 'l')
    (letters : List Char) (mode : Mode) (args : ℕ) :
    readModes parv (entries.map Prod.snd ++ letters) mode args =
      readModes parv letters
        { mode with mode := (entries.map Prod.fst).toFinset ∪ mode.mode } args := by
  induction entries generalizing mode with
  | nil => simp
  | cons entry entries ih =>
    obtain ⟨simple, notKey, notLimit⟩ := known entry (by simp)
    have rest := ih (fun e member => known e (by simp [member]))
      { mode with mode := insert entry.1 mode.mode }
    rw [List.map_cons, List.cons_append, readModes, if_neg notKey, if_neg notLimit, simple]
    dsimp only at rest ⊢
    rw [rest]
    congr 2
    ext m
    simp only [List.map_cons, List.toFinset_cons, Finset.mem_union, Finset.mem_insert]
    tauto

private theorem simpleLetters_mode (mode : Mode) :
    ((modeLetters.filter fun entry => decide (entry.1 ∈ mode.mode)).map Prod.fst).toFinset =
      mode.mode := by
  ext m
  simp only [List.mem_toFinset, List.mem_map, List.mem_filter, decide_eq_true_eq]
  constructor
  · rintro ⟨entry, ⟨-, member⟩, rfl⟩
    exact member
  · intro member
    cases m with
    | paranoid => exact ⟨(.paranoid, 'p'), ⟨by decide, member⟩, rfl⟩
    | secret => exact ⟨(.secret, 's'), ⟨by decide, member⟩, rfl⟩
    | moderated => exact ⟨(.moderated, 'm'), ⟨by decide, member⟩, rfl⟩
    | topicLimit => exact ⟨(.topicLimit, 't'), ⟨by decide, member⟩, rfl⟩
    | inviteOnly => exact ⟨(.inviteOnly, 'i'), ⟨by decide, member⟩, rfl⟩
    | noPrivMsgs => exact ⟨(.noPrivMsgs, 'n'), ⟨by decide, member⟩, rfl⟩
    | hideOps => exact ⟨(.hideOps, 'a'), ⟨by decide, member⟩, rfl⟩

theorem toInt_of_inInt {n : ℤ} (int : InInt n) : toInt n = n := by
  unfold InInt at int
  unfold toInt
  rw [Int.bmod_eq_of_le] <;> omega

theorem param_append (before args : List (List Char)) (n : ℕ) :
    param (before ++ args) (before.length + n) = param args n := by
  simp [param, List.getD_eq_getElem?_getD, List.getElem?_append_right]

/-- The reader gets the modes back, and is at the nicks. -/
theorem readModes_letters (mode : Mode) {before : List (List Char)} (four : before.length = 4)
    (nicks : List Char) :
    readModes (before ++ (mode.limitArg ++ (mode.keyArg ++ [nicks]))) mode.letters noMode 0 =
      some (mode, (mode.limitArg ++ mode.keyArg).length) := by
  have plus : simpleOfLetter '+' = none := rfl
  rw [Mode.letters_eq, readModes, if_neg (by decide), if_neg (by decide), plus]
  dsimp only
  unfold Mode.simpleLetters
  rw [readModes_simple _ fun entry member =>
    simpleOfLetter_modeLetters (List.mem_of_mem_filter member), simpleLetters_mode]
  have mode_eq : mode.mode ∪ noMode.mode = mode.mode := Finset.union_empty _
  have limit_eq := toInt_of_inInt mode.limit_int
  have number := atol_printD mode.limit_int.1 mode.limit_int.2
  have key_eq : mode.key.take keyLen = mode.key := List.take_of_length_le mode.key_len
  have at4 : ∀ (arg : List Char) (rest : List (List Char)),
      param (before ++ arg :: rest) 4 = arg := fun arg rest =>
    four ▸ param_append before (arg :: rest) 0
  have at5 : ∀ (first arg : List Char) (rest : List (List Char)),
      param (before ++ first :: arg :: rest) 5 = arg := by
    intro first arg rest
    have behind := param_append before (first :: arg :: rest) 1
    rwa [four] at behind
  unfold Mode.limitArg Mode.keyArg
  by_cases limit : mode.limit = 0 <;> by_cases key : mode.key = []
  · simp only [limit, key, ne_eq, not_true_eq_false, if_false, List.nil_append, readModes,
      Option.some.injEq, Prod.mk.injEq, List.length_nil, and_true]
    exact Mode.ext mode_eq limit.symm key.symm
  · simp only [limit, key, ne_eq, not_true_eq_false, not_false_eq_true, if_false, if_true,
      List.nil_append, readModes, List.cons_append]
    rw [if_neg (by simp [four]), at4]
    refine congrArg some (Prod.ext (Mode.ext mode_eq limit.symm key_eq) rfl)
  · simp only [limit, key, ne_eq, not_true_eq_false, not_false_eq_true, if_false, if_true,
      List.append_nil, List.nil_append, readModes, List.cons_append]
    rw [if_neg (by decide), if_neg (by simp [four]), at4, number]
    exact congrArg some (Prod.ext (Mode.ext mode_eq limit_eq key.symm) rfl)
  · simp only [limit, key, ne_eq, not_false_eq_true, if_true, List.nil_append, readModes,
      List.cons_append]
    rw [if_neg (by decide), if_neg (by simp [four]), at4, number, if_neg (by simp [four]), at5]
    exact congrArg some (Prod.ext (Mode.ext mode_eq limit_eq key_eq) rfl)

/-- Without a parameter for the key the message is dropped. -/
theorem readModes_letters_none (mode : Mode) {before : List (List Char)} (four : before.length = 4)
    (key : mode.key ≠ []) (last : List Char) :
    readModes (before ++ (mode.limitArg ++ [last])) mode.letters noMode 0 = none := by
  have plus : simpleOfLetter '+' = none := rfl
  rw [Mode.letters_eq, readModes, if_neg (by decide), if_neg (by decide), plus]
  dsimp only
  unfold Mode.simpleLetters
  rw [readModes_simple _ fun entry member =>
    simpleOfLetter_modeLetters (List.mem_of_mem_filter member)]
  unfold Mode.limitArg
  by_cases limit : mode.limit = 0
  · simp only [limit, key, ne_eq, not_true_eq_false, not_false_eq_true, if_false, if_true,
      List.nil_append, readModes]
    rw [if_pos (by simp [four])]
  · simp only [limit, key, ne_eq, not_false_eq_true, if_true, List.nil_append, readModes,
      List.cons_append]
    rw [if_neg (by decide), if_neg (by simp [four]), if_pos (by simp [four])]

/-! ### The line -/

/-- The parameters in front of the nicks. -/
def burstParams (ts : ℤ) (chname : List Char) (mode : Mode) : List (List Char) :=
  [printLu (ts % 2 ^ 64).toNat, chname, mode.letters] ++ (mode.limitArg ++ mode.keyArg)

/-- A channel whose values go into the parameters of a line. -/
structure Sendable (ts : ℤ) (chname : List Char) (mode : Mode) : Prop where
  time : 1 ≤ ts ∧ ts ≤ 4294967295
  hash : chname.head? = some '#'
  chars : chname.all isChanChar = true
  key : ' ' ∉ mode.key

private theorem isParam_letters (mode : Mode) : IsParam mode.letters where
  nonempty := by simp [Mode.letters_eq]
  noSpace := by
    rw [Mode.letters_eq]
    have simple : ' ' ∉ mode.simpleLetters := by
      unfold Mode.simpleLetters
      intro member
      obtain ⟨entry, inside, equal⟩ := List.mem_map.mp member
      have known := (simpleOfLetter_modeLetters (List.mem_of_mem_filter inside)).1
      rw [equal] at known
      cases known
    intro member
    simp only [List.mem_cons, List.mem_append] at member
    rcases member with plus | letter | limit | key
    · exact absurd plus (by decide)
    · exact simple letter
    · split at limit <;> simp at limit
    · split at key <;> simp at key
  noColon := by simp [Mode.letters_eq]

theorem Sendable.isParam {ts : ℤ} {chname : List Char} {mode : Mode}
    (sendable : Sendable ts chname mode) :
    ∀ param ∈ [printLu (ts % 2 ^ 64).toNat, chname, mode.letters] ++ mode.limitArg,
      IsParam param := by
  obtain ⟨⟨low, high⟩, hash, chars, -⟩ := sendable
  intro param member
  simp only [List.cons_append, List.nil_append, List.mem_cons] at member
  rcases member with rfl | rfl | rfl | limit
  · exact isParam_of_allDigits (allDigits_printLu (by omega))
  · refine ⟨?_, ?_, ?_⟩
    · rintro rfl
      cases hash
    · intro space
      exact absurd (List.all_eq_true.mp chars ' ' space) (by decide)
    · rw [hash]
      decide
  · exact isParam_letters mode
  · unfold Mode.limitArg at limit
    split at limit
    · obtain rfl := List.mem_singleton.mp limit
      exact isParam_printD mode.limit
    · cases limit

/-- The text behind the mode letters. -/
private theorem params_text (mode : Mode) (nicks : List Char) :
    ∃ gap, mode.params true ++ ' ' :: ':' :: nicks =
      if mode.key.head? = some ':' then
        paramText mode.limitArg gap (mode.key.tail ++ ' ' :: ':' :: nicks)
      else paramText (mode.limitArg ++ mode.keyArg) gap nicks := by
  unfold Mode.params Mode.limitArg Mode.keyArg paramText
  cases shape : mode.key with
  | nil =>
    refine ⟨1, ?_⟩
    by_cases limit : mode.limit = 0 <;> simp [limit]
  | cons c key =>
    refine ⟨0, ?_⟩
    by_cases colon : c = ':' <;> by_cases limit : mode.limit = 0 <;> simp [limit, colon]

/-- What the reader of a line gets: the nicks are the last parameter, unless the key begins with
a colon. -/
theorem parseLine_sjoin {name : List Char} (spaceless : ' ' ∉ name) {ts : ℤ} {chname : List Char}
    {mode : Mode} (sendable : Sendable ts chname mode) (nicks : List Char) :
    parseLine (sjoinHeader name ts chname mode.letters (mode.params true) ++ nicks) =
      some ⟨name, ['S', 'J', 'O', 'I', 'N'],
        if mode.key.head? = some ':' then
          [printLu (ts % 2 ^ 64).toNat, chname, mode.letters] ++ mode.limitArg ++
            [mode.key.tail ++ ' ' :: ':' :: nicks]
        else burstParams ts chname mode ++ [nicks]⟩ := by
  have isParam := sendable.isParam
  obtain ⟨gap, params⟩ := params_text mode nicks
  have text : sjoinHeader name ts chname mode.letters (mode.params true) ++ nicks =
      ':' :: (name ++ ' ' :: (['S', 'J', 'O', 'I', 'N'] ++ ' ' ::
        (printLu (ts % 2 ^ 64).toNat ++ ' ' :: (chname ++ ' ' :: (mode.letters ++ ' ' ::
          (mode.params true ++ ' ' :: ':' :: nicks)))))) := by
    simp [sjoinHeader]
  have isCommand : IsParam ['S', 'J', 'O', 'I', 'N'] := ⟨by decide, by decide, by decide⟩
  rw [text, parseLine_prefixed spaceless isCommand, params]
  by_cases colon : mode.key.head? = some ':'
  · rw [if_pos colon, if_pos colon]
    have read := stringToArray_paramText isParam gap (mode.key.tail ++ ' ' :: ':' :: nicks) (by
      unfold Mode.limitArg maxPara
      split <;> simp)
    rw [← read]
    congr 3
    simp [paramText]
  · rw [if_neg colon, if_neg colon]
    have all : ∀ param ∈ burstParams ts chname mode, IsParam param := by
      intro param member
      unfold burstParams at member
      rw [← List.append_assoc] at member
      rcases List.mem_append.mp member with before | key
      · exact isParam param before
      · unfold Mode.keyArg at key
        split at key
        · rename_i nonempty
          obtain rfl := List.mem_singleton.mp key
          exact ⟨nonempty, sendable.key, colon⟩
        · cases key
    have read := stringToArray_paramText all gap nicks (by
      unfold burstParams Mode.limitArg Mode.keyArg maxPara
      split <;> split <;> simp)
    rw [← read]
    congr 3
    simp [paramText, burstParams]

/-! ### The nicks -/

/-- A nick that cannot be taken for something else. -/
structure IsNick (name : List Char) : Prop where
  nonempty : name ≠ []
  noSpace : ' ' ∉ name
  noPrefix : name.head? ≠ some '@' ∧ name.head? ≠ some '+' ∧ name.head? ≠ some '%'

/-- The nicks of a line. -/
def nickText (opFlag : List Char) (names : List (List Char)) : List Char :=
  names.flatMap fun name => opFlag ++ name ++ [' ']

/-- The prefix that `ts_burst_channel` writes for the members of a list. -/
def opFlagOf : Rank → List Char
  | .chanop => ['@']
  | .chanopVoiced => ['@', '+']
  | .halfop => ['%']
  | .voiced => ['+']
  | .peon => []

/-- The rank that the reader gives to a member with that prefix. -/
def receivedRank : Rank → Rank
  | .chanopVoiced => .peon
  | r => r

/-- Without the modes of the message everybody comes in as a peon. -/
theorem rankOfFlags_lost (fl : ℕ) : rankOfFlags (flagsOf false fl) = .peon := by
  unfold flagsOf
  simp only [Bool.false_eq_true, if_false]
  split <;> rfl

theorem cutNicks_append {text : List Char} (noSpace : ' ' ∉ text) (nick rest : List Char) :
    cutNicks nick (text ++ rest) = cutNicks (nick ++ text) rest := by
  induction text generalizing nick with
  | nil => simp
  | cons c text ih =>
    have other : c ≠ ' ' := by
      rintro rfl
      exact noSpace (by simp)
    rw [List.cons_append, cutNicks, if_neg other, ih (fun member => noSpace (by simp [member]))]
    simp

/-- The reader cuts the nicks where the writer has put the spaces. -/
theorem sjoinNicks_spaced {texts : List (List Char)} (some : texts ≠ [])
    (each : ∀ text ∈ texts, text ≠ [] ∧ ' ' ∉ text) :
    sjoinNicks (texts.flatMap (· ++ [' '])) = texts := by
  have cut : ∀ texts : List (List Char), texts ≠ [] → (∀ text ∈ texts, text ≠ [] ∧ ' ' ∉ text) →
      cutNicks [] (texts.flatMap (· ++ [' '])) = texts := by
    intro texts
    induction texts with
    | nil => exact fun none => absurd rfl none
    | cons text texts ih =>
      intro _ each
      have shape : (text :: texts).flatMap (· ++ [' ']) = text ++ (' ' :: texts.flatMap (· ++ [' '])) := by
        simp
      rw [shape, cutNicks_append (each text (by simp)).2, List.nil_append, cutNicks, if_pos rfl]
      cases texts with
      | nil => rfl
      | cons next texts =>
        have more : (next :: texts).flatMap (· ++ [' ']) ≠ [] := by simp
        rw [if_neg more, ih (by simp) fun t member => each t (by simp [member])]
  have skip : (texts.flatMap (· ++ [' '])).dropWhile (· == ' ') = texts.flatMap (· ++ [' ']) := by
    cases texts with
    | nil => exact absurd rfl some
    | cons text texts =>
      obtain ⟨nonempty, noSpace⟩ := each text (by simp)
      cases text with
      | nil => exact absurd rfl nonempty
      | cons c text =>
        have other : c ≠ ' ' := by
          rintro rfl
          exact noSpace (by simp)
        rw [List.flatMap_cons, List.cons_append, List.cons_append, List.dropWhile_cons_of_neg (by simp [other])]
  unfold sjoinNicks
  rw [skip]
  exact cut texts some each

theorem sjoinNicks_nickText {opFlag : List Char} (flag : ' ' ∉ opFlag) {names : List (List Char)}
    (some : names ≠ []) (nicks : ∀ name ∈ names, IsNick name) :
    sjoinNicks (nickText opFlag names) = names.map (opFlag ++ ·) := by
  have text : nickText opFlag names = (names.map (opFlag ++ ·)).flatMap (· ++ [' ']) := by
    rw [nickText, List.flatMap_map]
  rw [text]
  refine sjoinNicks_spaced (by simpa using some) fun text member => ?_
  obtain ⟨name, inside, rfl⟩ := List.mem_map.mp member
  obtain ⟨nonempty, noSpace, -⟩ := nicks name inside
  exact ⟨by simp [nonempty], by simp [flag, noSpace]⟩

private theorem readPrefix_nick_self (keepNewModes : Bool) (p : Prefixed) (nick : IsNick p.nick) :
    readPrefix keepNewModes p = p := by
  obtain ⟨-, -, noAt, noPlus, noPercent⟩ := nick
  unfold readPrefix
  split
  · rename_i equal
    exact absurd (by rw [equal]; rfl) noAt
  · rename_i equal
    exact absurd (by rw [equal]; rfl) noPlus
  · rename_i equal
    exact absurd (by rw [equal]; rfl) noPercent
  · rfl

/-- The reader takes the prefix off, and the flags give the rank. -/
theorem readPrefixes_opFlag (r : Rank) {name : List Char} (nick : IsNick name) :
    (readPrefixes true (opFlagOf r ++ name)).nick = name ∧
      rankOfFlags (flagsOf true (readPrefixes true (opFlagOf r ++ name)).fl) = receivedRank r := by
  have self := fun fl hops nhops => readPrefix_nick_self true ⟨fl, hops, nhops, name⟩ nick
  unfold readPrefixes
  cases r with
  | chanop =>
    have first : readPrefix true ⟨0, [], [], opFlagOf .chanop ++ name⟩ =
        ⟨1, ['@'], ['@'], name⟩ := by
      simp [readPrefix, opFlagOf, modeChanop]
    rw [first, self]
    exact ⟨rfl, rfl⟩
  | chanopVoiced =>
    -- both rounds of the loop are used up by the prefix
    have first : readPrefix true ⟨0, [], [], opFlagOf .chanopVoiced ++ name⟩ =
        ⟨1, ['@'], ['@'], '+' :: name⟩ := by
      simp [readPrefix, opFlagOf, modeChanop]
    have second : readPrefix true ⟨1, ['@'], ['@'], '+' :: name⟩ =
        ⟨3, ['@', '+'], ['@', '+'], name⟩ := by
      simp [readPrefix, modeVoice]
    rw [first, second]
    exact ⟨rfl, rfl⟩
  | halfop =>
    have first : readPrefix true ⟨0, [], [], opFlagOf .halfop ++ name⟩ =
        ⟨8, ['%'], ['@'], name⟩ := by
      simp [readPrefix, opFlagOf, modeHalfop]
    rw [first, self]
    exact ⟨rfl, rfl⟩
  | voiced =>
    have first : readPrefix true ⟨0, [], [], opFlagOf .voiced ++ name⟩ =
        ⟨2, ['+'], ['+'], name⟩ := by
      simp [readPrefix, opFlagOf, modeVoice]
    rw [first, self]
    exact ⟨rfl, rfl⟩
  | peon =>
    have first : readPrefix true ⟨0, [], [], opFlagOf .peon ++ name⟩ = ⟨0, [], [], name⟩ :=
      self 0 [] []
    rw [first, self]
    exact ⟨rfl, rfl⟩

/-! ### Cutting a list into lines -/

/-- The lines have all members, in order; each has some, and none is too long to be sent. -/
theorem sendLoop_lines {header opFlag : List Char} (short : header.length ≤ 331)
    (flag : opFlag.length ≤ 2) (name : ClientId → List Char)
    (fit : ∀ who, (name who).length ≤ hostLen) (list pending : List ClientId)
    (room : (header ++ nickText opFlag (pending.map name)).length ≤ bufSize - 80) :
    ∃ chunks : List (List ClientId), chunks.flatten = pending ++ list ∧
      (∀ chunk ∈ chunks, chunk ≠ [] ∧
        (header ++ nickText opFlag (chunk.map name)).length ≤ 510) ∧
      sendLoop header opFlag (nickText opFlag (pending.map name)) (list.map name) =
        chunks.map fun chunk => header ++ nickText opFlag (chunk.map name) := by
  unfold bufSize at room
  induction list generalizing pending with
  | nil =>
    rw [List.map_nil]
    unfold sendLoop
    cases pending with
    | nil => exact ⟨[], rfl, by simp, rfl⟩
    | cons who pending =>
      refine ⟨[who :: pending], by simp, ?_, ?_⟩
      · simp only [List.mem_singleton, forall_eq]
        exact ⟨by simp, by omega⟩
      · rw [if_neg (by simp [nickText])]
        rfl
  | cons who list ih =>
    have more : nickText opFlag (pending.map name) ++ opFlag ++ name who ++ [' '] =
        nickText opFlag ((pending ++ [who]).map name) := by
      simp [nickText]
    have width : (header ++ nickText opFlag ((pending ++ [who]).map name)).length ≤ 510 := by
      have length := fit who
      unfold hostLen at length
      rw [← more]
      simp only [List.length_append, List.length_cons, List.length_nil] at room ⊢
      omega
    rw [List.map_cons, sendLoop, more]
    by_cases long :
        (header ++ nickText opFlag ((pending ++ [who]).map name)).length > bufSize - 80
    · obtain ⟨chunks, flat, lines, equal⟩ := ih [] (by simp [nickText]; omega)
      refine ⟨(pending ++ [who]) :: chunks, by simp [flat], ?_, ?_⟩
      · simp only [List.mem_cons, forall_eq_or_imp]
        exact ⟨⟨by simp, width⟩, lines⟩
      · rw [if_pos long]
        exact congrArg _ equal
    · obtain ⟨chunks, flat, lines, equal⟩ := ih (pending ++ [who]) (by
        unfold bufSize at long
        omega)
      refine ⟨chunks, by simp [flat], lines, ?_⟩
      rw [if_neg long]
      exact equal

end Ircd.Chan
