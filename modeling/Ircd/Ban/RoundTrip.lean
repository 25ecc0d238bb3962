import Ircd.Ban.Reading
import Ircd.Ban.Placing

/-!
# Bans in the files

A K-line is written without its user, so what is read back is a ban on other values. A D-line is not
written at all.
-/
namespace Ircd.Ban

open Hostmask

/-- A file of ended lines. -/
structure TextFile where
  text : List Char
  noReturn : '\r' ∉ text
  ended : Ended text

/-- Reading the file brings back the ban that is now active, and UNKLINE leaves the file as it was
before. -/
def Kline.Survives (k : Kline) (stamp : Stamp) (temporaryKlines : List Conf) (file : List Char) : Prop :=
  ∃ line, k.written stamp = some line ∧
    parseKFile (file ++ line) = parseKFile file ++ [k.active stamp] ∧
    unklineFile temporaryKlines k.user k.host (file ++ line) = file

/-- The same of a D-line and UNDLINE. -/
def Dline.Survives (d : Dline) (stamp : Stamp) (file : List Char) : Prop :=
  ∃ line, d.written stamp = some line ∧
    parseDFile (file ++ line) = parseDFile file ++ [d.active stamp] ∧ undlineFile d.host (file ++ line) = file

/-- The fields that are written in the places of others have the same values: the host that of the user, the
reason that of the host, and the oper reason that of the reason with its date. No other line of the file is
for this user and host, and no temporary K-line. -/
structure Kline.Lasts (k : Kline) (stamp : Stamp) (temporaryKlines : List Conf) (file : List Char) :
    Prop where
  user : k.user = k.host
  reason : k.reason = k.host
  operReason : k.operReason = some (datedReason k.reason stamp)
  noComma : ',' ∉ k.host
  noTemporary : temporaryKlines.any (tklineMatches k.host k.user) = false
  alone : ∀ line ∈ linesOf file, unklineDrops k.user k.host line = false

/-! ### What is printed -/

/-- What the checks of `mo_kline` and the sizes of its buffers give. -/
structure Kline.Plain (k : Kline) : Prop where
  user_length : k.user.length ≤ 7
  host_length : k.host.length ≤ 7
  user_bang : '!' ∉ k.user
  reason_quote : '"' ∉ k.reason
  operReason_quote : '"' ∉ k.operReason.getD []
  host_inLine : ∀ c ∈ k.host, InLine c
  reason_inLine : ∀ c ∈ k.reason, InLine c
  operReason_inLine : ∀ c ∈ k.operReason.getD [], InLine c

private theorem findUserHost_host {mask user host : List Char} {target : Option (List Char × List Char)}
    (found : findUserHost mask target = some (user, host)) :
    user.length ≤ 7 ∧ host.length ≤ 7 ∧
      ∀ c ∈ host, c ∈ mask ∨ ∃ username clustered, target = some (username, clustered) ∧ c ∈ clustered := by
  unfold findUserHost at found
  split_ifs at found with explicit star
  · simp only [Option.some.injEq, Prod.mk.injEq] at found
    obtain ⟨rfl, rfl⟩ := found
    refine ⟨List.length_take_le _ _, List.length_take_le _ _, fun c member => Or.inl ?_⟩
    exact (List.dropWhile_sublist _).subset (List.mem_of_mem_tail (List.mem_of_mem_take member))
  · simp only [Option.some.injEq, Prod.mk.injEq] at found
    obtain ⟨rfl, rfl⟩ := found
    exact ⟨by simp, List.length_take_le _ _, fun c member => Or.inl (List.mem_of_mem_take member)⟩
  · obtain ⟨⟨username, clustered⟩, rfl, same⟩ := Option.map_eq_some_iff.mp found
    simp only [Prod.mk.injEq] at same
    obtain ⟨rfl, rfl⟩ := same
    refine ⟨?_, List.length_take_le _ _, fun c member => Or.inr ⟨_, _, rfl, List.mem_of_mem_take member⟩⟩
    have upto : (strlcpy username sizeofPointer).length ≤ 7 := List.length_take_le _ _
    split
    · rw [List.length_cons, List.length_tail]
      omega
    · exact upto

private theorem mem_of_operReason {reason : List Char} {c : Char}
    (member : c ∈ (operReasonOf reason).getD []) : c ∈ reason := by
  unfold operReasonOf at member
  split at member
  · exact (List.dropWhile_sublist _).subset (List.mem_of_mem_tail member)
  · cases member

theorem moKline_plain {minNonwildcard : ℤ} {placed : List Char → List Char → Bool}
    {target : Option (Word × Word)} {userHostOrNick reason : Word} {k : Kline}
    (accepted : moKline minNonwildcard placed target userHostOrNick reason = some k) : k.Plain := by
  unfold moKline at accepted
  split at accepted
  · cases accepted
  · rename_i user host found
    obtain ⟨user_length, host_length, origin⟩ := findUserHost_host found
    split_ifs at accepted with valid
    obtain ⟨userHost, -, comment, -⟩ := valid
    simp only [validUserHost, validComment, decide_eq_true_eq] at userHost comment
    obtain rfl := Option.some.inj accepted
    have kept : ∀ c ∈ reason.val.takeWhile (· ≠ '|'), c ∈ reason.val := fun c member =>
      (List.takeWhile_sublist _).subset member
    refine ⟨user_length, host_length, userHost.2.2, fun member => comment (kept _ member),
      fun member => comment (mem_of_operReason member), fun c member => ?_,
      fun c member => reason.property c (kept c member),
      fun c member => reason.property c (mem_of_operReason member)⟩
    rcases origin c member with inside | ⟨username, clustered, given, inside⟩
    · exact userHostOrNick.property c inside
    · obtain ⟨⟨first, second⟩, -, same⟩ := Option.map_eq_some_iff.mp given
      simp only [Prod.mk.injEq] at same
      exact second.property c (same.2 ▸ inside)

/-- A text that can stand in a field by itself. -/
def Bare (text : List Char) : Prop := ∀ c ∈ text, InLine c ∧ c ≠ '"' ∧ c ≠ ','

private theorem bare_of_digit {c : Char} (digit : c.isDigit = true) : InLine c ∧ c ≠ '"' ∧ c ≠ ',' := by
  refine ⟨⟨?_, ?_, ?_⟩, ?_, ?_⟩ <;> · rintro rfl; revert digit; decide

private theorem bare_printD (value : ℤ) : Bare (printD value) := by
  have digits := (allDigits_toDigits value.natAbs).2
  intro c member
  unfold printD at member
  split at member
  · rcases List.mem_cons.mp member with rfl | member
    · decide
    · exact bare_of_digit (digits c member)
  · exact bare_of_digit (digits c member)

private theorem Bare.append {text text' : List Char} (first : Bare text) (second : Bare text') :
    Bare (text ++ text') := fun c member => (List.mem_append.mp member).elim (first c) (second c)

private theorem Bare.cons {c : Char} {text : List Char} (first : InLine c ∧ c ≠ '"' ∧ c ≠ ',')
    (rest : Bare text) : Bare (c :: text) := by
  intro d member
  rcases List.mem_cons.mp member with rfl | member
  · exact first
  · exact rest d member

private theorem bare_printD02 (value : ℤ) : Bare (printD02 value) := by
  unfold printD02
  split
  · exact (bare_printD value).cons (by decide)
  · exact bare_printD value

private theorem bare_currentDate (stamp : Stamp) : Bare stamp.currentDate := by
  unfold Stamp.currentDate smalldate
  refine (bare_printD _).append (Bare.cons (by decide) ((bare_printD _).append (Bare.cons (by decide)
    ((bare_printD _).append (Bare.cons (by decide) ((bare_printD02 _).append (Bare.cons (by decide)
      (bare_printD02 _))))))))

private theorem length_printD_pos (value : ℤ) : 0 < (printD value).length := by
  have digits := List.length_pos_iff.mpr (allDigits_toDigits value.natAbs).1
  unfold printD
  split
  · exact Nat.succ_pos _
  · exact digits

private theorem length_printD02 {value : ℤ} (low : 0 ≤ value) (high : value ≤ 59) :
    2 ≤ (printD02 value).length ∧ (printD02 value).length ≤ 12 := by
  have upto : (printD value).length ≤ 11 := length_printD_le (by omega) (by omega)
  have positive := length_printD_pos value
  unfold printD02
  split_ifs with small
  · rw [List.length_cons]
    omega
  · refine ⟨?_, by omega⟩
    have ten : ¬(printD value).length ≤ 1 := by
      unfold printD
      rw [if_neg (by omega), Nat.length_toDigits_le_iff (by decide) (by decide)]
      omega
    omega

private theorem length_currentDate (stamp : Stamp) :
    11 ≤ stamp.currentDate.length ∧ stamp.currentDate.length ≤ 61 := by
  obtain ⟨low₁, high₁⟩ := stamp.tm.year_range
  obtain ⟨low₂, high₂⟩ := stamp.tm.mon_range
  obtain ⟨low₃, high₃⟩ := stamp.tm.mday_range
  have year := length_printD_le low₁ high₁
  have mon : (printD (stamp.tm.mon + 1)).length ≤ 11 := length_printD_le (by omega) (by omega)
  have mday : (printD stamp.tm.mday).length ≤ 11 := length_printD_le (by omega) (by omega)
  have year' := length_printD_pos (stamp.tm.year + 1900)
  have mon' := length_printD_pos (stamp.tm.mon + 1)
  have mday' := length_printD_pos stamp.tm.mday
  have hour := length_printD02 stamp.tm.hour_range.1 (by have := stamp.tm.hour_range.2; omega)
  have min := length_printD02 stamp.tm.min_range.1 stamp.tm.min_range.2
  simp only [Stamp.currentDate, smalldate, List.length_append, List.length_cons]
  omega

private theorem length_curTime (stamp : Stamp) :
    1 ≤ (printD stamp.curTime).length ∧ (printD stamp.curTime).length ≤ 20 := by
  refine ⟨length_printD_pos _, ?_⟩
  obtain ⟨low, high⟩ := stamp.curTime_range
  have digits : (Nat.toDigits 10 stamp.curTime.natAbs).length ≤ 19 :=
    (Nat.length_toDigits_le_iff (by decide) (by decide)).mpr (by omega)
  unfold printD
  split
  · rw [List.length_cons]
    omega
  · omega

private theorem operName_inLine (oper : OperName) : ∀ c ∈ oper.text, InLine c ∧ c ≠ '"' := by
  intro c member
  have plain := oper.plain
  simp only [OperName.text, List.mem_append, List.mem_cons, List.not_mem_nil, or_false] at member plain
  rcases member with h | rfl | h | rfl | h | rfl | h | rfl
  · exact plain c (Or.inl h)
  · decide
  · exact plain c (Or.inr (Or.inl h))
  · decide
  · exact plain c (Or.inr (Or.inr (Or.inl h)))
  · decide
  · exact plain c (Or.inr (Or.inr (Or.inr h)))
  · decide

private theorem operName_length (oper : OperName) : 4 ≤ oper.text.length ∧ oper.text.length < 150 := by
  have upto := oper.length_lt
  simp only [OperName.text, List.length_append, List.length_cons, List.length_nil] at upto ⊢
  omega

private theorem operName_bang (oper : OperName) : '!' ∈ oper.text := by simp [OperName.text]

/-! ### The pieces of a line -/

private theorem chomp_plain {text : List Char} (plain : ∀ c ∈ text, InLine c) : chomp text = text := by
  unfold chomp
  rw [List.takeWhile_eq_self_iff]
  intro c member
  simpa using ⟨(plain c member).1, (plain c member).2.2⟩

/-- The first piece has as much as the buffer can hold. -/
private theorem first_piece {text : List Char} (plain : ∀ c ∈ text, InLine c) :
    ∃ piece rest, linesOf (text ++ ['\n']) = piece :: rest ∧ chomp piece = text.take 511 ∧
      (text.length < 511 → piece = text ++ ['\n'] ∧ rest = []) ∧
      (511 ≤ text.length → rest = linesOf (text.drop 511 ++ ['\n'])) := by
  by_cases short : text.length < 511
  · have piece := isPiece_line (fun c member => ⟨(plain c member).1, (plain c member).2.1⟩) 511 short
    have read := linesOf_of_pieces [text ++ ['\n']] fun p member =>
      List.mem_singleton.mp member ▸ piece
    rw [List.flatten_singleton] at read
    refine ⟨_, _, read, ?_, fun _ => ⟨rfl, rfl⟩, fun long => absurd short (Nat.not_lt.mpr long)⟩
    rw [chomp_line fun c member => ⟨(plain c member).1, (plain c member).2.2⟩,
      List.take_of_length_le short.le]
  · have long : 511 ≤ text.length := Nat.not_lt.mp short
    have length : (text.take 511).length = 511 := List.length_take_of_le long
    have full : IsPiece (text.take 511).length (text.take 511) := by
      apply isPiece_full
      · exact fun c member => ⟨(plain c (List.mem_of_mem_take member)).1,
          (plain c (List.mem_of_mem_take member)).2.1⟩
      · rintro empty
        rw [empty] at length
        cases length
    rw [length] at full
    have noReturn : '\r' ∉ text.drop 511 ++ ['\n'] := by
      intro member
      rcases List.mem_append.mp member with inside | other
      · exact (plain _ (List.mem_of_mem_drop inside)).2.1 rfl
      · simp at other
    have ended : Ended (text.drop 511 ++ ['\n']) := Or.inr (by simp)
    have read := linesOf_of_pieces (text.take 511 :: linesOf (text.drop 511 ++ ['\n']))
      fun p member => by
        rcases List.mem_cons.mp member with rfl | member
        · exact full
        · exact linesOf_pieces noReturn ended p member
    rw [List.flatten_cons, linesOf_flatten noReturn ended, ← List.append_assoc, List.take_append_drop] at read
    exact ⟨_, _, read, chomp_plain fun c member => plain c (List.mem_of_mem_take member),
      fun few => absurd few short, fun _ => rfl⟩

/-! ### What UNKLINE finds -/

private theorem bang_of_ircEq {s t : List Char} (equal : IrcEq s t) (bang : '!' ∈ t) : '!' ∈ s := by
  have upper : '!' ∈ s.map toUpper := by
    rw [show s.map toUpper = t.map toUpper from equal]
    exact List.mem_map.mpr ⟨'!', bang, by decide⟩
  obtain ⟨c, member, same⟩ := List.mem_map.mp upper
  exact eq_of_toUpper same (by decide) ▸ member

private theorem operName_comma {oper : OperName} {more : List Char} (equal : oper.text = ',' :: more) :
    5 ≤ oper.text.length := by
  unfold OperName.text at equal ⊢
  cases name : oper.name with
  | nil =>
    rw [name] at equal
    simp at equal
  | cons c rest =>
    simp only [List.length_append, List.length_cons, List.length_nil]
    omega

section Drops

variable {k : Kline} {line : List Char}

/-- UNKLINE takes the host and the reason for the user and the host. -/
private theorem fields_of_drops (plain : k.Plain) {front more rest : List Char}
    (chomped : chomp line = front) (long : 20 ≤ front.length)
    (whole : front ++ more = quoted k.host ++ (quoted k.reason ++ rest))
    (dropped : unklineDrops k.user k.host line = true) :
    ',' ∉ k.host ∧ ',' ∉ k.reason ∧ k.reason.length = k.host.length := by
  obtain ⟨s₁, s₂, tail, split, start₁, start₂, -, host⟩ := unklineDrops_cases dropped
  have host_length := plain.host_length
  have compared := host.length_eq
  rw [chomped] at split
  have total := congrArg List.length split
  rw [split] at whole
  simp only [List.append_assoc, List.cons_append] at whole
  simp only [List.length_append, List.length_cons] at total
  by_cases comma : ',' ∈ k.host
  · -- both fields are parts of the host
    exfalso
    obtain ⟨first, second, equal, noComma⟩ := List.eq_append_cons_of_mem comma
    have parts := congrArg List.length equal
    simp only [List.length_append, List.length_cons] at parts
    have cut₁ : (s₁ ++ ['"']) ++ ',' :: (s₂ ++ '"' :: ',' :: (tail ++ more)) =
        ('"' :: first) ++ ',' :: (second ++ '"' :: ',' :: (quoted k.reason ++ rest)) := by
      rw [equal] at whole
      simpa [quoted] using whole
    obtain ⟨same₁, cut₂⟩ := first_comma (by simpa using start₁.1) (by simpa using noComma) cut₁
    have length₁ := congrArg List.length same₁
    simp only [List.length_append, List.length_cons, List.length_nil] at length₁
    have length₂ : s₂.length ≤ second.length := by
      by_cases comma' : ',' ∈ second
      · obtain ⟨third, fourth, equal', noComma'⟩ := List.eq_append_cons_of_mem comma'
        have cut₂' : (s₂ ++ ['"']) ++ ',' :: (tail ++ more) =
            third ++ ',' :: (fourth ++ '"' :: ',' :: (quoted k.reason ++ rest)) := by
          rw [equal'] at cut₂
          simpa using cut₂
        obtain ⟨same₂, -⟩ := first_comma (by simpa using start₂.1) noComma' cut₂'
        have length := congrArg List.length same₂
        have parts' := congrArg List.length equal'
        simp only [List.length_append, List.length_cons, List.length_nil] at length parts'
        omega
      · have cut₂' : (s₂ ++ ['"']) ++ ',' :: (tail ++ more) =
            (second ++ ['"']) ++ ',' :: (quoted k.reason ++ rest) := by simpa using cut₂
        obtain ⟨same₂, -⟩ := first_comma (by simpa using start₂.1) (by simpa using comma') cut₂'
        have length := congrArg List.length same₂
        simp only [List.length_append, List.length_cons, List.length_nil] at length
        omega
    unfold fieldAfter at compared
    split at compared
    · rw [List.length_cons] at compared
      omega
    · rw [List.length_tail] at compared
      omega
  · obtain ⟨rfl, cut₂⟩ := start₁.eq_quoted comma whole
    simp only [List.length_cons] at total
    rcases start₂.quoted_cases plain.reason_quote cut₂ with ⟨noComma, rfl, -⟩ | ⟨-, -, rfl, -⟩
    · simp only [fieldAfter, reduceCtorEq, if_false, List.tail_cons] at compared
      exact ⟨comma, noComma, compared.symm⟩
    · -- a lone quote leaves the whole rest as the host
      simp only [fieldAfter, if_true, List.length_cons] at compared
      simp only [List.length_nil] at total
      omega

/-- What is read is the ban itself only if the fields agree. -/
private theorem fields_of_parse (plain : k.Plain) (stamp : Stamp) {rest : List Char}
    (chomped : chomp line =
      quoted k.host ++ (quoted k.reason ++ (quoted (k.operReason.getD []) ++ rest)))
    (noComma : ',' ∉ k.host) (noComma' : ',' ∉ k.reason)
    (read : parseKLine line = some (k.active stamp)) :
    k.user = k.host ∧ k.reason = k.host ∧ k.operReason.getD [] = datedReason k.reason stamp := by
  obtain ⟨s₁, s₂, s₃, tail, split, start₁, start₂, start₃, same⟩ := parseKLine_cases read
  rw [chomped] at split
  obtain ⟨rfl, split₂⟩ := start₁.eq_quoted noComma split.symm
  obtain ⟨rfl, split₃⟩ := start₂.eq_quoted noComma' split₂
  simp only [Kline.active, fieldAfter, reduceCtorEq, if_false, List.tail_cons, KConf.mk.injEq] at same
  obtain ⟨user, host, reason⟩ := same
  rcases start₃.quoted_cases plain.operReason_quote split₃ with ⟨-, rfl, -⟩ | ⟨more, -, rfl, rfl⟩
  · rw [if_neg (List.cons_ne_nil _ _), List.tail_cons] at reason
    exact ⟨user, host.symm, reason.symm⟩
  · -- the quote behind the oper reason would be in the reason
    rw [if_pos rfl] at reason
    have quote : '"' ∈ datedReason k.reason stamp := by simp [reason]
    simp only [datedReason, List.mem_append, List.mem_cons, List.not_mem_nil, or_false, Char.reduceEq,
      false_or] at quote
    rcases quote with inside | inside
    · exact absurd inside plain.reason_quote
    · exact absurd rfl (bare_currentDate stamp _ inside).2.1

/-- The line behind the oper reason. -/
private def closing (stamp : Stamp) : List Char :=
  '"' :: ',' :: (quoted stamp.currentDate ++ (quoted stamp.operName.text ++ printD stamp.curTime))

private theorem suffix_of_no_quote {text front rest : List Char} (noQuote : '"' ∉ front)
    (suffix : '"' :: text <:+ front ++ rest) : '"' :: text <:+ rest := by
  induction front with
  | nil => exact suffix
  | cons c front ih =>
    rcases List.suffix_cons_iff.mp suffix with same | suffix
    · simp only [List.cons.injEq] at same
      exact absurd (same.1 ▸ List.mem_cons_self) noQuote
    · exact ih (fun member => noQuote (List.mem_cons_of_mem _ member)) suffix

/-- Where a quote stands behind the oper reason. -/
private theorem closing_cases {stamp : Stamp} {text : List Char} (suffix : '"' :: text <:+ closing stamp) :
    '"' :: text = closing stamp ∨
    '"' :: text = quoted stamp.currentDate ++ (quoted stamp.operName.text ++ printD stamp.curTime) ∨
    '"' :: text = '"' :: ',' :: (quoted stamp.operName.text ++ printD stamp.curTime) ∨
    '"' :: text = quoted stamp.operName.text ++ printD stamp.curTime ∨
    '"' :: text = '"' :: ',' :: printD stamp.curTime := by
  have date : '"' ∉ stamp.currentDate := fun member => (bare_currentDate stamp _ member).2.1 rfl
  have oper : '"' ∉ stamp.operName.text := fun member => (operName_inLine _ _ member).2 rfl
  have time : '"' ∉ printD stamp.curTime := fun member => (bare_printD _ _ member).2.1 rfl
  have comma : '"' ∉ [','] := by decide
  simp only [closing, quoted, List.cons_append, List.append_assoc, List.nil_append] at suffix ⊢
  rcases List.suffix_cons_iff.mp suffix with same | suffix
  · exact Or.inl same
  rcases List.suffix_cons_iff.mp (suffix_of_no_quote comma suffix) with same | suffix
  · exact Or.inr (Or.inl same)
  rcases List.suffix_cons_iff.mp (suffix_of_no_quote date suffix) with same | suffix
  · exact Or.inr (Or.inr (Or.inl same))
  rcases List.suffix_cons_iff.mp (suffix_of_no_quote comma suffix) with same | suffix
  · exact Or.inr (Or.inr (Or.inr (Or.inl same)))
  rcases List.suffix_cons_iff.mp (suffix_of_no_quote oper suffix) with same | suffix
  · exact Or.inr (Or.inr (Or.inr (Or.inr same)))
  exact absurd ((suffix_of_no_quote comma suffix).subset List.mem_cons_self) time

/-- UNKLINE drops no piece that begins behind the reason. -/
private theorem not_drops_behind (plain : k.Plain) (stamp : Stamp) {text : List Char}
    (suffix : text <:+ k.operReason.getD [] ++ closing stamp) (chomped : chomp line = text.take 511) :
    unklineDrops k.user k.host line = false := by
  by_contra kept
  obtain ⟨s₁, s₂, rest, split, start₁, start₂, user, host⟩ :=
    unklineDrops_cases (by simpa using kept : unklineDrops k.user k.host line = true)
  have user_length := user.length_eq
  have host_length := host.length_eq
  have upto := plain.user_length
  have upto' := plain.host_length
  have date_length := length_currentDate stamp
  have oper_length := operName_length stamp.operName
  have time_length := length_curTime stamp
  have date : '"' ∉ stamp.currentDate := fun member => (bare_currentDate stamp _ member).2.1 rfl
  have dateComma : ',' ∉ stamp.currentDate := fun member => (bare_currentDate stamp _ member).2.2 rfl
  have oper : '"' ∉ stamp.operName.text := fun member => (operName_inLine _ _ member).2 rfl
  have time : '"' ∉ printD stamp.curTime := fun member => (bare_printD _ _ member).2.1 rfl
  rw [chomped] at split
  -- the piece begins with a quote, so it begins behind the oper reason
  obtain ⟨tail, rfl⟩ : ∃ tail, text = '"' :: tail := by
    have head : (text.take 511).head? = some '"' := by
      rw [split]
      exact start₁.head_eq _
    cases text with
    | nil => cases head
    | cons c tail => exact ⟨tail, by simpa using head⟩
  have suffix := suffix_of_no_quote plain.operReason_quote suffix
  have whole : ('"' :: tail).take 511 = '"' :: tail := by
    apply List.take_of_length_le
    have length := suffix.length_le
    simp only [closing, quoted, List.length_cons, List.length_append, List.length_nil] at length ⊢
    omega
  rw [whole] at split
  rcases closing_cases suffix with same | same | same | same | same
  · -- at the quote that ends the oper reason: the date is longer than a host
    rw [same] at split
    obtain ⟨-, second⟩ := start₁.eq_quote split.symm
    obtain ⟨rfl, -⟩ := start₂.eq_quoted dateComma second
    simp only [fieldAfter, reduceCtorEq, if_false, List.tail_cons] at host_length
    omega
  · -- at the date, which is longer than a user
    rw [same] at split
    obtain ⟨rfl, -⟩ := start₁.eq_quoted dateComma split.symm
    simp only [fieldAfter, reduceCtorEq, if_false, List.tail_cons] at user_length
    omega
  · -- at the quote that ends the date: the user would be the name of the operator
    rw [same] at split
    obtain ⟨rfl, second⟩ := start₁.eq_quote split.symm
    rcases start₂.quoted_cases oper second with ⟨-, rfl, -⟩ | ⟨more, equal, rfl, rfl⟩
    · apply plain.user_bang
      apply bang_of_ircEq user
      simp [fieldAfter, operName_bang]
    · have five := operName_comma equal
      have length := congrArg List.length equal
      simp only [fieldAfter, if_true, List.length_cons, List.length_append] at host_length length
      omega
  · -- at the name of the operator: nothing but the time is behind it
    rw [same] at split
    rcases start₁.quoted_cases oper split.symm with ⟨-, -, equal⟩ | ⟨more, equal, rfl, second⟩
    · exact time (equal ▸ List.mem_append_right _ List.mem_cons_self)
    · have bang := operName_bang stamp.operName
      have head := start₂.head_eq (',' :: rest)
      rw [second] at head
      rw [equal] at bang oper
      cases more with
      | nil => simp at bang
      | cons c more =>
        simp only [List.cons_append, List.head?_cons, Option.some.injEq] at head
        exact oper (by simp [head])
  · -- at the quote that ends the name
    rw [same] at split
    obtain ⟨-, second⟩ := start₁.eq_quote split.symm
    exact time (second ▸ List.mem_append_right _ List.mem_cons_self)

end Drops

/-! ### K-lines in the file -/

/-- The line of a K-line without its end. -/
private def body (k : Kline) (stamp : Stamp) : List Char :=
  quoted k.host ++ (quoted k.reason ++ (quoted (k.operReason.getD []) ++ (quoted stamp.currentDate ++
    (quoted stamp.operName.text ++ printD stamp.curTime))))

private theorem written_eq (k : Kline) (stamp : Stamp) : k.written stamp = some (body k stamp ++ ['\n']) := by
  simp [Kline.written, writeBan, body]

private theorem inLine_quoted {field : List Char} (plain : ∀ c ∈ field, InLine c) :
    ∀ c ∈ quoted field, InLine c := by
  intro c member
  simp only [quoted, List.mem_cons, List.mem_append, List.not_mem_nil, or_false] at member
  rcases member with rfl | member | rfl | rfl
  · decide
  · exact plain c member
  · decide
  · decide

private theorem body_inLine {k : Kline} (plain : k.Plain) (stamp : Stamp) :
    ∀ c ∈ body k stamp, InLine c := by
  intro c member
  simp only [body, List.mem_append] at member
  rcases member with member | member | member | member | member | member
  · exact inLine_quoted plain.host_inLine c member
  · exact inLine_quoted plain.reason_inLine c member
  · exact inLine_quoted plain.operReason_inLine c member
  · exact inLine_quoted (fun d inside => (bare_currentDate stamp d inside).1) c member
  · exact inLine_quoted (fun d inside => (operName_inLine stamp.operName d inside).1) c member
  · exact (bare_printD _ c member).1

private theorem length_body (k : Kline) (stamp : Stamp) :
    (body k stamp).length = k.host.length + k.reason.length + (k.operReason.getD []).length +
      stamp.currentDate.length + stamp.operName.text.length + (printD stamp.curTime).length + 15 := by
  simp only [body, quoted, List.length_append, List.length_cons, List.length_nil]
  omega

/-- Lines are added behind those of the file. -/
private theorem linesOf_append (file : TextFile) {text : List Char} (plain : ∀ c ∈ text, InLine c) :
    linesOf (file.text ++ (text ++ ['\n'])) = linesOf file.text ++ linesOf (text ++ ['\n']) ∧
      ∀ piece ∈ linesOf file.text ++ linesOf (text ++ ['\n']), IsPiece (bufSize - 1) piece := by
  have noReturn : '\r' ∉ text ++ ['\n'] := by
    intro member
    rcases List.mem_append.mp member with inside | other
    · exact (plain _ inside).2.1 rfl
    · simp at other
  have ended : Ended (text ++ ['\n']) := Or.inr (by simp)
  have pieces : ∀ piece ∈ linesOf file.text ++ linesOf (text ++ ['\n']), IsPiece (bufSize - 1) piece := by
    intro piece member
    rcases List.mem_append.mp member with old | new
    · exact linesOf_pieces file.noReturn file.ended piece old
    · exact linesOf_pieces noReturn ended piece new
  have read := linesOf_of_pieces _ pieces
  rw [List.flatten_append, linesOf_flatten file.noReturn file.ended, linesOf_flatten noReturn ended] at read
  exact ⟨read, pieces⟩

/-- UNKLINE gives the file back only if it drops all pieces of the line, and no other. -/
private theorem dropped_of_unkline {k : Kline} (plain : k.Plain) {stamp : Stamp}
    {temporaryKlines : List Conf} {file : TextFile}
    (unklined : unklineFile temporaryKlines k.user k.host (file.text ++ (body k stamp ++ ['\n'])) = file.text) :
    temporaryKlines.any (tklineMatches k.host k.user) = false ∧
      (∀ line ∈ linesOf file.text, unklineDrops k.user k.host line = false) ∧
      ∀ line ∈ linesOf (body k stamp ++ ['\n']), unklineDrops k.user k.host line = true := by
  obtain ⟨lines, pieces⟩ := linesOf_append file (body_inLine plain stamp)
  unfold unklineFile at unklined
  split_ifs at unklined with temporary
  · simp at unklined
  · rw [lines] at unklined
    have kept := linesOf_of_pieces
      ((linesOf file.text ++ linesOf (body k stamp ++ ['\n'])).filter
        fun line => !unklineDrops k.user k.host line)
      fun piece member => pieces piece (List.mem_of_mem_filter member)
    rw [unklined, List.filter_append] at kept
    have alone : ∀ line ∈ linesOf file.text, unklineDrops k.user k.host line = false := by
      intro line member
      rw [kept] at member
      rcases List.mem_append.mp member with inside | inside <;>
        simpa using (List.mem_filter.mp inside).2
    refine ⟨by simpa using temporary, alone, fun line member => ?_⟩
    have same : (linesOf file.text).filter (fun line => !unklineDrops k.user k.host line) =
        linesOf file.text := List.filter_eq_self.mpr fun line inside => by simp [alone line inside]
    rw [same, List.self_eq_append_right] at kept
    by_contra spared
    have inside : line ∈ (linesOf (body k stamp ++ ['\n'])).filter
        fun line => !unklineDrops k.user k.host line := List.mem_filter.mpr ⟨member, by simpa using spared⟩
    rw [kept] at inside
    cases inside

/-- A K-line survives in the file exactly when its fields happen to agree with those in front. No D-line
does: printing its user is the end of the server. -/
theorem kline_survives_iff (file : TextFile) (stamp : Stamp) (temporaryKlines : List Conf)
    {minNonwildcard : ℤ} {placed : List Char → List Char → Bool} {target : Option (Word × Word)}
    {userHostOrNick reason : Word} {k : Kline}
    (accepted : moKline minNonwildcard placed target userHostOrNick reason = some k) :
    (k.Survives stamp temporaryKlines file.text ↔ k.Lasts stamp temporaryKlines file.text) ∧
      ∀ d : Dline, ¬d.Survives stamp file.text := by
  have plain := moKline_plain accepted
  have inLine := body_inLine plain stamp
  have length := length_body k stamp
  have host_length := plain.host_length
  have date_length := length_currentDate stamp
  have oper_length := operName_length stamp.operName
  have time_length := length_curTime stamp
  obtain ⟨lines, -⟩ := linesOf_append file inLine
  obtain ⟨piece, rest, first, chomped, short, long⟩ := first_piece inLine
  refine ⟨⟨?_, ?_⟩, ?_⟩
  · rintro ⟨line, written, parsed, unklined⟩
    rw [written_eq, Option.some.injEq] at written
    subst written
    obtain ⟨noTemporary, alone, dropped⟩ := dropped_of_unkline plain unklined
    rw [first] at dropped
    obtain ⟨noComma, noComma', equal⟩ := fields_of_drops plain chomped
      (by rw [List.length_take]; omega) (List.take_append_drop 511 (body k stamp))
      (dropped piece List.mem_cons_self)
    -- the line is read as one piece if the buffer has room for it
    by_cases fits : (body k stamp).length < 511
    · obtain ⟨-, rfl⟩ := short fits
      rw [List.take_of_length_le fits.le] at chomped
      have read : parseKLine piece = some (k.active stamp) := by
        unfold parseKFile at parsed
        rw [lines, List.filterMap_append, first, List.append_cancel_left_eq] at parsed
        cases read : parseKLine piece with
        | none => simp [read] at parsed
        | some conf => simpa [read] using parsed
      obtain ⟨user, reason', oper⟩ := fields_of_parse plain stamp chomped noComma noComma' read
      refine ⟨user, reason', ?_, noComma, noTemporary, alone⟩
      cases given : k.operReason with
      | none =>
        rw [given] at oper
        simp [datedReason] at oper
      | some text =>
        rw [given] at oper
        exact congrArg some oper
    · -- the buffer cuts the line: its second piece is not dropped
      have rest_eq := long (Nat.not_lt.mp fits)
      have inLine' : ∀ c ∈ (body k stamp).drop 511, InLine c := fun c member =>
        inLine c (List.mem_of_mem_drop member)
      obtain ⟨piece', rest', first', chomped', -, -⟩ := first_piece inLine'
      have suffix : (body k stamp).drop 511 <:+ k.operReason.getD [] ++ closing stamp := by
        have split : body k stamp = (quoted k.host ++ (quoted k.reason ++ ['"'])) ++
            (k.operReason.getD [] ++ closing stamp) := by simp [body, closing, quoted]
        have front : (quoted k.host ++ (quoted k.reason ++ ['"'])).length ≤ 511 := by
          simp only [quoted, List.length_append, List.length_cons, List.length_nil]
          omega
        rw [split, List.drop_append, List.drop_of_length_le front, List.nil_append]
        exact List.drop_suffix _ _
      have spared := not_drops_behind plain stamp suffix chomped'
      rw [rest_eq, first'] at dropped
      rw [dropped piece' (List.mem_cons_of_mem _ List.mem_cons_self)] at spared
      cases spared
  · intro lasts
    have user := lasts.user
    have reason' := lasts.reason
    have given := lasts.operReason
    have fits : (body k stamp).length < 511 := by
      simp only [given, Option.getD_some, datedReason, List.length_append, List.length_cons,
        List.length_nil, reason'] at length
      omega
    obtain ⟨rfl, rfl⟩ := short fits
    rw [List.take_of_length_le fits.le] at chomped
    have noComma' : ',' ∉ datedReason k.reason stamp := by
      simp only [datedReason, List.mem_append, List.mem_cons, List.not_mem_nil, or_false, Char.reduceEq,
        false_or, not_or, reason']
      exact ⟨lasts.noComma, fun member => (bare_currentDate stamp _ member).2.2 rfl⟩
    have read := parseKLine_quoted chomped lasts.noComma (reason' ▸ lasts.noComma)
      (by simpa [given] using noComma')
    have dropped : unklineDrops k.user k.host (body k stamp ++ ['\n']) = true := by
      have quoted := unklineDrops_quoted chomped lasts.noComma (reason' ▸ lasts.noComma)
      rw [reason'] at quoted
      rwa [user]
    refine ⟨_, written_eq k stamp, ?_, ?_⟩
    · unfold parseKFile
      rw [lines, first, List.filterMap_append]
      simp [read, Kline.active, given, user, reason']
    · unfold unklineFile
      rw [lasts.noTemporary, lines, first, List.filter_append]
      have same : (linesOf file.text).filter (fun line => !unklineDrops k.user k.host line) =
          linesOf file.text := List.filter_eq_self.mpr fun line inside => by simp [lasts.alone line inside]
      simp [same, dropped, linesOf_flatten file.noReturn file.ended]
  · rintro d ⟨line, written, -⟩
    simp [Dline.written, writeBan] at written

private theorem inLine_of_all {text : List Char} (all : text.all (fun c => InLine c) = true) :
    ∀ c ∈ text, InLine c := fun c member => of_decide_eq_true (List.all_eq_true.mp all c member)

/-- Half past twelve on 27 April 2002. -/
def noon : Stamp where
  tm := ⟨102, 3, 27, 12, 30, by decide, by decide, by decide, by decide, by decide⟩
  operName := ⟨['g', 'o', 'd'], ['g'], ['h'], ['g', 'o', 'd'], by simp [InLine], by decide⟩
  curTime := 1019910600
  curTime_range := by decide

/-- A ban with the same text everywhere, and the date in the oper reason. -/
theorem kline_survives_iff_abc :
    (⟨['a', 'b', 'c'], ['a', 'b', 'c'], ['a', 'b', 'c'],
      some (datedReason ['a', 'b', 'c'] noon)⟩ : Kline).Survives noon [] [] := by
  have accepted : moKline 4 (fun _ _ => false) none
      ⟨['a', 'b', 'c', '@', 'a', 'b', 'c'], inLine_of_all (by decide)⟩
      ⟨['a', 'b', 'c', '|'] ++ datedReason ['a', 'b', 'c'] noon, inLine_of_all (by decide +kernel)⟩ =
      some ⟨['a', 'b', 'c'], ['a', 'b', 'c'], ['a', 'b', 'c'],
        some (datedReason ['a', 'b', 'c'] noon)⟩ := by decide +kernel
  refine (kline_survives_iff ⟨[], List.not_mem_nil, Or.inl rfl⟩ noon [] accepted).1.mpr ?_
  exact ⟨rfl, rfl, rfl, by decide, rfl, fun line member => absurd member List.not_mem_nil⟩

/-- A ban on `spam@a.org` is read back as one on the user `a.org` and the host `bye`. -/
theorem kline_changes :
    moKline 4 (fun _ _ => false) none
        ⟨['s', 'p', 'a', 'm', '@', 'a', '.', 'o', 'r', 'g'], inLine_of_all (by decide)⟩
        ⟨['b', 'y', 'e'], inLine_of_all (by decide)⟩ =
      some ⟨['s', 'p', 'a', 'm'], ['a', '.', 'o', 'r', 'g'], ['b', 'y', 'e'], none⟩ ∧
    ¬(⟨['s', 'p', 'a', 'm'], ['a', '.', 'o', 'r', 'g'], ['b', 'y', 'e'], none⟩ : Kline).Survives noon [] [] := by
  refine ⟨by decide +kernel, ?_⟩
  rintro ⟨line, written, parsed, -⟩
  have printed := Option.some.inj written
  subst printed
  revert parsed
  decide +kernel

end Ircd.Ban
