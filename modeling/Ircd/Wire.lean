import Ircd.Channel.Sjoin
import Ircd.Numbers

/-!
# Lines between servers

How a line is sent (`linebuf_putmsg` of `src/linebuf.c`) and how it is taken apart again
(`parse` and `string_to_array` of `src/parse.c`). Numerics are left out, and the command is
handed to `ms_sjoin` only.
-/
namespace Ircd

def maxPara : ℕ := 15

/-- `linebuf_putmsg`: the line is cut, and loses line ends at its end. -/
def putmsg (line : List Char) : List Char :=
  ((line.take 510).reverse.dropWhile fun c => c == '\r' || c == '\n' || c == '\x00').reverse

def skipSpaces (text : List Char) : List Char := text.dropWhile (· == ' ')

/-- The loop of `string_to_array`, with room for `n` more parameters. What is left behind the
last one becomes one more parameter, without its first character unless that is a colon. -/
def paramLoop : ℕ → List Char → List (List Char)
  | 0, _ => []
  | _ + 1, ':' :: last => [last]
  | n + 1, text =>
    let param := text.takeWhile (· != ' ')
    let p := (text.dropWhile (· != ' ')).tail
    if skipSpaces p = [] then [param]
    else if n = 0 then [param, if p.head? = some ':' then p else p.tail]
    else param :: paramLoop n (skipSpaces p)

/-- `string_to_array`. -/
def stringToArray (text : List Char) : List (List Char) :=
  if skipSpaces text = [] then [] else paramLoop (maxPara - 2) (skipSpaces text)

/-- A line as `parse` takes it apart: the sender, if there is one, the command and its
parameters. -/
structure ParsedLine where
  sender : List Char
  command : List Char
  params : List (List Char)
deriving DecidableEq

/-- `parse`, as far as the text goes. A prefix that no space follows is the command too. -/
def parseLine (line : List Char) : Option ParsedLine :=
  let text := skipSpaces line
  let sender := if text.head? = some ':' then text.tail.takeWhile (· != ' ') else []
  let rest :=
    if text.head? = some ':' then
      if ' ' ∈ text.tail then skipSpaces (text.tail.dropWhile (· != ' ')).tail
      else skipSpaces text.tail
    else text
  if rest = [] then none
  else some ⟨sender, rest.takeWhile (· != ' '), stringToArray (rest.dropWhile (· != ' ')).tail⟩

theorem head_skipSpaces (text : List Char) : (skipSpaces text).head? ≠ some ' ' := by
  intro head
  have := List.head?_dropWhile_not (· == ' ') text
  rw [show text.dropWhile (· == ' ') = skipSpaces text from rfl, head] at this
  simp at this

/-- Only the last parameter can be empty. -/
theorem stringToArray_head {text : List Char} (several : 2 ≤ (stringToArray text).length) :
    (stringToArray text).getD 0 [] ≠ [] := by
  unfold stringToArray at several ⊢
  split at several
  · simp at several
  next nonempty =>
    rw [if_neg nonempty]
    have noSpace := head_skipSpaces text
    obtain ⟨c, rest, equal⟩ := List.exists_cons_of_ne_nil nonempty
    rw [equal] at several noSpace ⊢
    have other : c ≠ ' ' := by simpa using noSpace
    by_cases colon : c = ':'
    · subst colon
      simp [paramLoop, maxPara] at several
    · have first : ((c :: rest).takeWhile (· != ' ')) ≠ [] := by simp [other]
      rw [show maxPara - 2 = 12 + 1 from rfl, paramLoop.eq_3 (c :: rest) 12 (by simpa using colon)]
      split
      · exact first
      · split
        · exact first
        · exact first

/-! ### Reading what has been written -/

/-- Text that is one parameter, and not the last. -/
structure IsParam (param : List Char) : Prop where
  nonempty : param ≠ []
  noSpace : ' ' ∉ param
  noColon : param.head? ≠ some ':'

theorem isParam_of_allDigits {text : List Char} (digits : AllDigits text) : IsParam text where
  nonempty := digits.1
  noSpace member := absurd (digits.2 _ member) (by decide)
  noColon := by
    intro colon
    have member : ':' ∈ text := by
      cases text with
      | nil => cases colon
      | cons c text => simp [Option.some.inj colon]
    exact absurd (digits.2 _ member) (by decide)

theorem isParam_printD (value : ℤ) : IsParam (printD value) := by
  have digits := isParam_of_allDigits (allDigits_toDigits value.natAbs)
  unfold printD
  split
  · exact ⟨by simp, by simpa using digits.noSpace, by simp⟩
  · exact digits

theorem takeWhile_param {param : List Char} (noSpace : ' ' ∉ param) (text : List Char) :
    (param ++ ' ' :: text).takeWhile (· != ' ') = param := by
  rw [List.takeWhile_append_of_pos]
  · simp
  · intro c member
    simpa using fun equal : c = ' ' => noSpace (equal ▸ member)

theorem dropWhile_param {param : List Char} (noSpace : ' ' ∉ param) (text : List Char) :
    (param ++ ' ' :: text).dropWhile (· != ' ') = ' ' :: text := by
  rw [List.dropWhile_append_of_pos]
  · simp
  · intro c member
    simpa using fun equal : c = ' ' => noSpace (equal ▸ member)

@[simp] theorem skipSpaces_cons_space (text : List Char) :
    skipSpaces (' ' :: text) = skipSpaces text := by
  simp [skipSpaces]

theorem skipSpaces_cons_of_ne {c : Char} (other : c ≠ ' ') (text : List Char) :
    skipSpaces (c :: text) = c :: text := by
  simp [skipSpaces, other]

theorem skipSpaces_replicate (n : ℕ) (text : List Char) :
    skipSpaces (List.replicate n ' ' ++ text) = skipSpaces text := by
  induction n with
  | zero => rfl
  | succ n ih => rw [List.replicate_succ, List.cons_append, skipSpaces_cons_space, ih]

theorem IsParam.skipSpaces {param : List Char} (isParam : IsParam param) (text : List Char) :
    skipSpaces (param ++ text) = param ++ text := by
  cases param with
  | nil => exact absurd rfl isParam.nonempty
  | cons c param =>
    apply skipSpaces_cons_of_ne
    rintro rfl
    exact isParam.noSpace (by simp)

/-- Parameters with a space behind each, more spaces, and the last parameter behind a colon. -/
def paramText (params : List (List Char)) (gap : ℕ) (last : List Char) : List Char :=
  params.flatMap (· ++ [' ']) ++ (List.replicate gap ' ' ++ ':' :: last)

private theorem skipSpaces_paramText_ne (params : List (List Char)) (gap : ℕ) (last : List Char) :
    skipSpaces (paramText params gap last) ≠ [] := by
  intro blank
  have all := List.dropWhile_eq_nil_iff.mp blank
  exact absurd (all ':' (by simp [paramText])) (by decide)

private theorem paramText_cons (param : List Char) (params : List (List Char)) (gap : ℕ)
    (last : List Char) :
    paramText (param :: params) gap last = param ++ ' ' :: paramText params gap last := by
  simp [paramText]

private theorem paramLoop_paramText {params : List (List Char)}
    (all : ∀ param ∈ params, param ≠ [] → IsParam param) (gap : ℕ) (last : List Char) {n : ℕ}
    (room : params.length < n) :
    paramLoop n (skipSpaces (paramText params gap last)) = params.filter (· ≠ []) ++ [last] := by
  induction params generalizing n with
  | nil =>
    obtain ⟨n, rfl⟩ : ∃ m, n = m + 1 := ⟨n - 1, by simp at room; omega⟩
    rw [show skipSpaces (paramText [] gap last) = ':' :: last from
      (skipSpaces_replicate gap _).trans (skipSpaces_cons_of_ne (by decide) last)]
    rfl
  | cons param params ih =>
    have rest : ∀ param ∈ params, param ≠ [] → IsParam param := fun p member => all p (by simp [member])
    obtain ⟨n, rfl⟩ : ∃ m, n = m + 2 := ⟨n - 2, by simp at room; omega⟩
    have tail := ih rest (n := n + 1) (by simp at room; omega)
    rw [paramText_cons]
    by_cases empty : param = []
    · -- only a space is left of an empty parameter
      subst empty
      rw [List.nil_append, skipSpaces_cons_space, ih rest (n := n + 2) (by simp at room; omega)]
      rfl
    · have isParam := all param (by simp) empty
      rw [isParam.skipSpaces, List.filter_cons_of_pos (by simpa using empty)]
      obtain ⟨-, noSpace, noColon⟩ := isParam
      obtain ⟨c, word, rfl⟩ := List.exists_cons_of_ne_nil empty
      have notColon : c ≠ ':' := by simpa using noColon
      rw [List.cons_append, paramLoop]
      · rw [← List.cons_append, takeWhile_param noSpace, dropWhile_param noSpace, List.tail_cons,
          if_neg (skipSpaces_paramText_ne params gap last), if_neg (Nat.succ_ne_zero n), tail]
        rfl
      · rintro last' equal
        exact notColon (List.cons.inj equal).1

/-- Parameters are read as they have been written, but for those that are empty. -/
theorem stringToArray_skips {params : List (List Char)}
    (all : ∀ param ∈ params, param ≠ [] → IsParam param) (gap : ℕ) (last : List Char)
    (few : params.length < maxPara - 2) :
    stringToArray (paramText params gap last) = params.filter (· ≠ []) ++ [last] := by
  unfold stringToArray
  rw [if_neg (skipSpaces_paramText_ne params gap last)]
  exact paramLoop_paramText all gap last few

/-- Parameters are read as they have been written. -/
theorem stringToArray_paramText {params : List (List Char)}
    (all : ∀ param ∈ params, IsParam param) (gap : ℕ) (last : List Char)
    (few : params.length < maxPara - 2) :
    stringToArray (paramText params gap last) = params ++ [last] := by
  rw [stringToArray_skips (fun param member _ => all param member) gap last few,
    List.filter_eq_self.mpr fun param member => by simpa using (all param member).nonempty]

theorem length_paramLoop_colon (n : ℕ) (last : List Char) :
    (paramLoop n (':' :: last)).length ≤ 1 := by
  cases n with
  | zero => exact Nat.zero_le _
  | succ n => exact le_rfl

/-- Text up to a space is one parameter at most. -/
theorem length_paramLoop_le {word : List Char} (noSpace : ' ' ∉ word) {rest : List Char} {k : ℕ}
    (few : ∀ m, (paramLoop m (skipSpaces rest)).length ≤ k) (some : 1 ≤ k) (n : ℕ) :
    (paramLoop n (word ++ ' ' :: rest)).length ≤ k + 1 := by
  cases n with
  | zero => exact Nat.zero_le _
  | succ n =>
    unfold paramLoop
    split
    · exact Nat.zero_le _
    · simp
    · rename_i m shape _
      obtain rfl : n = m := Nat.succ.inj shape
      simp only [takeWhile_param noSpace, dropWhile_param noSpace, List.tail_cons]
      split
      · simp
      · split
        · simpa using some
        · simpa using few n

/-- A line with a prefix. -/
theorem parseLine_prefixed {sender command : List Char} (sent : ' ' ∉ sender)
    (isCommand : IsParam command) (text : List Char) :
    parseLine (':' :: (sender ++ ' ' :: (command ++ ' ' :: text))) =
      some ⟨sender, command, stringToArray text⟩ := by
  have skip : skipSpaces (command ++ ' ' :: text) = command ++ ' ' :: text :=
    isCommand.skipSpaces _
  have some : command ++ ' ' :: text ≠ [] := by simp
  unfold parseLine
  rw [skipSpaces_cons_of_ne (by decide)]
  have inside : ' ' ∈ sender ++ ' ' :: (command ++ ' ' :: text) := by simp
  simp only [List.head?_cons, if_true, List.tail_cons, inside, takeWhile_param sent,
    dropWhile_param sent, skip, if_neg some, takeWhile_param isCommand.noSpace,
    dropWhile_param isCommand.noSpace]

/-- A line that fits and does not end with a line end is sent as it is. -/
theorem putmsg_eq_of_getLast {line : List Char} {c : Char} (fits : line.length ≤ 510)
    (ends : line.getLast? = some c) (plain : c ≠ '\r' ∧ c ≠ '\n' ∧ c ≠ '\x00') :
    putmsg line = line := by
  unfold putmsg
  rw [List.take_of_length_le fits]
  rw [← List.head?_reverse] at ends
  cases shape : line.reverse with
  | nil =>
    rw [shape] at ends
    cases ends
  | cons d text =>
    rw [shape] at ends
    obtain rfl := Option.some.inj ends
    rw [List.dropWhile_cons_of_neg (by simp [plain]), ← shape, List.reverse_reverse]

/-- A line that fits and ends with a space is sent as it is. -/
theorem putmsg_eq {line : List Char} (fits : line.length ≤ 510)
    (ends : line.getLast? = some ' ') : putmsg line = line :=
  putmsg_eq_of_getLast fits ends (by decide)

namespace Chan

/-- `find_id`. -/
def State.findId (s : State) (name : List Char) : Option ClientId :=
  s.clientTable.find? fun c => ((s.client c).user.map User.id) = some name

/-- `hash_find_masked_server`: the part of the name up to a dot, replaced by a star. -/
def State.findMaskedServer (s : State) (name : List Char) : Option ClientId :=
  if name.head? = some '*' ∨ name.head? = some '.' then none
  else
    let cut := name.take hostLen
    (cut.tails.filter fun tail => tail.head? = some '.').findSome? fun tail =>
      s.findClient ('*' :: tail)

/-- `find_server`. -/
def State.findServer (s : State) (name : List Char) : Option ClientId :=
  match s.clientTable.find? fun c =>
      ((s.client c).status == .server || (s.client c).status == .me) &&
        decide (IrcEq name (s.client c).name) with
  | some server => some server
  | none => s.findMaskedServer name

/-- Whom `parse` takes a line to be from. A line is dropped when its prefix is not known, or
comes over another link. -/
def State.sender (s : State) (clientP : ClientId) (name : List Char) : Option ClientId :=
  if name = [] ∨ (s.client clientP).status ≠ .server then some clientP
  else
    match (s.findClient name).or ((s.findServer name).or (s.findId name)) with
    | none => none
    | some who => if (s.client who).source = clientP then some who else none

/-- A line over a link, if it is a SJOIN. -/
def State.readSjoin (s : State) (clientP : ClientId) (line : List Char) : State :=
  match parseLine line with
  | none => s
  | some parsed =>
    match s.sender clientP parsed.sender with
    | none => s
    | some source =>
      if IrcEq parsed.command ['S', 'J', 'O', 'I', 'N'] then
        (s.msSjoin clientP source ((s.client source).name :: parsed.params)).state
      else s

end Chan

end Ircd
