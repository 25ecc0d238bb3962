import Ircd.Wire

/-!
# Lines and their grammar

What the parameters of a line are (`Spells`), and where `string_to_array` finds them (`parameters_iff`). It takes the last
parameter that there is room for one character too late, or leaves its colon, unless two spaces stand in front of it.
-/
namespace Ircd

/-- The parameters that a text spells, `k` of them at most. A parameter with a colon is the rest of the text, and so is
the last that there may be. -/
inductive Spells : ℕ → List Char → List (List Char) → Prop where
  | blank {k : ℕ} {text : List Char} : skipSpaces text = [] → Spells k text []
  | colon {k : ℕ} {text last : List Char} : skipSpaces text = ':' :: last → Spells (k + 1) text [last]
  | rest {text : List Char} : skipSpaces text ≠ [] → (skipSpaces text).head? ≠ some ':' →
      Spells 1 text [skipSpaces text]
  | word {k : ℕ} {text param more : List Char} {params : List (List Char)} : skipSpaces text = param ++ more →
      IsParam param → (more = [] ∨ more.head? = some ' ') → Spells (k + 1) more params →
      Spells (k + 2) text (param :: params)

/-- What stands behind the first words of a text. There is nothing behind a parameter with a colon. -/
def behind : ℕ → List Char → List Char
  | 0, text => text
  | n + 1, text =>
    if skipSpaces text = [] ∨ (skipSpaces text).head? = some ':' then []
    else behind n ((skipSpaces text).dropWhile (· != ' '))

/-- Behind the first words there is nothing, or two spaces and what has no colon. -/
def Roomy (n : ℕ) (text : List Char) : Prop :=
  skipSpaces (behind n text) = [] ∨
    ∃ last, behind n text = ' ' :: ' ' :: last ∧ last.head? ≠ some ' ' ∧ last.head? ≠ some ':'

/-! ### Parameters -/

/-- The parameters, word by word, with room for `k` words in front of the last. -/
def spelled : ℕ → List Char → List (List Char)
  | 0, text =>
    if skipSpaces text = [] then [] else if (skipSpaces text).head? = some ':' then [(skipSpaces text).tail]
    else [skipSpaces text]
  | k + 1, text =>
    if skipSpaces text = [] then [] else if (skipSpaces text).head? = some ':' then [(skipSpaces text).tail]
    else (skipSpaces text).takeWhile (· != ' ') :: spelled k ((skipSpaces text).dropWhile (· != ' '))

section

variable {text word more : List Char} {k n : ℕ}

theorem skipSpaces_skipSpaces (text : List Char) : skipSpaces (skipSpaces text) = skipSpaces text := by
  cases shape : skipSpaces text with
  | nil => rfl
  | cons c rest =>
    refine skipSpaces_cons_of_ne ?_ rest
    rintro rfl
    exact head_skipSpaces text (by rw [shape]; rfl)

theorem spelled_skipSpaces (k : ℕ) (text : List Char) : spelled k (skipSpaces text) = spelled k text := by
  cases k <;> simp only [spelled, skipSpaces_skipSpaces]

theorem spelled_blank (blank : skipSpaces text = []) : spelled k text = [] := by
  cases k <;> simp [spelled, blank]

theorem spelled_colon {last : List Char} (colon : skipSpaces text = ':' :: last) : spelled k text = [last] := by
  cases k <;> simp [spelled, colon]

theorem spelled_rest (some_ : skipSpaces text ≠ []) (noColon : (skipSpaces text).head? ≠ some ':') :
    spelled 0 text = [skipSpaces text] := by
  rw [spelled, if_neg some_, if_neg noColon]

theorem spelled_word (some_ : skipSpaces text ≠ []) (noColon : (skipSpaces text).head? ≠ some ':') :
    spelled (k + 1) text =
      (skipSpaces text).takeWhile (· != ' ') :: spelled k ((skipSpaces text).dropWhile (· != ' ')) := by
  rw [spelled, if_neg some_, if_neg noColon]

/-- Where a word ends. -/
theorem takeWhile_word (noSpace : ' ' ∉ word) (ends : more = [] ∨ more.head? = some ' ') :
    (word ++ more).takeWhile (· != ' ') = word ∧ (word ++ more).dropWhile (· != ' ') = more := by
  obtain rfl | space := ends
  · have all : ∀ c ∈ word, (c != ' ') = true := fun c inside => bne_iff_ne.mpr fun space => noSpace (space ▸ inside)
    rw [List.append_nil]
    exact ⟨List.takeWhile_eq_self_iff.mpr all, List.dropWhile_eq_nil_iff.mpr all⟩
  · obtain ⟨more, rfl⟩ := List.head?_eq_some_iff.mp space
    exact ⟨takeWhile_param noSpace more, dropWhile_param noSpace more⟩

theorem head_dropWhile (text : List Char) :
    text.dropWhile (· != ' ') = [] ∨ (text.dropWhile (· != ' ')).head? = some ' ' := by
  cases shape : text.dropWhile (· != ' ') with
  | nil => exact .inl rfl
  | cons c rest =>
    have stop := List.head?_dropWhile_not (· != ' ') text
    rw [shape] at stop
    simp only [List.head?_cons] at stop
    exact .inr (congrArg some (by simpa using stop))

theorem isParam_takeWhile (some_ : skipSpaces text ≠ []) (noColon : (skipSpaces text).head? ≠ some ':') :
    IsParam ((skipSpaces text).takeWhile (· != ' ')) := by
  have noSpace := head_skipSpaces text
  cases shape : skipSpaces text with
  | nil => exact absurd shape some_
  | cons c rest =>
    rw [shape] at noSpace noColon
    have other : (c != ' ') = true := bne_iff_ne.mpr fun space => noSpace (space ▸ rfl)
    refine ⟨?_, fun inside => absurd (List.mem_takeWhile_imp inside) (by decide), ?_⟩
    · rw [List.takeWhile_cons_of_pos (by exact other)]
      exact List.cons_ne_nil _ _
    · rw [List.takeWhile_cons_of_pos (by exact other)]
      exact noColon

/-- How a text begins, behind its spaces. -/
theorem start_cases (text : List Char) :
    skipSpaces text = [] ∨ (∃ last, skipSpaces text = ':' :: last) ∨
      skipSpaces text ≠ [] ∧ (skipSpaces text).head? ≠ some ':' := by
  cases shape : skipSpaces text with
  | nil => exact .inl rfl
  | cons c last =>
    by_cases colon : c = ':'
    · exact .inr (.inl ⟨last, colon ▸ rfl⟩)
    · exact .inr (.inr ⟨List.cons_ne_nil c last, fun same => colon (Option.some.inj same)⟩)

/-- The grammar has one reading. -/
theorem spells_iff (k : ℕ) (text : List Char) (params : List (List Char)) :
    Spells (k + 1) text params ↔ params = spelled k text := by
  induction k generalizing text params with
  | zero =>
    constructor
    · rintro (blank | colon | ⟨some_, noColon⟩)
      · exact (spelled_blank blank).symm
      · exact (spelled_colon colon).symm
      · exact (spelled_rest some_ noColon).symm
    · rintro rfl
      obtain blank | ⟨last, colon⟩ | ⟨some_, noColon⟩ := start_cases text
      · exact spelled_blank blank ▸ .blank blank
      · exact spelled_colon colon ▸ .colon colon
      · exact spelled_rest some_ noColon ▸ .rest some_ noColon
  | succ k ih =>
    constructor
    · intro spells
      cases spells with
      | blank blank => exact (spelled_blank blank).symm
      | colon colon => exact (spelled_colon colon).symm
      | word shape isParam ends rest =>
        have some_ : skipSpaces text ≠ [] := by
          rw [shape]
          exact List.append_ne_nil_of_left_ne_nil isParam.nonempty _
        have noColon : (skipSpaces text).head? ≠ some ':' := by
          rw [shape, List.head?_append_of_ne_nil _ isParam.nonempty]
          exact isParam.noColon
        obtain ⟨word, more⟩ := takeWhile_word isParam.noSpace ends
        rw [spelled_word some_ noColon, shape, word, more, (ih _ _).mp rest]
    · rintro rfl
      obtain blank | ⟨last, colon⟩ | ⟨some_, noColon⟩ := start_cases text
      · exact spelled_blank blank ▸ .blank blank
      · exact spelled_colon colon ▸ .colon colon
      · rw [spelled_word some_ noColon]
        exact .word List.takeWhile_append_dropWhile.symm (isParam_takeWhile some_ noColon) (head_dropWhile _)
          ((ih _ _).mpr rfl)

/-! ### What `string_to_array` makes of them -/

theorem skipSpaces_tail {text : List Char} (ends : text = [] ∨ text.head? = some ' ') :
    skipSpaces text.tail = skipSpaces text := by
  obtain rfl | space := ends
  · rfl
  · obtain ⟨text, rfl⟩ := List.head?_eq_some_iff.mp space
    exact (skipSpaces_cons_space text).symm

/-- One turn of the loop at a word. -/
theorem paramLoop_word (noColon : text.head? ≠ some ':') :
    paramLoop (n + 1) text =
      if skipSpaces (text.dropWhile (· != ' ')) = [] then [text.takeWhile (· != ' ')]
      else if n = 0 then
        [text.takeWhile (· != ' '), if (text.dropWhile (· != ' ')).tail.head? = some ':'
          then (text.dropWhile (· != ' ')).tail else (text.dropWhile (· != ' ')).tail.tail]
      else text.takeWhile (· != ' ') :: paramLoop n (skipSpaces (text.dropWhile (· != ' '))) := by
  rw [paramLoop.eq_3 text n fun last same => noColon (same ▸ rfl)]
  simp only [skipSpaces_tail (head_dropWhile text)]

theorem skipSpaces_eq_self_iff (text : List Char) : skipSpaces text = text ↔ text.head? ≠ some ' ' := by
  constructor
  · intro same
    rw [← same]
    exact head_skipSpaces text
  · intro head
    cases text with
    | nil => rfl
    | cons c text => exact skipSpaces_cons_of_ne (fun space => head (space ▸ rfl)) text

/-- The last parameter comes out right behind two spaces. -/
theorem last_iff (rest : List Char) (more : skipSpaces rest ≠ []) :
    [if rest.head? = some ':' then rest else rest.tail] = spelled 0 (' ' :: rest) ↔
      ∃ last, ' ' :: rest = ' ' :: ' ' :: last ∧ last.head? ≠ some ' ' ∧ last.head? ≠ some ':' := by
  rw [← spelled_skipSpaces, skipSpaces_cons_space, spelled_skipSpaces]
  cases rest with
  | nil => exact absurd rfl more
  | cons c rest =>
    simp only [List.head?_cons, Option.some.injEq, List.tail_cons, List.cons.injEq, true_and]
    by_cases colon : c = ':'
    · -- the colon is left
      subst colon
      rw [spelled_colon (skipSpaces_cons_of_ne (by decide) rest)]
      simp
    · by_cases space : c = ' '
      · subst space
        rw [skipSpaces_cons_space] at more
        rw [← spelled_skipSpaces, skipSpaces_cons_space, spelled_skipSpaces]
        simp only [Char.reduceEq, if_false, true_and, exists_eq_left']
        have short := (List.dropWhile_suffix (· == ' ') (l := rest)).length_le
        obtain blank | ⟨last, colon⟩ | ⟨some_, noColon⟩ := start_cases rest
        · exact absurd blank more
        · rw [spelled_colon colon]
          refine iff_of_false (fun same => ?_) fun both => both.2 ?_
          · change (skipSpaces rest).length ≤ rest.length at short
            rw [colon, (List.cons.inj same).1, List.length_cons] at short
            omega
          · rw [← (skipSpaces_eq_self_iff rest).mpr both.1, colon]
            rfl
        · rw [spelled_rest some_ noColon, List.cons.injEq, and_iff_left rfl, eq_comm, skipSpaces_eq_self_iff]
          refine (and_iff_left_of_imp fun head => ?_).symm
          rwa [(skipSpaces_eq_self_iff rest).mpr head] at noColon
      · -- the first character is lost
        have whole : skipSpaces (c :: rest) = c :: rest := skipSpaces_cons_of_ne space rest
        have noColon : (skipSpaces (c :: rest)).head? ≠ some ':' := by
          rw [whole]
          exact fun same => colon (Option.some.inj same)
        rw [if_neg colon, spelled_rest more noColon, whole]
        simp [space]

theorem roomy_word (more : skipSpaces text ≠ []) (noColon : (skipSpaces text).head? ≠ some ':') :
    Roomy (n + 1) text ↔ Roomy n ((skipSpaces text).dropWhile (· != ' ')) := by
  rw [Roomy, Roomy, behind, if_neg (not_or.mpr ⟨more, noColon⟩)]

theorem roomy_blank (blank : skipSpaces text = []) : Roomy n text := by
  refine .inl ?_
  cases n with
  | zero => exact blank
  | succ n =>
    rw [behind, if_pos (.inl blank)]
    rfl

theorem roomy_colon {last : List Char} (colon : skipSpaces text = ':' :: last) : Roomy (n + 1) text := by
  refine .inl ?_
  rw [behind, if_pos (.inr (colon ▸ rfl))]
  rfl

/-- What is left to show where the text begins with a word, and there is more behind it. -/
theorem paramLoop_iff_of_word
    (rest : ∀ tail, (skipSpaces text).dropWhile (· != ' ') = ' ' :: tail → skipSpaces tail ≠ [] →
      ((if n = 0 then [if tail.head? = some ':' then tail else tail.tail] else paramLoop n (skipSpaces (' ' :: tail))) =
        spelled n (' ' :: tail) ↔ Roomy n (' ' :: tail)))
    (more : skipSpaces text ≠ []) :
    paramLoop (n + 1) (skipSpaces text) = spelled (n + 1) text ↔ Roomy (n + 1) text := by
  obtain blank | ⟨last, colon⟩ | ⟨some_, noColon⟩ := start_cases text
  · exact absurd blank more
  · refine iff_of_true ?_ (roomy_colon colon)
    rw [spelled_colon colon, colon]
    rfl
  · rw [roomy_word some_ noColon, spelled_word some_ noColon, paramLoop_word noColon]
    obtain nothing | space := head_dropWhile (skipSpaces text)
    · rw [nothing, if_pos (show skipSpaces [] = [] from rfl), spelled_blank (show skipSpaces [] = [] from rfl)]
      exact iff_of_true rfl (roomy_blank rfl)
    · obtain ⟨tail, shape⟩ := List.head?_eq_some_iff.mp space
      by_cases blank : skipSpaces tail = []
      · have blank : skipSpaces (' ' :: tail) = [] := (skipSpaces_cons_space tail).trans blank
        rw [shape, if_pos blank, spelled_blank blank]
        exact iff_of_true rfl (roomy_blank blank)
      · rw [shape, ← rest tail shape blank, if_neg (by rwa [skipSpaces_cons_space]), List.tail_cons]
        split
        · rw [List.cons.injEq, and_iff_right rfl]
        · rw [List.cons.injEq, and_iff_right rfl]

/-- The loop finds the parameters of the grammar where there is room for them. -/
theorem paramLoop_iff (n : ℕ) (text : List Char) (more : skipSpaces text ≠ []) :
    paramLoop (n + 1) (skipSpaces text) = spelled (n + 1) text ↔ Roomy (n + 1) text := by
  induction n generalizing text with
  | zero =>
    refine paramLoop_iff_of_word (fun tail shape some_ => ?_) more
    rw [if_pos rfl, last_iff tail some_, Roomy, behind, or_iff_right (by rwa [skipSpaces_cons_space])]
  | succ n ih =>
    refine paramLoop_iff_of_word (fun tail shape some_ => ?_) more
    rw [if_neg (Nat.succ_ne_zero n)]
    exact ih _ (by rwa [skipSpaces_cons_space])

theorem stringToArray_iff (text : List Char) :
    Spells (maxPara - 1) text (stringToArray text) ↔ Roomy (maxPara - 2) text := by
  change Spells (13 + 1) text (stringToArray text) ↔ Roomy (12 + 1) text
  rw [spells_iff, stringToArray]
  split
  · next blank => exact iff_of_true (spelled_blank blank).symm (roomy_blank blank)
  · next more => exact paramLoop_iff 12 text more

end

/-! ### Lines with any number of spaces -/

/-- What a line says. -/
structure LineParts where
  sender : Option (List Char)
  command : List Char
  words : List (List Char)
  last : Option (List Char)

def LineParts.params (parts : LineParts) : List (List Char) := parts.words ++ parts.last.toList

structure LineParts.Proper (parts : LineParts) : Prop where
  sender : ∀ sender, parts.sender = some sender → ' ' ∉ sender
  command : IsParam parts.command
  words : ∀ word ∈ parts.words, IsParam word

/-- Parameters with spaces in front of each, and the last behind a colon. -/
inductive Spaced : List (List Char) → Option (List Char) → List Char → Prop where
  | done (gap : ℕ) : Spaced [] none (List.replicate gap ' ')
  | last (gap : ℕ) (last : List Char) : Spaced [] (some last) (List.replicate (gap + 1) ' ' ++ ':' :: last)
  | word (gap : ℕ) (word : List Char) {words : List (List Char)} {last : Option (List Char)} {more : List Char} :
      Spaced words last more → Spaced (word :: words) last (List.replicate (gap + 1) ' ' ++ (word ++ more))

/-- The prefix of a line, with spaces behind it. -/
def prefixText (gap : ℕ) : Option (List Char) → List Char
  | none => []
  | some sender => ':' :: (sender ++ List.replicate (gap + 1) ' ')

/-- The line says so, with one space or more between its parts. -/
def LineParts.Line (parts : LineParts) (line : List Char) : Prop :=
  ∃ lead gap more, Spaced parts.words parts.last more ∧
    line = List.replicate lead ' ' ++ (prefixText gap parts.sender ++ (parts.command ++ more))

section

variable {words : List (List Char)} {last : Option (List Char)} {more : List Char}

theorem Spaced.ends (spaced : Spaced words last more) : more = [] ∨ more.head? = some ' ' := by
  cases spaced with
  | done gap =>
    cases gap with
    | zero => exact .inl rfl
    | succ gap => exact .inr rfl
  | last gap last => exact .inr rfl
  | word gap word rest => exact .inr rfl

theorem skipSpaces_spaces (gap : ℕ) : skipSpaces (List.replicate gap ' ') = [] := by
  have nothing := skipSpaces_replicate gap []
  rwa [List.append_nil] at nothing

/-- Few parameters are the same to the grammar whatever spaces there are, and there is room for them. -/
theorem Spaced.spelled (spaced : Spaced words last more) (isParam : ∀ word ∈ words, IsParam word) {k : ℕ}
    (few : (words ++ last.toList).length ≤ k) : spelled k more = words ++ last.toList ∧ Roomy k more := by
  induction spaced generalizing k with
  | done gap => exact ⟨spelled_blank (skipSpaces_spaces gap), roomy_blank (skipSpaces_spaces gap)⟩
  | last gap last =>
    have colon : skipSpaces (List.replicate (gap + 1) ' ' ++ ':' :: last) = ':' :: last :=
      (skipSpaces_replicate _ _).trans (skipSpaces_cons_of_ne (by decide) last)
    cases k with
    | zero => cases few
    | succ k => exact ⟨spelled_colon colon, roomy_colon colon⟩
  | @word gap word words last more rest ih =>
    have first := isParam word List.mem_cons_self
    have skipped : skipSpaces (List.replicate (gap + 1) ' ' ++ (word ++ more)) = word ++ more :=
      (skipSpaces_replicate _ _).trans (first.skipSpaces more)
    have some_ : skipSpaces (List.replicate (gap + 1) ' ' ++ (word ++ more)) ≠ [] := by
      rw [skipped]
      exact List.append_ne_nil_of_left_ne_nil first.nonempty more
    have noColon : (skipSpaces (List.replicate (gap + 1) ' ' ++ (word ++ more))).head? ≠ some ':' := by
      rw [skipped, List.head?_append_of_ne_nil _ first.nonempty]
      exact first.noColon
    cases k with
    | zero => cases few
    | succ k =>
      obtain ⟨inner, room⟩ := ih (fun word inside => isParam word (List.mem_cons_of_mem _ inside))
        (Nat.le_of_succ_le_succ few)
      obtain ⟨word_, more_⟩ := takeWhile_word first.noSpace rest.ends
      rw [spelled_word some_ noColon, roomy_word some_ noColon, skipped, word_, more_, inner]
      exact ⟨rfl, room⟩

theorem stringToArray_tail (ends : more = [] ∨ more.head? = some ' ') : stringToArray more.tail = stringToArray more := by
  rw [stringToArray, stringToArray, skipSpaces_tail ends]

theorem Spaced.stringToArray (spaced : Spaced words last more) (isParam : ∀ word ∈ words, IsParam word)
    (few : (words ++ last.toList).length ≤ maxPara - 2) : stringToArray more = words ++ last.toList := by
  obtain ⟨same, room⟩ := spaced.spelled isParam few
  have spells : Spells (12 + 1 + 1) more _ := (stringToArray_iff more).mpr room
  rw [spells_iff] at spells
  exact spells.trans same

/-- The prefix and the command are found whatever spaces there are. -/
theorem parseLine_spaced {parts : LineParts} (proper : parts.Proper) (lead gap : ℕ)
    (spaced : Spaced parts.words parts.last more) :
    parseLine (List.replicate lead ' ' ++ (prefixText gap parts.sender ++ (parts.command ++ more))) =
      some ⟨parts.sender.getD [], parts.command, Ircd.stringToArray more⟩ := by
  obtain ⟨word, rest⟩ := takeWhile_word proper.command.noSpace spaced.ends
  have some_ : parts.command ++ more ≠ [] := List.append_ne_nil_of_left_ne_nil proper.command.nonempty more
  have skipped := proper.command.skipSpaces more
  cases from_ : parts.sender with
  | none =>
    have noColon : (parts.command ++ more).head? ≠ some ':' := by
      rw [List.head?_append_of_ne_nil _ proper.command.nonempty]
      exact proper.command.noColon
    unfold parseLine
    rw [skipSpaces_replicate, prefixText, List.nil_append, skipped]
    simp only [if_neg noColon, if_neg some_, word, rest, stringToArray_tail spaced.ends, Option.getD_none]
  | some sender =>
    have noSpace := proper.sender sender from_
    have shape : prefixText gap (some sender) ++ (parts.command ++ more) =
        ':' :: (sender ++ ' ' :: (List.replicate gap ' ' ++ (parts.command ++ more))) := by
      simp [prefixText, List.replicate_succ]
    have inside : ' ' ∈ sender ++ ' ' :: (List.replicate gap ' ' ++ (parts.command ++ more)) := by simp
    unfold parseLine
    rw [skipSpaces_replicate, shape, skipSpaces_cons_of_ne (by decide)]
    simp only [List.head?_cons, if_true, List.tail_cons, inside, takeWhile_param noSpace, dropWhile_param noSpace,
      skipSpaces_replicate, skipped, if_neg some_, word, rest, stringToArray_tail spaced.ends, Option.getD_some]

/-! ### Where there are too many -/

theorem exists_spaced (words : List (List Char)) (last : Option (List Char)) : ∃ more, Spaced words last more := by
  induction words with
  | nil =>
    cases last with
    | none => exact ⟨_, .done 0⟩
    | some last => exact ⟨_, .last 0 last⟩
  | cons word words ih =>
    obtain ⟨more, spaced⟩ := ih
    exact ⟨_, .word 0 word spaced⟩

/-- Any number of spaces may stand in front of a parameter. -/
theorem exists_gap (isParam : ∀ word ∈ words, IsParam word) (some_ : words ++ last.toList ≠ []) :
    ∃ text, skipSpaces text = text ∧ text ≠ [] ∧ ∀ gap, Spaced words last (List.replicate (gap + 1) ' ' ++ text) := by
  cases words with
  | nil =>
    cases last with
    | none => exact absurd rfl some_
    | some last => exact ⟨':' :: last, skipSpaces_cons_of_ne (by decide) last, List.cons_ne_nil _ _, fun gap => .last gap last⟩
  | cons word words =>
    have first := isParam word List.mem_cons_self
    obtain ⟨more, spaced⟩ := exists_spaced words last
    exact ⟨word ++ more, first.skipSpaces more, List.append_ne_nil_of_left_ne_nil first.nonempty more,
      fun gap => .word gap word spaced⟩

theorem Spaced.append (spaced : Spaced words last more) (front : List (List Char)) :
    Spaced (front ++ words) last (front.flatMap (' ' :: ·) ++ more) := by
  induction front with
  | nil => exact spaced
  | cons word front ih =>
    have more' := Spaced.word 0 word ih
    simpa using more'

theorem skipSpaces_append_ne {tail : List Char} (more : skipSpaces tail ≠ []) (front : List Char) :
    skipSpaces (front ++ tail) ≠ [] := by
  intro blank
  have all := List.dropWhile_eq_nil_iff.mp blank
  exact more (List.dropWhile_eq_nil_iff.mpr fun c inside => all c (List.mem_append_right front inside))

/-- What the loop makes of the parameter that there is no room for. -/
theorem paramLoop_full {front : List (List Char)} (isParam : ∀ word ∈ front, IsParam word) {tail : List Char}
    (more : skipSpaces tail ≠ []) {n : ℕ} (full : front.length = n + 1) :
    paramLoop (n + 1) (skipSpaces (front.flatMap (' ' :: ·) ++ ' ' :: tail)) =
      front ++ [if tail.head? = some ':' then tail else tail.tail] := by
  induction front generalizing n with
  | nil => cases full
  | cons word front ih =>
    have first := isParam word List.mem_cons_self
    have skipped : skipSpaces ((word :: front).flatMap (' ' :: ·) ++ ' ' :: tail) =
        word ++ (front.flatMap (' ' :: ·) ++ ' ' :: tail) := by
      simp [first.skipSpaces]
    have ends : (front.flatMap (' ' :: ·) ++ ' ' :: tail) = [] ∨ (front.flatMap (' ' :: ·) ++ ' ' :: tail).head? = some ' ' := by
      cases front <;> exact .inr rfl
    have noColon : (word ++ (front.flatMap (' ' :: ·) ++ ' ' :: tail)).head? ≠ some ':' := by
      rw [List.head?_append_of_ne_nil _ first.nonempty]
      exact first.noColon
    obtain ⟨word_, more_⟩ := takeWhile_word first.noSpace ends
    rw [skipped, paramLoop_word noColon, word_, more_]
    have behind_ : skipSpaces (' ' :: tail) ≠ [] := by rwa [skipSpaces_cons_space]
    rw [if_neg (skipSpaces_append_ne behind_ _)]
    cases n with
    | zero =>
      obtain rfl := List.length_eq_zero_iff.mp (Nat.succ.inj full)
      rw [if_pos rfl]
      rfl
    | succ n =>
      rw [if_neg (Nat.succ_ne_zero n), ih (fun word inside => isParam word (List.mem_cons_of_mem _ inside)) (Nat.succ.inj full)]
      rfl

/-- One space or three in front of the last parameter that there is room for: it is not the same. -/
theorem exists_differ (isParam : ∀ word ∈ words, IsParam word) (many : maxPara - 2 < (words ++ last.toList).length) :
    ∃ more more', Spaced words last more ∧ Spaced words last more' ∧ Ircd.stringToArray more ≠ Ircd.stringToArray more' := by
  have long : 13 ≤ words.length := by
    have short : last.toList.length ≤ 1 := by cases last <;> simp
    rw [List.length_append] at many
    simp only [maxPara] at many
    omega
  have front : ∀ word ∈ words.take 13, IsParam word := fun word inside => isParam word (List.mem_of_mem_take inside)
  have back : ∀ word ∈ words.drop 13, IsParam word := fun word inside => isParam word (List.mem_of_mem_drop inside)
  have some_ : words.drop 13 ++ last.toList ≠ [] := by
    rw [← List.drop_append_of_le_length long, Ne, List.drop_eq_nil_iff, Nat.not_le]
    exact many
  obtain ⟨text, noSpace, nonempty, spaced⟩ := exists_gap back some_
  have whole : words.take 13 ++ words.drop 13 = words := List.take_append_drop 13 words
  have read (gap : ℕ) : Spaced words last ((words.take 13).flatMap (' ' :: ·) ++ (' ' :: (List.replicate gap ' ' ++ text))) ∧
      Ircd.stringToArray ((words.take 13).flatMap (' ' :: ·) ++ (' ' :: (List.replicate gap ' ' ++ text))) =
        words.take 13 ++ [if (List.replicate gap ' ' ++ text).head? = some ':' then List.replicate gap ' ' ++ text
          else (List.replicate gap ' ' ++ text).tail] := by
    have more : skipSpaces (List.replicate gap ' ' ++ text) ≠ [] := by
      rw [skipSpaces_replicate, noSpace]
      exact nonempty
    constructor
    · have appended := (spaced gap).append (words.take 13)
      rwa [whole] at appended
    · have behind_ : skipSpaces (' ' :: (List.replicate gap ' ' ++ text)) ≠ [] := by rwa [skipSpaces_cons_space]
      rw [Ircd.stringToArray, if_neg (skipSpaces_append_ne behind_ _)]
      exact paramLoop_full front more (List.length_take_of_le long)
  refine ⟨_, _, (read 0).1, (read 2).1, fun same => ?_⟩
  rw [(read 0).2, (read 2).2] at same
  have last_ := (List.cons.inj (List.append_cancel_left same)).1
  have lengths := congrArg List.length last_
  simp only [List.replicate_zero, List.nil_append, List.replicate_succ, List.cons_append, List.head?_cons,
    List.tail_cons, Option.some.injEq, Char.reduceEq, if_false, List.length_cons] at lengths
  split at lengths
  · omega
  · rw [List.length_tail] at lengths
    omega

end

/-- The parameters are those of the grammar exactly where there are thirteen at most, or two spaces in front of the next.
With thirteen at most, it does not matter how many spaces stand between the parts of a line. -/
theorem parameters_iff (text : List Char) (parts : LineParts) (proper : parts.Proper) :
    (Spells (maxPara - 1) text (stringToArray text) ↔ Roomy (maxPara - 2) text) ∧
      ((∀ line line', parts.Line line → parts.Line line' → parseLine line = parseLine line') ↔
        parts.params.length ≤ maxPara - 2) ∧
      (parts.params.length ≤ maxPara - 2 →
        ∀ line, parts.Line line → parseLine line = some ⟨parts.sender.getD [], parts.command, parts.params⟩) := by
  have reads (few : parts.params.length ≤ maxPara - 2) (line : List Char) (spoken : parts.Line line) :
      parseLine line = some ⟨parts.sender.getD [], parts.command, parts.params⟩ := by
    obtain ⟨lead, gap, more, spaced, rfl⟩ := spoken
    rw [parseLine_spaced proper lead gap spaced, spaced.stringToArray proper.words few]
    rfl
  refine ⟨stringToArray_iff text, ⟨fun same => ?_, fun few line line' spoken spoken' => ?_⟩, reads⟩
  · by_contra many
    obtain ⟨more, more', spaced, spaced', differ⟩ := exists_differ proper.words (Nat.lt_of_not_le many)
    have both := same _ _ ⟨0, 0, more, spaced, rfl⟩ ⟨0, 0, more', spaced', rfl⟩
    rw [parseLine_spaced proper 0 0 spaced, parseLine_spaced proper 0 0 spaced'] at both
    exact differ (ParsedLine.mk.inj (Option.some.inj both)).2.2
  · rw [reads few line spoken, reads few line' spoken']

/-- Fourteen parameters, with one space in front of each. -/
def fullText : List Char := (List.range 14).flatMap fun i => [' ', Char.ofNat (97 + i), 'x']

/-- The last of them has lost its first character. -/
theorem last_param_cut : ¬Spells (maxPara - 1) fullText (stringToArray fullText) ∧
    (stringToArray fullText).getLast? = some ['x'] := by
  refine ⟨?_, by decide⟩
  change ¬Spells (13 + 1) fullText (stringToArray fullText)
  rw [spells_iff]
  decide

theorem parameters_iff_ping :
    (Spells (maxPara - 1) [' ', 'a'] (stringToArray [' ', 'a']) ↔ Roomy (maxPara - 2) [' ', 'a']) ∧
      ((∀ line line', LineParts.Line ⟨some ['x'], ['P'], [['a']], some []⟩ line →
          LineParts.Line ⟨some ['x'], ['P'], [['a']], some []⟩ line' → parseLine line = parseLine line') ↔
        (LineParts.params ⟨some ['x'], ['P'], [['a']], some []⟩).length ≤ maxPara - 2) ∧
      ((LineParts.params ⟨some ['x'], ['P'], [['a']], some []⟩).length ≤ maxPara - 2 →
        ∀ line, LineParts.Line ⟨some ['x'], ['P'], [['a']], some []⟩ line →
          parseLine line = some ⟨['x'], ['P'], LineParts.params ⟨some ['x'], ['P'], [['a']], some []⟩⟩) :=
  parameters_iff [' ', 'a'] ⟨some ['x'], ['P'], [['a']], some []⟩
    ⟨fun _ same => Option.some.inj same ▸ (by decide), ⟨by decide, by decide, by decide⟩,
      fun word inside => List.mem_singleton.mp inside ▸ ⟨by decide, by decide, by decide⟩⟩

end Ircd
