import Ircd.Ban.File
import Mathlib.Data.List.TakeWhile

/-!
# Reading the files of bans

A file of ended lines falls into the pieces that `fbgets` reads in one way only. What `getfield` gives
depends on the text up to the next comma.
-/
namespace Ircd.Ban

/-! ### Pieces -/

/-- A text that `fbgets` reads as a whole, whatever follows. -/
def IsPiece (room : ℕ) (piece : List Char) : Prop :=
  piece ≠ [] ∧ ∀ more, fbgets room (piece ++ more) = (piece, more)

/-- The file is empty, or its last line is ended. -/
def Ended (file : List Char) : Prop := file = [] ∨ file.getLast? = some '\n'

theorem Ended.of_append (front : List Char) {file : List Char} (ended : Ended (front ++ file)) : Ended file := by
  cases file with
  | nil => exact Or.inl rfl
  | cons c file =>
    rcases ended with empty | last
    · simp at empty
    · exact Or.inr (by simpa [List.getLast?_append] using last)

private theorem fbgets_cons {c : Char} (newline : c ≠ '\n') (other : c ≠ '\r') (room : ℕ)
    (file : List Char) :
    fbgets (room + 1) (c :: file) = (c :: (fbgets room file).1, (fbgets room file).2) := by
  simp [fbgets, newline, other]

private theorem fbgets_piece (room : ℕ) {file : List Char} (nonempty : file ≠ [])
    (noReturn : '\r' ∉ file) (ended : Ended file) :
    (fbgets (room + 1) file).1 ++ (fbgets (room + 1) file).2 = file ∧
      IsPiece (room + 1) (fbgets (room + 1) file).1 := by
  induction room generalizing file with
  | zero =>
    obtain ⟨c, file, rfl⟩ := List.exists_cons_of_ne_nil nonempty
    have other : c ≠ '\r' := fun same => noReturn (same ▸ List.mem_cons_self)
    by_cases newline : c = '\n' <;> simp [fbgets, newline, other, IsPiece]
  | succ room ih =>
    obtain ⟨c, file, rfl⟩ := List.exists_cons_of_ne_nil nonempty
    have other : c ≠ '\r' := fun same => noReturn (same ▸ List.mem_cons_self)
    by_cases newline : c = '\n'
    · simp [fbgets, newline, IsPiece]
    · have inside : file ≠ [] := by
        rintro rfl
        rcases ended with empty | last
        · cases empty
        · exact newline (by simpa using last)
      obtain ⟨whole, -, piece⟩ := ih inside (fun member => noReturn (List.mem_cons_of_mem _ member))
        (Ended.of_append [c] ended)
      rw [fbgets_cons newline other]
      refine ⟨by rw [List.cons_append, whole], List.cons_ne_nil _ _, fun more => ?_⟩
      rw [List.cons_append, fbgets_cons newline other, piece more]

/-- A file of ended lines is made of pieces. -/
private theorem readLines_pieces (fuel : ℕ) {file : List Char} (enough : file.length ≤ fuel)
    (noReturn : '\r' ∉ file) (ended : Ended file) :
    (readLines fuel file).flatten = file ∧ ∀ piece ∈ readLines fuel file, IsPiece (bufSize - 1) piece := by
  induction fuel generalizing file with
  | zero =>
    obtain rfl := List.length_eq_zero_iff.mp (Nat.le_zero.mp enough)
    exact ⟨rfl, fun piece member => absurd member List.not_mem_nil⟩
  | succ fuel ih =>
    cases file with
    | nil => exact ⟨rfl, fun piece member => absurd member List.not_mem_nil⟩
    | cons c file =>
      obtain ⟨whole, piece⟩ := fbgets_piece 510 (List.cons_ne_nil c file) noReturn ended
      simp only [readLines, bufSize, Nat.reduceSub, Nat.reduceAdd] at whole piece ⊢
      generalize fbgets 511 (c :: file) = read at whole piece
      have shorter : read.2.length ≤ fuel := by
        have positive := List.length_pos_iff.mpr piece.1
        have total := congrArg List.length whole
        rw [List.length_append] at total
        omega
      obtain ⟨rest, pieces⟩ := ih shorter
        (fun member => noReturn (whole ▸ List.mem_append_right _ member)) (Ended.of_append read.1 (whole ▸ ended))
      refine ⟨by rw [List.flatten_cons, rest, whole], fun p member => ?_⟩
      rcases List.mem_cons.mp member with rfl | member
      · exact piece
      · exact pieces p member

theorem linesOf_flatten {file : List Char} (noReturn : '\r' ∉ file) (ended : Ended file) :
    (linesOf file).flatten = file := (readLines_pieces _ (Nat.le_refl _) noReturn ended).1

theorem linesOf_pieces {file : List Char} (noReturn : '\r' ∉ file) (ended : Ended file) :
    ∀ piece ∈ linesOf file, IsPiece (bufSize - 1) piece :=
  (readLines_pieces _ (Nat.le_refl _) noReturn ended).2

/-- Pieces are read as they are. -/
theorem linesOf_of_pieces (pieces : List (List Char))
    (each : ∀ piece ∈ pieces, IsPiece (bufSize - 1) piece) : linesOf pieces.flatten = pieces := by
  have enough : ∀ fuel, pieces.flatten.length ≤ fuel → readLines fuel pieces.flatten = pieces := by
    induction pieces with
    | nil =>
      intro fuel _
      cases fuel <;> rfl
    | cons piece pieces ih =>
      intro fuel enough
      obtain ⟨nonempty, read⟩ := each piece List.mem_cons_self
      have rest := ih fun p member => each p (List.mem_cons_of_mem _ member)
      have positive := List.length_pos_iff.mpr nonempty
      rw [List.flatten_cons] at enough ⊢
      rw [List.length_append] at enough
      obtain ⟨fuel, rfl⟩ : ∃ n, fuel = n + 1 := ⟨fuel - 1, by omega⟩
      obtain ⟨c, text, same⟩ := List.exists_cons_of_ne_nil
        (show piece ++ pieces.flatten ≠ [] by simp [nonempty])
      have unfolded : readLines (fuel + 1) (piece ++ pieces.flatten) =
          (fbgets (bufSize - 1) (piece ++ pieces.flatten)).1 ::
            readLines fuel (fbgets (bufSize - 1) (piece ++ pieces.flatten)).2 := by
        rw [same]
        rfl
      rw [unfolded, read, rest fuel (by omega)]
  exact enough _ (Nat.le_refl _)

/-- An ended line that the buffer can hold is a piece. -/
theorem isPiece_line {body : List Char} (plain : ∀ c ∈ body, c ≠ '\n' ∧ c ≠ '\r') (room : ℕ)
    (short : body.length < room) : IsPiece room (body ++ ['\n']) := by
  refine ⟨by simp, fun more => ?_⟩
  induction body generalizing room with
  | nil =>
    obtain ⟨room, rfl⟩ : ∃ n, room = n + 1 := ⟨room - 1, by simp at short; omega⟩
    rfl
  | cons c body ih =>
    obtain ⟨newline, other⟩ := plain c List.mem_cons_self
    obtain ⟨room, rfl⟩ : ∃ n, room = n + 1 := ⟨room - 1, by simp at short; omega⟩
    have rest := ih (fun d member => plain d (List.mem_cons_of_mem _ member)) room (by simpa using short)
    rw [List.cons_append, List.cons_append, fbgets_cons newline other, rest]

/-- So is a text that fills it. -/
theorem isPiece_full {body : List Char} (plain : ∀ c ∈ body, c ≠ '\n' ∧ c ≠ '\r') (nonempty : body ≠ []) :
    IsPiece body.length body := by
  refine ⟨nonempty, fun more => ?_⟩
  clear nonempty
  induction body with
  | nil => rfl
  | cons c body ih =>
    obtain ⟨newline, other⟩ := plain c List.mem_cons_self
    have rest := ih fun d member => plain d (List.mem_cons_of_mem _ member)
    rw [List.cons_append, List.length_cons, fbgets_cons newline other, rest]

/-! ### Fields -/

/-- A text without the character that ends strings. -/
def NoNul (text : List Char) : Prop := ∀ c ∈ text, c ≠ '\x00'

theorem cstr_append {text : List Char} (noNul : NoNul text) (front : List Char) :
    cstr (front ++ text) front.length = text := by
  unfold cstr
  rw [List.drop_left]
  exact List.takeWhile_eq_self_iff.mpr fun c member => by simpa using noNul c member

theorem cstr_stop {text : List Char} (noNul : NoNul text) (front more : List Char) :
    cstr (front ++ (text ++ '\x00' :: more)) front.length = text := by
  unfold cstr
  rw [List.drop_left, List.takeWhile_append_of_pos fun c member => by simpa using noNul c member]
  simp

/-- The text up to the first comma: its last character decides. -/
private theorem getfield_comma (front start rest : List Char) (c : Char)
    (quote : (start ++ [c]).head? = some '"') (noComma : ',' ∉ start ++ [c])
    (noNul : NoNul (start ++ c :: ',' :: rest)) :
    getfield ⟨front ++ (start ++ c :: ',' :: rest), some front.length⟩ =
      if c = '"' then
        (some (front.length + 1),
          ⟨(front ++ (start ++ ['\x00', ','])) ++ rest,
            some (front ++ (start ++ ['\x00', ','])).length⟩)
      else
        (none, ⟨front ++ (start ++ c :: ',' :: rest), some (front.length + start.length + 2)⟩) := by
  have head : (start ++ c :: ',' :: rest).head? = some '"' := by
    cases start <;> simpa using quote
  have comma : ',' ∈ start ++ c :: ',' :: rest := by simp
  have place : (start ++ c :: ',' :: rest).idxOf ',' = start.length + 1 := by
    have split : start ++ c :: ',' :: rest = (start ++ [c]) ++ ',' :: rest := by simp
    rw [split, List.idxOf_append_of_notMem noComma]
    simp
  have before : front.length + (start.length + 1) - 1 = front.length + start.length := rfl
  have here : (front ++ (start ++ c :: ',' :: rest))[front.length + start.length]? = some c := by
    simp
  have cut : (front ++ (start ++ c :: ',' :: rest)).set (front.length + start.length) '\x00' =
      (front ++ (start ++ ['\x00', ','])) ++ rest := by
    simp [List.set_append_right]
  simp only [getfield, cstr_append noNul, head, ne_eq, not_true_eq_false, if_false, comma, if_true, place,
    before, here, Option.some.injEq, cut]
  split
  · simp [Nat.add_assoc]
  · rfl

/-- A field between quotes. -/
theorem getfield_closed (front : List Char) {field : List Char} (rest : List Char) (noComma : ',' ∉ field)
    (noNul : NoNul (field ++ '"' :: ',' :: rest)) :
    getfield ⟨front ++ '"' :: (field ++ '"' :: ',' :: rest), some front.length⟩ =
      (some (front.length + 1),
        ⟨(front ++ '"' :: (field ++ ['\x00', ','])) ++ rest,
          some (front ++ '"' :: (field ++ ['\x00', ','])).length⟩) := by
  have read := getfield_comma front ('"' :: field) rest '"' rfl (by simpa using noComma) (by
      intro c member
      rcases List.mem_cons.mp member with rfl | member
      · decide
      · exact noNul c member)
  simpa using read

/-- What `getfield` takes as a field: a text between quotes, or one quote. -/
theorem getfield_cases (front : List Char) {text : List Char} {place : ℕ} {r : Reader} (noNul : NoNul text)
    (read : getfield ⟨front ++ text, some front.length⟩ = (some place, r)) :
    place = front.length + 1 ∧ ∃ start rest, text = start ++ '"' :: ',' :: rest ∧ ',' ∉ start ∧
      (start = [] ∨ start.head? = some '"') ∧
      r = ⟨(front ++ (start ++ ['\x00', ','])) ++ rest, some (front ++ (start ++ ['\x00', ','])).length⟩ := by
  have whole := cstr_append noNul front
  by_cases head : text.head? = some '"'
  · by_cases comma : ',' ∈ text
    · obtain ⟨first, rest, rfl, noComma⟩ := List.eq_append_cons_of_mem comma
      have nonempty : first ≠ [] := by
        rintro rfl
        cases head
      obtain ⟨start, c, rfl⟩ := (List.eq_nil_or_concat first).resolve_left nonempty
      simp only [List.concat_eq_append, List.append_assoc, List.singleton_append] at *
      have quote : (start ++ [c]).head? = some '"' := by
        cases start <;> simpa using head
      rw [getfield_comma front start rest c quote noComma noNul] at read
      split at read
      · rename_i same
        subst same
        simp only [Prod.mk.injEq, Option.some.injEq] at read
        refine ⟨read.1.symm, start, rest, rfl, ?_, ?_, by simpa using read.2.symm⟩
        · exact fun member => noComma (List.mem_append_left _ member)
        · cases start with
          | nil => exact Or.inl rfl
          | cons d start => exact Or.inr (by simpa using quote)
      · simp at read
    · simp [getfield, whole, head, comma] at read
  · simp [getfield, whole, head] at read

/-- The string of a field, which a lone quote does not end. -/
theorem cstr_field {start : List Char} (noNul : NoNul start) (front more : List Char) :
    cstr (front ++ (start ++ '\x00' :: ',' :: more)) (front.length + 1) =
      if start = [] then ',' :: more.takeWhile (· ≠ '\x00') else start.tail := by
  cases start with
  | nil =>
    unfold cstr
    rw [List.nil_append, ← List.drop_drop, List.drop_left]
    simp
  | cons d start =>
    have rest : NoNul start := fun c member => noNul c (List.mem_cons_of_mem _ member)
    have stop := cstr_stop rest (front ++ [d]) (',' :: more)
    simpa using stop

theorem noNul_chomp (line : List Char) : NoNul (chomp line) := by
  intro c member
  have kept := List.mem_takeWhile_imp member
  simp only [decide_eq_true_eq] at kept
  exact kept.2

theorem chomp_line {text : List Char} (plain : ∀ c ∈ text, c ≠ '\n' ∧ c ≠ '\x00') (more : List Char) :
    chomp (text ++ '\n' :: more) = text := by
  unfold chomp
  rw [List.takeWhile_append_of_pos fun c member => by simpa using plain c member]
  simp

/-- What stands in front of the quote that ends a field: nothing, or the quote before and the field. -/
def IsStart (start : List Char) : Prop := ',' ∉ start ∧ (start = [] ∨ start.head? = some '"')

/-- The field after `start`, with `next` up to the end of the string if nothing ends it. -/
def fieldAfter (start next : List Char) : List Char := if start = [] then ',' :: next else start.tail

private theorem fieldAfter_eq {start : List Char} (noNul : NoNul start) (front more : List Char) :
    cstr (front ++ (start ++ '\x00' :: ',' :: more)) (front.length + 1) =
      fieldAfter start (more.takeWhile (· ≠ '\x00')) := cstr_field noNul front more

/-- Two fields have been read. -/
private theorem two_fields {text : List Char} {p₁ p₂ : ℕ} {r₁ r₂ : Reader} (noNul : NoNul text)
    (first : getfield ⟨text, some 0⟩ = (some p₁, r₁)) (second : getfield r₁ = (some p₂, r₂)) :
    ∃ s₁ s₂ rest, text = s₁ ++ '"' :: ',' :: (s₂ ++ '"' :: ',' :: rest) ∧ IsStart s₁ ∧ IsStart s₂ ∧
      p₁ = 1 ∧ p₂ = s₁.length + 3 ∧
      r₂ = ⟨s₁ ++ '\x00' :: ',' :: (s₂ ++ '\x00' :: ',' :: rest),
        some (s₁.length + 2 + s₂.length + 2)⟩ := by
  obtain ⟨place₁, s₁, text', rfl, noComma₁, head₁, rfl⟩ := getfield_cases [] noNul first
  have noNul' : NoNul text' := fun c member => noNul c (by simp [member])
  obtain ⟨place₂, s₂, rest, rfl, noComma₂, head₂, rfl⟩ := getfield_cases _ noNul' second
  refine ⟨s₁, s₂, rest, rfl, ⟨noComma₁, head₁⟩, ⟨noComma₂, head₂⟩, place₁, ?_, ?_⟩
  · simpa using place₂
  · simp only [List.nil_append, List.append_assoc, List.cons_append, List.length_append, List.length_cons,
      List.length_nil, Reader.mk.injEq, Option.some.injEq, true_and]
    omega

/-- A line that UNKLINE drops has the user and the host for its first two fields. -/
theorem unklineDrops_cases {user host line : List Char} (dropped : unklineDrops user host line = true) :
    ∃ s₁ s₂ rest, chomp line = s₁ ++ '"' :: ',' :: (s₂ ++ '"' :: ',' :: rest) ∧
      IsStart s₁ ∧ IsStart s₂ ∧ IrcEq user (fieldAfter s₁ s₂) ∧ IrcEq host (fieldAfter s₂ rest) := by
  have noNul := noNul_chomp line
  simp only [unklineDrops] at dropped
  split at dropped
  · cases dropped
  · split at dropped
    · cases dropped
    · rename_i p₁ r₁ first
      split at dropped
      · cases dropped
      · rename_i p₂ r₂ second
        obtain ⟨s₁, s₂, rest, whole, start₁, start₂, rfl, rfl, rfl⟩ := two_fields noNul first second
        rw [whole] at noNul
        have noNul₁ : NoNul s₁ := fun c member => noNul c (by simp [member])
        have noNul₂ : NoNul s₂ := fun c member => noNul c (by simp [member])
        have noNul' : NoNul rest := fun c member => noNul c (by simp [member])
        have field₁ := fieldAfter_eq noNul₁ [] (s₂ ++ '\x00' :: ',' :: rest)
        have field₂ := fieldAfter_eq noNul₂ (s₁ ++ ['\x00', ',']) rest
        rw [List.takeWhile_append_of_pos fun c member => by simpa using noNul₂ c member] at field₁
        rw [List.takeWhile_eq_self_iff.mpr fun c member => by simpa using noNul' c member] at field₂
        simp only [List.nil_append, List.length_nil, List.append_assoc, List.cons_append,
          List.length_append, List.length_cons, decide_eq_true_eq] at field₁ field₂ dropped
        simp only [List.takeWhile_cons, ne_eq, not_true_eq_false, decide_false,
          Bool.false_eq_true, if_false, List.append_nil] at field₁
        exact ⟨s₁, s₂, rest, whole, start₁, start₂, field₁ ▸ dropped.2, field₂ ▸ dropped.1⟩

/-- A line that is read as a K-line has its values for the first three fields. -/
theorem parseKLine_cases {line : List Char} {k : KConf} (read : parseKLine line = some k) :
    ∃ s₁ s₂ s₃ rest,
      chomp line = s₁ ++ '"' :: ',' :: (s₂ ++ '"' :: ',' :: (s₃ ++ '"' :: ',' :: rest)) ∧
      IsStart s₁ ∧ IsStart s₂ ∧ IsStart s₃ ∧
      k = ⟨fieldAfter s₁ s₂, fieldAfter s₂ s₃, fieldAfter s₃ rest⟩ := by
  have noNul := noNul_chomp line
  simp only [parseKLine] at read
  split at read
  · cases read
  · split at read
    · cases read
    · rename_i p₁ r₁ first
      split at read
      · cases read
      · rename_i p₂ r₂ second
        split at read
        · cases read
        · rename_i p₃ r₃ third
          obtain ⟨s₁, s₂, rest', whole, start₁, start₂, rfl, rfl, rfl⟩ := two_fields noNul first second
          rw [whole] at noNul
          have noNul₁ : NoNul s₁ := fun c member => noNul c (by simp [member])
          have noNul₂ : NoNul s₂ := fun c member => noNul c (by simp [member])
          have noNul' : NoNul rest' := fun c member => noNul c (by simp [member])
          have shape : (⟨s₁ ++ '\x00' :: ',' :: (s₂ ++ '\x00' :: ',' :: rest'),
                some (s₁.length + 2 + s₂.length + 2)⟩ : Reader) =
              ⟨(s₁ ++ ['\x00', ',']) ++ (s₂ ++ ['\x00', ',']) ++ rest',
                some ((s₁ ++ ['\x00', ',']) ++ (s₂ ++ ['\x00', ','])).length⟩ := by
            simp only [List.append_assoc, List.cons_append, List.nil_append, List.length_append,
              List.length_cons, List.length_nil, Reader.mk.injEq, Option.some.injEq, true_and]
            omega
          rw [shape] at third
          obtain ⟨rfl, s₃, rest, rfl, noComma₃, head₃, rfl⟩ := getfield_cases _ noNul' third
          have noNul₃ : NoNul s₃ := fun c member => noNul' c (by simp [member])
          have noNul'' : NoNul rest := fun c member => noNul' c (by simp [member])
          refine ⟨s₁, s₂, s₃, rest, whole, start₁, start₂, ⟨noComma₃, head₃⟩, ?_⟩
          have field₁ := fieldAfter_eq noNul₁ [] (s₂ ++ '\x00' :: ',' :: (s₃ ++ '\x00' :: ',' :: rest))
          have field₂ := fieldAfter_eq noNul₂ (s₁ ++ ['\x00', ',']) (s₃ ++ '\x00' :: ',' :: rest)
          have field₃ := fieldAfter_eq noNul₃ (s₁ ++ '\x00' :: ',' :: (s₂ ++ ['\x00', ','])) rest
          rw [List.takeWhile_append_of_pos fun c member => by simpa using noNul₂ c member] at field₁
          rw [List.takeWhile_append_of_pos fun c member => by simpa using noNul₃ c member] at field₂
          rw [List.takeWhile_eq_self_iff.mpr fun c member => by simpa using noNul'' c member] at field₃
          simp only [List.takeWhile_cons, ne_eq, not_true_eq_false, decide_false, Bool.false_eq_true,
            if_false, List.append_nil, List.nil_append, List.length_nil, List.append_assoc,
            List.cons_append, List.length_append, List.length_cons] at field₁ field₂ field₃ read
          rw [← Option.some.inj read, KConf.mk.injEq]
          exact ⟨field₁, field₂, field₃⟩

/-- A field between quotes, in front of others. -/
private theorem getfield_quoted (front : List Char) {field rest : List Char} (noComma : ',' ∉ field)
    (noNul : NoNul (quoted field ++ rest)) :
    getfield ⟨front ++ (quoted field ++ rest), some front.length⟩ =
      (some (front.length + 1),
        ⟨(front ++ '"' :: (field ++ ['\x00', ','])) ++ rest,
          some (front ++ '"' :: (field ++ ['\x00', ','])).length⟩) := by
  have read := getfield_closed front rest noComma
    fun c member => noNul c (by simp only [quoted]; simp_all)
  simpa [quoted] using read

private theorem cstr_quoted {field : List Char} (noNul : NoNul field) (front more : List Char) :
    cstr (front ++ '"' :: (field ++ '\x00' :: more)) (front.length + 1) = field := by
  have stop := cstr_stop noNul (front ++ ['"']) more
  simpa using stop

private theorem not_skipped (field rest : List Char) : isSkipped (quoted field ++ rest) = false := by
  simp [isSkipped, quoted]

/-- Three fields between quotes are read as they are. -/
theorem parseKLine_quoted {user host reason rest line : List Char}
    (whole : chomp line = quoted user ++ (quoted host ++ (quoted reason ++ rest)))
    (noComma₁ : ',' ∉ user) (noComma₂ : ',' ∉ host) (noComma₃ : ',' ∉ reason) :
    parseKLine line = some ⟨user, host, reason⟩ := by
  have noNul := noNul_chomp line
  rw [whole] at noNul
  have noNul₁ : NoNul user := fun c member => noNul c (by simp [quoted, member])
  have noNul₂ : NoNul host := fun c member => noNul c (by simp [quoted, member])
  have noNul₃ : NoNul reason := fun c member => noNul c (by simp [quoted, member])
  have noNul' : NoNul (quoted host ++ (quoted reason ++ rest)) := fun c member =>
    noNul c (List.mem_append_right _ member)
  have noNul'' : NoNul (quoted reason ++ rest) := fun c member =>
    noNul' c (List.mem_append_right _ member)
  have first := getfield_quoted [] noComma₁ noNul
  have second := getfield_quoted ([] ++ '"' :: (user ++ ['\x00', ','])) noComma₂ noNul'
  have third := getfield_quoted
    ([] ++ '"' :: (user ++ ['\x00', ',']) ++ '"' :: (host ++ ['\x00', ','])) noComma₃ noNul''
  have field₁ := cstr_quoted noNul₁ [] (',' :: '"' :: (host ++ '\x00' :: ',' :: '"' ::
    (reason ++ '\x00' :: ',' :: rest)))
  have field₂ := cstr_quoted noNul₂ ('"' :: (user ++ ['\x00', ',']))
    (',' :: '"' :: (reason ++ '\x00' :: ',' :: rest))
  have field₃ := cstr_quoted noNul₃
    ('"' :: (user ++ '\x00' :: ',' :: '"' :: (host ++ ['\x00', ',']))) (',' :: rest)
  simp only [List.nil_append, List.length_nil, List.append_assoc, List.cons_append] at first second third field₁ field₂ field₃
  simp only [parseKLine, whole, not_skipped, Bool.false_eq_true, if_false, first, second, third]
  simp only [field₁, field₂, field₃]

/-- A line with the user and the host between quotes in front is dropped. -/
theorem unklineDrops_quoted {user host rest line : List Char}
    (whole : chomp line = quoted user ++ (quoted host ++ rest))
    (noComma₁ : ',' ∉ user) (noComma₂ : ',' ∉ host) : unklineDrops user host line = true := by
  have noNul := noNul_chomp line
  rw [whole] at noNul
  have noNul₁ : NoNul user := fun c member => noNul c (by simp [quoted, member])
  have noNul₂ : NoNul host := fun c member => noNul c (by simp [quoted, member])
  have first := getfield_quoted [] noComma₁ noNul
  have second := getfield_quoted ([] ++ '"' :: (user ++ ['\x00', ','])) noComma₂
    fun c member => noNul c (List.mem_append_right _ member)
  have field₁ := cstr_quoted noNul₁ [] (',' :: '"' :: (host ++ '\x00' :: ',' :: rest))
  have field₂ := cstr_quoted noNul₂ ('"' :: (user ++ ['\x00', ','])) (',' :: rest)
  simp only [List.nil_append, List.length_nil, List.append_assoc, List.cons_append] at first second field₁ field₂
  simp only [unklineDrops, whole, not_skipped, Bool.false_eq_true, if_false, first, second]
  simp only [field₁, field₂, decide_eq_true_eq]
  exact ⟨IrcEq.refl host, IrcEq.refl user⟩

/-! ### The first field of a line -/

theorem first_comma {front front' rest rest' : List Char} (noComma : ',' ∉ front) (noComma' : ',' ∉ front')
    (equal : front ++ ',' :: rest = front' ++ ',' :: rest') : front = front' ∧ rest = rest' := by
  induction front generalizing front' with
  | nil =>
    cases front' with
    | nil => exact ⟨rfl, by simpa using equal⟩
    | cons d front' =>
      simp only [List.nil_append, List.cons_append, List.cons.injEq] at equal
      exact absurd (equal.1 ▸ List.mem_cons_self) noComma'
  | cons c front ih =>
    cases front' with
    | nil =>
      simp only [List.nil_append, List.cons_append, List.cons.injEq] at equal
      exact absurd (equal.1 ▸ List.mem_cons_self) noComma
    | cons d front' =>
      simp only [List.cons_append, List.cons.injEq] at equal
      obtain ⟨same, rest⟩ := ih (fun member => noComma (List.mem_cons_of_mem _ member))
        (fun member => noComma' (List.mem_cons_of_mem _ member)) equal.2
      exact ⟨by rw [equal.1, same], rest⟩

/-- A field without commas is the first. -/
theorem IsStart.eq_quoted {start text field rest : List Char} (isStart : IsStart start)
    (noComma : ',' ∉ field) (equal : start ++ '"' :: ',' :: text = quoted field ++ rest) :
    start = '"' :: field ∧ text = rest := by
  have noComma' : ',' ∉ start ++ ['"'] := by simpa using isStart.1
  have split : (start ++ ['"']) ++ ',' :: text = ('"' :: (field ++ ['"'])) ++ ',' :: rest := by
    simpa [quoted] using equal
  obtain ⟨same, rest⟩ := first_comma noComma' (by simpa using noComma) split
  refine ⟨?_, rest⟩
  rw [← List.cons_append] at same
  exact List.append_cancel_right same

/-- A lone quote. -/
theorem IsStart.eq_quote {start text rest : List Char} (isStart : IsStart start)
    (equal : start ++ '"' :: ',' :: text = '"' :: ',' :: rest) : start = [] ∧ text = rest := by
  have split : (start ++ ['"']) ++ ',' :: text = ['"'] ++ ',' :: rest := by simpa using equal
  obtain ⟨same, tail⟩ := first_comma (by simpa using isStart.1) (by simp) split
  exact ⟨List.append_cancel_right (same.trans (List.nil_append ['"']).symm), tail⟩

/-- The line goes on with a quote. -/
theorem IsStart.head_eq {start : List Char} (isStart : IsStart start) (text : List Char) :
    (start ++ '"' :: text).head? = some '"' := by
  rcases isStart.2 with rfl | head
  · rfl
  · simp [head]

/-- A field that has a comma, but no quote, begins with the comma. -/
theorem IsStart.quoted_cases {start text field rest : List Char} (isStart : IsStart start)
    (noQuote : '"' ∉ field) (equal : start ++ '"' :: ',' :: text = quoted field ++ rest) :
    (',' ∉ field ∧ start = '"' :: field ∧ text = rest) ∨
      ∃ field', field = ',' :: field' ∧ start = [] ∧ text = field' ++ '"' :: ',' :: rest := by
  by_cases comma : ',' ∈ field
  · obtain ⟨first, field', rfl, noComma⟩ := List.eq_append_cons_of_mem comma
    have noComma' : ',' ∉ start ++ ['"'] := by simpa using isStart.1
    have split : (start ++ ['"']) ++ ',' :: text =
        ('"' :: first) ++ ',' :: (field' ++ '"' :: ',' :: rest) := by simpa [quoted] using equal
    obtain ⟨same, tail⟩ := first_comma noComma' (by simpa using noComma) split
    -- the quote in front of the comma is the one that opens the field
    rcases List.eq_nil_or_concat first with rfl | ⟨init, c, rfl⟩
    · refine Or.inr ⟨field', rfl, ?_, tail⟩
      exact List.append_cancel_right (same.trans (List.nil_append ['"']).symm)
    · simp only [List.concat_eq_append, ← List.cons_append] at same
      obtain ⟨-, last⟩ := List.append_inj' same rfl
      simp only [List.cons.injEq, and_true] at last
      exact absurd (by simp [← last]) noQuote
  · obtain ⟨same, tail⟩ := isStart.eq_quoted comma equal
    exact Or.inl ⟨comma, same, tail⟩

end Ircd.Ban
