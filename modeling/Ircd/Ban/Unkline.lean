import Mathlib.Data.List.Flatten
import Ircd.Ban.Reading

/-!
# UNKLINE and failing writes

`mo_unkline` copies the K-line file to a temporary one without the lines of the target, and renames the copy.
`flush_write` closes the copy and removes it when a write fails, but what it returns is never looked at.
-/
namespace Ircd.Ban

/-! ### Copying -/

/-- The file system under `mo_unkline`: the K-line file, whether it and the temporary file can be opened, and what
each call of `write` returns: the number of bytes it has written, `none` for -1. -/
structure Disk where
  file : List Char
  readable : Bool
  creatable : Bool
  writes : ℕ → Option ℕ

/-- The temporary file, `out`. `misused` says that `out` has been used after it was closed. -/
structure Copy where
  text : List Char
  opened : Bool
  misused : Bool
  written : ℕ

/-- What `fbputs` gives to `write`: it takes `strlen` of the line. -/
def putText (line : List Char) : List Char := line.takeWhile (· ≠ '\x00')

/-- `flush_write`. -/
def Copy.flushWrite (writes : ℕ → Option ℕ) (out : Copy) (line : List Char) : Copy :=
  if out.opened then
    match writes out.written with
    -- the copy is closed and unlinked
    | none => { out with opened := false, written := out.written + 1 }
    | some n => { out with text := out.text ++ (putText line).take n, written := out.written + 1 }
  else { out with misused := true }

/-- The loop of `mo_unkline`. `error_on_write` stays `NO`. -/
def Disk.copyLines (disk : Disk) (user host : List Char) : Copy :=
  (linesOf disk.file).foldl
    (fun out line => if unklineDrops user host line then out else out.flushWrite disk.writes line)
    ⟨[], true, false, 0⟩

/-- The K-line file after `mo_unkline`, and whether a handle has been used after it was closed. -/
structure Outcome where
  file : List Char
  misused : Bool

/-- `fbclose` and `rename`. There is nothing to rename when the copy has been unlinked. -/
def Disk.finish (disk : Disk) (out : Copy) : Outcome where
  file := if out.opened then out.text else disk.file
  misused := out.misused || !out.opened

/-- The user and the host in the parameter. -/
def unklineTarget (parv1 : List Char) : Option (List Char × List Char) :=
  if '@' ∈ parv1 then some (parv1.takeWhile (· ≠ '@'), (parv1.dropWhile (· ≠ '@')).tail)
  else if parv1.head? = some '*' then some (['*'], parv1)
  else none

/-- `mo_unkline`, as far as the file goes. -/
def Disk.moUnkline (disk : Disk) (operUnkline : Bool) (parv : List (List Char)) (temporaryKlines : List Conf) :
    Outcome :=
  if operUnkline then
    match parv[1]?.bind unklineTarget with
    | none => ⟨disk.file, false⟩
    | some (user, host) =>
      if temporaryKlines.any (tklineMatches host user) then ⟨disk.file, false⟩
      else if disk.readable && disk.creatable then disk.finish (disk.copyLines user host)
      else ⟨disk.file, false⟩
  else ⟨disk.file, false⟩

/-! ### What is asked of the copy -/

/-- The lines of a text, each with its end. -/
def fileLines : List Char → List (List Char)
  | [] => []
  | c :: text =>
    if c = '\n' then ['\n'] :: fileLines text
    else
      match fileLines text with
      | [] => [[c]]
      | line :: lines => (c :: line) :: lines

/-- The texts that are written, in order. -/
def Disk.texts (disk : Disk) (user host : List Char) : List (List Char) :=
  ((linesOf disk.file).filter fun line => !unklineDrops user host line).map putText

/-- Every write succeeds, as a whole. -/
def Disk.Complete (disk : Disk) (user host : List Char) : Prop :=
  ∀ i text, (disk.texts user host)[i]? = some text → ∃ n, disk.writes i = some n ∧ text.length ≤ n

/-- The original lines without those of the target. -/
def Disk.remaining (disk : Disk) (user host : List Char) : List Char :=
  ((fileLines disk.file).filter fun line => !unklineDrops user host line).flatten

/-- All or nothing: all writes succeed and the lines of the target are gone, or one fails and nothing has changed. -/
structure Disk.AllOrNothing (disk : Disk) (user host : List Char) (after : Outcome) : Prop where
  handles : after.misused = false
  either : disk.Complete user host ∧ after.file = disk.remaining user host ∨
    ¬disk.Complete user host ∧ after.file = disk.file

/-- Nothing is written of a line of the target, and another line is written as it is: it has no CR and no NUL, and no
piece of it that fills the buffer reads as a line of the target. -/
def CopiedWell (user host line : List Char) : Prop :=
  if unklineDrops user host line then ∀ piece ∈ linesOf line, unklineDrops user host piece = true ∨ putText piece = []
  else '\r' ∉ line ∧ '\x00' ∉ line ∧ ∀ piece ∈ linesOf line, unklineDrops user host piece = false

/-! ### The writes -/

section

variable {writes : ℕ → Option ℕ}

theorem flushWrites_complete {lines : List (List Char)} {out : Copy} (opened : out.opened = true)
    (complete : ∀ i line, lines[i]? = some line →
      ∃ n, writes (out.written + i) = some n ∧ (putText line).length ≤ n) :
    lines.foldl (Copy.flushWrite writes) out =
      { out with text := out.text ++ (lines.map putText).flatten, written := out.written + lines.length } := by
  induction lines generalizing out with
  | nil => simp
  | cons line lines ih =>
    obtain ⟨n, first, whole⟩ := complete 0 line rfl
    rw [Nat.add_zero] at first
    have step : out.flushWrite writes line =
        { out with text := out.text ++ putText line, written := out.written + 1 } := by
      rw [Copy.flushWrite, if_pos opened, first]
      simp only [List.take_of_length_le whole]
    rw [List.foldl_cons, step]
    refine (ih (by exact opened) ?_).trans ?_
    · intro i line' at_
      have later := complete (i + 1) line' at_
      rwa [← Nat.add_assoc, Nat.add_right_comm] at later
    · simp only [List.map_cons, List.flatten_cons, List.append_assoc, List.length_cons]
      congr 1
      omega

theorem flushWrites_closed {lines : List (List Char)} {out : Copy} (closed : out.opened = false) :
    (lines.foldl (Copy.flushWrite writes) out).opened = false := by
  induction lines generalizing out with
  | nil => exact closed
  | cons line lines ih =>
    apply ih
    rw [Copy.flushWrite, if_neg (by simp [closed])]
    exact closed

/-- If the copy is open at the end, no write has failed; and if no character is missing, all were written as a
whole. -/
theorem flushWrites_opened {lines : List (List Char)} {out : Copy}
    (opened : (lines.foldl (Copy.flushWrite writes) out).opened = true) :
    (lines.foldl (Copy.flushWrite writes) out).text.length ≤ out.text.length + (lines.map putText).flatten.length ∧
      ((lines.foldl (Copy.flushWrite writes) out).text.length =
          out.text.length + (lines.map putText).flatten.length →
        ∀ i line, lines[i]? = some line →
          ∃ n, writes (out.written + i) = some n ∧ (putText line).length ≤ n) := by
  induction lines generalizing out with
  | nil => simp
  | cons line lines ih =>
    rw [List.foldl_cons] at opened ⊢
    have wasOpened : out.opened = true := by
      by_contra closed
      rw [Bool.not_eq_true] at closed
      have stays : (out.flushWrite writes line).opened = false := by
        rw [Copy.flushWrite, if_neg (by simp [closed])]
        exact closed
      rw [flushWrites_closed stays] at opened
      cases opened
    cases first : writes out.written with
    | none =>
      have closed : (out.flushWrite writes line).opened = false := by
        rw [Copy.flushWrite, if_pos wasOpened, first]
      rw [flushWrites_closed closed] at opened
      cases opened
    | some n =>
      have step : out.flushWrite writes line =
          { out with text := out.text ++ (putText line).take n, written := out.written + 1 } := by
        rw [Copy.flushWrite, if_pos wasOpened, first]
      rw [step] at opened ⊢
      obtain ⟨most, complete⟩ := ih opened
      simp only [List.length_append, List.length_take, List.map_cons, List.flatten_cons] at most complete ⊢
      refine ⟨by omega, fun all i line' at_ => ?_⟩
      cases i with
      | zero =>
        obtain rfl : line = line' := by simpa using at_
        exact ⟨n, first, by omega⟩
      | succ i =>
        obtain ⟨m, later, whole⟩ := complete (by omega) i line' at_
        refine ⟨m, ?_, whole⟩
        rwa [← Nat.add_assoc, Nat.add_right_comm]

end

theorem Disk.copyLines_eq (disk : Disk) (user host : List Char) :
    disk.copyLines user host = ((linesOf disk.file).filter fun line => !unklineDrops user host line).foldl
      (Copy.flushWrite disk.writes) ⟨[], true, false, 0⟩ := by
  rw [Disk.copyLines, List.foldl_filter]
  congr 1
  funext out line
  cases unklineDrops user host line <;> simp

/-! ### What `fbgets` reads -/

theorem fbgets_length (room : ℕ) (file : List Char) :
    (fbgets room file).1.length + (fbgets room file).2.length ≤ file.length := by
  induction room generalizing file with
  | zero => simp [fbgets]
  | succ room ih =>
    cases file with
    | nil => simp [fbgets]
    | cons c file =>
      simp only [fbgets]
      split
      · simp
        omega
      · split
        · split
          · simp
            omega
          · simp
            omega
        · have := ih file
          simp only [List.length_cons]
          omega

theorem fbgets_ne_nil (room : ℕ) {file : List Char} (nonempty : file ≠ []) : (fbgets (room + 1) file).1 ≠ [] := by
  cases file with
  | nil => exact absurd rfl nonempty
  | cons c file =>
    simp only [fbgets]
    split
    · simp
    · split <;> simp

theorem fbgets_pos {file : List Char} (nonempty : file ≠ []) : 0 < (fbgets 511 file).1.length :=
  List.length_pos_iff.mpr (fbgets_ne_nil 510 nonempty)

theorem fbgets_suffix (room : ℕ) (file : List Char) : (fbgets room file).2 <:+ file := by
  induction room generalizing file with
  | zero => exact List.suffix_rfl
  | succ room ih =>
    cases file with
    | nil => exact List.suffix_rfl
    | cons c file =>
      have own : file <:+ c :: file := List.suffix_cons c file
      simp only [fbgets]
      split
      · exact own
      · split
        · split
          · exact (List.tail_suffix file).trans own
          · exact own
        · exact (ih file).trans own

/-- A line has no CR, and only characters of the file besides its end. -/
theorem mem_fbgets {room : ℕ} {file : List Char} {c : Char} (member : c ∈ (fbgets room file).1) :
    c ≠ '\r' ∧ (c = '\n' ∨ c ∈ file) := by
  induction room generalizing file with
  | zero => simp [fbgets] at member
  | succ room ih =>
    cases file with
    | nil => simp [fbgets] at member
    | cons d file =>
      simp only [fbgets] at member
      split at member
      · obtain rfl := List.mem_singleton.mp member
        exact ⟨by decide, Or.inl rfl⟩
      · split at member
        · obtain rfl := List.mem_singleton.mp member
          exact ⟨by decide, Or.inl rfl⟩
        · next noReturn =>
          rcases List.mem_cons.mp member with rfl | member
          · exact ⟨noReturn, Or.inr List.mem_cons_self⟩
          · obtain ⟨other, inside⟩ := ih member
            exact ⟨other, inside.imp_right (List.mem_cons_of_mem _)⟩

/-- What has been read is read again as a whole, and before anything else if there was more. -/
theorem fbgets_again (room : ℕ) (file : List Char) :
    fbgets room (fbgets room file).1 = ((fbgets room file).1, []) ∧
      ((fbgets room file).2 ≠ [] → ∀ more,
        fbgets room ((fbgets room file).1 ++ more) = ((fbgets room file).1, more)) := by
  induction room generalizing file with
  | zero => simp [fbgets]
  | succ room ih =>
    cases file with
    | nil => simp [fbgets]
    | cons c file =>
      by_cases newline : c = '\n'
      · simp [fbgets, newline]
      · by_cases isReturn : c = '\r'
        · subst isReturn
          simp [fbgets]
        · obtain ⟨again, before⟩ := ih file
          have unfolded : fbgets (room + 1) (c :: file) = (c :: (fbgets room file).1, (fbgets room file).2) := by
            simp [fbgets, newline, isReturn]
          have forward : ∀ more, fbgets (room + 1) (c :: more) = (c :: (fbgets room more).1, (fbgets room more).2) := by
            intro more
            simp [fbgets, newline, isReturn]
          rw [unfolded, forward, again]
          refine ⟨rfl, fun nonempty more => ?_⟩
          rw [List.cons_append, forward, before nonempty more]

theorem fbgets_whole (room : ℕ) {file : List Char} (noReturn : '\r' ∉ file) :
    (fbgets room file).1 ++ (fbgets room file).2 = file := by
  induction room generalizing file with
  | zero => rfl
  | succ room ih =>
    cases file with
    | nil => rfl
    | cons c file =>
      have other : c ≠ '\r' := fun same => noReturn (same ▸ List.mem_cons_self)
      have rest := ih (fun member => noReturn (List.mem_cons_of_mem _ member))
      by_cases newline : c = '\n'
      · simp [fbgets, newline]
      · simp [fbgets, newline, other, rest]

/-- No line goes on behind an end of line. -/
theorem fbgets_append (room : ℕ) {line : List Char} (nonempty : line ≠ []) (ended : Ended line) (more : List Char) :
    fbgets room (line ++ more) = ((fbgets room line).1, (fbgets room line).2 ++ more) ∧
      Ended (fbgets room line).2 := by
  induction room generalizing line with
  | zero => exact ⟨rfl, ended⟩
  | succ room ih =>
    obtain ⟨c, line, rfl⟩ := List.exists_cons_of_ne_nil nonempty
    have after : Ended line := Ended.of_append [c] ended
    by_cases newline : c = '\n'
    · simp [fbgets, newline, after]
    · have inside : line ≠ [] := by
        rintro rfl
        rcases ended with empty | last
        · cases empty
        · exact newline (by simpa using last)
      obtain ⟨d, line', rfl⟩ := List.exists_cons_of_ne_nil inside
      by_cases isReturn : c = '\r'
      · subst isReturn
        by_cases both : d = '\n'
        · subst both
          simpa [fbgets] using Ended.of_append ['\n'] after
        · simpa [fbgets, both] using after
      · obtain ⟨rest, endedRest⟩ := ih inside after
        have forward : ∀ text, fbgets (room + 1) (c :: text) = (c :: (fbgets room text).1, (fbgets room text).2) := by
          intro text
          simp [fbgets, newline, isReturn]
        rw [List.cons_append, forward, forward, rest]
        exact ⟨rfl, endedRest⟩

/-! ### The lines that are read -/

theorem readLines_enough {fuel : ℕ} {file : List Char} (enough : file.length ≤ fuel) :
    readLines fuel file = linesOf file := by
  induction fuel using Nat.strong_induction_on generalizing file with
  | _ fuel ih =>
    cases file with
    | nil => cases fuel <;> rfl
    | cons c file =>
      obtain ⟨fuel, rfl⟩ : ∃ n, fuel = n + 1 := ⟨fuel - 1, by simp at enough; omega⟩
      have total := fbgets_length 511 (c :: file)
      have positive := fbgets_pos (List.cons_ne_nil c file)
      simp only [List.length_cons] at enough total
      simp only [linesOf, List.length_cons, readLines, bufSize, Nat.reduceSub]
      rw [ih fuel (by omega) (by omega)]
      rcases Nat.lt_or_ge file.length (fuel + 1) with small | large
      · rw [ih file.length (by omega) (by omega)]
      · omega

theorem linesOf_nil : linesOf [] = [] := rfl

theorem linesOf_of_ne_nil {file : List Char} (nonempty : file ≠ []) :
    linesOf file = (fbgets 511 file).1 :: linesOf (fbgets 511 file).2 := by
  obtain ⟨c, file, rfl⟩ := List.exists_cons_of_ne_nil nonempty
  have total := fbgets_length 511 (c :: file)
  have positive := fbgets_pos nonempty
  simp only [List.length_cons] at total
  simp only [linesOf, List.length_cons, readLines, bufSize, Nat.reduceSub]
  rw [readLines_enough (by omega)]
  rfl

/-- Induction over the lines of a file as they are read. -/
theorem linesOf_induction {motive : List Char → Prop} (nil : motive [])
    (step : ∀ file, file ≠ [] → motive (fbgets 511 file).2 → motive file) (file : List Char) : motive file := by
  induction length : file.length using Nat.strong_induction_on generalizing file with
  | _ n ih =>
    by_cases empty : file = []
    · exact empty ▸ nil
    · have total := fbgets_length 511 file
      have positive := fbgets_pos empty
      exact step file empty (ih _ (by omega) _ rfl)

theorem linesOf_length (file : List Char) : (linesOf file).flatten.length ≤ file.length := by
  induction file using linesOf_induction with
  | nil => simp [linesOf_nil]
  | step file nonempty ih =>
    have total := fbgets_length 511 file
    rw [linesOf_of_ne_nil nonempty, List.flatten_cons, List.length_append]
    omega

theorem mem_linesOf {file piece : List Char} (member : piece ∈ linesOf file) :
    ∀ c ∈ piece, c ≠ '\r' ∧ (c = '\n' ∨ c ∈ file) := by
  induction file using linesOf_induction with
  | nil => simp [linesOf_nil] at member
  | step file nonempty ih =>
    rw [linesOf_of_ne_nil nonempty, List.mem_cons] at member
    rcases member with rfl | member
    · exact fun c inside => mem_fbgets inside
    · intro c inside
      obtain ⟨other, char⟩ := ih member c inside
      exact ⟨other, char.imp_right fun inRest => (fbgets_suffix 511 file).mem inRest⟩

theorem linesOf_whole {file : List Char} (noReturn : '\r' ∉ file) : (linesOf file).flatten = file := by
  induction file using linesOf_induction with
  | nil => rfl
  | step file nonempty ih =>
    have rest : '\r' ∉ (fbgets 511 file).2 := fun member => noReturn ((fbgets_suffix 511 file).mem member)
    rw [linesOf_of_ne_nil nonempty, List.flatten_cons, ih rest, fbgets_whole 511 noReturn]

theorem linesOf_ended_append {line : List Char} (ended : Ended line) (more : List Char) :
    linesOf (line ++ more) = linesOf line ++ linesOf more := by
  induction line using linesOf_induction with
  | nil => rfl
  | step line nonempty ih =>
    obtain ⟨read, endedRest⟩ := fbgets_append 511 nonempty ended more
    rw [linesOf_of_ne_nil (List.append_ne_nil_of_left_ne_nil nonempty more), read, ih endedRest,
      linesOf_of_ne_nil nonempty, List.cons_append]

/-- Some of the lines that are read, put together, are read as the same lines. -/
theorem linesOf_sublist {file : List Char} {pieces : List (List Char)} (sub : pieces.Sublist (linesOf file)) :
    linesOf pieces.flatten = pieces := by
  induction file using linesOf_induction generalizing pieces with
  | nil =>
    rw [linesOf_nil, List.sublist_nil] at sub
    rw [sub]
    rfl
  | step file nonempty ih =>
    obtain ⟨again, before⟩ := fbgets_again 511 file
    have piece := fbgets_ne_nil 510 nonempty
    rw [linesOf_of_ne_nil nonempty] at sub
    cases sub with
    | cons _ sub => exact ih sub
    | cons_cons _ sub =>
      next pieces =>
      rw [List.flatten_cons, linesOf_of_ne_nil (List.append_ne_nil_of_left_ne_nil piece _)]
      by_cases last : (fbgets 511 file).2 = []
      · -- nothing was read behind the last line
        rw [last, linesOf_nil, List.sublist_nil] at sub
        subst sub
        rw [List.flatten_nil, List.append_nil, again]
        rfl
      · rw [before last, ih sub]

/-! ### Lines and pieces -/

theorem fileLines_line {body : List Char} (plain : '\n' ∉ body) (text : List Char) :
    fileLines (body ++ '\n' :: text) = (body ++ ['\n']) :: fileLines text := by
  induction body with
  | nil => rfl
  | cons c body ih =>
    have other : c ≠ '\n' := fun same => plain (same ▸ List.mem_cons_self)
    rw [List.cons_append, fileLines, if_neg other, ih (fun member => plain (List.mem_cons_of_mem _ member))]
    rfl

theorem fileLines_last {text : List Char} (plain : '\n' ∉ text) (nonempty : text ≠ []) : fileLines text = [text] := by
  induction text with
  | nil => exact absurd rfl nonempty
  | cons c text ih =>
    have other : c ≠ '\n' := fun same => plain (same ▸ List.mem_cons_self)
    rw [fileLines, if_neg other]
    by_cases empty : text = []
    · rw [empty]
      rfl
    · rw [ih (fun member => plain (List.mem_cons_of_mem _ member)) empty]

/-- Every line is read for itself. -/
theorem linesOf_fileLines (file : List Char) : linesOf file = (fileLines file).flatMap linesOf := by
  induction length : file.length using Nat.strong_induction_on generalizing file with
  | _ n ih =>
    by_cases newline : '\n' ∈ file
    · obtain ⟨body, text, rfl, plain⟩ := List.eq_append_cons_of_mem newline
      have line : linesOf (body ++ '\n' :: text) = linesOf (body ++ ['\n']) ++ linesOf text := by
        rw [List.append_cons]
        exact linesOf_ended_append (Or.inr (by simp)) text
      rw [fileLines_line plain, List.flatMap_cons, line]
      congr 1
      apply ih text.length _ text rfl
      rw [List.length_append, List.length_cons] at length
      omega
    · by_cases empty : file = []
      · rw [empty]
        rfl
      · rw [fileLines_last newline empty]
        simp

theorem fileLines_flatten (file : List Char) : (fileLines file).flatten = file := by
  induction length : file.length using Nat.strong_induction_on generalizing file with
  | _ n ih =>
    by_cases newline : '\n' ∈ file
    · obtain ⟨body, text, rfl, plain⟩ := List.eq_append_cons_of_mem newline
      have rest : text.length < n := by
        rw [List.length_append, List.length_cons] at length
        omega
      rw [fileLines_line plain, List.flatten_cons, ih _ rest text rfl]
      simp
    · by_cases empty : file = []
      · rw [empty]
        rfl
      · rw [fileLines_last newline empty]
        simp

/-! ### All or nothing -/

theorem putText_eq {text : List Char} (noNul : '\x00' ∉ text) : putText text = text := by
  rw [putText, List.takeWhile_eq_self_iff]
  intro c member
  simp only [ne_eq, decide_eq_true_eq]
  rintro rfl
  exact noNul member

theorem noNul_putText (text : List Char) : '\x00' ∉ putText text := by
  intro member
  simpa using List.mem_takeWhile_imp member

/-- What is written of a line. -/
def writtenOf (user host line : List Char) : List Char :=
  (((linesOf line).filter fun piece => !unklineDrops user host piece).map putText).flatten

theorem texts_length (user host : List Char) (lines : List (List Char)) :
    ((lines.filter fun line => !unklineDrops user host line).map putText).flatten.length ≤ lines.flatten.length := by
  induction lines with
  | nil => simp
  | cons line lines ih =>
    have cutShort : (putText line).length ≤ line.length := (List.takeWhile_sublist _).length_le
    cases drops : unklineDrops user host line
    · simp only [List.filter_cons, drops, Bool.not_false, if_true, List.map_cons, List.flatten_cons,
        List.length_append]
      omega
    · simp only [List.filter_cons, drops, Bool.not_true, Bool.false_eq_true, if_false, List.flatten_cons,
        List.length_append]
      omega

section

variable (disk : Disk) (user host : List Char)

theorem texts_flatten :
    (disk.texts user host).flatten = ((fileLines disk.file).map (writtenOf user host)).flatten := by
  rw [Disk.texts, linesOf_fileLines]
  induction fileLines disk.file with
  | nil => rfl
  | cons line lines ih =>
    rw [List.flatMap_cons, List.filter_append, List.map_append, List.flatten_append, ih]
    rfl

theorem remaining_eq :
    disk.remaining user host =
      ((fileLines disk.file).map fun line => if unklineDrops user host line then [] else line).flatten := by
  rw [Disk.remaining]
  induction fileLines disk.file with
  | nil => rfl
  | cons line lines ih => cases drops : unklineDrops user host line <;> simp [drops, ih]

theorem CopiedWell.writtenOf_eq {line : List Char} (well : CopiedWell user host line) :
    writtenOf user host line = if unklineDrops user host line then [] else line := by
  unfold CopiedWell at well
  split at well
  · next drops =>
    rw [if_pos drops, writtenOf, List.flatten_eq_nil_iff]
    intro text member
    obtain ⟨piece, unread, rfl⟩ := List.mem_map.mp member
    obtain ⟨inside, kept⟩ := List.mem_filter.mp unread
    exact (well piece inside).resolve_left fun dropped => by simp [dropped] at kept
  · next keeps =>
    obtain ⟨noReturn, noNul, pieces⟩ := well
    have all : (linesOf line).filter (fun piece => !unklineDrops user host piece) = linesOf line :=
      List.filter_eq_self.mpr fun piece member => by simp [pieces piece member]
    have same : (linesOf line).map putText = linesOf line := by
      conv_rhs => rw [← List.map_id (linesOf line)]
      apply List.map_congr_left
      intro piece member
      apply putText_eq
      intro nul
      rcases (mem_linesOf member _ nul).2 with newline | inLine
      · exact absurd newline (by decide)
      · exact noNul inLine
    rw [if_neg keeps, writtenOf, all, same, linesOf_whole noReturn]

/-- The copy is as it should be when all was written as a whole and the texts are the remaining lines. -/
theorem allOrNothing_iff :
    disk.AllOrNothing user host (disk.finish (disk.copyLines user host)) ↔
      disk.Complete user host ∧ (disk.texts user host).flatten = disk.remaining user host := by
  have eq := disk.copyLines_eq user host
  constructor
  · rintro ⟨handles, either⟩
    have opened : (disk.copyLines user host).opened = true := by
      by_contra closed
      rw [Bool.not_eq_true] at closed
      simp [Disk.finish, closed] at handles
    have file : (disk.finish (disk.copyLines user host)).file = (disk.copyLines user host).text := by
      simp [Disk.finish, opened]
    rw [file] at either
    rw [eq] at opened either
    obtain ⟨most, whole⟩ := flushWrites_opened opened
    simp only [List.length_nil, Nat.zero_add] at most whole
    rcases either with ⟨complete, text⟩ | ⟨incomplete, text⟩
    · refine ⟨complete, ?_⟩
      rw [← text, flushWrites_complete rfl]
      · rfl
      · intro i line at_
        obtain ⟨n, write, long⟩ := complete i (putText line) (by
          rw [Disk.texts, List.getElem?_map, at_]
          rfl)
        exact ⟨n, by simpa using write, long⟩
    · -- a text that is cut short makes the copy shorter than the file
      exfalso
      apply incomplete
      have short : (disk.texts user host).flatten.length ≤ disk.file.length := by
        refine le_trans ?_ (linesOf_length disk.file)
        exact texts_length user host (linesOf disk.file)
      rw [text] at most whole
      intro i t at_
      rw [Disk.texts, List.getElem?_map, Option.map_eq_some_iff] at at_
      obtain ⟨line, at_, rfl⟩ := at_
      exact whole (Nat.le_antisymm most short) i line at_
  · rintro ⟨complete, text⟩
    have result : disk.copyLines user host = _ := eq.trans (flushWrites_complete rfl (by
      intro i line at_
      obtain ⟨n, write, long⟩ := complete i (putText line) (by
        rw [Disk.texts, List.getElem?_map, at_]
        rfl)
      exact ⟨n, by simpa using write, long⟩))
    rw [result]
    exact ⟨rfl, Or.inl ⟨complete, text⟩⟩

/-- Lines that are left out of a list and whose pieces are not missed have no pieces. -/
theorem flatMap_filter_eq {lines : List (List Char)} {keep : List Char → Bool}
    {pieces : List Char → List (List Char)} (same : (lines.filter keep).flatMap pieces = lines.flatMap pieces) :
    ∀ line ∈ lines, keep line = false → pieces line = [] := by
  induction lines with
  | nil => simp
  | cons line lines ih =>
    have fewer : ((lines.filter keep).flatMap pieces).length ≤ (lines.flatMap pieces).length :=
      (List.filter_sublist.flatMap pieces).length_le
    cases kept : keep line with
    | true =>
      simp only [List.filter_cons, kept, if_true, List.flatMap_cons, List.append_cancel_left_eq] at same
      intro line' member notKept
      rcases List.mem_cons.mp member with rfl | member
      · rw [kept] at notKept
        cases notKept
      · exact ih same line' member notKept
    | false =>
      simp only [List.filter_cons, kept, Bool.false_eq_true, if_false, List.flatMap_cons] at same
      have lengths := congrArg List.length same
      rw [List.length_append] at lengths
      have none : pieces line = [] := List.eq_nil_of_length_eq_zero (by omega)
      rw [none, List.nil_append] at same
      intro line' member notKept
      rcases List.mem_cons.mp member with rfl | member
      · exact none
      · exact ih same line' member notKept

/-- When the texts are the remaining lines, every line is copied well: the pieces of a text without NUL can be told
apart in one way only. -/
theorem copiedWell_of_texts (noNul : ∀ line ∈ fileLines disk.file, unklineDrops user host line = true → '\x00' ∉ line)
    (same : (disk.texts user host).flatten = disk.remaining user host) :
    ∀ line ∈ fileLines disk.file, CopiedWell user host line := by
  -- no text has a CR or a NUL, and so no remaining line has
  have plainTexts : ∀ c ∈ disk.remaining user host, c ≠ '\r' ∧ c ≠ '\x00' := by
    intro c member
    rw [← same] at member
    obtain ⟨text, inTexts, inText⟩ := List.mem_flatten.mp member
    obtain ⟨piece, filtered, rfl⟩ := List.mem_map.mp inTexts
    constructor
    · exact (mem_linesOf (List.mem_of_mem_filter filtered) c ((List.takeWhile_sublist _).mem inText)).1
    · rintro rfl
      exact noNul_putText piece inText
  have plainLine : ∀ line ∈ fileLines disk.file, unklineDrops user host line = false →
      '\r' ∉ line ∧ '\x00' ∉ line := by
    intro line member keeps
    have inside : ∀ c ∈ line, c ∈ disk.remaining user host := fun c inLine =>
      List.mem_flatten.mpr ⟨line, List.mem_filter.mpr ⟨member, by simp [keeps]⟩, inLine⟩
    exact ⟨fun cr => (plainTexts _ (inside _ cr)).1 rfl, fun nul => (plainTexts _ (inside _ nul)).2 rfl⟩
  have fileNoNul : '\x00' ∉ disk.file := by
    rw [← fileLines_flatten disk.file]
    intro nul
    obtain ⟨line, member, inLine⟩ := List.mem_flatten.mp nul
    cases drops : unklineDrops user host line with
    | true => exact noNul line member drops inLine
    | false => exact (plainLine line member drops).2 inLine
  -- the texts are the pieces that are not dropped
  have texts : disk.texts user host = (linesOf disk.file).filter fun piece => !unklineDrops user host piece := by
    rw [Disk.texts]
    conv_rhs => rw [← List.map_id ((linesOf disk.file).filter _)]
    apply List.map_congr_left
    intro piece member
    apply putText_eq
    intro nul
    rcases (mem_linesOf (List.mem_of_mem_filter member) _ nul).2 with newline | inFile
    · exact absurd newline (by decide)
    · exact fileNoNul inFile
  -- and so are the pieces of the remaining lines
  have whole : (((fileLines disk.file).filter fun line => !unklineDrops user host line).flatMap linesOf).flatten =
      disk.remaining user host := by
    rw [Disk.remaining]
    have each : ∀ line ∈ (fileLines disk.file).filter fun line => !unklineDrops user host line,
        (linesOf line).flatten = line := fun line member =>
      linesOf_whole (plainLine line (List.mem_of_mem_filter member) (by simpa using (List.mem_filter.mp member).2)).1
    generalize (fileLines disk.file).filter (fun line => !unklineDrops user host line) = lines at each
    induction lines with
    | nil => rfl
    | cons line lines ih =>
      rw [List.flatMap_cons, List.flatten_append, each line List.mem_cons_self, List.flatten_cons,
        ih fun line' member => each line' (List.mem_cons_of_mem _ member)]
  have pieces : (linesOf disk.file).filter (fun piece => !unklineDrops user host piece) =
      ((fileLines disk.file).filter fun line => !unklineDrops user host line).flatMap linesOf := by
    rw [texts] at same
    have left := linesOf_sublist (List.filter_sublist (p := fun piece => !unklineDrops user host piece)
      (l := linesOf disk.file))
    have right : linesOf (((fileLines disk.file).filter fun line => !unklineDrops user host line).flatMap
        linesOf).flatten = ((fileLines disk.file).filter fun line => !unklineDrops user host line).flatMap linesOf := by
      refine linesOf_sublist (?_ : List.Sublist _ (linesOf disk.file))
      conv_rhs => rw [linesOf_fileLines disk.file]
      exact List.filter_sublist.flatMap _
    rw [← left, ← right, same, whole]
  have keptPieces : ∀ line ∈ fileLines disk.file, unklineDrops user host line = false →
      ∀ piece ∈ linesOf line, unklineDrops user host piece = false := by
    intro line member keeps piece inLine
    have inPieces : piece ∈ (linesOf disk.file).filter fun piece => !unklineDrops user host piece := by
      rw [pieces]
      exact List.mem_flatMap.mpr ⟨line, List.mem_filter.mpr ⟨member, by simp [keeps]⟩, inLine⟩
    simpa using (List.mem_filter.mp inPieces).2
  have left : ((fileLines disk.file).filter fun line => !unklineDrops user host line).flatMap
        (fun line => (linesOf line).filter fun piece => !unklineDrops user host piece) =
      (fileLines disk.file).flatMap
        (fun line => (linesOf line).filter fun piece => !unklineDrops user host piece) := by
    rw [linesOf_fileLines, List.filter_flatMap] at pieces
    rw [pieces]
    apply List.flatMap_congr
    intro line member
    apply List.filter_eq_self.mpr
    intro piece inLine
    simp [keptPieces line (List.mem_of_mem_filter member) (by simpa using (List.mem_filter.mp member).2) piece inLine]
  intro line member
  unfold CopiedWell
  split
  · next drops =>
    have none := flatMap_filter_eq left line member (by simp [drops])
    intro piece inLine
    left
    have := List.filter_eq_nil_iff.mp none piece inLine
    simpa using this
  · next keeps =>
    rw [Bool.not_eq_true] at keeps
    obtain ⟨noReturn, noNulLine⟩ := plainLine line member keeps
    exact ⟨noReturn, noNulLine, keptPieces line member keeps⟩

end

/-- UNKLINE is all or nothing when every write succeeds as a whole and every line is copied well; and only then, unless
a line of the target has a NUL. -/
theorem unkline_allOrNothing (disk : Disk) {parv : List (List Char)} {temporaryKlines : List Conf}
    {user host : List Char} (target : parv[1]?.bind unklineTarget = some (user, host))
    (permanent : temporaryKlines.any (tklineMatches host user) = false)
    (opens : (disk.readable && disk.creatable) = true) :
    let after := disk.moUnkline true parv temporaryKlines
    let wellCopied := disk.Complete user host ∧ ∀ line ∈ fileLines disk.file, CopiedWell user host line
    (wellCopied → disk.AllOrNothing user host after) ∧
      ((∀ line ∈ fileLines disk.file, unklineDrops user host line = true → '\x00' ∉ line) →
        disk.AllOrNothing user host after → wellCopied) := by
  have after : disk.moUnkline true parv temporaryKlines = disk.finish (disk.copyLines user host) := by
    simp only [Disk.moUnkline, if_true, target, permanent, Bool.false_eq_true, if_false, opens]
  simp only [after, allOrNothing_iff]
  constructor
  · rintro ⟨complete, well⟩
    refine ⟨complete, ?_⟩
    rw [texts_flatten, remaining_eq]
    congr 1
    apply List.map_congr_left
    intro line member
    exact (well line member).writtenOf_eq
  · rintro noNul ⟨complete, same⟩
    exact ⟨complete, copiedWell_of_texts disk user host noNul same⟩

/-- A file of one line, and writes that write everything. -/
def smallDisk : Disk := ⟨"\"u\",\"h\",\"r\",\n".toList, true, true, fun _ => some 1000⟩

theorem unkline_allOrNothing_small :
    let after := smallDisk.moUnkline true [[], "u@h".toList] []
    let wellCopied := smallDisk.Complete ['u'] ['h'] ∧ ∀ line ∈ fileLines smallDisk.file, CopiedWell ['u'] ['h'] line
    (wellCopied → smallDisk.AllOrNothing ['u'] ['h'] after) ∧
      ((∀ line ∈ fileLines smallDisk.file, unklineDrops ['u'] ['h'] line = true → '\x00' ∉ line) →
        smallDisk.AllOrNothing ['u'] ['h'] after → wellCopied) :=
  unkline_allOrNothing smallDisk (by decide) rfl rfl

/-- The only write fails: the handle is closed twice. -/
theorem unkline_misuses :
    let disk : Disk := { smallDisk with writes := fun _ => none }
    ¬disk.AllOrNothing ['a'] ['b'] (disk.moUnkline true [[], "a@b".toList] []) := by
  intro disk kept
  exact absurd kept.handles (by decide)

end Ircd.Ban
