import Ircd.Channel.PendingRanks

/-!
# The MODE lines for servers

`send_cap_mode_changes` of `src/channel_mode.c`: the changes of a MODE as servers with some
capabilities are told of them, cut into lines. The parameters of a line are kept apart, and what
`strlcat` would cut off behind `MODEBUFLEN` is not: four nicks do not come near it.
-/
namespace Ircd.Chan

/-- What a line says behind the name of the channel: `modebuf` and `parabuf`. -/
structure ModeLine where
  letters : List Char
  params : List (List Char)
deriving DecidableEq

/-- The lines that have been sent, `modebuf` and `parabuf`, and the counters `nc` and `mc`. -/
structure ModeWriter where
  sent : List ModeLine
  letters : List Char
  params : List (List Char)
  nc : ℕ
  mc : ℕ

/-- `pbl`. -/
def ModeWriter.pbl (w : ModeWriter) : ℕ := (w.params.map fun param => param.length + 1).sum

/-- What is in the buffers is sent. -/
def ModeWriter.flush (w : ModeWriter) : List ModeLine :=
  if w.nc ≠ 0 then w.sent ++ [⟨w.letters, w.params⟩] else w.sent

/-- There is no room for another parameter. `header` is the line up to the letters. -/
def ModeWriter.full (w : ModeWriter) (header : List Char) (arg : Option (List Char)) : Bool :=
  arg.any fun arg => w.mc == maxModeParams ||
    decide (arg.length + (header ++ w.letters).length + w.pbl + 2 > bufSize)

/-- A letter, and its parameter if it has one. -/
def ModeWriter.put (w : ModeWriter) (c : Char) (arg : Option (List Char)) : ModeWriter :=
  { w with
    letters := w.letters ++ [c]
    params := w.params ++ arg.toList
    nc := w.nc + 1
    mc := w.mc + arg.toList.length }

/-- The last sign goes if nothing has come behind it. -/
def dropPlus (letters : List Char) : List Char :=
  if letters.getLast? = some '+' then letters.dropLast else letters

/-- The capabilities let the change through. -/
def ChModeChange.passes (cap nocap : Finset Cap) (e : ChModeChange) : Bool :=
  e.letter != '\x00' && decide (e.caps ⊆ cap) && decide (e.nocaps ⊆ nocap)

/-- The parameter of a removal: the id, if the reader knows ids and there is one. -/
def ChModeChange.minusArg (cap : Finset Cap) (e : ChModeChange) : Option (List Char) :=
  match e.id with
  | none => e.arg
  | some id => if .uid ∈ cap ∧ id ≠ [] then some id else e.arg

/-- The parameter that the loop over the additions measures. What it writes is the name. -/
def ChModeChange.plusArg (cap : Finset Cap) (e : ChModeChange) : Option (List Char) :=
  if .uid ∈ cap ∧ e.id.isSome = true then e.id else e.arg

/-- A round of the loop over `mode_changes_minus`. -/
def writeMinus (header : List Char) (cap nocap : Finset Cap) (w : ModeWriter) (e : ChModeChange) : ModeWriter :=
  if e.passes cap nocap then
    let arg := e.minusArg cap
    let w := if w.full header arg then ⟨w.flush, ['-'], [], 0, 0⟩ else w
    w.put e.letter arg
  else w

/-- A round of the loop over `mode_changes_plus`. -/
def writePlus (header : List Char) (cap nocap : Finset Cap) (w : ModeWriter) (e : ChModeChange) : ModeWriter :=
  if e.passes cap nocap then
    let w :=
      if w.full header (e.plusArg cap) then
        ⟨{ w with letters := dropPlus w.letters }.flush, ['+'], [], 0, 0⟩
      else w
    w.put e.letter e.arg
  else w

/-- The sign between the two loops. -/
def ModeWriter.turn (w : ModeWriter) (plus : List ChModeChange) : ModeWriter :=
  if plus = [] then w
  else if w.letters.getLast? = some '-' then { w with letters := w.letters.dropLast ++ ['+'] }
  else { w with letters := w.letters ++ ['+'] }

/-- `send_cap_mode_changes`. -/
def sendCapModeChanges (header : List Char) (cap nocap : Finset Cap) (minus plus : List ChModeChange) :
    List ModeLine :=
  let w : ModeWriter := ⟨[], if minus = [] then [] else ['-'], [], 0, 0⟩
  let w := (minus.foldl (writeMinus header cap nocap) w).turn plus
  let w := plus.foldl (writePlus header cap nocap) w
  { w with letters := dropPlus w.letters }.flush

/-! ### Reading -/

/-- The changes of ranks that a reader finds in the letters, each with its parameter. -/
def readRanks : List Char → Dir → List (List Char) → List (Dir × Char × List Char)
  | [], _, _ => []
  | c :: letters, dir, params =>
    if c = '+' ∨ c = '-' ∨ c = '=' then readRanks letters (dir.read c) params
    else if c ∈ rankLetters then
      match params with
      | [] => readRanks letters dir []
      | param :: later =>
        if dir = .query then readRanks letters dir params else (dir, c, param) :: readRanks letters dir later
    else readRanks letters dir params

/-- What the line tells. A reader begins with additions. -/
def ModeLine.told (line : ModeLine) : List (Dir × Char × List Char) :=
  readRanks line.letters .add line.params

/-! ### What the lines say -/

theorem Dir.read_of_not_sign {c : Char} (noSign : ¬(c = '+' ∨ c = '-' ∨ c = '=')) (dir : Dir) :
    dir.read c = dir := by
  unfold Dir.read
  split <;> simp_all

theorem readRanks_nil (letters : List Char) (dir : Dir) : readRanks letters dir [] = [] := by
  induction letters generalizing dir with
  | nil => rfl
  | cons c letters ih =>
    rw [readRanks]
    split
    · exact ih _
    · split <;> exact ih _

/-- Letters that use up their parameters say the same whatever comes behind them. -/
theorem readRanks_append {letters : List Char} (plain : '=' ∉ letters) {dir : Dir} (changes : dir ≠ .query)
    {params : List (List Char)} (enough : params.length = letters.countP (· ∈ rankLetters))
    (letters' : List Char) (params' : List (List Char)) :
    readRanks (letters ++ letters') dir (params ++ params') =
      readRanks letters dir params ++ readRanks letters' (letters.foldl Dir.read dir) params' := by
  induction letters generalizing dir params with
  | nil =>
    obtain rfl := List.length_eq_zero_iff.mp enough
    rfl
  | cons c letters ih =>
    rw [List.mem_cons, not_or] at plain
    simp only [List.cons_append, readRanks, List.foldl_cons]
    by_cases sign : c = '+' ∨ c = '-' ∨ c = '='
    · rw [if_pos sign, if_pos sign]
      have noRank : c ∉ rankLetters := by
        rcases sign with rfl | rfl | rfl <;> decide
      rw [List.countP_cons_of_neg (by simpa using noRank)] at enough
      refine ih plain.2 ?_ enough
      rcases sign with rfl | rfl | rfl
      · exact nofun
      · exact nofun
      · exact absurd rfl plain.1
    · rw [if_neg sign, if_neg sign, Dir.read_of_not_sign sign]
      by_cases rank : c ∈ rankLetters
      · rw [List.countP_cons_of_pos (by simpa using rank)] at enough
        rw [if_pos rank, if_pos rank]
        cases params with
        | nil => cases enough
        | cons param params =>
          rw [List.cons_append]
          dsimp only
          rw [if_neg changes, if_neg changes, ih plain.2 changes (Nat.succ.inj enough), List.cons_append]
      · rw [List.countP_cons_of_neg (by simpa using rank)] at enough
        rw [if_neg rank, if_neg rank]
        exact ih plain.2 changes enough

/-- The lines, with what is in the buffers, say this; the next letter has the direction `dir`. -/
structure ModeWriter.Tells (w : ModeWriter) (dir : Dir) (said : List (Dir × Char × List Char)) : Prop where
  said : w.sent.flatMap ModeLine.told ++ readRanks w.letters .add w.params = said
  plain : '=' ∉ w.letters
  enough : w.params.length = w.letters.countP (· ∈ rankLetters)
  sign : w.letters.foldl Dir.read .add = dir
  empty : w.nc = 0 → w.params = []

namespace ModeWriter.Tells

variable {w : ModeWriter} {dir : Dir} {said : List (Dir × Char × List Char)}

theorem flush (tells : w.Tells dir said) : w.flush.flatMap ModeLine.told = said := by
  rw [← tells.said]
  unfold ModeWriter.flush
  split
  · rw [List.flatMap_append, List.flatMap_singleton]
    rfl
  next none =>
    rw [tells.empty (not_not.mp none), readRanks_nil, List.append_nil]

/-- A sign that nothing has come behind makes no difference. -/
theorem dropSign {letters : List Char} {c : Char} (ends : w.letters = letters ++ [c]) (sign : c = '+' ∨ c = '-')
    (tells : w.Tells dir said) :
    ModeWriter.Tells { w with letters := letters } (letters.foldl Dir.read .add) said := by
  obtain ⟨said, plain, enough, -, empty⟩ := tells
  rw [ends, List.mem_append, not_or] at plain
  have noRank : c ∉ rankLetters := by
    rcases sign with rfl | rfl <;> decide
  rw [ends, List.countP_append, List.countP_singleton, if_neg (by simpa using noRank), Nat.add_zero] at enough
  refine ⟨?_, plain.1, enough, rfl, empty⟩
  have whole := readRanks_append plain.1 (nofun : Dir.add ≠ .query) enough [c] []
  rw [List.append_nil, readRanks_nil, List.append_nil] at whole
  rw [← said, ends, whole]

theorem dropPlus (tells : w.Tells dir said) :
    ∃ dir, ModeWriter.Tells { w with letters := Chan.dropPlus w.letters } dir said := by
  unfold Chan.dropPlus
  split
  next last =>
    obtain ⟨letters, ends⟩ := List.getLast?_eq_some_iff.mp last
    rw [ends, List.dropLast_concat]
    exact ⟨_, tells.dropSign ends (Or.inl rfl)⟩
  · exact ⟨dir, tells⟩

/-- A sign is put behind the letters. -/
theorem putSign {c : Char} (sign : c = '+' ∨ c = '-') (tells : w.Tells dir said) :
    ModeWriter.Tells { w with letters := w.letters ++ [c] } (dir.read c) said := by
  obtain ⟨said, plain, enough, turned, empty⟩ := tells
  have noRank : c ∉ rankLetters := by
    rcases sign with rfl | rfl <;> decide
  have noQuery : c ≠ '=' := by
    rcases sign with rfl | rfl <;> decide
  refine ⟨?_, by simp [plain, noQuery.symm], ?_, ?_, empty⟩
  · have whole := readRanks_append plain (nofun : Dir.add ≠ .query) enough [c] []
    rw [List.append_nil, readRanks_nil, List.append_nil] at whole
    rw [← said, whole]
  · rw [List.countP_append, List.countP_singleton, if_neg (by simpa using noRank), Nat.add_zero, enough]
  · rw [List.foldl_append, turned]
    rfl

/-- The loop over the additions begins. -/
theorem turn (tells : w.Tells dir said) {plus : List ChModeChange} (some : plus ≠ []) :
    (w.turn plus).Tells .add said := by
  unfold ModeWriter.turn
  rw [if_neg some]
  split
  next last =>
    obtain ⟨letters, ends⟩ := List.getLast?_eq_some_iff.mp last
    rw [ends, List.dropLast_concat]
    exact (tells.dropSign ends (Or.inr rfl)).putSign (Or.inl rfl)
  · exact tells.putSign (Or.inl rfl)

/-- A letter of a rank is written with its parameter. -/
theorem put (tells : w.Tells dir said) (changes : dir ≠ .query) {c : Char} (rank : c ∈ rankLetters)
    (param : List Char) : (w.put c (some param)).Tells dir (said ++ [(dir, c, param)]) := by
  obtain ⟨said, plain, enough, turned, -⟩ := tells
  have noSign : ¬(c = '+' ∨ c = '-' ∨ c = '=') := by
    rcases mem_rankLetters.mp rank with rfl | rfl | rfl <;> decide
  refine ⟨?_, ?_, ?_, ?_, fun none => nomatch none⟩
  · have whole := readRanks_append plain (nofun : Dir.add ≠ .query) enough [c] [param]
    rw [turned, readRanks, if_neg noSign, if_pos rank] at whole
    rw [← said, List.append_assoc]
    rw [if_neg changes, readRanks] at whole
    exact congrArg _ whole
  · have noQuery : c ≠ '=' := fun same => noSign (Or.inr (Or.inr same))
    simp [ModeWriter.put, plain, noQuery.symm]
  · simp only [ModeWriter.put, Option.toList_some, List.length_append, List.length_singleton, List.countP_append,
      List.countP_singleton, if_pos (decide_eq_true rank), enough]
  · rw [ModeWriter.put, List.foldl_append, turned]
    exact Dir.read_of_not_sign noSign dir

/-- A new line is begun. -/
theorem restart (tells : w.Tells dir said) {c : Char} (sign : c = '+' ∨ c = '-') :
    ModeWriter.Tells ⟨w.flush, [c], [], 0, 0⟩ (Dir.add.read c) said := by
  have fresh : ModeWriter.Tells ⟨w.flush, [], [], 0, 0⟩ .add said :=
    ⟨by rw [tells.flush]; exact List.append_nil said, by simp, rfl, rfl, fun _ => rfl⟩
  exact fresh.putSign sign

end ModeWriter.Tells

/-- The removal that a line has for a change. -/
def ChModeChange.removal (cap : Finset Cap) (e : ChModeChange) : Dir × Char × List Char :=
  (.del, e.letter, (e.minusArg cap).getD [])

/-- The addition that a line has for a change. -/
def ChModeChange.addition (e : ChModeChange) : Dir × Char × List Char :=
  (.add, e.letter, e.arg.getD [])

/-- The change is one of a rank, or has been cancelled. -/
def ChModeChange.OfRank (e : ChModeChange) : Prop :=
  e.letter ≠ '\x00' → e.letter ∈ rankLetters ∧ e.arg.isSome = true

section Lines

variable {header : List Char} {cap nocap : Finset Cap} {w : ModeWriter} {dir : Dir}
  {said : List (Dir × Char × List Char)}

theorem ChModeChange.OfRank.passes {e : ChModeChange} (ofRank : e.OfRank) (passes : e.passes cap nocap = true) :
    e.letter ∈ rankLetters ∧ ∃ arg, e.arg = some arg := by
  simp only [ChModeChange.passes, Bool.and_eq_true, bne_iff_ne, ne_eq] at passes
  obtain ⟨rank, some⟩ := ofRank passes.1.1
  exact ⟨rank, Option.isSome_iff_exists.mp some⟩

theorem writeMinus_tells {e : ChModeChange} (ofRank : e.OfRank) (tells : w.Tells .del said) :
    (writeMinus header cap nocap w e).Tells .del
      (said ++ ([e].filter (·.passes cap nocap)).map (·.removal cap)) := by
  unfold writeMinus
  cases passes : e.passes cap nocap with
  | false => simpa [passes] using tells
  | true =>
    obtain ⟨rank, arg, given⟩ := ofRank.passes passes
    obtain ⟨param, param_eq⟩ : ∃ param, e.minusArg cap = some param := by
      unfold ChModeChange.minusArg
      rw [given]
      split
      · exact ⟨arg, rfl⟩
      · split <;> exact ⟨_, rfl⟩
    simp only [if_true, List.filter_cons, passes, List.filter_nil, List.map_singleton, ChModeChange.removal,
      param_eq, Option.getD_some]
    split
    · exact (tells.restart (Or.inr rfl)).put nofun rank param
    · exact tells.put nofun rank param

theorem writePlus_tells {e : ChModeChange} (ofRank : e.OfRank) (tells : w.Tells .add said) :
    (writePlus header cap nocap w e).Tells .add
      (said ++ ([e].filter (·.passes cap nocap)).map ChModeChange.addition) := by
  unfold writePlus
  cases passes : e.passes cap nocap with
  | false => simpa [passes] using tells
  | true =>
    obtain ⟨rank, arg, given⟩ := ofRank.passes passes
    simp only [if_true, List.filter_cons, passes, List.filter_nil, List.map_singleton, ChModeChange.addition,
      given, Option.getD_some]
    split
    · obtain ⟨_, dropped⟩ := tells.dropPlus
      exact (dropped.restart (Or.inl rfl)).put nofun rank arg
    · exact tells.put nofun rank arg

private theorem foldl_tells {write : ModeWriter → ChModeChange → ModeWriter}
    {entry : ChModeChange → Dir × Char × List Char}
    (round : ∀ w said e, e.OfRank → w.Tells dir said →
      (write w e).Tells dir (said ++ ([e].filter (·.passes cap nocap)).map entry))
    {list : List ChModeChange} (ofRanks : ∀ e ∈ list, e.OfRank) (tells : w.Tells dir said) :
    (list.foldl write w).Tells dir (said ++ (list.filter (·.passes cap nocap)).map entry) := by
  induction list generalizing w said with
  | nil => simpa using tells
  | cons e list ih =>
    have first := round w said e (ofRanks e List.mem_cons_self) tells
    have rest := ih (fun e' member => ofRanks e' (List.mem_cons_of_mem e member)) first
    rw [List.append_assoc, ← List.map_append, ← List.filter_append, List.singleton_append] at rest
    exact rest

/-- The lines for servers say what the pending changes are that their capabilities let through, the removals first. -/
theorem sendCapModeChanges_told (header : List Char) (cap nocap : Finset Cap) {minus plus : List ChModeChange}
    (ofMinus : ∀ e ∈ minus, e.OfRank) (ofPlus : ∀ e ∈ plus, e.OfRank) :
    (sendCapModeChanges header cap nocap minus plus).flatMap ModeLine.told =
      (minus.filter (·.passes cap nocap)).map (·.removal cap) ++
        (plus.filter (·.passes cap nocap)).map ChModeChange.addition := by
  have blank : ModeWriter.Tells ⟨[], [], [], 0, 0⟩ .add [] := ⟨rfl, by simp, rfl, rfl, fun _ => rfl⟩
  -- what has been written when the first loop is over
  obtain ⟨dir, taken⟩ : ∃ dir, (minus.foldl (writeMinus header cap nocap)
      ⟨[], if minus = [] then [] else ['-'], [], 0, 0⟩).Tells dir
        ((minus.filter (·.passes cap nocap)).map (·.removal cap)) := by
    by_cases none : minus = []
    · subst none
      exact ⟨.add, blank⟩
    · rw [if_neg none]
      exact ⟨.del, foldl_tells (fun _ _ _ => writeMinus_tells) ofMinus (blank.putSign (Or.inr rfl))⟩
  unfold sendCapModeChanges
  dsimp only
  generalize minus.foldl (writeMinus header cap nocap) ⟨[], if minus = [] then [] else ['-'], [], 0, 0⟩ = w at taken
  by_cases none : plus = []
  · subst none
    obtain ⟨_, dropped⟩ := taken.dropPlus
    rw [List.filter_nil, List.map_nil, List.append_nil]
    exact dropped.flush
  · have round : ∀ w said e, e.OfRank → w.Tells .add said → (writePlus header cap nocap w e).Tells .add
        (said ++ ([e].filter (·.passes cap nocap)).map ChModeChange.addition) := fun _ _ _ => writePlus_tells
    have added := foldl_tells round ofPlus (taken.turn none)
    obtain ⟨_, dropped⟩ := added.dropPlus
    exact dropped.flush

end Lines

end Ircd.Chan
