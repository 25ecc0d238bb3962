import Ircd.Channel.Mask
import Ircd.Lib.Machine

/-!
# The rounds of `match`

The loop of `match` (`src/match.c`) as a machine, once as it is, with pointers into the two strings, and once
with what the pointers point to (`Scan`), where a round only takes characters off the front of a text. Both make the
same rounds (`run_texts`).
-/
namespace Ircd.Match

open Chan

/-! ### One round -/

/-- One round of the loop. It goes on, or it has the result. -/
def matchStep (mask name : List Char) (v : MatchVars) : MatchVars ⊕ Bool :=
  let quote := if v.quote = 0 then 0 else if v.quote + 1 = 3 then 0 else v.quote + 1
  if charAt mask v.m = '\\' ∧ quote = 0 then .inl { v with m := v.m + 1, quote := 1 }
  else
    let starred : Option MatchVars :=
      if quote = 0 ∧ charAt mask v.m = '*' then
        let m := skipStars mask v.m
        if charAt mask m = '\\' then
          if charAt mask (m + 1) = '\x00' then none
          else some { m := m + 1, n := v.n, ma := m + 1, na := v.n, wild := true, quote := 2 }
        else some { m := m, n := v.n, ma := m, na := v.n, wild := true, quote := quote }
      else some { v with quote := quote }
    match starred with
    | none => .inr false
    | some v => (matchRest mask name v).swap

/-- The variables before the first round. -/
def matchStart : MatchVars := ⟨0, 0, 0, 0, false, 0⟩

/-- What `match` says without its limit. -/
def Unlimited (mask name : List Char) (answer : Bool) : Prop :=
  Machine.Ends (matchStep mask name) matchStart answer

/-- `match` has its answer before the limit. -/
def Answered (mask name : List Char) : Prop :=
  ∃ answer, Machine.run (matchStep mask name) matchMaxCalls matchStart = .inr answer

theorem matchLoop_run (mask name : List Char) (calls : ℕ) (v : MatchVars) :
    matchLoop mask name calls v =
      match Machine.run (matchStep mask name) calls v with
      | .inl _ => false
      | .inr result => result := by
  induction calls generalizing v with
  | zero => rfl
  | succ calls ih =>
    rw [matchLoop, Machine.run, matchStep]
    dsimp only
    generalize (if v.quote = 0 then 0 else if v.quote + 1 = 3 then 0 else v.quote + 1) = quote
    split
    · exact ih _
    · split
      · next starred => simp only [starred]
      · next v' starred =>
        cases rest : matchRest mask name v' with
        | inl result => simp only [starred, rest, Sum.swap_inl]
        | inr v =>
          simp only [starred, rest, Sum.swap_inr]
          exact ih v

/-! ### What the pointers point to -/

/-- The variables of `match`, with the texts that begin where they point. `quote` says that the next character of the
mask is quoted. -/
structure Scan where
  m : List Char
  n : List Char
  ma : List Char
  na : List Char
  wild : Bool
  quote : Bool
deriving DecidableEq

/-- The character at the front, or the NUL behind the text. -/
def front (text : List Char) : Char := text.headD '\x00'

def dropStars (mask : List Char) : List Char := mask.dropWhile (· == '*')

/-- The comparison at the end of a round. -/
def Scan.compare (quoted : Bool) (s : Scan) : Scan ⊕ Bool :=
  if toLower (front s.m) ≠ toLower (front s.n) ∧ ¬(quoted = false ∧ front s.m = '?') then
    if s.wild then .inl { s with m := s.ma, n := s.na.tail, na := s.na.tail, quote := false } else .inr false
  else .inl { s with m := s.m.tail, n := s.n.tail, quote := false }

/-- What follows the star in one round. `open_` is what the search backwards finds in this mask: it ends with a star
and question marks, and the star is not its first character. -/
def Scan.rest (open_ quoted : Bool) (s : Scan) : Scan ⊕ Bool :=
  if s.m = [] then
    if s.n = [] then .inr true
    else if quoted then .inr false
    else if open_ then .inr true
    else if !s.wild then .inr false
    else Scan.compare false { s with m := s.ma, n := s.na.tail, na := s.na.tail }
  else if s.n = [] then
    if quoted then .inr false else .inr (decide (dropStars s.m = []))
  else s.compare quoted

/-- A round at stars, with the mask behind them. A backslash there quotes the next character. -/
def Scan.star (open_ : Bool) (n m : List Char) : Scan ⊕ Bool :=
  if front m = '\\' then
    if m.tail = [] then .inr false else Scan.rest open_ true ⟨m.tail, n, m.tail, n, true, false⟩
  else Scan.rest open_ false ⟨m, n, m, n, true, false⟩

/-- One round. -/
def Scan.step (open_ : Bool) (s : Scan) : Scan ⊕ Bool :=
  if s.quote then s.rest open_ true
  else
    match s.m with
    | '\\' :: m => .inl { s with m := m, quote := true }
    | '*' :: m => Scan.star open_ s.n (dropStars m)
    | _ => s.rest open_ false

/-- What the search backwards from the end of the mask finds. -/
def openEnd (mask : List Char) : Bool :=
  decide (charAt mask (backOverAny mask mask.length) = '*' ∧ backOverAny mask mask.length > 0)

def scanStart (mask name : List Char) : Scan := ⟨mask, name, mask, name, false, false⟩

/-! ### The same rounds -/

/-- The texts behind the pointers. -/
def texts (mask name : List Char) (v : MatchVars) : Scan :=
  ⟨mask.drop v.m, name.drop v.n, mask.drop v.ma, name.drop v.na, v.wild, decide (v.quote = 1)⟩

/-- The pointers into the mask do not leave it. -/
structure Inside (mask : List Char) (v : MatchVars) : Prop where
  m : v.m ≤ mask.length
  ma : v.ma ≤ mask.length
  quote : v.quote ≤ 2

theorem charAt_eq (text : List Char) (i : ℕ) : charAt text i = front (text.drop i) := by
  unfold charAt front
  rw [List.headD_eq_head?_getD, List.head?_drop, List.getD_eq_getElem?_getD]

section

variable {mask name : List Char}

theorem front_eq_nul {text : List Char} (clean : '\x00' ∉ text) : front text = '\x00' ↔ text = [] := by
  cases text with
  | nil => simp [front]
  | cons c text =>
    simp only [front, List.headD_cons, reduceCtorEq, iff_false]
    rintro rfl
    exact clean List.mem_cons_self

theorem charAt_eq_nul {text : List Char} (clean : '\x00' ∉ text) (i : ℕ) :
    charAt text i = '\x00' ↔ text.drop i = [] := by
  rw [charAt_eq]
  exact front_eq_nul fun inside => clean (List.mem_of_mem_drop inside)

theorem drop_skipStars (mask : List Char) (i : ℕ) : mask.drop (skipStars mask i) = dropStars (mask.drop i) := by
  unfold skipStars dropStars
  rw [← List.drop_drop]
  generalize mask.drop i = text
  induction text with
  | nil => rfl
  | cons c text ih =>
    by_cases star : c = '*'
    · simpa [star] using ih
    · simp [star]

theorem lt_length_of_charAt {i : ℕ} {c : Char} (here : charAt mask i = c) (real : c ≠ '\x00') : i < mask.length := by
  by_contra outside
  rw [charAt_eq, List.drop_eq_nil_of_le (Nat.le_of_not_lt outside)] at here
  exact real here.symm

theorem skipStars_le {i : ℕ} (inside : i ≤ mask.length) : skipStars mask i ≤ mask.length := by
  unfold skipStars
  have stars := (List.takeWhile_sublist (· == '*') (l := mask.drop i)).length_le
  rw [List.length_drop] at stars
  omega

/-- A pointer moves on unless it is at the end. -/
theorem drop_next {text : List Char} (clean : '\x00' ∉ text) (i : ℕ) :
    text.drop (if charAt text i ≠ '\x00' then i + 1 else i) = (text.drop i).tail := by
  split
  · exact List.drop_add_one_eq_tail_drop.symm ▸ rfl
  · next end_ =>
    rw [(charAt_eq_nul clean i).mp (not_not.mp end_)]
    rfl

/-- The comparison, with the texts. -/
theorem compare_texts (maskClean : '\x00' ∉ mask) (nameClean : '\x00' ∉ name) (v : MatchVars)
    (round : v.quote = 0 ∨ v.quote = 2) :
    (texts mask name v).compare (decide (v.quote ≠ 0)) =
      match matchChar mask name v with
      | none => .inr false
      | some v => .inl (texts mask name v) := by
  have plain : decide (v.quote = 1) = false := by
    obtain quote | quote := round <;> rw [quote] <;> rfl
  unfold matchChar Scan.compare
  dsimp only
  have m : front (texts mask name v).m = charAt mask v.m := (charAt_eq mask v.m).symm
  have n : front (texts mask name v).n = charAt name v.n := (charAt_eq name v.n).symm
  rw [m, n]
  have asks : (decide (v.quote ≠ 0) = false ∧ charAt mask v.m = '?') ↔ (v.quote = 0 ∧ charAt mask v.m = '?') := by
    simp
  simp only [asks]
  split
  · cases wild : v.wild with
    | true => simp [texts, wild, plain]
    | false => simp [texts, wild]
  · simp only [texts, drop_next maskClean, drop_next nameClean, plain]

theorem rest_texts (maskClean : '\x00' ∉ mask) (nameClean : '\x00' ∉ name) (v : MatchVars)
    (round : v.quote = 0 ∨ v.quote = 2) (inside : v.m ≤ mask.length) :
    (texts mask name v).rest (openEnd mask) (decide (v.quote ≠ 0)) =
      (matchRest mask name v).swap.map (texts mask name) id := by
  have compared (w : MatchVars) (round : w.quote = 0 ∨ w.quote = 2) :
      matchChar mask name w = none ∧ (texts mask name w).compare (decide (w.quote ≠ 0)) = .inr false ∨
        ∃ u, matchChar mask name w = some u ∧
          (texts mask name w).compare (decide (w.quote ≠ 0)) = .inl (texts mask name u) := by
    rw [compare_texts maskClean nameClean w round]
    cases matchChar mask name w with
    | none => exact .inl ⟨rfl, rfl⟩
    | some u => exact .inr ⟨u, rfl, rfl⟩
  unfold matchRest Scan.rest
  dsimp only
  have m : (texts mask name v).m = [] ↔ charAt mask v.m = '\x00' := (charAt_eq_nul maskClean v.m).symm
  have n : (texts mask name v).n = [] ↔ charAt name v.n = '\x00' := (charAt_eq_nul nameClean v.n).symm
  simp only [m, n]
  split
  · next end_ =>
    have whole : v.m = mask.length := by
      have nothing := List.drop_eq_nil_iff.mp ((charAt_eq_nul maskClean v.m).mp end_)
      omega
    split
    · rfl
    · obtain quote | quote := round
      · have open_ : openEnd mask = true ↔
            charAt mask (backOverAny mask v.m) = '*' ∧ backOverAny mask v.m > 0 := by
          rw [openEnd, whole, decide_eq_true_iff]
        simp only [quote, ne_eq, not_true_eq_false, decide_false, Bool.false_eq_true, if_false, open_]
        split
        · rfl
        · cases wild : v.wild with
          | false => simp [texts, wild]
          | true =>
            have again := compared { v with m := v.ma, n := v.na + 1, na := v.na + 1 } (.inl quote)
            simp only [quote, ne_eq, not_true_eq_false, decide_false, wild] at again
            obtain ⟨none_, failed⟩ | ⟨u, some_, moved⟩ := again
            · simpa [texts, wild, none_, quote] using failed
            · simpa [texts, wild, some_, quote] using moved
      · simp [quote]
  · split
    · obtain quote | quote := round
      · have stars : dropStars (texts mask name v).m = [] ↔ charAt mask (skipStars mask v.m) = '\x00' := by
          rw [charAt_eq_nul maskClean, drop_skipStars]
          rfl
        simp [quote, stars]
      · simp [quote]
    · obtain ⟨none_, failed⟩ | ⟨u, some_, moved⟩ := compared v round
      · rw [none_, failed]
        rfl
      · rw [some_, moved]
        rfl

theorem drop_succ_of_cons {text : List Char} {c : Char} {rest : List Char} {i : ℕ}
    (here : text.drop i = c :: rest) : text.drop (i + 1) = rest := by
  rw [← List.drop_drop, here]
  rfl

/-- A star, and what is behind it. -/
theorem star_texts (maskClean : '\x00' ∉ mask) (nameClean : '\x00' ∉ name) (v : MatchVars) (inside : Inside mask v)
    (plain : v.quote ≠ 1) {behind : List Char} (here : mask.drop v.m = '*' :: behind) :
    Scan.star (openEnd mask) (name.drop v.n) (dropStars behind) = (matchStep mask name v).map (texts mask name) id := by
  have round : (if v.quote = 0 then 0 else if v.quote + 1 = 3 then 0 else v.quote + 1) = 0 := by
    have bound := inside.quote
    split_ifs <;> omega
  have star : charAt mask v.m = '*' := by
    rw [charAt_eq, here]
    rfl
  have skipped : mask.drop (skipStars mask v.m) = dropStars behind := by
    rw [drop_skipStars, here]
    rfl
  have next : mask.drop (skipStars mask v.m + 1) = (dropStars behind).tail := by
    rw [← skipped, List.tail_drop]
  have bound := skipStars_le inside.m
  have backslash : charAt mask (skipStars mask v.m) = '\\' ↔ front (dropStars behind) = '\\' := by
    rw [charAt_eq, skipped]
  have end_ : charAt mask (skipStars mask v.m + 1) = '\x00' ↔ (dropStars behind).tail = [] := by
    rw [charAt_eq_nul maskClean, next]
  unfold matchStep Scan.star
  simp only [round, star, Char.reduceEq, false_and, if_false, true_and, if_true, backslash, end_]
  split
  · next quotes =>
    have short := lt_length_of_charAt (backslash.mpr quotes) (by decide)
    split
    · rfl
    · have rest := rest_texts maskClean nameClean ⟨skipStars mask v.m + 1, v.n, skipStars mask v.m + 1, v.n, true, 2⟩
        (.inr rfl) short
      rw [← rest]
      simp [texts, next]
  · have rest := rest_texts maskClean nameClean ⟨skipStars mask v.m, v.n, skipStars mask v.m, v.n, true, 0⟩
      (.inl rfl) bound
    rw [← rest]
    simp [texts, skipped]

/-- A round with the pointers is a round with the texts. -/
theorem step_texts (maskClean : '\x00' ∉ mask) (nameClean : '\x00' ∉ name) (v : MatchVars) (inside : Inside mask v) :
    Scan.step (openEnd mask) (texts mask name v) = (matchStep mask name v).map (texts mask name) id := by
  by_cases quoted : v.quote = 1
  · -- the character behind a backslash
    have rest := rest_texts maskClean nameClean { v with quote := 2 } (.inr rfl) inside.m
    simp only [Scan.step, texts, quoted, decide_true, if_true]
    unfold matchStep
    simp only [quoted, Nat.one_ne_zero, if_false, Nat.reduceAdd, Nat.reduceEqDiff, and_false, false_and]
    rw [← rest]
    rfl
  · have plain : (texts mask name v).quote = false := decide_eq_false quoted
    have round : (if v.quote = 0 then 0 else if v.quote + 1 = 3 then 0 else v.quote + 1) = 0 := by
      have bound := inside.quote
      split_ifs <;> omega
    have head := charAt_eq mask v.m
    unfold Scan.step
    rw [plain, if_neg Bool.false_ne_true]
    split
    · next m here =>
      have here : mask.drop v.m = '\\' :: m := here
      rw [here] at head
      unfold matchStep
      simp only [round, head, front, List.headD_cons, and_self, if_true]
      simp [texts, drop_succ_of_cons here]
    · next m here => exact star_texts maskClean nameClean v inside quoted here
    · next noBackslash noStar =>
      have other (c : Char) (real : c ≠ '\x00') (absent : ∀ m, mask.drop v.m = c :: m → False) :
          charAt mask v.m ≠ c := by
        rw [head]
        cases here : mask.drop v.m with
        | nil => exact real.symm
        | cons d m =>
          rintro rfl
          exact absent m here
      have backslash := other '\\' (by decide) noBackslash
      have star := other '*' (by decide) noStar
      have same : texts mask name v = texts mask name { v with quote := 0 } := by
        simp [texts, quoted]
      have rest := rest_texts maskClean nameClean { v with quote := 0 } (.inl rfl) inside.m
      unfold matchStep
      simp only [round, backslash, star, false_and, and_false, if_false]
      rw [same, ← rest]
      rfl

theorem inside_char {v w : MatchVars} (inside : Inside mask v) (here : matchChar mask name v = some w) :
    Inside mask w := by
  unfold matchChar at here
  dsimp only at here
  split_ifs at here with differ wild mark
  · cases here
    exact ⟨inside.ma, inside.ma, inside.quote⟩
  all_goals
    cases here
    refine ⟨?_, inside.ma, inside.quote⟩
    first
      | exact lt_length_of_charAt rfl mark
      | exact inside.m

theorem inside_rest {v w : MatchVars} (inside : Inside mask v) (here : matchRest mask name v = .inr w) :
    Inside mask w := by
  unfold matchRest at here
  dsimp only at here
  split_ifs at here
  · split at here
    · cases here
    · next u moved =>
      cases here
      exact inside_char (v := { v with m := v.ma, n := v.na + 1, na := v.na + 1 })
        ⟨inside.ma, inside.ma, inside.quote⟩ moved
  · split at here
    · cases here
    · next u moved =>
      cases here
      exact inside_char inside moved

theorem inside_step (v w : MatchVars) (inside : Inside mask v) (here : matchStep mask name v = .inl w) :
    Inside mask w := by
  have round : (if v.quote = 0 then 0 else if v.quote + 1 = 3 then 0 else v.quote + 1) ≤ 2 := by
    have bound := inside.quote
    split_ifs <;> omega
  unfold matchStep at here
  dsimp only at here
  generalize (if v.quote = 0 then 0 else if v.quote + 1 = 3 then 0 else v.quote + 1) = quote at here round
  split at here
  · next backslash =>
    cases here
    exact ⟨lt_length_of_charAt backslash.1 (by decide), inside.ma, Nat.le_succ 1⟩
  · split at here
    · cases here
    · next u starred =>
      have moved : matchRest mask name u = .inr w := by
        rw [← Sum.swap_swap (matchRest mask name u), here]
        rfl
      refine inside_rest ?_ moved
      split_ifs at starred with star backslash
      · cases starred
        have behind := lt_length_of_charAt backslash (by decide)
        exact ⟨behind, behind, Nat.le_refl 2⟩
      · cases starred
        exact ⟨skipStars_le inside.m, skipStars_le inside.m, round⟩
      · cases starred
        exact ⟨inside.m, inside.ma, round⟩

/-- Round by round. -/
theorem run_texts (maskClean : '\x00' ∉ mask) (nameClean : '\x00' ∉ name) (rounds : ℕ) :
    Machine.run (Scan.step (openEnd mask)) rounds (scanStart mask name) =
      (Machine.run (matchStep mask name) rounds matchStart).map (texts mask name) id := by
  have start : Inside mask matchStart := ⟨Nat.zero_le _, Nat.zero_le _, Nat.zero_le _⟩
  exact Machine.run_map (texts mask name) inside_step (fun v inside => step_texts maskClean nameClean v inside) start

theorem run_texts_inr (maskClean : '\x00' ∉ mask) (nameClean : '\x00' ∉ name) {rounds : ℕ} {answer : Bool} :
    Machine.run (Scan.step (openEnd mask)) rounds (scanStart mask name) = .inr answer ↔
      Machine.run (matchStep mask name) rounds matchStart = .inr answer := by
  rw [run_texts maskClean nameClean]
  cases Machine.run (matchStep mask name) rounds matchStart <;> simp

end

end Ircd.Match
