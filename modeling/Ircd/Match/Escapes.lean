import Ircd.Match.Answer

/-!
# Quoted characters

On which masks a backslash makes the next character stand for itself (`escapes_iff`). For every other mask there is a name
that shows the difference: the matcher takes it along a way that the pattern does not have (`Comes`).
-/
namespace Ircd.Match

open Chan
open Hostmask (SameChar tokenOf)
open Glob (Token Matches)

/-- In this mask a backslash makes the next character stand for itself. At the end of the mask it stands for nothing. -/
def Escapes (mask : List Char) : Prop :=
  ∀ name, '\x00' ∉ name → (Unlimited mask name true ↔ Matches SameChar (reading mask) name)

/-- The masks on which the quotes are kept. -/
def KeepsQuotes (mask : List Char) : Prop :=
  if complete mask then restarts mask = true ∧ quotedEnd mask = false else .star ∉ reading mask

/-! ### Ways to the end -/

/-- From here the matcher comes to this answer, wherever it could go back to. -/
def Comes (open_ answer : Bool) (m n : List Char) : Prop :=
  ∀ ma na wild, Machine.Ends (Scan.step open_) ⟨m, n, ma, na, wild, false⟩ answer

section

variable {open_ answer : Bool} {c d : Char} {m n : List Char}

/-- The character fits. -/
theorem rest_char (open_ : Bool) {quoted : Bool} (fits : (tokenAt quoted c).Fits SameChar d) (ma na : List Char) (wild quote : Bool) :
    Scan.rest open_ quoted ⟨c :: m, d :: n, ma, na, wild, quote⟩ = .inl ⟨m, n, ma, na, wild, false⟩ := by
  have same : ¬(toLower c ≠ toLower d ∧ ¬(quoted = false ∧ c = '?')) := by
    unfold tokenAt at fits
    split at fits
    · next any => exact fun differ => differ.2 any
    · exact fun differ => differ.1 fits
  rw [Scan.rest, if_neg (List.cons_ne_nil c m), if_neg (List.cons_ne_nil d n), Scan.compare]
  exact if_neg same

theorem comes_quoted (fits : SameChar c d) (comes : Comes open_ answer m n) :
    Comes open_ answer ('\\' :: c :: m) (d :: n) := by
  intro ma na wild
  have quoted : (tokenAt true c).Fits SameChar d := fits
  have step : Scan.step open_ ⟨c :: m, d :: n, ma, na, wild, true⟩ = .inl ⟨m, n, ma, na, wild, false⟩ :=
    rest_char open_ quoted ma na wild true
  exact ((comes ma na wild).before_step step).before_step rfl

/-- A character that is not special. -/
theorem step_char (backslash : c ≠ '\\') (star : c ≠ '*') (n ma na : List Char) (wild : Bool) :
    Scan.step open_ ⟨c :: m, n, ma, na, wild, false⟩ = Scan.rest open_ false ⟨c :: m, n, ma, na, wild, false⟩ := by
  simp [Scan.step, backslash, star]

theorem comes_char (backslash : c ≠ '\\') (star : c ≠ '*') (fits : (tokenOf c).Fits SameChar d)
    (comes : Comes open_ answer m n) : Comes open_ answer (c :: m) (d :: n) := by
  intro ma na wild
  rw [tokenOf_eq star] at fits
  exact (comes ma na wild).before_step ((step_char backslash star _ ma na wild).trans (rest_char open_ fits ma na wild false))

/-- At a star the matcher goes on as it would without. -/
theorem comes_star (more : m ≠ ['\\']) (comes : Comes open_ answer m n) : Comes open_ answer ('*' :: m) n := by
  intro ma na wild
  cases m with
  | nil => exact (comes [] n true).of_same rfl
  | cons c m =>
    by_cases star : c = '*'
    · subst star
      exact (comes ma na wild).of_same rfl
    · by_cases backslash : c = '\\'
      · subst backslash
        cases m with
        | nil => exact absurd rfl more
        | cons c m =>
          -- the backslash is taken in the same round
          have inner := (comes (c :: m) n true).after_step (t := ⟨c :: m, n, c :: m, n, true, true⟩) rfl
          exact inner.of_same rfl
      · refine (comes (c :: m) n true).of_same ?_
        rw [step_char backslash star]
        simp [Scan.step, Scan.star, dropStars, front, star, backslash]

/-- Behind a star, a quoted character that does not fit is not quoted the next time. -/
theorem comes_back (differ : ¬SameChar c d) (comes : Comes open_ answer (c :: m) n) :
    Comes open_ answer ('*' :: '\\' :: c :: m) (d :: n) := by
  intro ma na wild
  refine (comes (c :: m) n true).before_step ?_
  have wrong : toLower c ≠ toLower d := differ
  simp [Scan.step, Scan.star, Scan.rest, Scan.compare, dropStars, front, wrong]

/-! ### The shortest name -/

/-- A name for a pattern, with nothing for the stars. -/
def straight : List (Token Char) → List Char
  | [] => []
  | .star :: pattern => straight pattern
  | .any :: pattern => 'a' :: straight pattern
  | .lit c :: pattern => c :: straight pattern

theorem matches_straight (pattern : List (Token Char)) : Matches SameChar pattern (straight pattern) := by
  induction pattern with
  | nil => rfl
  | cons token pattern ih =>
    cases token with
    | star => exact ⟨[], straight pattern, rfl, ih⟩
    | any => exact ⟨'a', straight pattern, rfl, ih⟩
    | lit c => exact ⟨c, straight pattern, rfl, rfl, ih⟩

/-- No star stands before a backslash that has nothing to quote. -/
def passes : List Char → Bool
  | [] => true
  | ['\\'] => true
  | '\\' :: _ :: m => passes m
  | '*' :: m => m != ['\\'] && passes m
  | _ :: m => passes m

/-- What is left of the mask behind its last character that means something. -/
def leftover (m : List Char) : List Char := if complete m then [] else ['\\']

theorem passes_star (m : List Char) : passes ('*' :: m) = (m != ['\\'] && passes m) := by
  cases m <;> rfl

theorem passes_char (backslash : c ≠ '\\') (star : c ≠ '*') (m : List Char) : passes (c :: m) = passes m := by
  cases m <;> simp [passes, backslash]

theorem leftover_cons (backslash : c ≠ '\\') (m : List Char) : leftover (c :: m) = leftover m := by
  rw [leftover, complete_cons backslash]
  rfl

theorem straight_char (star : c ≠ '*') (pattern : List (Token Char)) :
    ∃ d, straight (tokenOf c :: pattern) = d :: straight pattern ∧ (tokenOf c).Fits SameChar d ∧ (d = 'a' ∨ d = c) := by
  rw [tokenOf_eq star, tokenAt]
  split
  · exact ⟨'a', rfl, trivial, .inl rfl⟩
  · exact ⟨c, rfl, rfl, .inr rfl⟩

theorem mem_straight (inside : d ∈ straight (reading m)) : d = 'a' ∨ d ∈ m := by
  induction m using mask_induction with
  | nil => cases inside
  | lone => cases inside
  | quoted c m ih =>
    obtain rfl | inside := List.mem_cons.mp inside
    · exact .inr (List.mem_cons_of_mem _ List.mem_cons_self)
    · exact (ih inside).imp_right fun there => List.mem_cons_of_mem _ (List.mem_cons_of_mem _ there)
  | star m ih =>
    rw [reading_cons (by decide)] at inside
    exact (ih inside).imp_right (List.mem_cons_of_mem _)
  | char c m backslash star ih =>
    obtain ⟨e, same, -, from_⟩ := straight_char star (reading m)
    rw [reading_cons backslash, same] at inside
    obtain rfl | inside := List.mem_cons.mp inside
    · refine from_.imp_right ?_
      rintro rfl
      exact List.mem_cons_self
    · exact (ih inside).imp_right (List.mem_cons_of_mem _)

/-- The characters of the shortest name, with more behind them, lead to the end of the mask. -/
theorem comes_straight {tail : List Char} (m : List Char) (may : passes m = true)
    (ending : Comes open_ answer (leftover m) tail) : Comes open_ answer m (straight (reading m) ++ tail) := by
  induction m using mask_induction with
  | nil => exact ending
  | lone => exact ending
  | quoted c m ih => exact comes_quoted rfl (ih may ending)
  | star m ih =>
    rw [passes_star, Bool.and_eq_true, bne_iff_ne] at may
    rw [leftover_cons (by decide)] at ending
    rw [reading_cons (by decide)]
    exact comes_star may.1 (ih may.2 ending)
  | char c m backslash star ih =>
    rw [passes_char backslash star] at may
    rw [leftover_cons backslash] at ending
    obtain ⟨d, same, fits, -⟩ := straight_char star (reading m)
    rw [reading_cons backslash, same]
    exact comes_char backslash star fits (ih may ending)

/-! ### Names that the pattern does not have -/

/-- The token is this character, and nothing else will do. -/
def asks (x : Char) : Token Char → Bool
  | .lit c => decide (SameChar x c)
  | _ => false

/-- A name has every character of its pattern. -/
theorem count_le {x : Char} {pattern : List (Token Char)} {s : List Char} (holds : Matches SameChar pattern s) :
    pattern.countP (asks x) ≤ s.countP fun d => decide (SameChar x d) := by
  induction pattern generalizing s with
  | nil => exact Nat.zero_le _
  | cons token pattern ih =>
    cases token with
    | star =>
      obtain ⟨before, back, rfl, holds⟩ := holds
      rw [List.countP_cons_of_neg (show ¬asks x .star = true from Bool.false_ne_true), List.countP_append]
      exact (ih holds).trans (Nat.le_add_left _ _)
    | any =>
      obtain ⟨d, rest, rfl, holds⟩ := holds
      rw [List.countP_cons_of_neg (show ¬asks x .any = true from Bool.false_ne_true), List.countP_cons]
      exact (ih holds).trans (Nat.le_add_right _ _)
    | lit c =>
      obtain ⟨d, rest, rfl, same, holds⟩ := holds
      have equal : SameChar x c ↔ SameChar x d := ⟨fun h => h.trans same, fun h => h.trans same.symm⟩
      rw [List.countP_cons, List.countP_cons]
      simp only [asks, equal]
      exact Nat.add_le_add_right (ih holds) _

theorem count_straight {x : Char} (special : ¬SameChar x 'a') (pattern : List (Token Char)) :
    ((straight pattern).countP fun d => decide (SameChar x d)) = pattern.countP (asks x) := by
  induction pattern with
  | nil => rfl
  | cons token pattern ih =>
    cases token with
    | star => exact ih.trans (List.countP_cons_of_neg (by simp [asks])).symm
    | any => simp [straight, asks, special, ih]
    | lit c => simp [straight, asks, List.countP_cons, ih]

theorem passes_of_complete (whole : complete m = true) : passes m = true := by
  induction m using mask_induction with
  | nil => rfl
  | lone => cases whole
  | quoted c m ih => exact ih whole
  | star m ih =>
    rw [complete_cons (by decide)] at whole
    rw [passes_star, ih whole, Bool.and_true, bne_iff_ne]
    rintro rfl
    cases whole
  | char c m backslash star ih =>
    rw [complete_cons backslash] at whole
    rw [passes_char backslash star, ih whole]

/-- Even where the quote of the first character is forgotten. -/
theorem passes_cons (c : Char) (whole : complete m = true) : passes (c :: m) = true := by
  induction m using mask_induction generalizing c with
  | nil =>
    by_cases backslash : c = '\\'
    · exact backslash ▸ rfl
    · exact passes_of_complete ((complete_cons backslash []).trans rfl)
  | lone => cases whole
  | quoted d m ih =>
    by_cases backslash : c = '\\'
    · subst backslash
      exact ih d whole
    · exact passes_of_complete ((complete_cons backslash _).trans whole)
  | star m ih =>
    by_cases backslash : c = '\\'
    · exact backslash ▸ passes_of_complete ((complete_cons (by decide) m).symm.trans whole)
    · exact passes_of_complete ((complete_cons backslash _).trans whole)
  | char d m other _ ih =>
    by_cases backslash : c = '\\'
    · exact backslash ▸ passes_of_complete ((complete_cons other m).symm.trans whole)
    · exact passes_of_complete ((complete_cons backslash _).trans whole)

/-- A character that is not quoted is asked for if it is asked for when it is. -/
theorem asks_tokenOf (d : Char) (quoted : asks '\\' (.lit d) = true) : asks '\\' (tokenOf d) = true := by
  by_cases star : d = '*'
  · subst star
    cases quoted
  · rw [tokenOf_eq star, tokenAt]
    split
    · next any =>
      rw [any.2] at quoted
      cases quoted
    · exact quoted

/-- A wildcard that is quoted is asked for only then. -/
theorem count_lost_wildcard (wildcard : c = '*' ∨ c = '?') (pattern : List (Token Char)) :
    (tokenOf c :: pattern).countP (asks c) < (Token.lit c :: pattern).countP (asks c) := by
  have quoted : asks c (.lit c) = true := decide_eq_true rfl
  have free : ¬asks c (tokenOf c) = true := by
    obtain rfl | rfl := wildcard <;> decide
  rw [List.countP_cons_of_neg free, List.countP_cons_of_pos quoted]
  exact Nat.lt_succ_self _

/-- Where the quote moves on to the next character, the backslash itself is lost. -/
theorem count_lost_backslash (d : Char) (pattern : List (Token Char)) :
    (Token.lit d :: pattern).countP (asks '\\') < (Token.lit '\\' :: tokenOf d :: pattern).countP (asks '\\') := by
  rw [List.countP_cons_of_pos (show asks '\\' (.lit '\\') = true by decide)]
  by_cases quoted : asks '\\' (.lit d) = true
  · rw [List.countP_cons_of_pos quoted, List.countP_cons_of_pos (asks_tokenOf d quoted)]
    exact Nat.lt_succ_self _
  · rw [List.countP_cons_of_neg quoted, List.countP_cons]
    exact Nat.lt_succ_of_le (Nat.le_add_right _ _)

theorem count_lost_plain (backslash : c ≠ '\\') (lost : rejoins (c :: m) = false) :
    ¬SameChar c 'a' ∧ ∃ x, ¬SameChar x 'a' ∧
      (reading (c :: m)).countP (asks x) < (Token.lit c :: reading m).countP (asks x) := by
  rw [rejoins_cons backslash, Bool.and_eq_false_iff, bne_eq_false_iff_eq, bne_eq_false_iff_eq] at lost
  rw [reading_cons backslash]
  have special : ¬SameChar c 'a' := by
    obtain rfl | rfl := lost <;> decide
  exact ⟨special, c, special, count_lost_wildcard lost _⟩

/-- What is lost when the quote of the first character is forgotten. -/
theorem count_lost (c : Char) (whole : complete m = true) (lost : rejoins (c :: m) = false) :
    ¬SameChar c 'a' ∧ ∃ x, ¬SameChar x 'a' ∧
      (reading (c :: m)).countP (asks x) < (Token.lit c :: reading m).countP (asks x) := by
  by_cases backslash : c = '\\'
  · subst backslash
    refine ⟨by decide, ?_⟩
    induction m using mask_induction with
    | nil => exact ⟨'\\', by decide, by decide⟩
    | lone => cases whole
    | quoted d m ih =>
      -- a pair of backslashes is one, and then the same again
      have again : ∃ x, ¬SameChar x 'a' ∧
          (reading (d :: m)).countP (asks x) < (Token.lit d :: reading m).countP (asks x) := by
        by_cases pair : d = '\\'
        · subst pair
          exact ih whole lost
        · exact (count_lost_plain pair lost).2
      obtain ⟨x, special, fewer⟩ := again
      refine ⟨x, special, ?_⟩
      rw [reading, reading, List.countP_cons, List.countP_cons]
      exact Nat.add_lt_add_right fewer _
    | star m ih =>
      refine ⟨'\\', by decide, ?_⟩
      rw [reading_cons (c := '*') (by decide)]
      exact count_lost_backslash '*' _
    | char d m other _ ih =>
      refine ⟨'\\', by decide, ?_⟩
      rw [reading_cons other]
      exact count_lost_backslash d _
  · exact count_lost_plain backslash lost

theorem comes_leftover (m : List Char) : Comes open_ true (leftover m) [] := by
  intro ma na wild
  unfold leftover
  split
  · exact .of_inr rfl
  · exact Machine.Ends.before_step (.of_inr rfl) rfl

theorem quote_of_lost (whole : complete m = true) (lost : behindStar m = false) : ∃ c r, m = '\\' :: c :: r := by
  cases m with
  | nil => cases lost
  | cons b m =>
    by_cases backslash : b = '\\'
    · subst backslash
      cases m with
      | nil => cases whole
      | cons c m => exact ⟨c, m, rfl⟩
    · simp [behindStar, backslash] at lost

/-- The matcher goes back to a character whose quote it has forgotten. -/
theorem exists_misread (whole : complete m = true) (lost : restarts m = false) (open_ : Bool) :
    ∃ n x, Comes open_ true m n ∧ ¬SameChar x 'a' ∧
      (n.countP fun d => decide (SameChar x d)) < (reading m).countP (asks x) ∧ ∀ d ∈ n, d = 'a' ∨ d ∈ m := by
  induction m using mask_induction with
  | nil => cases lost
  | lone => cases lost
  | quoted c m ih =>
    obtain ⟨n, x, comes, special, fewer, letters⟩ := ih whole lost
    refine ⟨c :: n, x, comes_quoted rfl comes, special, ?_, ?_⟩
    · rw [reading, List.countP_cons, List.countP_cons]
      exact Nat.add_lt_add_right fewer _
    · rintro d inside
      obtain rfl | inside := List.mem_cons.mp inside
      · exact .inr (List.mem_cons_of_mem _ List.mem_cons_self)
      · exact (letters d inside).imp_right fun there => List.mem_cons_of_mem _ (List.mem_cons_of_mem _ there)
  | star m ih =>
    rw [complete_cons (by decide)] at whole
    have free (x : Char) : ¬asks x (tokenOf '*') = true := Bool.false_ne_true
    rw [restarts_star, Bool.and_eq_false_iff] at lost
    obtain lost | lost := lost
    · -- an `a` in front makes the matcher go back to the character whose quote is lost
      obtain ⟨c, m, rfl⟩ := quote_of_lost whole lost
      have inner : complete m = true := whole
      obtain ⟨differ, x, special, fewer⟩ := count_lost c inner lost
      have ending : Comes open_ true (leftover (c :: m)) [] := comes_leftover _
      have comes := comes_straight (c :: m) (passes_cons c inner) ending
      rw [List.append_nil] at comes
      refine ⟨'a' :: straight (reading (c :: m)), x, comes_back differ comes, special, ?_, ?_⟩
      · rw [List.countP_cons_of_neg (by simpa using special), count_straight special,
          reading_cons (c := '*') (by decide), List.countP_cons_of_neg (free x)]
        exact fewer
      · rintro d inside
        obtain rfl | inside := List.mem_cons.mp inside
        · exact .inl rfl
        · exact (mem_straight inside).imp_right fun there => List.mem_cons_of_mem _ (List.mem_cons_of_mem _ there)
    · obtain ⟨n, x, comes, special, fewer, letters⟩ := ih whole lost
      refine ⟨n, x, comes_star ?_ comes, special, ?_, fun d inside => (letters d inside).imp_right (List.mem_cons_of_mem _)⟩
      · rintro rfl
        cases whole
      · rw [reading_cons (by decide), List.countP_cons_of_neg (free x)]
        exact fewer
  | char c m backslash star ih =>
    rw [complete_cons backslash] at whole
    rw [restarts_cons backslash star] at lost
    obtain ⟨n, x, comes, special, fewer, letters⟩ := ih whole lost
    obtain ⟨d, same, fits, from_⟩ := straight_char star []
    refine ⟨d :: n, x, comes_char backslash star fits comes, special, ?_, ?_⟩
    · have one := count_straight special [tokenOf c]
      rw [same] at one
      rw [reading_cons backslash]
      change ([d] ++ n).countP _ < ([tokenOf c] ++ reading m).countP _
      rw [List.countP_append, List.countP_append, ← one]
      exact Nat.add_lt_add_left fewer _
    · rintro e inside
      obtain rfl | inside := List.mem_cons.mp inside
      · refine from_.imp_right ?_
        rintro rfl
        exact List.mem_cons_self
      · exact (letters e inside).imp_right (List.mem_cons_of_mem _)

/-! ### A quoted star at the end -/

/-- Where the quoted star and the question marks are. -/
theorem quotedEnd_spec (ending : quotedEnd m = true) :
    ∃ before n, before ≠ [] ∧ m = before ++ '*' :: List.replicate n '?' ∧
      ∃ front, reading m = front ++ .lit '*' :: List.replicate n .any := by
  induction m using mask_induction with
  | nil => cases ending
  | lone => cases ending
  | quoted c m ih =>
    have rest (inner : quotedEnd m = true) :
        ∃ before n, before ≠ [] ∧ '\\' :: c :: m = before ++ '*' :: List.replicate n '?' ∧
          ∃ front, reading ('\\' :: c :: m) = front ++ .lit '*' :: List.replicate n .any := by
      obtain ⟨before, n, -, same, front, read⟩ := ih inner
      exact ⟨'\\' :: c :: before, n, List.cons_ne_nil _ _, by rw [same]; rfl, .lit c :: front, by rw [reading, read]; rfl⟩
    by_cases star : c = '*'
    · subst star
      obtain marks | inner := Bool.or_eq_true_iff.mp ending
      · have same : m = List.replicate m.length '?' :=
          List.eq_replicate_of_mem fun d inside => beq_iff_eq.mp (List.all_eq_true.mp marks d inside)
        refine ⟨['\\'], m.length, List.cons_ne_nil _ _, by rw [← same]; rfl, [], ?_⟩
        rw [reading, ← reading_anys, ← same]
        rfl
      · exact rest inner
    · refine rest ?_
      simpa [quotedEnd, star] using ending
  | star m ih =>
    rw [quotedEnd_cons (by decide)] at ending
    obtain ⟨before, n, -, same, front, read⟩ := ih ending
    refine ⟨'*' :: before, n, List.cons_ne_nil _ _, by rw [same]; rfl, .star :: front, ?_⟩
    rw [reading_cons (by decide), read]
    rfl
  | char c m backslash _ ih =>
    rw [quotedEnd_cons backslash] at ending
    obtain ⟨before, n, -, same, front, read⟩ := ih ending
    refine ⟨c :: before, n, List.cons_ne_nil _ _, by rw [same]; rfl, tokenOf c :: front, ?_⟩
    rw [reading_cons backslash, read]
    rfl

theorem straight_append (front back : List (Token Char)) : straight (front ++ back) = straight front ++ straight back := by
  induction front with
  | nil => rfl
  | cons token front ih => cases token <;> simp [straight, ih]

theorem straight_anys (n : ℕ) : straight (List.replicate n .any) = List.replicate n 'a' := by
  induction n with
  | zero => rfl
  | succ n ih =>
    rw [List.replicate_succ, straight, ih]
    rfl

/-- One more character is too many for the quoted star. -/
theorem not_matches_longer (front : List (Token Char)) (n : ℕ) :
    ¬Matches SameChar (front ++ .lit '*' :: List.replicate n .any)
      (straight (front ++ .lit '*' :: List.replicate n .any) ++ ['a']) := by
  intro holds
  obtain ⟨s₁, s₂, whole, -, last⟩ := (Glob.matches_append _ _ _ _).mp holds
  obtain ⟨d, rest, rfl, same, marks⟩ := last
  have long := (Glob.matches_anys n rest).mp marks
  have spelled : straight (front ++ .lit '*' :: List.replicate n .any) ++ ['a'] =
      (straight front ++ ['*']) ++ List.replicate (n + 1) 'a' := by
    rw [straight_append, straight, straight_anys, List.replicate_succ']
    simp
  rw [spelled] at whole
  have end_ := List.append_inj_right' whole (by rw [List.length_replicate, List.length_cons, long])
  rw [List.replicate_succ] at end_
  rw [← (List.cons.inj end_).1] at same
  exact absurd same (by decide)

/-! ### A backslash at the end -/

/-- Without stars, every name of the pattern leads to the end of the mask. -/
theorem comes_of_matches {s : List Char} (plain : .star ∉ reading m) (holds : Matches SameChar (reading m) s) :
    Comes open_ true m s := by
  induction m using mask_induction generalizing s with
  | nil =>
    rw [show s = [] from holds]
    exact comes_leftover []
  | lone =>
    rw [show s = [] from holds]
    exact comes_leftover ['\\']
  | quoted c m ih =>
    obtain ⟨d, rest, rfl, same, holds⟩ := holds
    rw [reading, List.mem_cons, not_or] at plain
    exact comes_quoted same (ih plain.2 holds)
  | star m ih =>
    rw [reading_cons (by decide)] at plain
    exact absurd List.mem_cons_self plain
  | char c m backslash star ih =>
    rw [reading_cons backslash, List.mem_cons, not_or] at plain
    rw [reading_cons backslash, Glob.matches_cons (Ne.symm plain.1)] at holds
    obtain ⟨d, rest, rfl, fits, holds⟩ := holds
    exact comes_char backslash star fits (ih plain.2 holds)

/-- Without a star to go back to, the matcher takes a character that fits, or it says no. -/
theorem char_of_ends {quoted quote : Bool} {ma na : List Char} (stars : quoted = false → c ≠ '*') {s : Scan}
    (step : s.step open_ = Scan.rest open_ quoted ⟨c :: m, n, ma, na, false, quote⟩)
    (ends : Machine.Ends (Scan.step open_) s true) :
    ∃ d rest, n = d :: rest ∧ (tokenAt quoted c).Fits SameChar d ∧
      Machine.Ends (Scan.step open_) ⟨m, rest, ma, na, false, false⟩ true := by
  have refused (no : s.step open_ = .inr false) : False := by
    have same := ends.unique (.of_inr no)
    cases same
  cases n with
  | nil =>
    refine (refused (step.trans ?_)).elim
    cases quoted with
    | true => rfl
    | false => simp [Scan.rest, dropStars, stars rfl]
  | cons d rest =>
    by_cases fits : (tokenAt quoted c).Fits SameChar d
    · exact ⟨d, rest, rfl, fits, ends.after_step (step.trans (rest_char open_ fits ma na false quote))⟩
    · have differ : toLower c ≠ toLower d ∧ ¬(quoted = false ∧ c = '?') := by
        unfold tokenAt at fits
        split at fits
        · exact absurd trivial fits
        · next lit => exact ⟨fits, lit⟩
      refine (refused (step.trans ?_)).elim
      rw [Scan.rest, if_neg (List.cons_ne_nil c m), if_neg (List.cons_ne_nil d rest), Scan.compare]
      exact if_pos differ

theorem matches_of_ends {ma na : List Char} (plain : .star ∉ reading m)
    (ends : Machine.Ends (Scan.step false) ⟨m, n, ma, na, false, false⟩ true) : Matches SameChar (reading m) n := by
  induction m using mask_induction generalizing n with
  | nil =>
    cases n with
    | nil => rfl
    | cons d n =>
      have same := ends.unique (.of_inr rfl)
      cases same
  | lone =>
    cases n with
    | nil => rfl
    | cons d n =>
      have same := (ends.after_step rfl).unique (.of_inr rfl)
      cases same
  | quoted c m ih =>
    rw [reading, List.mem_cons, not_or] at plain
    obtain ⟨d, rest, rfl, fits, inner⟩ := @char_of_ends _ _ _ _ true true _ _ (absurd · Bool.false_ne_true.symm) _ rfl (ends.after_step rfl)
    exact ⟨d, rest, rfl, fits, ih plain.2 inner⟩
  | star m ih =>
    rw [reading_cons (by decide)] at plain
    exact absurd List.mem_cons_self plain
  | char c m backslash star ih =>
    rw [reading_cons backslash, List.mem_cons, not_or] at plain
    obtain ⟨d, rest, rfl, fits, inner⟩ := char_of_ends (fun _ => star) (step_char backslash star n ma na false) ends
    rw [reading_cons backslash, Glob.matches_cons (Ne.symm plain.1), tokenOf_eq star]
    exact ⟨d, rest, rfl, fits, ih plain.2 inner⟩

theorem passes_of_plain (plain : .star ∉ reading m) : passes m = true := by
  induction m using mask_induction with
  | nil => rfl
  | lone => rfl
  | quoted c m ih =>
    rw [reading, List.mem_cons, not_or] at plain
    exact ih plain.2
  | star m ih =>
    rw [reading_cons (by decide)] at plain
    exact absurd List.mem_cons_self plain
  | char c m backslash star ih =>
    rw [reading_cons backslash, List.mem_cons, not_or] at plain
    rw [passes_char backslash star]
    exact ih plain.2

theorem comes_lone (more : n ≠ []) : Comes false false ['\\'] n := by
  intro ma na wild
  cases n with
  | nil => exact absurd rfl more
  | cons d n => exact Machine.Ends.before_step (.of_inr rfl) rfl

theorem straight_ne_nil (plain : .star ∉ reading m) (ending : complete m = false) (more : m ≠ ['\\']) :
    straight (reading m) ≠ [] := by
  induction m using mask_induction with
  | nil => cases ending
  | lone => exact absurd rfl more
  | quoted c m ih => exact List.cons_ne_nil _ _
  | star m ih =>
    rw [reading_cons (by decide)] at plain
    exact absurd List.mem_cons_self plain
  | char c m backslash star ih =>
    obtain ⟨d, same, -⟩ := straight_char star (reading m)
    rw [reading_cons backslash, same]
    exact List.cons_ne_nil _ _

/-- Behind a star, a backslash at the end makes the matcher say no to names of the pattern. -/
theorem exists_refused (ending : complete m = false) (starred : .star ∈ reading m) :
    ∃ n, Comes false false m n ∧ Matches SameChar (reading m) n ∧ ∀ d ∈ n, d = 'a' ∨ d ∈ m := by
  induction m using mask_induction with
  | nil => cases starred
  | lone => cases starred
  | quoted c m ih =>
    have real : Token.star ≠ .lit c := by
      intro same
      cases same
    rw [reading, List.mem_cons, or_iff_right real] at starred
    obtain ⟨n, comes, holds, letters⟩ := ih ending starred
    refine ⟨c :: n, comes_quoted rfl comes, ⟨c, n, rfl, rfl, holds⟩, ?_⟩
    rintro d inside
    obtain rfl | inside := List.mem_cons.mp inside
    · exact .inr (List.mem_cons_of_mem _ List.mem_cons_self)
    · exact (letters d inside).imp_right fun there => List.mem_cons_of_mem _ (List.mem_cons_of_mem _ there)
  | star m ih =>
    rw [complete_cons (by decide)] at ending
    rw [reading_cons (by decide)]
    by_cases starred : .star ∈ reading m
    · obtain ⟨n, comes, holds, letters⟩ := ih ending starred
      refine ⟨n, comes_star ?_ comes, ⟨[], n, rfl, holds⟩, fun d inside => (letters d inside).imp_right (List.mem_cons_of_mem _)⟩
      rintro rfl
      cases starred
    · by_cases lone : m = ['\\']
      · subst lone
        exact ⟨[], fun ma na wild => .of_inr rfl, ⟨[], [], rfl, rfl⟩, fun d inside => absurd inside List.not_mem_nil⟩
      · -- the name has the piece behind the star twice, and the matcher takes it too soon
        have left : leftover m = ['\\'] := by rw [leftover, ending]; rfl
        have comes := comes_straight m (passes_of_plain starred)
          (left ▸ comes_lone (straight_ne_nil starred ending lone))
        refine ⟨_, comes_star lone comes, ⟨straight (reading m), straight (reading m), rfl, matches_straight _⟩, ?_⟩
        rintro d inside
        exact (mem_straight ((List.mem_append.mp inside).elim id id)).imp_right (List.mem_cons_of_mem _)
  | char c m backslash star ih =>
    have real : Token.star ≠ tokenOf c := fun same => by
      rw [tokenOf_eq star] at same
      exact tokenAt_ne_star false c same.symm
    rw [complete_cons backslash] at ending
    rw [reading_cons backslash, List.mem_cons, or_iff_right real] at starred
    obtain ⟨n, comes, holds, letters⟩ := ih ending starred
    obtain ⟨d, -, fits, from_⟩ := straight_char star []
    refine ⟨d :: n, comes_char backslash star fits comes, ?_, ?_⟩
    · rw [reading_cons backslash, Glob.matches_cons (Ne.symm real)]
      exact ⟨d, n, rfl, fits, holds⟩
    · rintro e inside
      obtain rfl | inside := List.mem_cons.mp inside
      · refine from_.imp_right ?_
        rintro rfl
        exact List.mem_cons_self
      · exact (letters e inside).imp_right (List.mem_cons_of_mem _)

theorem complete_openEnd (n : ℕ) (before : List Char) : complete (before ++ '*' :: List.replicate n '?') = true := by
  have marks : complete (List.replicate n '?') = true := by
    induction n with
    | zero => rfl
    | succ n ih =>
      rw [List.replicate_succ, complete_cons (by decide)]
      exact ih
  induction before using mask_induction with
  | nil => exact (complete_cons (by decide) _).trans marks
  | lone => exact marks
  | quoted c m ih => exact ih
  | star m ih => exact (complete_cons (by decide) _).trans ih
  | char c m backslash _ ih => exact (complete_cons backslash _).trans ih

end

/-- The rounds on the texts are those of `match`. -/
theorem unlimited_iff {mask name : List Char} (maskClean : '\x00' ∉ mask) (nameClean : '\x00' ∉ name) {answer : Bool} :
    Unlimited mask name answer ↔ Machine.Ends (Scan.step (openEnd mask)) (scanStart mask name) answer :=
  exists_congr fun _ => (run_texts_inr maskClean nameClean).symm

theorem Comes.unlimited {mask name : List Char} {answer : Bool} (comes : Comes (openEnd mask) answer mask name)
    (maskClean : '\x00' ∉ mask) (letters : ∀ d ∈ name, d = 'a' ∨ d ∈ mask) :
    '\x00' ∉ name ∧ Unlimited mask name answer := by
  have nameClean : '\x00' ∉ name := by
    intro inside
    obtain nul | there := letters _ inside
    · exact absurd nul (by decide)
    · exact maskClean there
  exact ⟨nameClean, (unlimited_iff maskClean nameClean).mpr (comes mask name false)⟩

theorem escapes_iff_keepsQuotes {mask : List Char} (clean : '\x00' ∉ mask) : Escapes mask ↔ KeepsQuotes mask := by
  by_cases whole : complete mask = true
  · rw [KeepsQuotes, if_pos whole]
    constructor
    · intro escapes
      constructor
      · by_contra lost
        obtain ⟨name, x, comes, special, fewer, letters⟩ :=
          exists_misread whole (Bool.eq_false_iff.mpr lost) (openEnd mask)
        obtain ⟨nameClean, said⟩ := comes.unlimited clean letters
        have needed := count_le (x := x) ((escapes name nameClean).mp said)
        omega
      · by_contra ending
        obtain ⟨before, n, some_, spelled, front, read⟩ := quotedEnd_spec (Bool.eq_true_of_not_eq_false ending)
        have open_ : openEnd mask = true := (openEnd_iff mask).mpr ⟨before, n, some_, spelled⟩
        have ends : Comes (openEnd mask) true (leftover mask) ['a'] := by
          rw [leftover, if_pos whole, open_]
          exact fun ma na wild => .of_inr rfl
        have comes := comes_straight mask (passes_of_complete whole) ends
        obtain ⟨nameClean, said⟩ := comes.unlimited clean fun d inside =>
          (List.mem_append.mp inside).elim mem_straight fun last => .inl (List.mem_singleton.mp last)
        have holds := (escapes _ nameClean).mp said
        rw [read] at holds
        exact not_matches_longer front n holds
    · rintro ⟨restarts, ending⟩ name nameClean
      have answer := unlimited_reads ⟨whole, restarts⟩ ending clean nameClean
      rw [← Glob.run_iff]
      exact ⟨fun said => answer.unique said, fun holds => holds ▸ answer⟩
  · rw [KeepsQuotes, if_neg whole]
    have ending := Bool.eq_false_iff.mpr whole
    have open_ : openEnd mask = false := by
      rw [Bool.eq_false_iff]
      intro open_
      obtain ⟨before, n, -, rfl⟩ := (openEnd_iff mask).mp open_
      exact whole (complete_openEnd n before)
    constructor
    · intro escapes starred
      obtain ⟨name, comes, holds, letters⟩ := exists_refused ending starred
      have comes : Comes (openEnd mask) false mask name := by
        rw [open_]
        exact comes
      obtain ⟨nameClean, said⟩ := comes.unlimited clean letters
      have both := ((escapes name nameClean).mpr holds).unique said
      cases both
    · intro plain name nameClean
      rw [unlimited_iff clean nameClean]
      exact ⟨fun said => matches_of_ends plain (open_ ▸ said), fun holds => comes_of_matches plain holds mask name false⟩

/-! ### Masks that quote every character -/

/-- A backslash before every character. -/
def quoteAll (s : List Char) : List Char := s.flatMap fun c => ['\\', c]

section

variable (s : List Char)

theorem reading_quoteAll : reading (quoteAll s) = s.map .lit := by
  induction s with
  | nil => rfl
  | cons c s ih => exact congrArg (_ :: ·) ih

theorem sound_quoteAll : Sound (quoteAll s) := by
  induction s with
  | nil => exact ⟨rfl, rfl⟩
  | cons c s ih => exact ⟨ih.complete, ih.restarts⟩

/-- Behind a quoted character there is no question mark that is not quoted. -/
theorem quotedEnd_quoteAll : quotedEnd (quoteAll s) = decide (s.getLast? = some '*') := by
  induction s with
  | nil => rfl
  | cons c s ih =>
    change quotedEnd ('\\' :: c :: quoteAll s) = _
    cases s with
    | nil => by_cases star : c = '*' <;> simp [quoteAll, quotedEnd, star]
    | cons d s =>
      have last : (c :: d :: s).getLast? = (d :: s).getLast? := List.getLast?_cons_cons
      rw [last, ← ih]
      by_cases star : c = '*'
      · subst star
        rfl
      · simp [quotedEnd]

theorem keepsQuotes_quoteAll : KeepsQuotes (quoteAll s) ↔ s.getLast? ≠ some '*' := by
  rw [KeepsQuotes, if_pos (sound_quoteAll s).complete, and_iff_right (sound_quoteAll s).restarts, quotedEnd_quoteAll,
    decide_eq_false_iff_not]

end

/-- The quotes of a mask are kept if the matcher may forget them where it goes back to a star, and there is no quoted
star at the end. A mask that quotes every character of a text stands for that text unless the text ends with a star. -/
theorem escapes_iff (mask : List Char) (clean : '\x00' ∉ mask) :
    (Escapes mask ↔ KeepsQuotes mask) ∧
      ∀ s, mask = quoteAll s →
        ((∀ name, '\x00' ∉ name → (Unlimited mask name true ↔ List.Forall₂ SameChar s name)) ↔ s.getLast? ≠ some '*') := by
  refine ⟨escapes_iff_keepsQuotes clean, ?_⟩
  rintro s rfl
  rw [← keepsQuotes_quoteAll, ← escapes_iff_keepsQuotes clean, Escapes, reading_quoteAll]
  simp only [Glob.matches_lits]

/-- A quoted star at the end lets everything match that begins with a star. -/
theorem quoted_star : ircMatch ['\\', '*'] ['*', 'a'] = true ∧ Unlimited ['\\', '*'] ['*', 'a'] true ∧
    ¬Matches SameChar (reading ['\\', '*']) ['*', 'a'] := by
  refine ⟨by decide, ⟨4, rfl⟩, ?_⟩
  rw [← Glob.run_iff]
  decide

theorem escapes_iff_nick :
    (Escapes ['\\', '[', '\\', '*'] ↔ KeepsQuotes ['\\', '[', '\\', '*']) ∧
      ∀ s, ['\\', '[', '\\', '*'] = quoteAll s →
        ((∀ name, '\x00' ∉ name → (Unlimited ['\\', '[', '\\', '*'] name true ↔ List.Forall₂ SameChar s name)) ↔
          s.getLast? ≠ some '*') :=
  escapes_iff _ (by decide)

end Ircd.Match
