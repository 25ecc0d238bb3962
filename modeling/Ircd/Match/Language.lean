import Ircd.Hostmask.Lookup
import Ircd.Match.Scan

/-!
# What a mask stands for

The wildcard pattern that a mask with backslashes stands for (`reading`), and the masks on which `match` keeps to it.
When it goes back to the last star it has forgotten whether the character there was quoted, and at the end of the
mask it takes a quoted star for a wildcard.
-/
namespace Ircd.Match

open Chan
open Hostmask (SameChar tokenOf)

/-! ### Reading a mask -/

/-- A backslash quotes the next character. -/
def reading : List Char → List (Glob.Token Char)
  | [] => []
  | ['\\'] => []
  | '\\' :: c :: m => .lit c :: reading m
  | c :: m => tokenOf c :: reading m

/-- Every backslash has a character to quote. -/
def complete : List Char → Bool
  | [] => true
  | ['\\'] => false
  | '\\' :: _ :: m => complete m
  | _ :: m => complete m

/-- What begins with a quoted character means the same if nothing quotes that: backslashes in pairs, and then a
character that is not special. -/
def rejoins : List Char → Bool
  | [] => false
  | ['\\'] => false
  | '\\' :: '\\' :: m => rejoins m
  | '\\' :: _ => false
  | c :: _ => c != '*' && c != '?'

/-- Behind a star, the mask may begin with a quoted character only if that may be forgotten. -/
def behindStar : List Char → Bool
  | '\\' :: m => rejoins m
  | _ => true

/-- Whoever goes back to a star may forget what is quoted behind it. -/
def restarts : List Char → Bool
  | [] => true
  | ['\\'] => true
  | '\\' :: _ :: m => restarts m
  | '*' :: m => behindStar m && restarts m
  | _ :: m => restarts m

/-- The mask ends with a quoted star and question marks. -/
def quotedEnd : List Char → Bool
  | [] => false
  | ['\\'] => false
  | '\\' :: '*' :: m => m.all (· == '?') || quotedEnd m
  | '\\' :: _ :: m => quotedEnd m
  | _ :: m => quotedEnd m

/-- A mask that can be read on from here. -/
structure Sound (m : List Char) : Prop where
  complete : complete m = true
  restarts : restarts m = true

/-- The token of a character that is quoted or not. -/
def tokenAt (quoted : Bool) (c : Char) : Glob.Token Char := if quoted = false ∧ c = '?' then .any else .lit c

theorem tokenAt_ne_star (quoted : Bool) (c : Char) : tokenAt quoted c ≠ .star := by
  unfold tokenAt
  split <;> exact fun h => by cases h

theorem tokenOf_eq {c : Char} (star : c ≠ '*') : tokenOf c = tokenAt false c := by
  simp [tokenOf, tokenAt, star]

section

variable {c : Char} {m : List Char}

theorem reading_cons (plain : c ≠ '\\') (m : List Char) : reading (c :: m) = tokenOf c :: reading m := by
  cases m <;> simp [reading, plain]

theorem complete_cons (plain : c ≠ '\\') (m : List Char) : complete (c :: m) = complete m := by
  cases m <;> simp [complete, plain]

theorem restarts_cons (plain : c ≠ '\\') (star : c ≠ '*') (m : List Char) : restarts (c :: m) = restarts m := by
  cases m <;> simp [restarts, plain]

theorem restarts_star (m : List Char) : restarts ('*' :: m) = (behindStar m && restarts m) := by
  cases m <;> rfl

theorem quotedEnd_cons (plain : c ≠ '\\') (m : List Char) : quotedEnd (c :: m) = quotedEnd m := by
  cases m <;> simp [quotedEnd, plain]

theorem rejoins_cons (plain : c ≠ '\\') (m : List Char) : rejoins (c :: m) = (c != '*' && c != '?') := by
  cases m <;> simp [rejoins, plain]

/-- The ways in which a mask may begin. -/
@[elab_as_elim]
theorem mask_induction {motive : List Char → Prop} (nil : motive []) (lone : motive ['\\'])
    (quoted : ∀ c m, motive m → motive ('\\' :: c :: m)) (star : ∀ m, motive m → motive ('*' :: m))
    (char : ∀ c m, c ≠ '\\' → c ≠ '*' → motive m → motive (c :: m)) : ∀ m, motive m
  | [] => nil
  | [c] => by
    by_cases backslash : c = '\\'
    · exact backslash ▸ lone
    · by_cases first : c = '*'
      · exact first ▸ star [] nil
      · exact char c [] backslash first nil
  | c :: d :: m => by
    by_cases backslash : c = '\\'
    · exact backslash ▸ quoted d m (mask_induction nil lone quoted star char m)
    · have inner := mask_induction nil lone quoted star char (d :: m)
      by_cases first : c = '*'
      · exact first ▸ star (d :: m) inner
      · exact char c (d :: m) backslash first inner

/-- A character that is not special means the same with a backslash. -/
theorem reading_of_plain (backslash : c ≠ '\\') (joined : rejoins (c :: m) = true) (sound : Sound m) :
    reading (c :: m) = .lit c :: reading m ∧ Sound (c :: m) ∧ c ≠ '*' ∧ c ≠ '?' := by
  rw [rejoins_cons backslash, Bool.and_eq_true, bne_iff_ne, bne_iff_ne] at joined
  refine ⟨?_, ⟨?_, ?_⟩, joined⟩
  · rw [reading_cons backslash, tokenOf, if_neg joined.1, if_neg joined.2]
  · rw [complete_cons backslash]
    exact sound.complete
  · rw [restarts_cons backslash joined.1]
    exact sound.restarts

/-- Whether the first character is quoted does not matter to what rejoins. -/
theorem reading_of_rejoins (c : Char) : ∀ m : List Char, rejoins (c :: m) = true → Sound m →
    reading (c :: m) = .lit c :: reading m ∧ Sound (c :: m) ∧ c ≠ '*' ∧ c ≠ '?'
  | [], joined, sound => by
    by_cases backslash : c = '\\'
    · subst backslash
      cases joined
    · exact reading_of_plain backslash joined sound
  | [d], joined, sound => by
    by_cases backslash : c = '\\'
    · subst backslash
      by_cases pair : d = '\\'
      · subst pair
        cases joined
      · simp [rejoins, pair] at joined
    · exact reading_of_plain backslash joined sound
  | d :: x :: m, joined, sound => by
    by_cases backslash : c = '\\'
    · subst backslash
      by_cases pair : d = '\\'
      · subst pair
        obtain ⟨same, whole, -⟩ := reading_of_rejoins x m joined ⟨sound.complete, sound.restarts⟩
        exact ⟨congrArg (_ :: ·) same, ⟨whole.complete, whole.restarts⟩, by decide, by decide⟩
      · simp [rejoins, pair] at joined
    · exact reading_of_plain backslash joined sound

/-- The stars are one star. -/
theorem reading_dropStars (m : List Char) :
    ∃ k, reading m = List.replicate k .star ++ reading (dropStars m) := by
  induction m with
  | nil => exact ⟨0, rfl⟩
  | cons c m ih =>
    by_cases star : c = '*'
    · subst star
      obtain ⟨k, same⟩ := ih
      refine ⟨k + 1, ?_⟩
      rw [reading_cons (by decide), same, List.replicate_succ]
      rfl
    · refine ⟨0, ?_⟩
      simp [dropStars, star]

theorem matches_dropStars (m : List Char) (s : List Char) :
    Glob.Matches SameChar (.star :: reading m) s ↔ Glob.Matches SameChar (.star :: reading (dropStars m)) s := by
  obtain ⟨k, same⟩ := reading_dropStars m
  rw [same]
  clear same
  induction k with
  | zero => rfl
  | succ k ih => rw [List.replicate_succ, List.cons_append, Glob.matches_star_star, ih]

/-- What the matcher finds behind stars. -/
theorem sound_dropStars (sound : Sound ('*' :: m)) :
    Sound (dropStars m) ∧ behindStar (dropStars m) = true ∧ ∀ r, dropStars m ≠ '*' :: r := by
  induction m with
  | nil => exact ⟨⟨rfl, rfl⟩, rfl, fun r h => by cases h⟩
  | cons c m ih =>
    have complete := (complete_cons (by decide) _).symm.trans sound.complete
    obtain ⟨behind, restarts⟩ := Bool.and_eq_true_iff.mp sound.restarts
    by_cases star : c = '*'
    · subst star
      exact ih ⟨complete, restarts⟩
    · have here : dropStars (c :: m) = c :: m := by simp [dropStars, star]
      rw [here]
      exact ⟨⟨complete, restarts⟩, behind, fun r h => star (List.cons.inj h).1⟩

/-! ### The end of the mask -/

/-- The search backwards passes over the question marks. -/
theorem backOverAny_iff (mask : List Char) : ∀ i ≤ mask.length,
    (charAt mask (backOverAny mask i) = '*' ∧ backOverAny mask i > 0 ↔
      ∃ before n, before ≠ [] ∧ mask.take i = before ++ '*' :: List.replicate n '?')
  | 0, _ => by simp [backOverAny]
  | i + 1, inside => by
    have last : mask.take (i + 1) = mask.take i ++ [charAt mask i] := by
      rw [List.take_add_one, charAt, List.getD_eq_getElem?_getD, List.getElem?_eq_getElem inside]
      rfl
    rw [backOverAny, last]
    split
    · next mark =>
      -- one more question mark
      rw [backOverAny_iff mask i (Nat.le_of_succ_le inside), mark.2]
      constructor
      · rintro ⟨before, n, some_, same⟩
        exact ⟨before, n + 1, some_, by simp [same, List.replicate_succ']⟩
      · rintro ⟨before, n, some_, same⟩
        cases n with
        | zero => simpa using (List.append_inj_right' same rfl)
        | succ n =>
          rw [List.replicate_succ', ← List.cons_append, ← List.append_assoc] at same
          exact ⟨before, n, some_, List.append_inj_left' same rfl⟩
    · next mark =>
      constructor
      · rintro ⟨star, positive⟩
        refine ⟨mask.take i, 0, ?_, by rw [star]; rfl⟩
        rw [Ne, List.take_eq_nil_iff]
        rintro (rfl | rfl)
        · exact Nat.lt_irrefl 0 positive
        · exact absurd inside (Nat.not_succ_le_zero i)
      · rintro ⟨before, n, some_, same⟩
        cases n with
        | zero =>
          have start : mask.take i = before := List.append_inj_left' same rfl
          have star : [charAt mask i] = ['*'] := List.append_inj_right' same rfl
          refine ⟨(List.cons.inj star).1, Nat.pos_of_ne_zero ?_⟩
          rintro rfl
          exact some_ start.symm
        | succ n =>
          rw [List.replicate_succ', ← List.cons_append, ← List.append_assoc] at same
          have start := List.append_inj_left' same rfl
          have question := List.append_inj_right' same rfl
          refine absurd ⟨Nat.pos_of_ne_zero ?_, (List.cons.inj question).1⟩ mark
          rintro rfl
          simp at start

theorem openEnd_iff (mask : List Char) :
    openEnd mask = true ↔ ∃ before n, before ≠ [] ∧ mask = before ++ '*' :: List.replicate n '?' := by
  rw [openEnd, decide_eq_true_iff, backOverAny_iff mask _ (Nat.le_refl _), List.take_length]

theorem reading_anys (n : ℕ) : reading (List.replicate n '?') = List.replicate n .any := by
  induction n with
  | zero => rfl
  | succ n ih =>
    rw [List.replicate_succ, reading_cons (by decide), ih]
    rfl

/-- Unless the star is quoted, the mask ends so for `reading` as well. -/
theorem reading_openEnd (n : ℕ) : ∀ before : List Char,
    quotedEnd (before ++ '*' :: List.replicate n '?') = false →
    ∃ front, reading (before ++ '*' :: List.replicate n '?') = front ++ .star :: List.replicate n .any
  | [], _ => by
    refine ⟨[], ?_⟩
    rw [List.nil_append, reading_cons (by decide), reading_anys]
    rfl
  | [c], plain => by
    by_cases backslash : c = '\\'
    · subst backslash
      simp [quotedEnd] at plain
    · refine ⟨[tokenOf c], ?_⟩
      rw [List.singleton_append, reading_cons backslash, reading_cons (by decide), reading_anys]
      rfl
  | c :: d :: before, plain => by
    by_cases backslash : c = '\\'
    · subst backslash
      have inner : quotedEnd (before ++ '*' :: List.replicate n '?') = false := by
        by_cases star : d = '*'
        · subst star
          exact (Bool.or_eq_false_iff.mp plain).2
        · simpa [quotedEnd, star] using plain
      obtain ⟨front, same⟩ := reading_openEnd n before inner
      exact ⟨.lit d :: front, congrArg (_ :: ·) same⟩
    · rw [List.cons_append, quotedEnd_cons backslash] at plain
      obtain ⟨front, same⟩ := reading_openEnd n (d :: before) plain
      exact ⟨tokenOf c :: front, by rw [List.cons_append, reading_cons backslash, same]; rfl⟩

end

end Ircd.Match
