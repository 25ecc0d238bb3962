import Ircd.Match.Collapse
import Mathlib.Data.List.Chain

/-!
# Names that tell a mask from the collapsed one

Where something is lost (`kept`), there is a name that the matcher takes for one of the two masks and not for the other. It
leads to the lost star by the shortest way, with a character there that makes the matcher go back.
-/
namespace Ircd.Match

open Chan
open Hostmask (SameChar tokenOf)

/-! ### Ways to an answer -/

/-- Where the matcher is when it has gone back. -/
def anew (m n : List Char) : Scan := ⟨m, n, m, n, true, false⟩

/-- Wherever the matcher could go back to, it says yes to the name in this case. -/
def Decides (open_ : Bool) (yes : Prop) (m n : List Char) : Prop :=
  ∀ ma na wild, Machine.Ends (Scan.step open_) ⟨m, n, ma, na, wild, false⟩ true ↔ yes

section

variable {open_ : Bool} {yes : Prop} {c d : Char} {m n ma na : List Char} {wild : Bool}

theorem ends_step_iff {s t : Scan} (here : s.step open_ = .inl t) :
    Machine.Ends (Scan.step open_) s true ↔ Machine.Ends (Scan.step open_) t true :=
  ⟨fun ends => ends.after_step here, fun ends => ends.before_step here⟩

theorem ends_same_iff {s t : Scan} (same : s.step open_ = t.step open_) :
    Machine.Ends (Scan.step open_) s true ↔ Machine.Ends (Scan.step open_) t true :=
  ⟨fun ends => ends.of_same same.symm, fun ends => ends.of_same same⟩

theorem quoted_iff (fits : SameChar c d) :
    Machine.Ends (Scan.step open_) ⟨'\\' :: c :: m, d :: n, ma, na, wild, false⟩ true ↔
      Machine.Ends (Scan.step open_) ⟨m, n, ma, na, wild, false⟩ true := by
  have fits : (tokenAt true c).Fits SameChar d := fits
  have step : Scan.step open_ ⟨c :: m, d :: n, ma, na, wild, true⟩ = .inl ⟨m, n, ma, na, wild, false⟩ :=
    rest_char open_ fits ma na wild true
  rw [ends_step_iff (t := ⟨c :: m, d :: n, ma, na, wild, true⟩) rfl, ends_step_iff step]

theorem char_iff (backslash : c ≠ '\\') (star : c ≠ '*') (fits : (tokenOf c).Fits SameChar d) :
    Machine.Ends (Scan.step open_) ⟨c :: m, d :: n, ma, na, wild, false⟩ true ↔
      Machine.Ends (Scan.step open_) ⟨m, n, ma, na, wild, false⟩ true := by
  rw [tokenOf_eq star] at fits
  exact ends_step_iff ((step_char backslash star _ ma na wild).trans (rest_char open_ fits ma na wild false))

/-- A quoted character that does not fit. -/
theorem quoted_back_iff (differ : ¬SameChar c d) :
    Machine.Ends (Scan.step open_) ⟨'\\' :: c :: m, d :: n, ma, na, true, false⟩ true ↔
      Machine.Ends (Scan.step open_) (anew ma na.tail) true := by
  have wrong : toLower c ≠ toLower d := differ
  have step : Scan.step open_ ⟨c :: m, d :: n, ma, na, true, true⟩ = .inl (anew ma na.tail) := by
    simp [Scan.step, Scan.rest, Scan.compare, front, wrong, anew]
  rw [ends_step_iff (t := ⟨c :: m, d :: n, ma, na, true, true⟩) rfl, ends_step_iff step]

/-- A character that does not fit. -/
theorem char_back_iff (backslash : c ≠ '\\') (star : c ≠ '*') (mark : c ≠ '?') (differ : ¬SameChar c d) :
    Machine.Ends (Scan.step open_) ⟨c :: m, d :: n, ma, na, true, false⟩ true ↔
      Machine.Ends (Scan.step open_) (anew ma na.tail) true := by
  have wrong : toLower c ≠ toLower d := differ
  refine ends_step_iff ((step_char backslash star _ ma na true).trans ?_)
  simp [Scan.rest, Scan.compare, front, wrong, mark, anew]

/-- Stars before what begins with no backslash. -/
theorem star_iff (plain : front (dropStars m) ≠ '\\') :
    Machine.Ends (Scan.step open_) ⟨'*' :: m, n, ma, na, wild, false⟩ true ↔
      Machine.Ends (Scan.step open_) (anew (dropStars m) n) true := by
  refine ends_same_iff ?_
  rw [anew, step_plain plain (dropStars_front m)]
  change Scan.star open_ n (dropStars m) = _
  rw [Scan.star, if_neg plain]

/-- Stars before a quoted character that does not fit. -/
theorem star_back_iff {u : List Char} (here : dropStars m = '\\' :: c :: u) (differ : ¬SameChar c d) :
    Machine.Ends (Scan.step open_) ⟨'*' :: m, d :: n, ma, na, wild, false⟩ true ↔
      Machine.Ends (Scan.step open_) (anew (c :: u) n) true := by
  have wrong : toLower c ≠ toLower d := differ
  refine ends_step_iff ?_
  change Scan.star open_ (d :: n) (dropStars m) = _
  rw [here]
  simp [Scan.star, Scan.rest, Scan.compare, front, wrong, anew]

theorem Decides.quoted (fits : SameChar c d) (decides : Decides open_ yes m n) :
    Decides open_ yes ('\\' :: c :: m) (d :: n) :=
  fun ma na wild => (quoted_iff fits).trans (decides ma na wild)

theorem Decides.char (backslash : c ≠ '\\') (star : c ≠ '*') (fits : (tokenOf c).Fits SameChar d)
    (decides : Decides open_ yes m n) : Decides open_ yes (c :: m) (d :: n) :=
  fun ma na wild => (char_iff backslash star fits).trans (decides ma na wild)

/-- A star takes nothing. -/
theorem Decides.star (more : m ≠ ['\\']) (decides : Decides open_ yes m n) : Decides open_ yes ('*' :: m) n := by
  intro ma na wild
  by_cases star : front m = '*'
  · obtain ⟨m, rfl⟩ := eq_cons_of_front star (by decide)
    refine (ends_same_iff ?_).trans (decides ma na wild)
    rfl
  · by_cases backslash : front m = '\\'
    · obtain ⟨t, rfl⟩ := eq_cons_of_front backslash (by decide)
      cases t with
      | nil => exact absurd rfl more
      | cons c u =>
        -- the backslash is taken in the same round
        have inner := @ends_step_iff open_ ⟨'\\' :: c :: u, n, c :: u, n, true, false⟩
          ⟨c :: u, n, c :: u, n, true, true⟩ rfl
        refine (ends_same_iff ?_).trans (inner.symm.trans (decides _ _ _))
        rfl
    · have same := dropStars_of_front star
      rw [star_iff (same.symm ▸ backslash), same]
      exact decides _ _ _

/-! ### The way to the lost star -/

/-- Pairs of backslashes. -/
def pairs : ℕ → List Char → List Char
  | 0, m => m
  | k + 1, m => '\\' :: '\\' :: pairs k m

/-- Before a star that is lost: the text behind the stars there, as the matcher reads it. -/
def Lost (r : List Char) : Prop := r = ['\\'] ∨ marksEnd r = false ∧ need true r ≠ ⊤

/-- A quoted character behind the backslash of a star. -/
theorem keptBack_quoted (star : d ≠ '*') (backslash : d ≠ '\\') (m : List Char) : keptBack false ('\\' :: d :: m) = true := by
  unfold keptBack
  split <;> simp_all

theorem keptBack_one_star (star : front m ≠ '*') : keptBack false ('\\' :: '*' :: m) = true := by
  cases m with
  | nil => rfl
  | cons d m =>
    have other : d ≠ '*' := star
    unfold keptBack
    split <;> simp_all

theorem keptBack_char (star : c ≠ '*') (backslash : c ≠ '\\') (m : List Char) : keptBack false (c :: m) = true := by
  unfold keptBack
  split <;> simp_all

theorem exists_lost : ∀ t : List Char, keptBack false t = false →
    ∃ k, (∃ w, t = pairs k ('\\' :: '*' :: '*' :: w) ∧ Lost (dropStars w)) ∨
      ∃ v, t = pairs k ('*' :: v) ∧ keptBack true v = false
  | [], lost => by cases lost
  | [c], lost => by
    by_cases star : c = '*'
    · subst star
      exact ⟨0, .inr ⟨[], rfl, lost⟩⟩
    · by_cases backslash : c = '\\'
      · subst backslash
        cases lost
      · rw [keptBack_char star backslash] at lost
        cases lost
  | c :: d :: t, lost => by
    by_cases star : c = '*'
    · subst star
      exact ⟨0, .inr ⟨d :: t, rfl, lost⟩⟩
    by_cases backslash : c = '\\'
    swap
    · rw [keptBack_char star backslash] at lost
      cases lost
    subst backslash
    by_cases pair : d = '\\'
    · subst pair
      obtain ⟨k, ⟨w, rfl, here⟩ | ⟨v, rfl, here⟩⟩ := exists_lost t lost
      · exact ⟨k + 1, .inl ⟨w, rfl, here⟩⟩
      · exact ⟨k + 1, .inr ⟨v, rfl, here⟩⟩
    by_cases quoted : d = '*'
    swap
    · rw [keptBack_quoted quoted pair] at lost
      cases lost
    subst quoted
    by_cases more : front t = '*'
    swap
    · rw [keptBack_one_star more] at lost
      cases lost
    obtain ⟨w, rfl⟩ := eq_cons_of_front more (by decide)
    refine ⟨0, .inl ⟨w, rfl, ?_⟩⟩
    have lost : (dropStars w != ['\\'] && (marksEnd (dropStars w) || need true w == ⊤)) = false := lost
    rw [Bool.and_eq_false_iff, Bool.or_eq_false_iff, bne_eq_false_iff_eq, beq_eq_false_iff_ne, need_dropStars] at lost
    exact lost

/-- What `collapse` leaves of a mask whose first character is quoted. -/
def collapseBack : List Char → List Char
  | [] => []
  | c :: u => c :: collapse u

theorem collapseBack_pairs (k : ℕ) (m : List Char) : collapseBack (pairs k m) = pairs k (collapseBack m) := by
  induction k with
  | zero => rfl
  | succ k ih =>
    rw [pairs, pairs, ← ih, collapseBack]
    cases pairs k m with
    | nil => rfl
    | cons e w => rw [collapse_quoted]; rfl

/-- Each pair is a backslash. -/
theorem pairs_iff (k : ℕ) :
    Machine.Ends (Scan.step open_) ⟨pairs k m, List.replicate k '\\' ++ n, ma, na, wild, false⟩ true ↔
      Machine.Ends (Scan.step open_) ⟨m, n, ma, na, wild, false⟩ true := by
  induction k with
  | zero => rfl
  | succ k ih => exact (quoted_iff rfl).trans ih

theorem need_pairs (k : ℕ) (m : List Char) : need false (pairs k m) = need false m + k := by
  induction k with
  | zero => simp [pairs]
  | succ k ih => rw [pairs, need_quoted, ih, Nat.cast_add, Nat.cast_one, add_assoc]

/-- After fewer backslashes comes something else. -/
theorem pairs_back_iff {k l : ℕ} (fewer : l ≤ k) (differ : ¬SameChar '\\' d) (more : l = k → ¬SameChar c d) :
    Machine.Ends (Scan.step open_) ⟨pairs k ('\\' :: c :: m), List.replicate l '\\' ++ d :: n, ma, na, true, false⟩ true ↔
      Machine.Ends (Scan.step open_) (anew ma na.tail) true := by
  obtain ⟨rest, rfl⟩ := Nat.exists_eq_add_of_le fewer
  have split_ : pairs (l + rest) ('\\' :: c :: m) = pairs l (pairs rest ('\\' :: c :: m)) := by
    clear fewer more
    induction l with
    | zero => rw [Nat.zero_add]; rfl
    | succ l ih => rw [Nat.add_right_comm, pairs, pairs, ih]
  rw [split_, pairs_iff]
  cases rest with
  | zero => exact quoted_back_iff (more rfl)
  | succ rest => exact quoted_back_iff differ

/-- Where the matcher has read the star as a character. -/
theorem landing_iff (k : ℕ) (q : List Char) :
    Machine.Ends (Scan.step open_) (anew (pairs k ('\\' :: '*' :: m)) (List.replicate k '\\' ++ '*' :: q)) true ↔
      Machine.Ends (Scan.step open_) ⟨m, q, pairs k ('\\' :: '*' :: m), List.replicate k '\\' ++ '*' :: q, true, false⟩ true :=
  (pairs_iff k).trans (quoted_iff rfl)

/-- It is not read so again before what comes behind it. -/
theorem skip_iff (k : ℕ) {f : Char} (plain : ¬SameChar '\\' f) (star : ¬SameChar '*' f) (q : List Char) :
    Machine.Ends (Scan.step open_) (anew (pairs k ('\\' :: '*' :: m)) (List.replicate k '\\' ++ '*' :: f :: q).tail) true ↔
      Machine.Ends (Scan.step open_) (anew (pairs k ('\\' :: '*' :: m)) q) true := by
  have last : Machine.Ends (Scan.step open_) (anew (pairs k ('\\' :: '*' :: m)) (f :: q)) true ↔
      Machine.Ends (Scan.step open_) (anew (pairs k ('\\' :: '*' :: m)) q) true :=
    pairs_back_iff (l := 0) (Nat.zero_le k) plain fun _ => star
  have before (l : ℕ) (fewer : l < k) :
      Machine.Ends (Scan.step open_) (anew (pairs k ('\\' :: '*' :: m)) (List.replicate l '\\' ++ '*' :: f :: q)) true ↔
        Machine.Ends (Scan.step open_) (anew (pairs k ('\\' :: '*' :: m)) (f :: q)) true := by
    have back (l : ℕ) (fewer : l < k) := @pairs_back_iff open_ '*' '*' m (f :: q) (pairs k ('\\' :: '*' :: m))
      (List.replicate l '\\' ++ '*' :: f :: q) k l fewer.le (by decide) fun same => absurd same fewer.ne
    induction l with
    | zero => exact back 0 fewer
    | succ l ih => exact (back (l + 1) fewer).trans (ih (Nat.lt_of_succ_lt fewer))
  cases k with
  | zero => exact last
  | succ k => exact (before k (Nat.lt_succ_self k)).trans last

/-! ### A name -/

/-- A name that is taken for one of the masks only, wherever the matcher could go back to. -/
def Apart (open_ : Bool) (m m' : List Char) : Prop :=
  ∃ n yes, Decides open_ yes m n ∧ Decides open_ (¬yes) m' n ∧ ('\x00' ∉ m → '\x00' ∉ n)

/-- The same where it has gone back to the masks. -/
def ApartAnew (open_ : Bool) (m m' : List Char) : Prop :=
  ∃ n yes, (Machine.Ends (Scan.step open_) (anew m n) true ↔ yes) ∧
    (Machine.Ends (Scan.step open_) (anew m' n) true ↔ ¬yes) ∧ ('\x00' ∉ m → '\x00' ∉ n)

theorem Shortest.taken {length : ℕ∞} {m n : List Char} (short : Shortest open_ length m n) (ma na : List Char) (wild : Bool) :
    Machine.Ends (Scan.step open_) ⟨m, n, ma, na, wild, false⟩ true :=
  short.2.1 ma na wild

theorem mem_pairs {k : ℕ} {x : Char} (inside : x ∈ m) : x ∈ pairs k m := by
  induction k with
  | zero => exact inside
  | succ k ih => exact List.mem_cons_of_mem _ (List.mem_cons_of_mem _ ih)

/-- A name without NUL, from the pieces. -/
theorem clean_name {k : ℕ} {q : List Char} (clean : '\x00' ∉ q) : '\x00' ∉ List.replicate k '\\' ++ '*' :: q := by
  intro inside
  obtain inside | inside := List.mem_append.mp inside
  · exact absurd (List.eq_of_mem_replicate inside) (by decide)
  · obtain nul | inside := List.mem_cons.mp inside
    · exact absurd nul (by decide)
    · exact clean inside

/-- A backslash at the end of the mask: with the star before it no name is taken, without it there is one. -/
theorem apart_lone (k : ℕ) {w : List Char} (lone : dropStars w = ['\\']) :
    ApartAnew open_ (pairs k ('\\' :: '*' :: '*' :: w)) (pairs k ('\\' :: '*' :: collapse (dropStars w))) := by
  refine ⟨List.replicate k '\\' ++ ['*'], False, ?_, ?_, fun _ => clean_name List.not_mem_nil⟩
  · rw [landing_iff, iff_false]
    intro ends
    have stuck (na : List Char) : Scan.step open_ ⟨'*' :: w, [], pairs k ('\\' :: '*' :: '*' :: w), na, true, false⟩ = .inr false := by
      change Scan.star open_ [] (dropStars w) = _
      rw [lone]
      rfl
    have never := ends.unique (.of_inr (stuck _))
    cases never
  · rw [landing_iff, lone, not_false_eq_true, iff_true]
    exact Machine.Ends.before_step (.of_inr rfl) rfl

/-- The name is too short for the collapsed mask. -/
theorem short_of_lost {length a : ℕ∞} (k : ℕ) (n : List Char) (same : n.length = length) (fits : length ≤ a) :
    (n.length : ℕ∞) < a + 1 + k := by
  rw [← same] at fits
  induction a using ENat.recTopCoe with
  | top => exact ENat.natCast_lt_top _
  | coe a =>
    norm_cast at fits ⊢
    omega

/-- Before a quoted character. -/
theorem apart_quoted (k : ℕ) {w y : List Char} (here : dropStars w = '\\' :: c :: y) (keep : kept (dropStars w) = true)
    (alive : need true (dropStars w) ≠ ⊤) :
    ApartAnew open_ (pairs k ('\\' :: '*' :: '*' :: w)) (pairs k ('\\' :: '*' :: collapse (dropStars w))) := by
  rw [here] at keep alive
  have rest : need false (collapse y) = need false y := need_collapse keep
  have inside : ∀ x ∈ '\\' :: c :: y, x ∈ pairs k ('\\' :: '*' :: '*' :: w) := by
    intro x there
    refine mem_pairs (List.mem_cons_of_mem _ (List.mem_cons_of_mem _ (List.mem_cons_of_mem _ ?_)))
    exact (List.dropWhile_sublist _).mem (here.symm ▸ there : x ∈ dropStars w)
  obtain ⟨f, differ, star, plain, real⟩ := exists_other c
  rw [here, collapse_quoted]
  by_cases dead : need false (c :: y) = ⊤
  · -- without the quote no name is taken, so that only the collapsed mask finds it further on
    have finite : need false (collapse y) ≠ ⊤ := by
      rw [need_quote, dead, top_add, min_eq_left le_top] at alive
      rw [rest]
      exact ne_top_of_le_ne_top alive le_self_add
    obtain ⟨n, short⟩ : ∃ n, Shortest open_ (need false (collapse y)) (collapse y) n := exists_shortest false _ finite
    refine ⟨List.replicate k '\\' ++ '*' :: f :: (List.replicate k '\\' ++ '*' :: c :: n), False, ?_, ?_, fun clean => ?_⟩
    · rw [landing_iff, star_back_iff here differ, iff_false]
      exact not_ends_of_dead dead
    · rw [landing_iff, quoted_back_iff differ, skip_iff k plain star, landing_iff, quoted_iff rfl, not_false_eq_true, iff_true]
      exact short.taken _ _ _
    · have c_real : '\x00' ≠ c := fun nul => clean (nul ▸ inside c (List.mem_cons_of_mem _ List.mem_cons_self))
      have n_real : '\x00' ∉ n := short.2.2 fun nul =>
        clean (inside _ (List.mem_cons_of_mem _ (List.mem_cons_of_mem _ ((collapse_sublist y).mem nul))))
      exact clean_name (List.not_mem_cons_of_ne_of_not_mem real.symm (clean_name (List.not_mem_cons_of_ne_of_not_mem c_real n_real)))
  · obtain ⟨n, short⟩ : ∃ n, Shortest open_ (need false (c :: y)) (c :: y) n := exists_shortest false _ dead
    refine ⟨List.replicate k '\\' ++ '*' :: f :: n, True, ?_, ?_, fun clean => ?_⟩
    · rw [landing_iff, star_back_iff here differ, iff_true]
      exact short.taken _ _ _
    · rw [landing_iff, quoted_back_iff differ, skip_iff k plain star, not_true_eq_false, iff_false]
      refine not_ends_of_short ?_
      rw [need_pairs, need_quoted, need_quoted, rest]
      exact short_of_lost k n short.1 (((need_cons_le y).2 c).resolve_right dead)
    · exact clean_name (List.not_mem_cons_of_ne_of_not_mem real.symm
        (short.2.2 fun nul => clean (inside _ (List.mem_cons_of_mem _ nul))))

/-- The mask asks for this character first. -/
inductive AsksFirst (c : Char) : List Char → Prop
  | plain {m : List Char} : c ≠ '\\' → c ≠ '*' → c ≠ '?' → AsksFirst c (c :: m)
  | quoted {m : List Char} : AsksFirst c ('\\' :: c :: m)

theorem AsksFirst.back_iff (asks : AsksFirst c m) (differ : ¬SameChar c d) :
    Machine.Ends (Scan.step open_) ⟨m, d :: n, ma, na, true, false⟩ true ↔
      Machine.Ends (Scan.step open_) (anew ma na.tail) true := by
  cases asks with
  | plain backslash star mark => exact char_back_iff backslash star mark differ
  | quoted => exact quoted_back_iff differ

theorem AsksFirst.collapse (asks : AsksFirst c m) : AsksFirst c (Chan.collapse m) := by
  cases asks with
  | plain backslash star mark =>
    rw [collapse_char backslash star]
    exact .plain backslash star mark
  | quoted =>
    rw [collapse_quoted]
    exact .quoted

/-- Question marks, and then a character that is asked for. -/
theorem exists_asked (more : marksEnd m = false) :
    ∃ j x c, m = List.replicate j '?' ++ x ∧ AsksFirst c x := by
  induction m with
  | nil => cases more
  | cons c m ih =>
    by_cases mark : c = '?'
    · subst mark
      obtain ⟨j, x, c, rfl, asks⟩ := ih (by cases m <;> exact more)
      exact ⟨j + 1, x, c, rfl, asks⟩
    · by_cases star : c = '*'
      · subst star
        cases m <;> cases more
      · by_cases backslash : c = '\\'
        · subst backslash
          cases m with
          | nil => cases more
          | cons d m => exact ⟨0, _, d, rfl, .quoted⟩
        · exact ⟨0, _, c, rfl, .plain backslash star mark⟩

theorem marks_iff (j : ℕ) (g : Char) :
    Machine.Ends (Scan.step open_) ⟨List.replicate j '?' ++ m, List.replicate j g ++ n, ma, na, wild, false⟩ true ↔
      Machine.Ends (Scan.step open_) ⟨m, n, ma, na, wild, false⟩ true := by
  have any : (tokenOf '?').Fits SameChar g := trivial
  induction j with
  | zero => rfl
  | succ j ih => exact (char_iff (by decide) (by decide) any).trans ih

theorem collapse_replicate (j : ℕ) (m : List Char) :
    Chan.collapse (List.replicate j '?' ++ m) = List.replicate j '?' ++ Chan.collapse m := by
  induction j with
  | zero => rfl
  | succ j ih =>
    rw [List.replicate_succ, List.cons_append, collapse_char (by decide) (by decide), ih]
    rfl

theorem need_replicate (j : ℕ) (m : List Char) : need false (List.replicate j '?' ++ m) = need false m + j := by
  induction j with
  | zero => simp
  | succ j ih =>
    rw [List.replicate_succ, List.cons_append, need_char (by decide) (by decide), ih, Nat.cast_add, Nat.cast_one, add_assoc]

/-- Before question marks and a character that is asked for. -/
theorem apart_marks (k : ℕ) {w : List Char} (plain : front (dropStars w) ≠ '\\') (more : marksEnd (dropStars w) = false)
    (keep : kept (dropStars w) = true) (alive : need true (dropStars w) ≠ ⊤) :
    ApartAnew open_ (pairs k ('\\' :: '*' :: '*' :: w)) (pairs k ('\\' :: '*' :: collapse (dropStars w))) := by
  have rest := need_collapse keep
  rw [need_behind plain] at alive
  have inside : ∀ x ∈ dropStars w, x ∈ pairs k ('\\' :: '*' :: '*' :: w) := fun x there =>
    mem_pairs (List.mem_cons_of_mem _ (List.mem_cons_of_mem _ (List.mem_cons_of_mem _ ((List.dropWhile_sublist _).mem there))))
  obtain ⟨j, x, c, here, asks⟩ := exists_asked more
  obtain ⟨g, differ, star, backslash, real⟩ := exists_other c
  have finite : need false x ≠ ⊤ := by
    rw [here, need_replicate] at alive
    exact ne_top_of_le_ne_top alive le_self_add
  obtain ⟨n, short⟩ : ∃ n, Shortest open_ (need false x) x n := exists_shortest false x finite
  -- one character more than the question marks take
  have shifted : g :: (List.replicate j g ++ n) = List.replicate j g ++ g :: n := by
    rw [← List.cons_append, ← List.replicate_succ, List.replicate_succ', List.append_assoc]
    rfl
  have back {x : List Char} (asks : AsksFirst c x) (ma na : List Char) :
      Machine.Ends (Scan.step open_) ⟨List.replicate j '?' ++ x, g :: (List.replicate j g ++ n), ma, na, true, false⟩ true ↔
        Machine.Ends (Scan.step open_) (anew ma na.tail) true := by
    rw [shifted, marks_iff, asks.back_iff differ]
  refine ⟨List.replicate k '\\' ++ '*' :: g :: (List.replicate j g ++ n), True, ?_, ?_, fun clean => ?_⟩
  · rw [landing_iff, star_iff plain, iff_true, anew, here, back asks]
    exact (marks_iff j g).mpr (short.taken _ _ _)
  · have long : ((List.replicate j g ++ n).length : ℕ∞) = need false x + j := by
      rw [List.length_append, List.length_replicate, Nat.cast_add, short.1, add_comm]
    rw [landing_iff, here, collapse_replicate, back asks.collapse, skip_iff k backslash star, not_true_eq_false, iff_false]
    refine not_ends_of_short ?_
    rw [need_pairs, need_quoted, ← collapse_replicate, ← here, rest, here, need_replicate]
    exact short_of_lost k _ long le_rfl
  · have n_real : '\x00' ∉ n := short.2.2 fun nul => clean (inside _ (here ▸ List.mem_append_right _ nul))
    refine clean_name (List.not_mem_cons_of_ne_of_not_mem real.symm fun nul => ?_)
    obtain nul | nul := List.mem_append.mp nul
    · exact real (List.eq_of_mem_replicate nul).symm
    · exact n_real nul

theorem apart_lost (k : ℕ) {w : List Char} (lost : Lost (dropStars w)) (keep : kept (dropStars w) = true) :
    ApartAnew open_ (pairs k ('\\' :: '*' :: '*' :: w)) (pairs k ('\\' :: '*' :: collapse (dropStars w))) := by
  obtain lone | ⟨more, alive⟩ := lost
  · exact apart_lone k lone
  · by_cases backslash : front (dropStars w) = '\\'
    · obtain ⟨t, here⟩ := eq_cons_of_front backslash (by decide)
      cases t with
      | nil =>
        rw [here] at more
        cases more
      | cons c y => exact apart_quoted k here keep alive
    · exact apart_marks k backslash more keep alive

theorem kept_pairs (k : ℕ) (m : List Char) : kept (pairs k m) = kept m := by
  induction k with
  | zero => rfl
  | succ k ih => exact ih

theorem quote_pairs (k : ℕ) (m : List Char) : '\\' :: pairs k m = pairs k ('\\' :: m) := by
  induction k with
  | zero => rfl
  | succ k ih => rw [pairs, pairs, ih]

theorem length_pairs (k : ℕ) (m : List Char) : m.length ≤ (pairs k m).length := by
  induction k with
  | zero => exact Nat.le_refl _
  | succ k ih => exact ih.trans (Nat.le_add_right _ 2)

/-- The matcher goes back to where something is lost. -/
theorem Apart.of_anew {m m' u u' : List Char} (here : dropStars m = '\\' :: c :: u) (here' : dropStars m' = '\\' :: c :: u')
    (apart : ApartAnew open_ (c :: u) (c :: u')) : Apart open_ ('*' :: m) ('*' :: m') := by
  obtain ⟨n, yes, decides, decides', clean⟩ := apart
  obtain ⟨f, differ, -, -, real⟩ := exists_other c
  refine ⟨f :: n, yes, fun _ _ _ => (star_back_iff here differ).trans decides,
    fun _ _ _ => (star_back_iff here' differ).trans decides', fun whole => ?_⟩
  refine List.not_mem_cons_of_ne_of_not_mem real.symm (clean fun nul => whole (List.mem_cons_of_mem _ ?_))
  have within : '\x00' ∈ dropStars m := here ▸ List.mem_cons_of_mem _ nul
  exact (List.dropWhile_sublist _).mem within

theorem keptBack_of_plain (star : front m ≠ '*') (backslash : front m ≠ '\\') : keptBack true m = true := by
  cases m with
  | nil => rfl
  | cons c m =>
    have star : c ≠ '*' := star
    have backslash : c ≠ '\\' := backslash
    unfold keptBack
    split <;> simp_all

/-- Something is lost behind this star, where the matcher has gone back to it. -/
theorem apart_star {m m' : List Char} (behind : dropStars m' = collapse (dropStars m)) (keep : kept m = true)
    (lost : keptBack true m = false) : Apart open_ ('*' :: m) ('*' :: m') := by
  induction size : m.length using Nat.strong_induction_on generalizing m m' with
  | h size ih =>
    subst size
    have keep := kept_dropStars keep
    have short := dropStars_length m
    rw [← keptBack_dropStars] at lost
    have quote : front (dropStars m) = '\\' := by
      by_contra plain
      rw [keptBack_of_plain (dropStars_front m) plain] at lost
      cases lost
    obtain ⟨t, here⟩ := eq_cons_of_front quote (by decide)
    rw [here] at lost keep short behind
    cases t with
    | nil => cases lost
    | cons c u =>
      rw [collapse_quoted] at behind
      refine .of_anew here behind ?_
      change ApartAnew open_ (c :: u) (collapseBack (c :: u))
      obtain ⟨k, ⟨w, spelled, lost⟩ | ⟨v, spelled, lost⟩⟩ := exists_lost (c :: u) lost
      · rw [spelled, quote_pairs, kept_pairs] at keep
        have keep : kept ('*' :: '*' :: w) = true := keep
        rw [kept_star, kept_star, Bool.and_eq_true, Bool.and_eq_true] at keep
        have once : collapseBack ('\\' :: '*' :: '*' :: w) = '\\' :: '*' :: collapse (dropStars w) := by
          rw [collapseBack, collapse_star]
          rfl
        rw [spelled, collapseBack_pairs, once]
        exact apart_lost k lost (kept_dropStars keep.2.2)
      · -- another star, that only the matcher sees that has gone back
        rw [spelled, quote_pairs, kept_pairs] at keep
        have within := length_pairs k ('*' :: v)
        rw [← spelled] at within
        obtain ⟨n, yes, decides, decides', clean⟩ := ih v.length (by simp at within short; omega) (dropStars_collapse v) keep lost rfl
        rw [spelled, collapseBack_pairs]
        refine ⟨List.replicate k '\\' ++ n, yes, (pairs_iff k).trans (decides _ _ _), (pairs_iff k).trans (decides' _ _ _),
          fun whole nul => ?_⟩
        obtain nul | nul := List.mem_append.mp nul
        · exact absurd (List.eq_of_mem_replicate nul) (by decide)
        · exact clean (fun there => whole (mem_pairs there)) nul

theorem apart_of_lost (lost : kept m = false) : Apart open_ m (collapse m) := by
  induction m using mask_induction with
  | nil => cases lost
  | lone => cases lost
  | quoted c m ih =>
    obtain ⟨n, yes, decides, decides', clean⟩ := ih lost
    rw [collapse_quoted]
    refine ⟨c :: n, yes, decides.quoted rfl, decides'.quoted rfl, fun real => ?_⟩
    rw [List.mem_cons, not_or, List.mem_cons, not_or] at real
    exact List.not_mem_cons_of_ne_of_not_mem real.2.1 (clean real.2.2)
  | star m ih =>
    have same : dropStars (collapse (dropStars m)) = collapse (dropStars m) :=
      dropStars_of_front (front_collapse (dropStars m) ▸ dropStars_front m)
    rw [collapse_star]
    by_cases keep : kept m = true
    · rw [kept_star, keep, Bool.and_true] at lost
      exact apart_star same keep lost
    · obtain ⟨n, yes, decides, decides', clean⟩ := ih (Bool.eq_false_iff.mpr keep)
      have more : m ≠ ['\\'] := by
        rintro rfl
        exact keep rfl
      have more' : collapse m ≠ ['\\'] := by
        intro lone
        have backslash : front m = '\\' := (front_collapse m).symm.trans (congrArg front lone)
        obtain ⟨t, rfl⟩ := eq_cons_of_front backslash (by decide)
        cases t with
        | nil => exact more rfl
        | cons c u =>
          rw [collapse_quoted] at lone
          cases lone
      refine ⟨n, yes, decides.star more, fun ma na wild => ?_, fun real => clean fun nul => real (List.mem_cons_of_mem _ nul)⟩
      refine (ends_same_iff ?_).trans (decides'.star more' ma na wild)
      change Scan.star open_ n (dropStars (collapse (dropStars m))) = Scan.star open_ n (dropStars (collapse m))
      rw [same, dropStars_collapse]
  | char c m backslash star ih =>
    rw [kept_char backslash star] at lost
    obtain ⟨n, yes, decides, decides', clean⟩ := ih lost
    obtain ⟨d, fits, real⟩ := exists_fits star
    rw [collapse_char backslash star]
    refine ⟨d :: n, yes, decides.char backslash star fits, decides'.char backslash star fits, fun whole => ?_⟩
    rw [List.mem_cons, not_or] at whole
    exact List.not_mem_cons_of_ne_of_not_mem (real (Ne.symm whole.1)).symm (clean whole.2)

/-! ### What `collapse` keeps -/

/-- What is asked of a collapsed mask. -/
structure KeepsMask (mask : List Char) : Prop where
  names : ∀ name, '\x00' ∉ name → (Unlimited (collapse mask) name true ↔ Unlimited mask name true)
  short : (collapse mask).length ≤ mask.length
  starsApart : (reading (collapse mask)).IsChain fun s t => ¬(s = .star ∧ t = .star)
  again : collapse (collapse mask) = collapse mask

theorem reading_front {m : List Char} (star : front m ≠ '*') : ∀ token ∈ (reading m).head?, token ≠ .star := by
  intro token first
  cases m using mask_induction with
  | nil => cases first
  | lone => cases first
  | quoted c m =>
    obtain rfl := Option.some.inj first
    exact nofun
  | star m => exact absurd rfl star
  | char c m backslash other =>
    rw [reading_cons backslash] at first
    obtain rfl := Option.some.inj first
    rw [tokenOf_eq other]
    exact tokenAt_ne_star false c

theorem starsApart_collapse (m : List Char) :
    (reading (collapse m)).IsChain fun s t => ¬(s = .star ∧ t = .star) := by
  induction m using mask_induction with
  | nil => exact .nil
  | lone => exact .nil
  | quoted c m ih =>
    rw [collapse_quoted]
    refine List.isChain_cons.mpr ⟨?_, ih⟩
    rintro token - ⟨quoted, -⟩
    cases quoted
  | star m ih =>
    rw [collapse_star, ← dropStars_collapse, reading_cons (by decide)]
    obtain ⟨k, same⟩ := reading_dropStars (collapse m)
    rw [same] at ih
    exact List.isChain_cons.mpr ⟨fun token first both => reading_front (dropStars_front _) token first both.2, ih.right_of_append⟩
  | char c m backslash star ih =>
    rw [collapse_char backslash star, reading_cons backslash, tokenOf_eq star]
    exact List.isChain_cons.mpr ⟨fun _ _ both => tokenAt_ne_star false c both.1, ih⟩

theorem collapse_again (m : List Char) : collapse (collapse m) = collapse m := by
  induction m using mask_induction with
  | nil => rfl
  | lone => rfl
  | quoted c m ih => rw [collapse_quoted, collapse_quoted, ih]
  | star m ih =>
    rw [collapse_star, ← dropStars_collapse, collapse_star, dropStars_of_front (dropStars_front _), ← dropStars_collapse, ih]
  | char c m backslash star ih => rw [collapse_char backslash star, collapse_char backslash star, ih]

theorem kept_plain (plain : '\\' ∉ m) : keptBack true m = true ∧ kept m = true := by
  induction m with
  | nil => exact ⟨rfl, rfl⟩
  | cons c m ih =>
    obtain ⟨backslash, rest⟩ := plain_tail plain
    by_cases star : c = '*'
    · subst star
      rw [kept_star, (ih rest).1, (ih rest).2]
      exact ⟨(ih rest).1, rfl⟩
    · rw [kept_char backslash star, (ih rest).2]
      exact ⟨keptBack_of_plain star backslash, rfl⟩

theorem starMarks_of_lost {mask : List Char} (lost : kept mask = false) : starMarks mask = false := by
  rw [Bool.eq_false_iff]
  intro stars
  unfold starMarks at stars
  split at stars
  · next m =>
    have plain : '\\' ∉ '*' :: m := by
      refine List.not_mem_cons_of_ne_of_not_mem (by decide) fun inside => ?_
      exact (letters_of_stars stars _ inside).elim (by decide) (by decide)
    rw [(kept_plain plain).2] at lost
    cases lost
  · cases stars

end

/-- A collapsed mask is no longer, has no two stars side by side, and stays as it is. It has the names of the mask if nothing
is lost wherever the matcher goes back to. -/
theorem collapse_iff (mask : List Char) (clean : '\x00' ∉ mask) : KeepsMask mask ↔ kept mask = true := by
  constructor
  · intro keeps
    by_contra lost
    have lost := Bool.eq_false_iff.mpr lost
    obtain ⟨name, yes, decides, decides', real⟩ : Apart (openEnd mask) mask (collapse mask) := apart_of_lost lost
    have nameClean := real clean
    have same := keeps.names name nameClean
    rw [unlimited_iff (fun inside => clean ((collapse_sublist mask).mem inside)) nameClean, unlimited_iff clean nameClean,
      openEnd_collapse (starMarks_of_lost lost)] at same
    exact not_iff_self ((decides' _ _ _).symm.trans (same.trans (decides _ _ _)))
  · intro keep
    exact ⟨fun name nameClean => unlimited_collapse keep clean nameClean, (collapse_sublist mask).length_le,
      starsApart_collapse mask, collapse_again mask⟩

/-- A star, a quoted backslash, and two stars: the matcher that goes back reads the first of the two as a character. -/
theorem collapse_loses : ¬∀ mask : List Char, '\x00' ∉ mask → KeepsMask mask := by
  intro always
  have keeps := always ['*', '\\', '\\', '*', '*', 'a'] (by decide)
  have taken : Unlimited ['*', '\\', '\\', '*', '*', 'a'] ['x', '*', 'b', 'a'] true := ⟨20, rfl⟩
  have refused : Unlimited ['*', '\\', '\\', '*', 'a'] ['x', '*', 'b', 'a'] false := ⟨20, rfl⟩
  cases ((keeps.names _ (by decide)).mpr taken).unique refused

theorem collapse_keeps : KeepsMask ['a', '*', '*', '?', '*'] :=
  (collapse_iff _ (by decide)).mpr (by decide)

end Ircd.Match
