import Ircd.Channel.Collapse
import Ircd.Match.Limit
import Ircd.Match.Twin

/-!
# Collapsed masks and their names

On which masks `collapse` keeps the names that `match` takes (`kept`). It leaves out what it takes for repeated stars, but
where the matcher has forgotten a quote it reads the first of them as a character, and only the others as stars.
-/
namespace Ircd.Match

open Chan
open Hostmask (SameChar tokenOf)

/-- There are question marks up to the next star or the end of the mask. -/
def marksEnd : List Char → Bool
  | [] => true
  | ['\\'] => true
  | '?' :: m => marksEnd m
  | c :: _ => c == '*'

/-- Nothing is lost where the matcher reads the mask from here, a place that it has gone back to. `behind` says that there is
a star before. -/
def keptBack : Bool → List Char → Bool
  | true, '\\' :: m => keptBack false m
  | false, '\\' :: '\\' :: m => keptBack false m
  | false, '\\' :: '*' :: '*' :: m => dropStars m != ['\\'] && (marksEnd (dropStars m) || need true m == ⊤)
  | _, '*' :: m => keptBack true m
  | _, _ => true

/-- Nothing is lost wherever the matcher goes back to. -/
def kept : List Char → Bool
  | [] => true
  | ['\\'] => true
  | '\\' :: _ :: m => kept m
  | '*' :: m => keptBack true m && kept m
  | _ :: m => kept m

/-! ### What is collapsed -/

section

variable {open_ : Bool} {c : Char} {m : List Char}

theorem collapse_quoted (c : Char) (m : List Char) : collapse ('\\' :: c :: m) = '\\' :: c :: collapse m := by
  simp [collapse, collapseLoop]

theorem collapse_char (backslash : c ≠ '\\') (star : c ≠ '*') (m : List Char) : collapse (c :: m) = c :: collapse m := by
  simp [collapse, collapseLoop, backslash, star]

theorem collapseLoop_star (m : List Char) : collapseLoop true false m = collapse (dropStars m) := by
  induction m using mask_induction with
  | nil => rfl
  | lone => rfl
  | quoted c m => simp [collapse, collapseLoop, dropStars]
  | star m ih => simpa [collapseLoop, dropStars] using ih
  | char c m backslash star => simp [collapse, collapseLoop, dropStars, backslash, star]

theorem collapse_star (m : List Char) : collapse ('*' :: m) = '*' :: collapse (dropStars m) := by
  rw [← collapseLoop_star]
  rfl

theorem front_collapse (m : List Char) : front (collapse m) = front m := by
  induction m using mask_induction with
  | nil => rfl
  | lone => rfl
  | quoted c m => rw [collapse_quoted]; rfl
  | star m => rw [collapse_star]; rfl
  | char c m backslash star => rw [collapse_char backslash star]; rfl

theorem dropStars_collapse (m : List Char) : dropStars (collapse m) = collapse (dropStars m) := by
  have plain (m : List Char) : dropStars (collapse (dropStars m)) = collapse (dropStars m) :=
    dropStars_of_front (front_collapse (dropStars m) ▸ dropStars_front m)
  by_cases star : front m = '*'
  · obtain ⟨m, rfl⟩ := eq_cons_of_front star (by decide)
    rw [collapse_star]
    exact plain m
  · have same := plain m
    rw [dropStars_of_front star] at same ⊢
    exact same

/-! ### Where nothing is lost -/

theorem kept_char (backslash : c ≠ '\\') (star : c ≠ '*') (m : List Char) : kept (c :: m) = kept m := by
  cases m <;> simp [kept, backslash]

theorem kept_star (m : List Char) : kept ('*' :: m) = (keptBack true m && kept m) := by
  cases m <;> rfl

theorem keptBack_dropStars (m : List Char) : keptBack true (dropStars m) = keptBack true m := by
  induction m with
  | nil => rfl
  | cons c m ih =>
    by_cases star : c = '*'
    · subst star
      exact ih
    · simp [dropStars, star]

theorem kept_dropStars (keep : kept m = true) : kept (dropStars m) = true := by
  induction m with
  | nil => rfl
  | cons c m ih =>
    by_cases star : c = '*'
    · subst star
      rw [kept_star, Bool.and_eq_true] at keep
      exact ih keep.2
    · simpa [dropStars, star] using keep

/-- The mask ends with a star and question marks. -/
def closes : List Char → Bool
  | [] => false
  | c :: m => closes m || (c == '*' && m.all (· == '?'))

theorem closes_of_tail (closed : closes m = true) : closes (c :: m) = true := by
  rw [closes, closed, Bool.true_or]

theorem closes_of_suffix {u : List Char} (suffix : u <:+ m) (closed : closes u = true) : closes m = true := by
  obtain ⟨before, rfl⟩ := suffix
  induction before with
  | nil => exact closed
  | cons c before ih => exact closes_of_tail ih

theorem closes_dropStars (closed : closes (dropStars m) = true) : closes m = true :=
  closes_of_suffix (List.dropWhile_suffix _) closed

theorem closes_stars (marks : (dropStars m).all (· == '?') = true) : closes ('*' :: m) = true := by
  induction m with
  | nil => rfl
  | cons c m ih =>
    by_cases star : c = '*'
    · subst star
      exact closes_of_tail (ih marks)
    · have here : dropStars (c :: m) = c :: m := by simp [dropStars, star]
      rw [here] at marks
      rw [closes, marks]
      exact Bool.or_true _

/-- A star, and what the matcher reads behind it. -/
theorem twin_star {m' : List Char} (marks : Bool) (behind : dropStars m' = collapse (dropStars m))
    (twin : Twin open_ false (dropStars m) (collapse (dropStars m)))
    (again : ∀ c u, dropStars m = '\\' :: c :: u → need false (c :: u) = ⊤ ∧ need false (c :: collapse u) = ⊤ ∨
      Twin open_ false (c :: u) (c :: collapse u)) : Twin open_ marks ('*' :: m) ('*' :: m') := by
  by_cases backslash : front (dropStars m) = '\\'
  · obtain ⟨t, here⟩ := eq_cons_of_front backslash (by decide)
    cases t with
    | nil =>
      rw [here] at behind
      exact .starQuoted marks here behind (.lone false) .nil
    | cons c u =>
      have quoted := twin
      rw [here, collapse_quoted] at behind quoted
      obtain ⟨dead, dead'⟩ | again := again c u here
      · exact .starDead marks here behind quoted dead dead'
      · exact .starQuoted marks here behind quoted again
  · exact .star marks backslash (behind.symm ▸ twin)

theorem twin_marks {m : List Char} (marks : marksEnd m = true) (keep : kept m = true)
    (isOpen : m.all (· == '?') = true → open_ = true)
    (stars : ∀ r, '*' :: r <:+ m → kept ('*' :: r) = true → Twin open_ true ('*' :: r) (collapse ('*' :: r))) :
    Twin open_ true m (collapse m) := by
  induction m with
  | nil => exact .nilMarks (isOpen rfl)
  | cons c m ih =>
    by_cases mark : c = '?'
    · subst mark
      rw [collapse_char (by decide) (by decide)]
      rw [kept_char (by decide) (by decide)] at keep
      refine .mark (ih ?_ keep isOpen fun r suffix => stars r (suffix.trans (List.suffix_cons _ m)))
      cases m <;> exact marks
    · by_cases star : c = '*'
      · subst star
        exact stars m List.suffix_rfl keep
      · obtain ⟨rfl, rfl⟩ : c = '\\' ∧ m = [] := by
          unfold marksEnd at marks
          split at marks <;> simp_all
        exact .lone true

/-- The matcher does not tell the mask from the collapsed one. -/
def Same (open_ : Bool) (m : List Char) : Prop :=
  kept m = true → (closes m = true → open_ = true) → Twin open_ false m (collapse m)

/-- Nor where it has forgotten the quote of the first character. -/
def SameBack (open_ : Bool) (c : Char) (u : List Char) : Prop :=
  kept u = true → keptBack false (c :: u) = true → (closes (c :: u) = true → open_ = true) →
    need false (c :: u) = ⊤ ∧ need false (c :: collapse u) = ⊤ ∨ Twin open_ false (c :: u) (c :: collapse u)

theorem same_star {m m' : List Char} (marks : Bool) (behind : dropStars m' = collapse (dropStars m))
    (same : Same open_ (dropStars m)) (back : ∀ c u, dropStars m = '\\' :: c :: u → SameBack open_ c u)
    (keep : kept m = true) (again : keptBack true m = true) (isOpen : closes ('*' :: m) = true → open_ = true) :
    Twin open_ marks ('*' :: m) ('*' :: m') := by
  have closed : closes (dropStars m) = true → open_ = true := fun closed => isOpen (closes_of_tail (closes_dropStars closed))
  have kept_ := kept_dropStars keep
  refine twin_star marks behind (same kept_ closed) fun c u here => ?_
  rw [← keptBack_dropStars, here] at again
  rw [here] at kept_ closed
  exact back c u here kept_ again fun closed_ => closed (closes_of_tail closed_)

theorem dropStars_length (m : List Char) : (dropStars m).length ≤ m.length := (List.dropWhile_sublist _).length_le

theorem same_of_shorter (shorter : ∀ u : List Char, u.length < m.length → Same open_ u)
    (shorterBack : ∀ c u, (c :: u).length < m.length → SameBack open_ c u) : Same open_ m := by
  intro keep isOpen
  cases m using mask_induction with
  | nil => exact .nil
  | lone => exact .lone false
  | quoted c m =>
    rw [collapse_quoted]
    exact .quoted (shorter m (by simp) keep fun closed => isOpen (closes_of_tail (closes_of_tail closed)))
  | star m =>
    rw [kept_star, Bool.and_eq_true] at keep
    have short := dropStars_length m
    rw [collapse_star]
    refine same_star false ?_ (shorter _ (by simp; omega)) (fun c u here => ?_) keep.2 keep.1 isOpen
    · exact dropStars_of_front (front_collapse (dropStars m) ▸ dropStars_front m)
    · rw [here] at short
      exact shorterBack c u (by simp at short ⊢; omega)
  | char c m backslash star =>
    rw [kept_char backslash star] at keep
    rw [collapse_char backslash star]
    exact .char backslash star (shorter m (by simp) keep fun closed => isOpen (closes_of_tail closed))

theorem Twin.open_star {m' : List Char} (twin : Twin open_ false ('*' :: m) ('*' :: m')) (marks : Bool) :
    Twin open_ marks ('*' :: m) ('*' :: m') := by
  cases twin with
  | char _ star => exact absurd rfl star
  | star _ plain twin => exact .star marks plain twin
  | starQuoted _ here here' quoted again => exact .starQuoted marks here here' quoted again
  | starDead _ here here' quoted dead dead' => exact .starDead marks here here' quoted dead dead'
  | extra more twin => exact absurd (twin.front_eq (dropStars_front m)).symm (dropStars_front m)

/-- What takes no name behind a star takes none by itself, unless it is a backslash. -/
theorem dead_of_behind (dead : need true m = ⊤) (more : m ≠ ['\\']) : need false m = ⊤ := by
  by_cases backslash : front m = '\\'
  · obtain ⟨t, rfl⟩ := eq_cons_of_front backslash (by decide)
    cases t with
    | nil => exact absurd rfl more
    | cons c t =>
      rw [need_quote] at dead
      exact (min_eq_top.mp dead).1
  · rw [← need_behind backslash]
    exact dead

/-- A quoted star, and stars behind it. -/
theorem same_quoted_stars (keep : kept m = true) (lost : (dropStars m != ['\\'] && (marksEnd (dropStars m) || need true m == ⊤)) = true)
    (isOpen : closes ('*' :: m) = true → open_ = true) (shorter : ∀ u : List Char, u.length ≤ m.length → Same open_ u) :
    need true m = ⊤ ∧ need false (collapse (dropStars m)) = ⊤ ∨ Twin open_ false ('*' :: m) (collapse (dropStars m)) := by
  rw [Bool.and_eq_true, Bool.or_eq_true, bne_iff_ne, beq_iff_eq] at lost
  obtain ⟨more, marks | dead⟩ := lost
  · right
    have within := dropStars_length m
    refine .extra more (twin_marks marks (kept_dropStars keep) (fun all => isOpen (closes_stars all)) fun r suffix keep => ?_)
    have twin := shorter ('*' :: r) (suffix.length_le.trans within) keep fun closed =>
      isOpen (closes_of_tail (closes_dropStars (closes_of_suffix suffix closed)))
    rw [collapse_star] at twin ⊢
    exact twin.open_star true
  · left
    have rest := shorter _ (dropStars_length m) (kept_dropStars keep) fun closed => isOpen (closes_of_tail (closes_dropStars closed))
    rw [need_dropStars] at dead ⊢
    exact ⟨dead, rest.need_eq.symm.trans (dead_of_behind dead more)⟩

theorem sameBack_of_shorter (shorter : ∀ u : List Char, u.length ≤ m.length → Same open_ u)
    (shorterBack : ∀ c u, (c :: u).length ≤ m.length → SameBack open_ c u) : SameBack open_ c m := by
  intro keep again isOpen
  by_cases backslash : c = '\\'
  · subst backslash
    cases m using mask_induction with
    | nil => exact .inr (.lone false)
    | lone => exact .inr (.quoted .nil)
    | quoted e w =>
      -- a pair of backslashes
      rw [collapse_quoted]
      have rest := shorterBack e w (by simp) keep again fun closed => isOpen (closes_of_tail (closes_of_tail closed))
      obtain ⟨dead, dead'⟩ | twin := rest
      · left
        rw [need_quoted, need_quoted, dead, dead']
        exact ⟨rfl, rfl⟩
      · exact .inr (.quoted twin)
    | star v =>
      rw [collapse_star]
      rw [kept_star, Bool.and_eq_true] at keep
      have closed : closes v = true → open_ = true := fun closed => isOpen (closes_of_tail (closes_of_tail closed))
      by_cases more : front v = '*'
      · -- from the second star on, the stars are stars
        obtain ⟨w, rfl⟩ := eq_cons_of_front more (by decide)
        have keep' := keep.2
        rw [kept_star, Bool.and_eq_true] at keep'
        have lost := same_quoted_stars keep'.2 again closed fun u short =>
          shorter u (short.trans (Nat.le_add_right _ 2))
        obtain ⟨dead, dead'⟩ | twin := lost
        · left
          rw [need_quoted, need_quoted, need_star, dead]
          exact ⟨rfl, congrArg (· + 1) dead'⟩
        · exact .inr (.quoted twin)
      · rw [dropStars_of_front more]
        exact .inr (.quoted (shorter v (by simp) keep.2 closed))
    | char d v other star =>
      rw [collapse_char other star]
      rw [kept_char other star] at keep
      exact .inr (.quoted (shorter v (by simp) keep fun closed => isOpen (closes_of_tail (closes_of_tail closed))))
  · by_cases star : c = '*'
    · subst star
      have short := dropStars_length m
      refine .inr (same_star false (dropStars_collapse m) (shorter _ short) (fun c u here => ?_) keep again isOpen)
      rw [here] at short
      exact shorterBack c u (by simp at short ⊢; omega)
    · exact .inr (.char backslash star (shorter m (Nat.le_refl _) keep fun closed => isOpen (closes_of_tail closed)))

theorem same_and_sameBack (size : ℕ) :
    (∀ u : List Char, u.length = size → Same open_ u) ∧ ∀ c u, (c :: u).length = size → SameBack open_ c u := by
  induction size using Nat.strong_induction_on with
  | h size ih =>
    constructor
    · rintro u rfl
      exact same_of_shorter (fun v short => (ih _ short).1 v rfl) fun c v short => (ih _ short).2 c v rfl
    · rintro c u rfl
      refine sameBack_of_shorter (fun v short => (ih _ ?_).1 v rfl) fun d v short => (ih _ ?_).2 d v rfl
      · exact Nat.lt_succ_of_le short
      · exact Nat.lt_succ_of_le short

theorem same (m : List Char) : Same open_ m := (same_and_sameBack m.length).1 m rfl

theorem need_collapse (keep : kept m = true) : need false (collapse m) = need false m := by
  have twin : Twin true false m (collapse m) := same m keep fun _ => rfl
  exact twin.need_eq.symm

/-! ### The end of the mask -/

theorem closes_iff (m : List Char) : closes m = true ↔ ∃ before n, m = before ++ '*' :: List.replicate n '?' := by
  induction m with
  | nil => simp [closes]
  | cons c m ih =>
    rw [closes, Bool.or_eq_true, ih, Bool.and_eq_true, beq_iff_eq]
    constructor
    · rintro (⟨before, n, rfl⟩ | ⟨rfl, all⟩)
      · exact ⟨c :: before, n, rfl⟩
      · refine ⟨[], m.length, congrArg ('*' :: ·) (List.eq_replicate_of_mem fun d inside => ?_)⟩
        exact beq_iff_eq.mp (List.all_eq_true.mp all d inside)
    · rintro ⟨before, n, spelled⟩
      cases before with
      | nil =>
        obtain ⟨rfl, rfl⟩ := List.cons.inj spelled
        exact .inr ⟨rfl, by simp⟩
      | cons d before => exact .inl ⟨before, n, (List.cons.inj spelled).2⟩

/-- The search backwards finds a star that is not the first character. -/
theorem openEnd_cons (c : Char) (m : List Char) : openEnd (c :: m) = closes m := by
  rw [Bool.eq_iff_iff, openEnd_iff, closes_iff]
  constructor
  · rintro ⟨before, n, some_, spelled⟩
    cases before with
    | nil => exact absurd rfl some_
    | cons d before => exact ⟨before, n, (List.cons.inj spelled).2⟩
  · rintro ⟨before, n, rfl⟩
    exact ⟨c :: before, n, List.cons_ne_nil c before, rfl⟩

theorem closes_star_dropStars (m : List Char) : closes ('*' :: dropStars m) = closes ('*' :: m) := by
  induction m with
  | nil => rfl
  | cons c m ih =>
    by_cases star : c = '*'
    · subst star
      have again : closes ('*' :: '*' :: m) = closes ('*' :: m) := Bool.or_false _
      exact ih.trans again.symm
    · simp [dropStars, star]

theorem closes_collapse (m : List Char) :
    closes (collapse m) = closes m ∧ (collapse m).all (· == '?') = m.all (· == '?') := by
  induction m using mask_induction with
  | nil => exact ⟨rfl, rfl⟩
  | lone => exact ⟨rfl, rfl⟩
  | quoted c m ih =>
    rw [collapse_quoted, closes, closes, ih.1, ih.2]
    exact ⟨rfl, rfl⟩
  | star m ih =>
    rw [collapse_star, ← dropStars_collapse, closes_star_dropStars, closes, ih.1, ih.2]
    exact ⟨rfl, rfl⟩
  | char c m backslash star ih =>
    rw [collapse_char backslash star, closes, List.all_cons, ih.1, ih.2]
    exact ⟨rfl, rfl⟩

/-- Stars and question marks, and nothing else. Only in these masks the star in front may be all that is left. -/
def starMarks : List Char → Bool
  | '*' :: m => (dropStars m).all (· == '?')
  | _ => false

theorem dropStars_of_marks (all : m.all (· == '?') = true) : dropStars m = m := by
  refine dropStars_of_front fun star => ?_
  obtain ⟨t, rfl⟩ := eq_cons_of_front star (by decide)
  cases all

theorem closes_dropStars_eq (other : (dropStars m).all (· == '?') = false) : closes (dropStars m) = closes m := by
  induction m with
  | nil => rfl
  | cons c m ih =>
    by_cases star : c = '*'
    · subst star
      have more : m.all (· == '?') = false := by
        rw [Bool.eq_false_iff]
        intro all
        have same : dropStars ('*' :: m) = m := dropStars_of_marks all
        rw [same, all] at other
        cases other
      have last : closes ('*' :: m) = closes m := by rw [closes, more, Bool.and_false, Bool.or_false]
      exact (ih other).trans last.symm
    · simp [dropStars, star]

theorem openEnd_collapse {mask : List Char} (other : starMarks mask = false) : openEnd (collapse mask) = openEnd mask := by
  cases mask using mask_induction with
  | nil => rfl
  | lone => rfl
  | quoted c m =>
    rw [collapse_quoted, openEnd_cons, openEnd_cons, closes, closes, (closes_collapse m).1, (closes_collapse m).2]
  | star m => rw [collapse_star, openEnd_cons, openEnd_cons, (closes_collapse _).1, closes_dropStars_eq other]
  | char c m backslash star => rw [collapse_char backslash star, openEnd_cons, openEnd_cons, (closes_collapse m).1]

theorem closes_openEnd {mask : List Char} (other : starMarks mask = false) (closed : closes mask = true) :
    openEnd mask = true := by
  cases mask with
  | nil => cases closed
  | cons c m =>
    rw [openEnd_cons]
    rw [closes, Bool.or_eq_true, Bool.and_eq_true, beq_iff_eq] at closed
    obtain inner | ⟨rfl, all⟩ := closed
    · exact inner
    · rw [starMarks, dropStars_of_marks all, all] at other
      cases other

theorem collapse_marks (all : m.all (· == '?') = true) : collapse m = m := by
  induction m with
  | nil => rfl
  | cons c m ih =>
    rw [List.all_cons, Bool.and_eq_true, beq_iff_eq] at all
    obtain ⟨rfl, all⟩ := all
    rw [collapse_char (by decide) (by decide), ih all]

theorem unlimited_reading {mask name : List Char} (plain : '\\' ∉ mask) (maskClean : '\x00' ∉ mask) (nameClean : '\x00' ∉ name) :
    Unlimited mask name true ↔ Glob.Matches SameChar (reading mask) name := by
  refine (escapes_iff_keepsQuotes maskClean).mpr ?_ name nameClean
  rw [KeepsQuotes, if_pos (sound_plain plain).complete]
  exact ⟨(sound_plain plain).restarts, quotedEnd_plain plain⟩

theorem letters_of_stars (stars : (dropStars m).all (· == '?') = true) : ∀ c ∈ m, c = '*' ∨ c = '?' := by
  induction m with
  | nil => exact nofun
  | cons c m ih =>
    by_cases star : c = '*'
    · subst star
      rintro d inside
      obtain rfl | inside := List.mem_cons.mp inside
      · exact .inl rfl
      · exact ih stars d inside
    · have here : dropStars (c :: m) = c :: m := by simp [dropStars, star]
      rw [here] at stars
      exact fun d inside => .inr (beq_iff_eq.mp (List.all_eq_true.mp stars d inside))

theorem unlimited_starMarks {mask name : List Char} (stars : starMarks mask = true) (nameClean : '\x00' ∉ name) :
    Unlimited (collapse mask) name true ↔ Unlimited mask name true := by
  unfold starMarks at stars
  split at stars
  · next m =>
    have absent {c : Char} (star : c ≠ '*') (mark : c ≠ '?') : c ∉ '*' :: m ∧ c ∉ '*' :: dropStars m := by
      have outside : c ∉ m := fun inside => (letters_of_stars stars c inside).elim star mark
      refine ⟨List.not_mem_cons_of_ne_of_not_mem star outside, List.not_mem_cons_of_ne_of_not_mem star fun inside => ?_⟩
      exact outside ((List.dropWhile_sublist _).mem inside)
    rw [collapse_star, collapse_marks stars,
      unlimited_reading (absent (by decide) (by decide)).1 (absent (by decide) (by decide)).1 nameClean,
      unlimited_reading (absent (by decide) (by decide)).2 (absent (by decide) (by decide)).2 nameClean,
      reading_cons (by decide), reading_cons (by decide)]
    exact (matches_dropStars m name).symm
  · cases stars

/-- Where nothing is lost, the collapsed mask takes the same names. -/
theorem unlimited_collapse {mask name : List Char} (keep : kept mask = true) (maskClean : '\x00' ∉ mask)
    (nameClean : '\x00' ∉ name) : Unlimited (collapse mask) name true ↔ Unlimited mask name true := by
  by_cases stars : starMarks mask = true
  · exact unlimited_starMarks stars nameClean
  · have other := Bool.eq_false_iff.mpr stars
    have clean : '\x00' ∉ collapse mask := fun inside => maskClean ((collapse_sublist mask).mem inside)
    rw [unlimited_iff maskClean nameClean, unlimited_iff clean nameClean, openEnd_collapse other]
    exact (Twin.unlimited (same mask keep (closes_openEnd other)) name).symm

end

end Ircd.Match
