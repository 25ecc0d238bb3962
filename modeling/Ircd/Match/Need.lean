import Ircd.Match.Escapes
import Mathlib.Data.ENat.Lattice

/-!
# How long a name must be

The length of the shortest names that `match` takes for a mask, where it may forget the quote behind a star. A star
before a backslash at the end of the mask takes no name at all.
-/
namespace Ircd.Match

open Chan
open Hostmask (SameChar tokenOf)

/-- The shortest name. `behind` says that there is a star before the mask. -/
def need : Bool → List Char → ℕ∞
  | _, [] => 0
  | behind, ['\\'] => if behind then ⊤ else 0
  | behind, '\\' :: c :: m =>
    (if behind then @min ℕ∞ LinearOrder.toMin (need false m) (need false (c :: m)) else need false m) + 1
  | _, '*' :: m => need true m
  | _, _ :: m => need false m + 1

section

variable {open_ : Bool} {behind : Bool} {c : Char} {m : List Char}

theorem need_quoted (c : Char) (m : List Char) : need false ('\\' :: c :: m) = need false m + 1 := rfl

theorem need_star (behind : Bool) (m : List Char) : need behind ('*' :: m) = need true m := by
  cases m <;> rfl

theorem need_char (backslash : c ≠ '\\') (star : c ≠ '*') (behind : Bool) (m : List Char) :
    need behind (c :: m) = need false m + 1 := by
  cases m <;> simp [need, backslash]

/-- Behind a star the quote is kept or forgotten. -/
theorem need_quote (c : Char) (m : List Char) :
    need true ('\\' :: c :: m) = min (need false ('\\' :: c :: m)) (need false (c :: m) + 1) := by
  rw [need, if_pos rfl, ← min_add_add_right]
  rfl

theorem need_dropStars (m : List Char) : need true m = need true (dropStars m) := by
  induction m with
  | nil => rfl
  | cons c m ih =>
    by_cases star : c = '*'
    · subst star
      exact (need_star true m).trans ih
    · simp [dropStars, star]

/-- A star makes no difference to what begins with no backslash. -/
theorem need_behind (backslash : front m ≠ '\\') : need true m = need false m := by
  cases m with
  | nil => rfl
  | cons c m =>
    by_cases star : c = '*'
    · subst star
      rw [need_star, need_star]
    · have plain : c ≠ '\\' := backslash
      rw [need_char plain star, need_char plain star]

theorem dropStars_front (m : List Char) : front (dropStars m) ≠ '*' := by
  induction m with
  | nil => exact (by decide : '\x00' ≠ '*')
  | cons c m ih =>
    by_cases star : c = '*'
    · simpa [dropStars, star] using ih
    · simp [dropStars, front, star]

theorem eq_cons_of_front {c : Char} (here : front m = c) (real : c ≠ '\x00') : ∃ t, m = c :: t := by
  cases m with
  | nil => exact absurd here.symm real
  | cons d t => exact ⟨t, congrArg (· :: t) here⟩

theorem dropStars_of_front (star : front m ≠ '*') : dropStars m = m := by
  cases m with
  | nil => rfl
  | cons c m =>
    have other : c ≠ '*' := star
    simp [dropStars, other]

/-! ### A name must be as long -/

/-- The mask that is left, with the backslash that has been read. -/
def Scan.ahead (quoted : Bool) (s : Scan) : List Char := if quoted then '\\' :: s.m else s.m

/-- There is as much of the name as the mask needs, or as it needs once more. -/
def Scan.Affords (quoted : Bool) (s : Scan) : Prop :=
  need false (s.ahead quoted) ≤ s.n.length ∨ s.wild = true ∧ need false s.ma + 1 ≤ s.na.length

/-- Going back gives no name back. -/
def Scan.Backed (s : Scan) : Prop := s.wild = true → s.n.length ≤ s.na.length

/-- What a round comes to is affordable. -/
def Afforded : Scan ⊕ Bool → Prop
  | .inl s => s.Affords s.quote
  | .inr result => result = true

variable {s : Scan} {quoted : Bool}

theorem compare_affords {d : Char} {r n : List Char} (m : s.m = c :: r) (name : s.n = d :: n)
    (plain : quoted = false → c ≠ '\\' ∧ c ≠ '*') (backed : s.Backed) (afforded : Afforded (s.compare quoted)) :
    s.Affords quoted := by
  have once : need false (s.ahead quoted) = need false r + 1 := by
    cases quoted with
    | true => rw [Scan.ahead, if_pos rfl, m]; rfl
    | false => rw [Scan.ahead, if_neg nofun, m, need_char (plain rfl).1 (plain rfl).2]
  unfold Scan.compare at afforded
  split at afforded
  · split at afforded
    next wild =>
      -- the same again, with one character of the name less
      right
      refine ⟨wild, ?_⟩
      have long : s.na.tail.length + 1 = s.na.length := by
        have more := backed wild
        rw [name, List.length_cons] at more
        rw [List.length_tail]
        omega
      have need_ : need false s.ma ≤ s.na.tail.length := by
        obtain now | ⟨-, later⟩ := afforded
        · exact now
        · exact le_self_add.trans later
      rw [← long, Nat.cast_add, Nat.cast_one]
      exact add_le_add_left need_ 1
    next => cases afforded
  · obtain now | later := afforded
    · left
      rw [once, name, List.length_cons, Nat.cast_add, Nat.cast_one]
      refine add_le_add_left ?_ 1
      rw [name, m] at now
      exact now
    · exact .inr later

theorem rest_affords (plain : quoted = false → front s.m ≠ '\\' ∧ front s.m ≠ '*') (backed : s.Backed)
    (afforded : Afforded (s.rest open_ quoted)) : s.Affords quoted := by
  obtain ⟨m, n, ma, na, wild, quote⟩ := s
  unfold Scan.rest at afforded
  cases m with
  | nil =>
    left
    cases quoted <;> exact zero_le
  | cons c r =>
    rw [if_neg (List.cons_ne_nil c r)] at afforded
    cases n with
    | nil =>
      rw [if_pos rfl] at afforded
      cases quoted with
      | true => cases afforded
      | false =>
        rw [if_neg nofun] at afforded
        have stars : dropStars (c :: r) = [] := of_decide_eq_true afforded
        rw [dropStars_of_front (plain rfl).2] at stars
        cases stars
    | cons d n =>
      rw [if_neg (List.cons_ne_nil d n)] at afforded
      exact compare_affords rfl rfl plain backed afforded

theorem star_affords {n : List Char} (afforded : Afforded (Scan.star open_ n (dropStars m))) :
    need true m ≤ n.length := by
  have star := dropStars_front m
  rw [need_dropStars]
  generalize dropStars m = m at afforded star
  unfold Scan.star at afforded
  split at afforded
  next backslash =>
    obtain ⟨t, rfl⟩ := eq_cons_of_front backslash (by decide)
    cases t with
    | nil => cases afforded
    | cons c t =>
      rw [List.tail_cons, if_neg (List.cons_ne_nil c t)] at afforded
      have affords : Scan.Affords true ⟨c :: t, n, c :: t, n, true, false⟩ :=
        rest_affords (fun h => by cases h) (fun _ => Nat.le_refl _) afforded
      rw [need, if_pos rfl, ← min_add_add_right]
      obtain now | ⟨-, later⟩ := affords
      · exact (min_le_left _ _).trans now
      · exact (min_le_right _ _).trans later
  next backslash =>
    have affords : Scan.Affords false ⟨m, n, m, n, true, false⟩ :=
      rest_affords (fun _ => ⟨backslash, star⟩) (fun _ => Nat.le_refl _) afforded
    rw [need_behind backslash]
    obtain now | ⟨-, later⟩ := affords
    · exact now
    · exact le_self_add.trans later

/-- What a round needs is there if what it comes to is there. -/
theorem step_affords (backed : s.Backed) (afforded : Afforded (s.step open_)) : s.Affords s.quote := by
  obtain ⟨m, n, ma, na, wild, quote⟩ := s
  unfold Scan.step at afforded
  cases quote with
  | true => exact rest_affords nofun backed afforded
  | false =>
    rw [if_neg nofun] at afforded
    split at afforded
    next r here =>
      obtain rfl : m = _ := here
      exact afforded
    next r here =>
      obtain rfl : m = _ := here
      left
      exact (need_star false r).trans_le (star_affords afforded)
    next noBackslash noStar =>
      refine rest_affords (fun _ => ⟨fun here => ?_, fun here => ?_⟩) backed afforded
      · cases m with
        | nil => cases here
        | cons c r => exact noBackslash r (congrArg (· :: r) here)
      · cases m with
        | nil => cases here
        | cons c r => exact noStar r (congrArg (· :: r) here)

theorem rest_backed {t : Scan} (backed : s.Backed) (here : s.rest open_ quoted = .inl t) : t.Backed := by
  have compared (u : Scan) (quoted : Bool) (backed : u.Backed) (here : u.compare quoted = .inl t) : t.Backed := by
    unfold Scan.compare at here
    split_ifs at here
    · obtain rfl := Sum.inl.inj here
      exact fun _ => Nat.le_refl _
    · obtain rfl := Sum.inl.inj here
      intro wild
      have more := backed wild
      have fewer := u.n.length_tail
      dsimp only
      omega
  unfold Scan.rest at here
  split_ifs at here
  · exact compared _ false (fun _ => Nat.le_refl _) here
  · exact compared _ quoted backed here

theorem step_backed {t : Scan} (backed : s.Backed) (here : s.step open_ = .inl t) : t.Backed := by
  unfold Scan.step at here
  split at here
  · exact rest_backed backed here
  · split at here
    · obtain rfl := Sum.inl.inj here
      exact backed
    · unfold Scan.star at here
      split_ifs at here
      · exact rest_backed (fun _ => Nat.le_refl _) here
      · exact rest_backed (fun _ => Nat.le_refl _) here
    · exact rest_backed backed here

/-- Whoever is taken in the end affords it from the first round. -/
theorem affords_of_ends (backed : s.Backed) (ends : Machine.Ends (Scan.step open_) s true) : s.Affords s.quote := by
  obtain ⟨rounds, stopped⟩ := ends
  induction rounds generalizing s with
  | zero => cases stopped
  | succ rounds ih =>
    refine step_affords backed (?_ : Afforded (s.step open_))
    cases here : s.step open_ with
    | inl t => exact ih (step_backed backed here) ((Machine.run_succ_inl here).symm.trans stopped)
    | inr result => exact Sum.inr.inj ((Machine.run_succ_inr here).symm.trans stopped)

/-- No shorter name is taken where there is nothing else to go back to. -/
theorem not_ends_of_short {n : List Char} (short : n.length < need false m) :
    ¬Machine.Ends (Scan.step open_) ⟨m, n, m, n, true, false⟩ true := by
  intro ends
  have affords : Scan.Affords false ⟨m, n, m, n, true, false⟩ := affords_of_ends (fun _ => Nat.le_refl _) ends
  obtain now | ⟨-, later⟩ := affords
  · exact absurd now (not_le.mpr short)
  · exact absurd (le_self_add.trans later) (not_le.mpr short)

/-! ### One character more or less -/

/-- Without the first character a mask needs no more, and with one more in front no more than that one, unless it takes no
name at all. -/
theorem need_cons_le (m : List Char) :
    (∀ c, need false m ≤ need false (c :: m) ∨ need false m = ⊤) ∧
      ∀ c, need false (c :: m) ≤ need false m + 1 ∨ need false (c :: m) = ⊤ := by
  induction size : m.length using Nat.strong_induction_on generalizing m with
  | h size ih =>
    subst size
    have star : (need false m ≤ need true m ∨ need false m = ⊤) ∧ (need true m ≤ need false m + 1 ∨ need true m = ⊤) := by
      by_cases backslash : front m = '\\'
      · obtain ⟨t, rfl⟩ := eq_cons_of_front backslash (by decide)
        cases t with
        | nil => exact ⟨.inl zero_le, .inr rfl⟩
        | cons d p =>
          rw [need_quote]
          refine ⟨?_, .inl ((min_le_left _ _).trans le_self_add)⟩
          obtain fewer | dead := (ih p.length (by simp) p rfl).1 d
          · exact .inl (le_min le_rfl (add_le_add_left fewer 1))
          · right
            rw [need_quoted, dead]
            rfl
      · rw [need_behind backslash]
        exact ⟨.inl le_rfl, .inl le_self_add⟩
    have quote : (need false m ≤ need false ('\\' :: m) ∨ need false m = ⊤) ∧
        (need false ('\\' :: m) ≤ need false m + 1 ∨ need false ('\\' :: m) = ⊤) := by
      cases m with
      | nil => exact ⟨.inl le_rfl, .inl zero_le⟩
      | cons d z =>
        obtain ⟨less, more⟩ := ih z.length (by simp) z rfl
        refine ⟨more d, ?_⟩
        obtain fewer | dead := less d
        · exact .inl (add_le_add_left fewer 1)
        · right
          rw [need_quoted, dead]
          rfl
    refine ⟨fun c => ?_, fun c => ?_⟩
    all_goals
      by_cases backslash : c = '\\'
      · subst backslash
        first | exact quote.1 | exact quote.2
      · by_cases first_ : c = '*'
        · subst first_
          rw [need_star]
          first | exact star.1 | exact star.2
        · rw [need_char backslash first_]
          first | exact .inl le_self_add | exact .inl le_rfl

/-! ### The shortest name is taken -/

/-- A character that is not taken for another one, nor for a special one. -/
theorem exists_other (c : Char) : ∃ d, ¬SameChar c d ∧ ¬SameChar '*' d ∧ ¬SameChar '\\' d ∧ d ≠ '\x00' := by
  by_cases same : SameChar c 'a'
  · refine ⟨'b', fun other => ?_, by decide, by decide, by decide⟩
    have both : SameChar 'a' 'b' := same.symm.trans other
    exact absurd both (by decide)
  · exact ⟨'a', same, by decide, by decide, by decide⟩

/-- A name as short as the mask allows, which the matcher takes without going back. -/
def Shortest (open_ : Bool) (length : ℕ∞) (m n : List Char) : Prop :=
  n.length = length ∧ Comes open_ true m n ∧ ('\x00' ∉ m → '\x00' ∉ n)

theorem Shortest.cons {length : ℕ∞} {before n : List Char} {d : Char} (short : Shortest open_ length m n)
    (comes : Comes open_ true before (d :: n)) (inside : ∀ x ∈ m, x ∈ before)
    (real : '\x00' ∉ before → d ≠ '\x00') : Shortest open_ (length + 1) before (d :: n) := by
  refine ⟨?_, comes, fun clean nul => ?_⟩
  · rw [List.length_cons, Nat.cast_add, Nat.cast_one, short.1]
  · obtain rfl | nul := List.mem_cons.mp nul
    · exact real clean rfl
    · exact short.2.2 (fun there => clean (inside _ there)) nul

theorem exists_fits (star : c ≠ '*') : ∃ d, (tokenOf c).Fits SameChar d ∧ (c ≠ '\x00' → d ≠ '\x00') := by
  obtain ⟨d, -, fits, rfl | rfl⟩ := straight_char star []
  · exact ⟨'a', fits, fun _ => by decide⟩
  · exact ⟨d, fits, id⟩

theorem exists_shortest (behind : Bool) (m : List Char) (finite : need behind m ≠ ⊤) :
    ∃ n, Shortest open_ (need behind m) (if behind then '*' :: m else m) n := by
  induction size : m.length using Nat.strong_induction_on generalizing behind m with
  | h size ih =>
    cases m with
    | nil =>
      refine ⟨[], rfl, fun ma na wild => ?_, fun _ => List.not_mem_nil⟩
      cases behind <;> exact .of_inr rfl
    | cons c m =>
      subst size
      by_cases backslash : c = '\\'
      · subst backslash
        cases m with
        | nil =>
          cases behind with
          | true => exact absurd rfl finite
          | false => exact ⟨[], rfl, fun _ _ _ => Machine.Ends.before_step (.of_inr rfl) rfl, fun _ => List.not_mem_nil⟩
        | cons c m =>
          have quoted (finite : need false m + 1 ≠ ⊤) : ∃ n, Shortest open_ (need false m) m n :=
            ih m.length (by simp) false m (ne_top_of_le_ne_top finite le_self_add) rfl
          have inside : ∀ x ∈ m, x ∈ '\\' :: c :: m := fun x there =>
            List.mem_cons_of_mem _ (List.mem_cons_of_mem _ there)
          have real : '\x00' ∉ '\\' :: c :: m → c ≠ '\x00' := by
            rintro clean rfl
            exact clean (List.mem_cons_of_mem _ List.mem_cons_self)
          cases behind with
          | false =>
            -- the quoted character fits at once
            obtain ⟨n, short⟩ := quoted finite
            exact ⟨c :: n, short.cons (comes_quoted rfl short.2.1) inside real⟩
          | true =>
            obtain fewer | fewer := le_total (need false m) (need false (c :: m))
            · -- or the star is passed with the quote kept
              have shortest : need true ('\\' :: c :: m) = need false m + 1 := congrArg (· + 1) (min_eq_left fewer)
              rw [shortest] at finite ⊢
              obtain ⟨n, short⟩ := quoted finite
              have comes : Comes open_ true ('*' :: '\\' :: c :: m) (c :: n) :=
                comes_star (by simp) (comes_quoted rfl short.2.1)
              exact ⟨c :: n, short.cons comes (fun x there => List.mem_cons_of_mem _ (inside x there))
                fun clean => real fun there => clean (List.mem_cons_of_mem _ there)⟩
            · -- the first time nothing fits the quoted character
              have shortest : need true ('\\' :: c :: m) = need false (c :: m) + 1 :=
                congrArg (· + 1) (min_eq_right fewer)
              rw [shortest] at finite ⊢
              obtain ⟨n, short⟩ : ∃ n, Shortest open_ (need false (c :: m)) (c :: m) n :=
                ih (c :: m).length (by simp) false (c :: m) (ne_top_of_le_ne_top finite le_self_add) rfl
              obtain ⟨d, differ, -, -, other⟩ := exists_other c
              exact ⟨d :: n, short.cons (comes_back differ short.2.1)
                (fun x there => List.mem_cons_of_mem _ (List.mem_cons_of_mem _ there)) fun _ => other⟩
      · by_cases star : c = '*'
        · subst star
          rw [need_star] at finite ⊢
          obtain ⟨n, length, comes, clean⟩ : ∃ n, Shortest open_ (need true m) ('*' :: m) n :=
            ih m.length (by simp) true m finite rfl
          cases behind with
          | false => exact ⟨n, length, comes, clean⟩
          | true =>
            exact ⟨n, length, comes_star (by simp) comes, fun real => clean fun there => real (List.mem_cons_of_mem _ there)⟩
        · rw [need_char backslash star] at finite ⊢
          obtain ⟨n, short⟩ : ∃ n, Shortest open_ (need false m) m n :=
            ih m.length (by simp) false m (ne_top_of_le_ne_top finite le_self_add) rfl
          obtain ⟨d, fits, real⟩ := exists_fits star
          have comes := comes_char backslash star fits short.2.1
          have here : '\x00' ∉ c :: m → d ≠ '\x00' := fun clean => real fun nul => clean (nul ▸ List.mem_cons_self)
          cases behind with
          | false => exact ⟨d :: n, short.cons comes (fun x => List.mem_cons_of_mem _) here⟩
          | true =>
            have more : c :: m ≠ ['\\'] := fun lone => backslash (List.cons.inj lone).1
            exact ⟨d :: n, short.cons (comes_star more comes)
              (fun x there => List.mem_cons_of_mem _ (List.mem_cons_of_mem _ there))
              fun clean => here fun there => clean (List.mem_cons_of_mem _ there)⟩

end

end Ircd.Match
