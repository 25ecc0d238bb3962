import Ircd.Match.Language

/-!
# Going back to the last star is enough

While `match` makes its rounds, the piece of the pattern behind the last star fits the text behind the place where it has
been tried, up to the two pointers (`Track`). So the answer does not depend on where earlier pieces have been found,
and the rounds give it (`run_reads`).
-/
namespace Ircd.Match

open Chan
open Hostmask (SameChar tokenOf)
open Glob (Token Matches Fits)

/-- What the matcher may go back to: if the first character was quoted, that may be forgotten. -/
structure Restart (ma : List Char) : Prop where
  sound : Sound ma
  first : ∀ c r, ma = c :: r → reading ma = tokenAt false c :: reading r ∧ Sound r

/-- What is left to match from the anchor on: the whole pattern at the start, or behind a star a part of it, anywhere
in the text. -/
inductive Anchored (all : Prop) (pattern : List (Token Char)) :
    Bool → List Char → List Char → List (Token Char) → Prop where
  | start {ma na : List Char} (place : pattern = reading ma) (answer : all ↔ Matches SameChar (reading ma) na) :
      Anchored all pattern false ma na (reading ma)
  | star {ma na : List Char} (before : List (Token Char)) (place : pattern = before ++ .star :: reading ma)
      (answer : all ↔ Matches SameChar (.star :: reading ma) na) (restart : Restart ma) :
      Anchored all pattern true ma na (reading ma)

/-- The pattern ahead of the pointer, and whether its first character is quoted. -/
inductive Ahead : Bool → List Char → List (Token Char) → Prop where
  | plain {m : List Char} (sound : Sound m) : Ahead false m (reading m)
  | quoted {c : Char} {m : List Char} (sound : Sound m) : Ahead true (c :: m) (.lit c :: reading m)

/-- From the anchor up to the pointers the pattern fits the text. -/
structure Scan.Track (all : Prop) (pattern : List (Token Char)) (s : Scan) (piece ahead : List (Token Char))
    (text : List Char) : Prop where
  anchored : Anchored all pattern s.wild s.ma s.na (piece ++ ahead)
  spelled : s.na = text ++ s.n
  fits : Fits SameChar piece text
  inside : s.m <:+ s.ma
  clean : '\x00' ∉ s.na

/-- What holds between two rounds. -/
structure Scan.Inv (all : Prop) (pattern : List (Token Char)) (s : Scan) : Prop where
  track : ∃ piece ahead text, s.Track all pattern piece ahead text ∧ Ahead s.quote s.m ahead ∧
    (piece = [] → s.quote = false → s.m = s.ma)

/-- What may come of the end of a round: the answer, or a round that is nearer to the end. -/
def Scan.Goes (all : Prop) (pattern : List (Token Char)) (s : Scan) : Scan ⊕ Bool → Prop
  | .inr result => result = true ↔ all
  | .inl t => t.Inv all pattern ∧ t.ma = s.ma ∧
      (t.na = s.na ∧ t.m.length + 1 = s.m.length ∨ t.na.length < s.na.length)

section

variable {all : Prop} {pattern piece ahead : List (Token Char)} {text : List Char} {s : Scan}

/-- At the anchor the pattern matches as it does at the pointers. -/
theorem Scan.Track.here (track : s.Track all pattern piece ahead text) :
    Matches SameChar (piece ++ ahead) s.na ↔ Matches SameChar ahead s.n := by
  rw [track.spelled]
  exact track.fits.matches_append ahead s.n

theorem Scan.Track.holds (track : s.Track all pattern piece ahead text) (holds : Matches SameChar ahead s.n) : all := by
  have here := track.here.mpr holds
  have anchored := track.anchored
  generalize s.wild = w, s.na = na, s.ma = ma, piece ++ ahead = pattern' at anchored here
  cases anchored with
  | start place answer => exact answer.mpr here
  | star before place answer restart => exact answer.mpr ((Glob.matches_star _ _).mpr ⟨na, List.suffix_refl na, here⟩)

/-- The matcher goes back when the pattern does not match here. -/
theorem Scan.Track.back (track : s.Track all pattern piece ahead text) (failed : ¬Matches SameChar ahead s.n)
    {d : Char} {n : List Char} (more : s.n = d :: n) :
    if s.wild then Restart s.ma ∧ (∃ before, pattern = before ++ .star :: reading s.ma) ∧
      piece ++ ahead = reading s.ma ∧ (all ↔ Matches SameChar (.star :: reading s.ma) s.na.tail)
    else ¬all := by
  have failed : ¬Matches SameChar (piece ++ ahead) s.na := fun holds => failed (track.here.mp holds)
  obtain ⟨m, n', ma, na, wild, quote⟩ := s
  have anchored := track.anchored
  dsimp only at anchored failed more ⊢
  generalize whole : piece ++ ahead = pattern' at anchored failed
  cases anchored with
  | start place answer =>
    rw [if_neg Bool.false_ne_true, answer]
    exact failed
  | star before place answer restart =>
    rw [if_pos rfl]
    refine ⟨restart, ⟨before, place⟩, rfl, answer.trans ?_⟩
    cases na with
    | nil =>
      have text := track.spelled
      dsimp only at text
      rw [more] at text
      exact absurd text.symm (by simp)
    | cons e na => exact Glob.matches_star_cons failed

/-- The comparison of two characters. -/
theorem compare_goes {quoted : Bool} {c d : Char} {r n : List Char}
    (track : s.Track all pattern piece (tokenAt quoted c :: reading r) text) (m : s.m = c :: r) (more : s.n = d :: n)
    (sound : Sound r) : s.Goes all pattern (s.compare quoted) := by
  have fits : ¬(toLower (front s.m) ≠ toLower (front s.n) ∧ ¬(quoted = false ∧ front s.m = '?')) ↔
      (tokenAt quoted c).Fits SameChar d := by
    rw [m, more]
    unfold tokenAt
    split
    · next any => simp [front, any, Token.Fits]
    · next lit =>
      rw [front, List.headD_cons, and_iff_left lit, not_not]
      rfl
  unfold Scan.compare
  by_cases differ : toLower (front s.m) ≠ toLower (front s.n) ∧ ¬(quoted = false ∧ front s.m = '?')
  · rw [if_pos differ]
    have failed : ¬Matches SameChar (tokenAt quoted c :: reading r) s.n := by
      rw [more, Glob.matches_cons (tokenAt_ne_star quoted c)]
      rintro ⟨_, _, same, fit, -⟩
      obtain ⟨rfl, rfl⟩ := List.cons.inj same
      exact fits.mpr fit differ
    have back := track.back failed more
    by_cases wild : s.wild = true
    · rw [if_pos wild] at back ⊢
      obtain ⟨restart, ⟨before, place⟩, -, answer⟩ := back
      refine ⟨⟨[], reading s.ma, [], ⟨?_, rfl, .nil, List.suffix_refl _, ?_⟩, .plain restart.sound, fun _ _ => rfl⟩,
        rfl, .inr ?_⟩
      · rw [List.nil_append]
        dsimp only
        rw [wild]
        exact .star before place answer restart
      · exact fun inside => track.clean (List.mem_of_mem_tail inside)
      · have nonempty : s.na ≠ [] := by
          rw [track.spelled, more]
          simp
        have positive := List.length_pos_iff.mpr nonempty
        rw [List.length_tail]
        omega
    · rw [if_neg wild] at back ⊢
      simpa [Scan.Goes] using back
  · rw [if_neg differ, m, more]
    refine ⟨⟨piece ++ [tokenAt quoted c], reading r, text ++ [d], ⟨?_, ?_, track.fits.snoc (fits.mp differ), ?_, track.clean⟩,
      .plain sound, fun nothing => by simp at nothing⟩, rfl, .inl ⟨rfl, ?_⟩⟩
    · simpa using track.anchored
    · simpa [more] using track.spelled
    · exact (List.suffix_cons c r).trans (m ▸ track.inside)
    · rw [m]
      rfl

/-- A round that has gone back is nearer to the end whatever comes of it. -/
theorem Scan.Goes.behind {t : Scan} {result : Scan ⊕ Bool} (goes : t.Goes all pattern result) (ma : t.ma = s.ma)
    (shorter : t.na.length < s.na.length) : s.Goes all pattern result := by
  cases result with
  | inl u =>
    obtain ⟨inv, same, nearer⟩ := goes
    refine ⟨inv, same.trans ma, .inr ?_⟩
    obtain ⟨na, -⟩ | less := nearer
    · exact na ▸ shorter
    · exact less.trans shorter
  | inr result => exact goes

/-- What the pointer into the mask is at, behind the stars and the backslash of a round. -/
inductive AtChar : Bool → List Char → List (Token Char) → Prop where
  | end_ : AtChar false [] []
  | char {quoted : Bool} {c : Char} {r : List Char} (sound : Sound r) (stars : quoted = false → c ≠ '*') :
      AtChar quoted (c :: r) (tokenAt quoted c :: reading r)

/-- The pattern ends with a star and so many question marks. -/
def EndsOpen (pattern : List (Token Char)) : Prop := ∃ before n, pattern = before ++ .star :: List.replicate n .any

theorem toLower_ne_nul {c : Char} (real : c ≠ '\x00') : toLower c ≠ '\x00' := by
  unfold toLower
  split
  · next upper =>
    have least : 65 ≤ c.toNat := upper.1
    have most : c.toNat ≤ 94 := upper.2
    intro nul
    have value := toNat_charOfNat (c.toNat + 32) (by omega)
    rw [nul] at value
    have zero : ('\x00' : Char).toNat = 0 := rfl
    omega
  · exact real

/-- The mask ends with the star: any text will do, and it is passed over. -/
theorem compare_nothing {na : List Char} (holds : all) (wild : s.wild = true) (ma : s.ma = [])
    (before : List (Token Char)) (place : pattern = before ++ .star :: reading s.ma) (restart : Restart s.ma)
    (clean : '\x00' ∉ na) (shorter : na.length < s.na.length) :
    s.Goes all pattern (Scan.compare false { s with m := s.ma, n := na, na := na }) := by
  have anchored (na : List Char) : Anchored all pattern s.wild s.ma na ([] ++ reading s.ma) := by
    rw [wild, List.nil_append]
    refine .star before place (iff_of_true holds ?_) restart
    rw [ma]
    exact Glob.matches_star_anys (n := 0) (Nat.zero_le _)
  have sound : Sound ([] : List Char) := ⟨rfl, rfl⟩
  cases na with
  | nil =>
    have same : Scan.compare false { s with m := s.ma, n := [], na := [] } =
        .inl { s with m := [], n := [], na := [], quote := false } := by
      simp [Scan.compare, ma]
    rw [same]
    refine ⟨⟨[], reading s.ma, [], ⟨anchored [], rfl, .nil, List.nil_suffix, clean⟩, ?_, fun _ _ => ma.symm⟩, rfl, .inr shorter⟩
    rw [ma]
    exact .plain sound
  | cons e na =>
    have differ : toLower (front ([] : List Char)) ≠ toLower (front (e :: na)) := by
      refine Ne.symm (toLower_ne_nul ?_)
      rintro rfl
      exact clean List.mem_cons_self
    have missed : Scan.compare false { s with m := s.ma, n := e :: na, na := e :: na } =
        .inl { s with m := s.ma, n := na, na := na, quote := false } := by
      unfold Scan.compare
      rw [ma, if_pos ⟨differ, fun any => absurd any.2 (by decide : front [] ≠ '?')⟩, if_pos wild]
      rfl
    rw [missed]
    refine ⟨⟨[], reading s.ma, [], ⟨anchored na, rfl, .nil, List.suffix_refl _, ?_⟩, .plain restart.sound,
      fun _ _ => rfl⟩, rfl, .inr ?_⟩
    · exact fun inside => clean (List.mem_cons_of_mem e inside)
    · exact (Nat.lt_succ_self _).trans shorter

/-- The whole pattern has been matched, and there is text left. -/
theorem end_goes {open_ : Bool} (ends : open_ = true → EndsOpen pattern) (track : s.Track all pattern piece [] text)
    {d : Char} {n : List Char} (more : s.n = d :: n) :
    s.Goes all pattern (if open_ then .inr true
      else if !s.wild then .inr false
      else Scan.compare false { s with m := s.ma, n := s.na.tail, na := s.na.tail }) := by
  have failed : ¬Matches SameChar [] s.n := by
    rw [more]
    exact fun holds => by cases holds
  have back := track.back failed more
  have length := track.fits.length_eq
  have spelled := track.spelled
  rw [more] at spelled
  cases open_ with
  | true =>
    obtain ⟨before, k, place⟩ := ends rfl
    rw [if_pos rfl]
    refine iff_of_true rfl ?_
    have anchored := track.anchored
    rw [List.append_nil] at anchored
    generalize wild : s.wild = w, tried : s.na = na, anchor : s.ma = ma at anchored
    cases anchored with
    | start place' answer =>
      -- there is no star in the piece
      refine absurd ?_ track.fits.star_not_mem
      rw [← place', place]
      exact List.mem_append_right _ List.mem_cons_self
    | star before' place' answer restart =>
      have anys : Token.star ∉ List.replicate k (Token.any : Token Char) := by
        intro inside
        cases List.eq_of_mem_replicate inside
      have last := Glob.eq_of_last_star track.fits.star_not_mem anys (place'.symm.trans place)
      rw [answer, last]
      refine Glob.matches_star_anys ?_
      rw [last, List.length_replicate] at length
      rw [← tried, spelled, List.length_append, ← length]
      exact Nat.le_add_right _ _
  | false =>
    rw [if_neg Bool.false_ne_true]
    cases wild : s.wild with
    | false =>
      rw [wild, if_neg Bool.false_ne_true] at back
      exact iff_of_false (by decide) back
    | true =>
      rw [wild, if_pos rfl] at back
      obtain ⟨restart, ⟨before, place⟩, whole, answer⟩ := back
      rw [List.append_nil] at whole
      have clean : '\x00' ∉ s.na.tail := fun inside => track.clean (List.mem_of_mem_tail inside)
      have shorter : s.na.tail.length < s.na.length := by
        rw [List.length_tail, spelled, List.length_append, List.length_cons]
        omega
      simp only [Bool.not_true, Bool.false_eq_true, if_false]
      cases anchor : s.ma with
      | nil =>
        have holds : all := by
          rw [answer, anchor]
          exact Glob.matches_star_anys (n := 0) (Nat.zero_le _)
        have goes := compare_nothing holds wild anchor before place restart clean shorter
        simpa [wild, anchor] using goes
      | cons c r =>
        obtain ⟨first, sound⟩ := restart.first c r anchor
        have goes (again : Scan) (wild : again.wild = true) (m : again.m = c :: r) (ma : again.ma = s.ma)
            (na : again.na = s.na.tail) (n : again.n = again.na) : s.Goes all pattern (again.compare false) := by
          have anchored : Anchored all pattern again.wild again.ma again.na ([] ++ (tokenAt false c :: reading r)) := by
            rw [wild, List.nil_append, ← first, ma, na]
            exact .star before place answer restart
          have more : ∃ e rest, again.n = e :: rest := by
            refine List.exists_cons_of_length_pos ?_
            have long := congrArg List.length (whole.trans first)
            rw [List.length_cons, length] at long
            rw [n, na, List.length_tail, spelled, List.length_append, List.length_cons]
            omega
          obtain ⟨e, rest, more⟩ := more
          have track : again.Track all pattern [] (tokenAt false c :: reading r) [] :=
            ⟨anchored, n.symm, .nil, by rw [m, ma, anchor], na ▸ clean⟩
          exact (compare_goes track m more sound).behind ma (na ▸ shorter)
        exact goes _ rfl rfl anchor.symm rfl rfl

/-- The text has come to its end in front of the pattern. -/
theorem short_goes {token : Token Char} (real : token ≠ .star) (track : s.Track all pattern piece (token :: ahead) text)
    (none_ : s.n = []) : ¬all := by
  have spelled := track.spelled
  rw [none_, List.append_nil] at spelled
  have anchored := track.anchored
  generalize s.wild = w, tried : s.na = na, s.ma = ma, whole : piece ++ token :: ahead = pattern' at anchored
  cases anchored with
  | start place answer =>
    rw [answer, ← whole, ← tried, track.here, none_]
    intro holds
    obtain ⟨c, rest, nothing, -⟩ := (Glob.matches_cons real _ _).mp holds
    cases nothing
  | star before place answer restart =>
    rw [answer, ← whole, ← tried, spelled]
    exact Glob.not_matches_of_fits track.fits real ahead

/-- The end of a round. -/
theorem rest_goes {open_ quoted : Bool} (ends : open_ = true → EndsOpen pattern)
    (track : s.Track all pattern piece ahead text) (here : AtChar quoted s.m ahead) :
    s.Goes all pattern (s.rest open_ quoted) := by
  unfold Scan.rest
  generalize pointer : s.m = m at here
  cases here with
  | end_ =>
    rw [if_pos rfl]
    cases text_ : s.n with
    | nil =>
      rw [if_pos rfl]
      refine iff_of_true rfl (track.holds ?_)
      rw [text_]
      rfl
    | cons d n =>
      rw [if_neg (List.cons_ne_nil d n), if_neg Bool.false_ne_true]
      exact end_goes ends track text_
  | @char quoted c r sound stars =>
    rw [if_neg (List.cons_ne_nil c r)]
    cases text_ : s.n with
    | nil =>
      have failed := short_goes (tokenAt_ne_star quoted c) track text_
      rw [if_pos rfl]
      cases quoted with
      | true => exact iff_of_false (by decide) failed
      | false =>
        rw [if_neg Bool.false_ne_true]
        refine iff_of_false ?_ failed
        simp [dropStars, stars rfl]
    | cons d n =>
      rw [if_neg (List.cons_ne_nil d n)]
      exact compare_goes track pointer text_ sound

/-- Behind stars the search for the next piece begins. -/
theorem star_track {m : List Char} (track : s.Track all pattern piece (.star :: reading m) text) :
    (∃ before, pattern = before ++ .star :: reading (dropStars m)) ∧
      (all ↔ Matches SameChar (.star :: reading (dropStars m)) s.n) := by
  have spelled := track.spelled
  have anchored := track.anchored
  obtain ⟨k, stars⟩ := reading_dropStars m
  have shifted (before : List (Token Char)) :
      before ++ .star :: reading m = (before ++ List.replicate k .star) ++ .star :: reading (dropStars m) := by
    rw [stars, List.append_assoc, ← List.cons_append, ← List.replicate_succ, List.replicate_succ', List.append_assoc]
    rfl
  generalize s.wild = w, tried : s.na = na, s.ma = ma, whole : piece ++ .star :: reading m = pattern' at anchored
  cases anchored with
  | start place answer =>
    refine ⟨⟨_, (place.trans whole.symm).trans (shifted piece)⟩, ?_⟩
    rw [answer, ← whole, ← tried, track.here, matches_dropStars]
  | star before place answer restart =>
    refine ⟨⟨(before ++ .star :: piece) ++ List.replicate k .star, ?_⟩, ?_⟩
    · rw [place, ← whole, ← shifted]
      simp
    · rw [answer, ← whole, ← tried, spelled, Glob.matches_star_piece track.fits, matches_dropStars]

/-- A round at stars. -/
theorem star_goes {open_ : Bool} {m : List Char} (ends : open_ = true → EndsOpen pattern)
    (track : s.Track all pattern piece (.star :: reading m) text) (sound : Sound ('*' :: m)) :
    ∃ anchor, anchor <:+ dropStars m ∧ Scan.Goes all pattern ⟨anchor, s.n, anchor, s.n, true, false⟩ (Scan.star open_ s.n (dropStars m)) := by
  obtain ⟨⟨before, place⟩, answer⟩ := star_track track
  obtain ⟨behind, may, noStar⟩ := sound_dropStars sound
  have clean : '\x00' ∉ s.n := by
    have clean := track.clean
    rw [track.spelled] at clean
    exact fun inside => clean (List.mem_append_right _ inside)
  unfold Scan.star
  cases tail : dropStars m with
  | nil =>
    rw [tail] at place answer
    rw [if_neg (by decide)]
    have restart : Restart [] := ⟨⟨rfl, rfl⟩, fun c r h => by cases h⟩
    exact ⟨[], List.suffix_refl _, rest_goes ends ⟨.star before place answer restart, rfl, .nil, List.suffix_refl _, clean⟩ .end_⟩
  | cons c r =>
    rw [tail] at place answer behind may noStar
    -- the anchor is set behind the backslash, and the quote is not kept with it
    by_cases backslash : c = '\\'
    · subst backslash
      cases r with
      | nil => cases behind.complete
      | cons c r =>
        rw [if_pos (show front ('\\' :: c :: r) = '\\' from rfl),
          if_neg (show ('\\' :: c :: r).tail ≠ [] from List.cons_ne_nil c r)]
        have inner : Sound r := ⟨behind.complete, behind.restarts⟩
        obtain ⟨same, joined, star, any⟩ := reading_of_rejoins c r may inner
        have quoted : reading ('\\' :: c :: r) = reading (c :: r) := same.symm
        rw [quoted] at place answer
        have token : tokenAt false c = .lit c := if_neg fun h => any h.2
        have restart : Restart (c :: r) := by
          refine ⟨joined, ?_⟩
          rintro _ _ ⟨⟩
          exact ⟨token.symm ▸ same, inner⟩
        have anchored : Anchored all pattern true (c :: r) s.n (reading (c :: r)) :=
          .star before place answer restart
        rw [same] at anchored
        have track : Scan.Track all pattern ⟨c :: r, s.n, c :: r, s.n, true, false⟩ []
            (tokenAt true c :: reading r) [] := ⟨anchored, rfl, .nil, List.suffix_refl _, clean⟩
        exact ⟨c :: r, List.suffix_cons _ _, rest_goes ends track (.char inner nofun)⟩
    · have star : c ≠ '*' := fun star => noStar r (star ▸ rfl)
      rw [if_neg (show front (c :: r) ≠ '\\' from backslash)]
      have inner : Sound r :=
        ⟨(complete_cons backslash r).symm.trans behind.complete, (restarts_cons backslash star r).symm.trans behind.restarts⟩
      have first : reading (c :: r) = tokenAt false c :: reading r := by
        rw [reading_cons backslash, tokenOf_eq star]
      have restart : Restart (c :: r) := by
        refine ⟨behind, ?_⟩
        rintro _ _ ⟨⟩
        exact ⟨first, inner⟩
      have anchored : Anchored all pattern true (c :: r) s.n (reading (c :: r)) :=
        .star before place answer restart
      rw [first] at anchored
      have track : Scan.Track all pattern ⟨c :: r, s.n, c :: r, s.n, true, false⟩ []
          (tokenAt false c :: reading r) [] := ⟨anchored, rfl, .nil, List.suffix_refl _, clean⟩
      exact ⟨c :: r, List.suffix_refl _, rest_goes ends track (.char inner fun _ => star)⟩

/-- How far the matcher is from its end, for pieces of this length at most: every place of the text costs a piece. -/
def Scan.weight (size : ℕ) (s : Scan) : ℕ := s.na.length * (size + 1) + (size - (s.ma.length - s.m.length))

theorem weight_lt_of_text {size : ℕ} {t : Scan} (less : t.na.length < s.na.length) : t.weight size < s.weight size := by
  unfold Scan.weight
  have product := Nat.mul_le_mul_right (size + 1) (Nat.succ_le_of_lt less)
  rw [Nat.succ_mul] at product
  omega

theorem weight_lt_of_mask {size : ℕ} {t : Scan} (same : t.na = s.na) (short : t.ma.length ≤ t.m.length + size)
    (further : s.ma.length - s.m.length < t.ma.length - t.m.length) : t.weight size < s.weight size := by
  unfold Scan.weight
  rw [same]
  omega

/-- One round. -/
theorem step_goes {open_ : Bool} {size : ℕ} (ends : open_ = true → EndsOpen pattern)
    (span : ∀ t : Scan, t.Inv all pattern → t.ma <:+ s.ma → t.ma.length ≤ t.m.length + size)
    (inv : s.Inv all pattern) :
    (∀ t, s.step open_ = .inl t → t.Inv all pattern ∧ t.ma <:+ s.ma ∧ t.weight size < s.weight size) ∧
      ∀ result, s.step open_ = .inr result → (result = true ↔ all) := by
  obtain ⟨piece, ahead, text, track, here, fresh⟩ := inv.track
  -- most rounds only have to reach the goal of the matcher; a star says more about where it stands
  have plain (goes : s.Goes all pattern (s.step open_)) :
      (∀ t, s.step open_ = .inl t → t.Inv all pattern ∧ t.ma <:+ s.ma ∧ t.weight size < s.weight size) ∧
        ∀ result, s.step open_ = .inr result → (result = true ↔ all) := by
    constructor
    · intro t next
      rw [next] at goes
      obtain ⟨kept, ma, nearer⟩ := goes
      have suffix : t.ma <:+ s.ma := ma ▸ List.suffix_refl _
      refine ⟨kept, suffix, ?_⟩
      obtain ⟨na, m⟩ | less := nearer
      · refine weight_lt_of_mask na (span t kept suffix) ?_
        have lengths := track.inside.length_le
        rw [ma]
        omega
      · exact weight_lt_of_text less
    · intro result next
      rw [next] at goes
      exact goes
  generalize quote : s.quote = q, pointer : s.m = m at here
  cases here with
  | @quoted c m sound =>
    refine plain ?_
    rw [Scan.step, quote, if_pos rfl]
    exact rest_goes ends track (pointer ▸ .char sound (absurd · Bool.false_ne_true.symm))
  | @plain m sound =>
    cases m with
    | nil =>
      have same : s.step open_ = s.rest open_ false := by simp [Scan.step, quote, pointer]
      refine plain ?_
      rw [same]
      have here : AtChar false s.m (reading []) := by
        rw [pointer]
        exact .end_
      exact rest_goes ends track here
    | cons c m =>
      by_cases backslash : c = '\\'
      · subst backslash
        have same : s.step open_ = .inl { s with m := m, quote := true } := by simp [Scan.step, quote, pointer]
        refine plain ?_
        rw [same]
        cases m with
        | nil => cases sound.complete
        | cons c m =>
          -- the backslash is read, and the next round reads the quoted character
          have inside := (List.suffix_cons '\\' (c :: m)).trans (pointer ▸ track.inside)
          refine ⟨⟨piece, .lit c :: reading m, text, ⟨track.anchored, track.spelled, track.fits, inside, track.clean⟩,
            .quoted ⟨sound.complete, sound.restarts⟩, fun _ => (absurd · Bool.false_ne_true.symm)⟩, rfl, .inl ⟨rfl, ?_⟩⟩
          rw [pointer]
          rfl
      · by_cases star : c = '*'
        · subst star
          have same : s.step open_ = Scan.star open_ s.n (dropStars m) := by simp [Scan.step, quote, pointer]
          rw [reading_cons (by decide)] at track
          obtain ⟨anchor, suffix, goes⟩ := star_goes ends track sound
          rw [same]
          constructor
          · intro t next
            rw [next] at goes
            obtain ⟨kept, ma, nearer⟩ := goes
            have root : t.ma <:+ s.ma := by
              rw [ma]
              exact suffix.trans (((List.dropWhile_suffix _).trans (List.suffix_cons '*' m)).trans (pointer ▸ track.inside))
            have short := span t kept root
            refine ⟨kept, root, ?_⟩
            have lengths := congrArg List.length track.spelled
            rw [List.length_append] at lengths
            obtain ⟨na, next⟩ | less := nearer
            · by_cases nothing : piece = []
              · -- the star is the first of the pattern
                subst nothing
                have text := track.fits.length_eq
                rw [List.length_nil, eq_comm, List.length_eq_zero_iff] at text
                subst text
                have anchored := fresh rfl quote
                refine weight_lt_of_mask (na.trans track.spelled.symm) short ?_
                rw [anchored, ma]
                dsimp only at next ⊢
                omega
              · have positive := List.length_pos_iff.mpr nothing
                rw [track.fits.length_eq] at positive
                refine weight_lt_of_text ?_
                rw [na, lengths]
                dsimp only
                omega
            · refine weight_lt_of_text (Nat.lt_of_lt_of_le less ?_)
              rw [lengths]
              exact Nat.le_add_left _ _
          · intro result next
            rw [next] at goes
            exact goes
        · have same : s.step open_ = s.rest open_ false := by simp [Scan.step, quote, pointer, backslash, star]
          refine plain ?_
          rw [same]
          have inner : Sound m := ⟨(complete_cons backslash m).symm.trans sound.complete,
            (restarts_cons backslash star m).symm.trans sound.restarts⟩
          rw [reading_cons backslash, tokenOf_eq star] at track
          exact rest_goes ends track (pointer ▸ .char inner fun _ => star)

end

/-- The rounds give the right answer, and in time. -/
theorem run_reads {mask name : List Char} {open_ : Bool} {size rounds : ℕ} (sound : Sound mask)
    (clean : '\x00' ∉ name) (ends : open_ = true → EndsOpen (reading mask))
    (span : ∀ t : Scan, t.Inv (Matches SameChar (reading mask) name) (reading mask) → t.ma <:+ mask →
      t.ma.length ≤ t.m.length + size)
    (enough : (name.length + 1) * (size + 1) ≤ rounds) :
    Machine.run (Scan.step open_) rounds (scanStart mask name) =
      .inr (Glob.run SameChar (reading mask) name) := by
  have start : (scanStart mask name).Inv (Matches SameChar (reading mask) name) (reading mask) :=
    ⟨[], reading mask, [], ⟨.start rfl Iff.rfl, rfl, .nil, List.suffix_refl _, clean⟩, .plain sound, fun _ _ => rfl⟩
  have keeps := @Machine.run_of_lighter _ _ (Scan.step open_) (scanStart mask name)
    (Glob.run SameChar (reading mask) name) rounds
    (fun s => s.Inv (Matches SameChar (reading mask) name) (reading mask) ∧ s.ma <:+ mask) (Scan.weight size)
  refine keeps ?_ ?_ ⟨start, List.suffix_refl _⟩ ?_
  · rintro s t ⟨inv, root⟩ next
    obtain ⟨kept, suffix, lighter⟩ := (step_goes ends (fun t inv suffix => span t inv (suffix.trans root)) inv).1 t next
    exact ⟨⟨kept, suffix.trans root⟩, lighter⟩
  · rintro s result ⟨inv, root⟩ next
    have answer := (step_goes ends (fun t inv suffix => span t inv (suffix.trans root)) inv).2 result next
    rw [← Glob.run_iff SameChar] at answer
    exact Bool.eq_iff_iff.mpr answer
  · have first : Scan.weight size (scanStart mask name) = name.length * (size + 1) + size := by
      simp [Scan.weight, scanStart]
    rw [first]
    rw [Nat.succ_mul] at enough
    omega

/-- `match` without its limit reads the mask, where it may go back to a star and does not take a quoted star for the end. -/
theorem run_answers {mask name : List Char} {size rounds : ℕ} (sound : Sound mask) (ending : quotedEnd mask = false)
    (maskClean : '\x00' ∉ mask) (nameClean : '\x00' ∉ name)
    (span : ∀ t : Scan, t.Inv (Matches SameChar (reading mask) name) (reading mask) → t.ma <:+ mask →
      t.ma.length ≤ t.m.length + size)
    (enough : (name.length + 1) * (size + 1) ≤ rounds) :
    Machine.run (matchStep mask name) rounds matchStart = .inr (Glob.run SameChar (reading mask) name) := by
  rw [← run_texts_inr maskClean nameClean]
  refine run_reads sound nameClean (fun open_ => ?_) span enough
  obtain ⟨before, n, -, rfl⟩ := (openEnd_iff mask).mp open_
  obtain ⟨front, same⟩ := reading_openEnd n before ending
  exact ⟨front, n, same⟩

theorem unlimited_reads {mask name : List Char} (sound : Sound mask) (ending : quotedEnd mask = false)
    (maskClean : '\x00' ∉ mask) (nameClean : '\x00' ∉ name) :
    Unlimited mask name (Glob.run SameChar (reading mask) name) := by
  -- the whole mask is long enough
  refine ⟨(name.length + 1) * (mask.length + 1), ?_⟩
  refine run_answers sound ending maskClean nameClean (fun t _ root => ?_) (Nat.le_refl _)
  exact root.length_le.trans (Nat.le_add_left _ _)

end Ircd.Match
