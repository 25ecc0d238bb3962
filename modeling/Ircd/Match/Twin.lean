import Ircd.Match.Need

/-!
# Masks that are read alike

Two masks of which one has more stars than the other (`Twin`), such that the matcher takes the same rounds for both and
comes to the same answer, whatever quotes it forgets on the way.
-/
namespace Ircd.Match

open Chan

/-- The matcher makes no difference between these masks. In an open one (`marks`) nothing but question marks comes before
the end or the next star, so that the matcher does not go back before that. -/
inductive Twin (open_ : Bool) : Bool → List Char → List Char → Prop
  | nil : Twin open_ false [] []
  | nilMarks : open_ = true → Twin open_ true [] []
  | lone (marks : Bool) : Twin open_ marks ['\\'] ['\\']
  | quoted {c : Char} {m m' : List Char} : Twin open_ false m m' → Twin open_ false ('\\' :: c :: m) ('\\' :: c :: m')
  | char {c : Char} {m m' : List Char} : c ≠ '\\' → c ≠ '*' → Twin open_ false m m' → Twin open_ false (c :: m) (c :: m')
  | mark {m m' : List Char} : Twin open_ true m m' → Twin open_ true ('?' :: m) ('?' :: m')
  | star (marks : Bool) {m m' : List Char} : front (dropStars m) ≠ '\\' → Twin open_ false (dropStars m) (dropStars m') →
      Twin open_ marks ('*' :: m) ('*' :: m')
  | starQuoted (marks : Bool) {m m' t t' : List Char} : dropStars m = '\\' :: t → dropStars m' = '\\' :: t' →
      Twin open_ false ('\\' :: t) ('\\' :: t') → Twin open_ false t t' → Twin open_ marks ('*' :: m) ('*' :: m')
  | starDead (marks : Bool) {m m' t t' : List Char} : dropStars m = '\\' :: t → dropStars m' = '\\' :: t' →
      Twin open_ false ('\\' :: t) ('\\' :: t') → need false t = ⊤ → need false t' = ⊤ →
      Twin open_ marks ('*' :: m) ('*' :: m')
  | extra {m m' : List Char} : dropStars m ≠ ['\\'] → Twin open_ true (dropStars m) m' → Twin open_ false ('*' :: m) m'

section

variable {open_ marks : Bool} {m m' : List Char}

/-- Unless it is a star, they begin with the same character. -/
theorem Twin.front_eq (twin : Twin open_ marks m m') (star : front m ≠ '*') : front m' = front m := by
  cases twin with
  | nil => rfl
  | nilMarks => rfl
  | lone => rfl
  | quoted => rfl
  | char => rfl
  | mark => rfl
  | star => exact absurd rfl star
  | starQuoted => exact absurd rfl star
  | starDead => exact absurd rfl star
  | extra => exact absurd rfl star

/-- Behind a quote there is the same character, or nothing. -/
theorem Twin.behind_quote {t t' : List Char} (twin : Twin open_ marks ('\\' :: t) ('\\' :: t')) :
    t = [] ∧ t' = [] ∨ ∃ c u u', t = c :: u ∧ t' = c :: u' ∧ marks = false ∧ Twin open_ false u u' := by
  cases twin with
  | lone => exact .inl ⟨rfl, rfl⟩
  | quoted twin => exact .inr ⟨_, _, _, rfl, rfl, rfl, twin⟩
  | char backslash => exact absurd rfl backslash

/-- Open masks begin with no quote. -/
theorem Twin.plain_of_marks (twin : Twin open_ true m m') (more : m ≠ ['\\']) : front m ≠ '\\' := by
  cases twin with
  | nilMarks => exact (by decide : '\x00' ≠ '\\')
  | lone => exact absurd rfl more
  | mark => exact (by decide : '?' ≠ '\\')
  | star => exact (by decide : '*' ≠ '\\')
  | starQuoted => exact (by decide : '*' ≠ '\\')
  | starDead => exact (by decide : '*' ≠ '\\')

theorem need_behind_quote {t t' : List Char} (twin : Twin open_ false ('\\' :: t) ('\\' :: t'))
    (quoted : need false ('\\' :: t) = need false ('\\' :: t')) (again : need false t = need false t') :
    need true ('\\' :: t) = need true ('\\' :: t') := by
  obtain ⟨rfl, rfl⟩ | ⟨c, u, u', rfl, rfl, -⟩ := twin.behind_quote
  · rfl
  · rw [need_quote, need_quote, quoted, again]

/-- They need names of the same length. -/
theorem Twin.need_eq (twin : Twin open_ marks m m') : need false m = need false m' := by
  induction twin with
  | nil => rfl
  | nilMarks => rfl
  | lone => rfl
  | quoted _ ih => exact congrArg (· + 1) ih
  | char backslash star _ ih => rw [need_char backslash star, need_char backslash star, ih]
  | mark _ ih => rw [need_char (by decide) (by decide), need_char (by decide) (by decide), ih]
  | star marks plain twin ih =>
    have plain' := twin.front_eq (dropStars_front _) ▸ plain
    rw [need_star, need_star, need_dropStars, need_behind plain, ih, need_dropStars, need_behind plain']
  | starQuoted marks here here' quoted again ih ih' =>
    rw [need_star, need_star, need_dropStars, here, need_behind_quote quoted ih ih', ← here', ← need_dropStars]
  | starDead marks here here' quoted dead dead' ih =>
    rw [need_star, need_star, need_dropStars, here, need_behind_quote quoted ih (dead.trans dead'.symm), ← here',
      ← need_dropStars]
  | extra more twin ih =>
    rw [need_star, need_dropStars, need_behind (twin.plain_of_marks more), ih]

/-! ### The same rounds -/

/-- What the matcher goes back to. The comparison at the end of a mask takes the first character there as it is. -/
inductive Back (open_ : Bool) : List Char → List Char → Prop
  | nil : Back open_ [] []
  | cons {c : Char} {m m' : List Char} : Twin open_ false (c :: m) (c :: m') → Twin open_ false m m' →
      Back open_ (c :: m) (c :: m')

/-- The matcher goes back to masks that are read alike, or to masks that take no name; then it does so before the end of
the mask. -/
inductive Backs (open_ : Bool) (ahead : List Char) : List Char → List Char → Prop
  | live {ma ma' : List Char} : Back open_ ma ma' → Backs open_ ahead ma ma'
  | dead {ma ma' : List Char} : complete ahead = false → need false ma = ⊤ → need false ma' = ⊤ → Backs open_ ahead ma ma'

/-- Two matchers that come to the same answer. -/
structure Near (open_ marks : Bool) (s t : Scan) : Prop where
  n : t.n = s.n
  quote : t.quote = s.quote
  ahead : Twin open_ marks (s.ahead s.quote) (t.ahead t.quote)
  wild : marks = false → t.wild = s.wild
  na : marks = false → t.na = s.na
  ma : marks = false → s.wild = true → Backs open_ (s.ahead s.quote) s.ma t.ma

/-- A round of each comes to the same answer, goes on, or cannot come to say yes. -/
inductive Agree (open_ : Bool) : Scan ⊕ Bool → Scan ⊕ Bool → Prop
  | answer (result : Bool) : Agree open_ (.inr result) (.inr result)
  | go {marks : Bool} {s t : Scan} : Near open_ marks s t → Agree open_ (.inl s) (.inl t)
  | never {s t : Scan} : ¬Machine.Ends (Scan.step open_) s true → ¬Machine.Ends (Scan.step open_) t true →
      Agree open_ (.inl s) (.inl t)

variable {ma ma' na n : List Char} {wild : Bool}

/-- A mask that takes no name, with nothing else to go back to. -/
theorem not_ends_of_dead (dead : need false m = ⊤) : ¬Machine.Ends (Scan.step open_) ⟨m, n, m, n, true, false⟩ true := by
  refine not_ends_of_short ?_
  rw [dead]
  exact ENat.natCast_lt_top _

/-- Both go back. -/
theorem Backs.agree {ahead : List Char} (backs : Backs open_ ahead ma ma') (n : List Char) :
    Agree open_ (.inl ⟨ma, n, ma, n, true, false⟩) (.inl ⟨ma', n, ma', n, true, false⟩) := by
  cases backs with
  | live back =>
    have twin : Twin open_ false ma ma' := by
      cases back with
      | nil => exact .nil
      | cons twin => exact twin
    exact .go ⟨rfl, rfl, twin, fun _ => rfl, fun _ => rfl, fun _ _ => .live back⟩
  | dead _ dead dead' => exact .never (not_ends_of_dead dead) (not_ends_of_dead dead')

theorem Backs.of_complete {ahead ahead' : List Char} (backs : Backs open_ ahead ma ma')
    (same : complete ahead' = complete ahead) : Backs open_ ahead' ma ma' := by
  cases backs with
  | live back => exact .live back
  | dead whole dead dead' => exact .dead (same.trans whole) dead dead'

/-- Both compare the same character. -/
theorem compare_agree {quoted quote quote' : Bool} (same : front m' = front m) (twin : Twin open_ false m.tail m'.tail)
    (backs : wild = true → Backs open_ m.tail ma ma') :
    Agree open_ (Scan.compare quoted ⟨m, n, ma, na, wild, quote⟩) (Scan.compare quoted ⟨m', n, ma', na, wild, quote'⟩) := by
  unfold Scan.compare
  dsimp only
  rw [same]
  split
  · cases wild with
    | true => exact (backs rfl).agree na.tail
    | false => exact .answer false
  · exact .go ⟨rfl, rfl, twin, fun _ => rfl, fun _ => rfl, fun _ wild => backs wild⟩

/-- At the end of the mask, with more of the name, both compare the first character they go back to. -/
theorem Back.agree (back : Back open_ ma ma') (quote quote' : Bool) :
    Agree open_ (Scan.compare false ⟨ma, n, ma, n, true, quote⟩) (Scan.compare false ⟨ma', n, ma', n, true, quote'⟩) := by
  cases back with
  | nil => exact compare_agree rfl .nil fun _ => .live .nil
  | cons twin rest => exact compare_agree rfl rest fun _ => .live (.cons twin rest)

/-- At a quoted character. -/
theorem quoted_agree {quote quote' wild' : Bool} {na' : List Char} (twin : Twin open_ marks ('\\' :: m) ('\\' :: m'))
    (same : marks = false → wild' = wild ∧ na' = na)
    (backs : marks = false → wild = true → Backs open_ ('\\' :: m) ma ma') :
    Agree open_ (Scan.rest open_ true ⟨m, n, ma, na, wild, quote⟩) (Scan.rest open_ true ⟨m', n, ma', na', wild', quote'⟩) := by
  obtain ⟨rfl, rfl⟩ | ⟨c, u, u', rfl, rfl, plain, twin⟩ := twin.behind_quote
  · cases n with
    | nil => exact .answer true
    | cons d n => exact .answer false
  · obtain ⟨rfl, rfl⟩ := same plain
    cases n with
    | nil => exact .answer false
    | cons d n => exact compare_agree rfl twin fun wild => (backs plain wild).of_complete rfl

/-- At the end, or at a character that is not special. -/
theorem plain_agree {quote quote' : Bool} (twin : Twin open_ false m m') (backslash : front m ≠ '\\') (star : front m ≠ '*')
    (backs : wild = true → Backs open_ m ma ma') :
    Agree open_ (Scan.rest open_ false ⟨m, n, ma, na, wild, quote⟩) (Scan.rest open_ false ⟨m', n, ma', na, wild, quote'⟩) := by
  cases twin with
  | lone => exact absurd rfl backslash
  | quoted => exact absurd rfl backslash
  | star => exact absurd rfl star
  | starQuoted => exact absurd rfl star
  | starDead => exact absurd rfl star
  | extra => exact absurd rfl star
  | nil =>
    cases n with
    | nil => exact .answer true
    | cons d n =>
      cases open_ with
      | true => exact .answer true
      | false =>
        cases wild with
        | false => exact .answer false
        | true =>
          cases backs rfl with
          | live back => exact back.agree quote quote'
          | dead whole => cases whole
  | @char c u u' noBackslash noStar twin =>
    cases n with
    | nil =>
      -- no stars are left out, and there is more
      have stuck (r : List Char) : decide (dropStars (c :: r) = []) = false := by simp [dropStars, noStar]
      change Agree open_ (.inr (decide (dropStars (c :: u) = []))) (.inr (decide (dropStars (c :: u') = [])))
      rw [stuck, stuck]
      exact .answer false
    | cons d n =>
      exact compare_agree rfl twin fun wild => (backs wild).of_complete (complete_cons noBackslash u).symm

/-- Question marks that nothing has to be given back for. -/
theorem marks_agree {quote quote' wild' : Bool} {na' : List Char} (twin : Twin open_ true m m')
    (backslash : front m ≠ '\\') (star : front m ≠ '*') :
    Agree open_ (Scan.rest open_ false ⟨m, n, ma, na, wild, quote⟩) (Scan.rest open_ false ⟨m', n, ma', na', wild', quote'⟩) := by
  cases twin with
  | lone => exact absurd rfl backslash
  | star => exact absurd rfl star
  | starQuoted => exact absurd rfl star
  | starDead => exact absurd rfl star
  | nilMarks isOpen =>
    subst isOpen
    cases n with
    | nil => exact .answer true
    | cons d n => exact .answer true
  | mark twin =>
    cases n with
    | nil => exact .answer false
    | cons d n =>
      have fits : (tokenAt false '?').Fits Hostmask.SameChar d := trivial
      rw [rest_char open_ fits, rest_char open_ fits]
      exact .go ⟨rfl, rfl, twin, nofun, nofun, nofun⟩

/-- A mask that takes no name ends with a star and a backslash. -/
theorem ends_of_dead (behind : Bool) (dead : need behind m = ⊤) :
    ∃ before, (if behind then '*' :: m else m) = before ++ ['*', '\\'] := by
  have finite {k : ℕ∞} (dead : k + 1 = ⊤) : k = ⊤ := by simpa using dead
  have within {m : List Char} (more : List Char) (behind : Bool) (inner : ∃ before, m = before ++ ['*', '\\']) :
      ∃ before, (if behind then '*' :: (more ++ m) else more ++ m) = before ++ ['*', '\\'] := by
    obtain ⟨before, rfl⟩ := inner
    cases behind with
    | false => exact ⟨more ++ before, (List.append_assoc more before _).symm⟩
    | true => exact ⟨'*' :: (more ++ before), congrArg ('*' :: ·) (List.append_assoc more before _).symm⟩
  induction m using mask_induction generalizing behind with
  | nil => exact absurd dead ENat.zero_ne_top
  | lone =>
    cases behind with
    | false => exact absurd dead ENat.zero_ne_top
    | true => exact ⟨[], rfl⟩
  | quoted c m ih =>
    have inner : need false m = ⊤ := by
      cases behind with
      | false => exact finite dead
      | true => exact (min_eq_top.mp (finite dead)).1
    exact within ['\\', c] behind (ih false inner)
  | star m ih =>
    rw [need_star] at dead
    exact within [] behind (ih true dead)
  | char c m backslash star ih =>
    rw [need_char backslash star] at dead
    exact within [c] behind (ih false (finite dead))

theorem complete_ends (before : List Char) : complete (before ++ ['*', '\\']) = false := by
  induction before using mask_induction with
  | nil => rfl
  | lone => rfl
  | quoted c m ih => exact ih
  | star m ih => exact (complete_cons (by decide) _).trans ih
  | char c m backslash _ ih => exact (complete_cons backslash _).trans ih

theorem Twin.back (twin : Twin open_ false m m') (backslash : front m ≠ '\\') (star : front m ≠ '*') :
    Back open_ m m' := by
  cases twin with
  | nil => exact .nil
  | lone => exact absurd rfl backslash
  | quoted => exact absurd rfl backslash
  | char noBackslash noStar twin => exact .cons (.char noBackslash noStar twin) twin
  | star => exact absurd rfl star
  | starQuoted => exact absurd rfl star
  | starDead => exact absurd rfl star
  | extra => exact absurd rfl star

/-- At stars before a quoted character. -/
theorem star_quoted_agree {t t' : List Char} (twin : Twin open_ false ('\\' :: t) ('\\' :: t'))
    (backs : t ≠ [] → Backs open_ ('\\' :: t) t t') :
    Agree open_ (Scan.star open_ n ('\\' :: t)) (Scan.star open_ n ('\\' :: t')) := by
  obtain ⟨rfl, rfl⟩ | ⟨c, u, u', rfl, rfl, -⟩ := twin.behind_quote
  · exact .answer false
  · exact quoted_agree twin (fun _ => ⟨rfl, rfl⟩) fun _ _ => backs (List.cons_ne_nil c u)

/-- At stars. -/
theorem star_agree {r r' : List Char} (twin : Twin open_ marks ('*' :: r) ('*' :: r')) :
    Agree open_ (Scan.star open_ n (dropStars r)) (Scan.star open_ n (dropStars r')) := by
  cases twin with
  | char _ star => exact absurd rfl star
  | star _ plain twin =>
    have star := dropStars_front r
    unfold Scan.star
    rw [if_neg plain, if_neg (twin.front_eq star ▸ plain)]
    exact plain_agree twin plain star fun _ => .live (twin.back plain star)
  | starQuoted _ here here' quoted again =>
    rw [here, here']
    refine star_quoted_agree quoted fun more => .live ?_
    obtain ⟨rfl, -⟩ | ⟨c, u, u', rfl, rfl, -, rest⟩ := quoted.behind_quote
    · exact absurd rfl more
    · exact .cons again rest
  | @starDead _ _ _ t _ here here' quoted dead dead' =>
    rw [here, here']
    obtain ⟨before, rfl⟩ := ends_of_dead false dead
    exact star_quoted_agree quoted fun _ => .dead (complete_ends ('\\' :: before)) dead dead'
  | extra more twin => exact absurd (twin.front_eq (dropStars_front r)).symm (dropStars_front r)

theorem extra_agree {r : List Char} {quote : Bool} (more : dropStars r ≠ ['\\']) (twin : Twin open_ true (dropStars r) m') :
    Agree open_ (Scan.star open_ n (dropStars r)) (Scan.rest open_ false ⟨m', n, ma', na, wild, quote⟩) := by
  have plain := twin.plain_of_marks more
  unfold Scan.star
  rw [if_neg plain]
  exact marks_agree twin plain (dropStars_front r)

/-- A round at a character that is not special. -/
theorem step_plain (backslash : front m ≠ '\\') (star : front m ≠ '*') :
    Scan.step open_ ⟨m, n, ma, na, wild, false⟩ = Scan.rest open_ false ⟨m, n, ma, na, wild, false⟩ := by
  cases m with
  | nil => rfl
  | cons c m => exact step_char backslash star n ma na wild

theorem Near.step {s t : Scan} (near : Near open_ marks s t) : Agree open_ (s.step open_) (t.step open_) := by
  obtain ⟨m, n, ma, na, wild, quote⟩ := s
  obtain ⟨m', n', ma', na', wild', quote'⟩ := t
  obtain ⟨same, same', ahead, wild_, na_, backs⟩ := near
  obtain rfl : n' = n := same
  obtain rfl : quote' = quote := same'
  cases quote' with
  | true => exact quoted_agree ahead (fun plain => ⟨wild_ plain, na_ plain⟩) backs
  | false =>
    have twin : Twin open_ marks m m' := ahead
    have backs : marks = false → wild = true → Backs open_ m ma ma' := backs
    clear ahead
    cases twin with
    | nil =>
      obtain rfl : wild' = wild := wild_ rfl
      obtain rfl : na' = na := na_ rfl
      exact plain_agree .nil (by decide) (by decide) (backs rfl)
    | nilMarks isOpen => exact marks_agree (.nilMarks isOpen) (by decide) (by decide)
    | lone => exact .go ⟨rfl, rfl, .lone marks, wild_, na_, backs⟩
    | quoted twin => exact .go ⟨rfl, rfl, .quoted twin, wild_, na_, backs⟩
    | char backslash star twin =>
      obtain rfl : wild' = wild := wild_ rfl
      obtain rfl : na' = na := na_ rfl
      rw [step_char backslash star, step_char backslash star]
      exact plain_agree (.char backslash star twin) backslash star (backs rfl)
    | mark twin => exact marks_agree (.mark twin) (by decide : '?' ≠ '\\') (by decide : '?' ≠ '*')
    | star _ plain twin => exact star_agree (.star marks plain twin)
    | starQuoted _ here here' quoted again => exact star_agree (.starQuoted marks here here' quoted again)
    | starDead _ here here' quoted dead dead' => exact star_agree (.starDead marks here here' quoted dead dead')
    | @extra r _ more twin =>
      have star := dropStars_front r
      have first := twin.front_eq star
      have plain' : front m' ≠ '\\' := first ▸ twin.plain_of_marks more
      have star' : front m' ≠ '*' := first ▸ star
      rw [step_plain plain' star']
      exact extra_agree more twin

/-- Both come to say yes, or neither does. -/
theorem Near.ends_iff {s t : Scan} (near : Near open_ marks s t) :
    Machine.Ends (Scan.step open_) s true ↔ Machine.Ends (Scan.step open_) t true := by
  constructor
  · rintro ⟨rounds, stopped⟩
    induction rounds generalizing marks s t with
    | zero => cases stopped
    | succ rounds ih =>
      have agree := near.step
      generalize first : s.step open_ = x at agree
      generalize second : t.step open_ = y at agree
      cases agree with
      | answer result =>
        obtain rfl := Sum.inr.inj ((Machine.run_succ_inr first).symm.trans stopped)
        exact .of_inr second
      | go near => exact (ih near ((Machine.run_succ_inl first).symm.trans stopped)).before_step second
      | never no => exact absurd ⟨rounds, (Machine.run_succ_inl first).symm.trans stopped⟩ no
  · rintro ⟨rounds, stopped⟩
    induction rounds generalizing marks s t with
    | zero => cases stopped
    | succ rounds ih =>
      have agree := near.step
      generalize first : s.step open_ = x at agree
      generalize second : t.step open_ = y at agree
      cases agree with
      | answer result =>
        obtain rfl := Sum.inr.inj ((Machine.run_succ_inr second).symm.trans stopped)
        exact .of_inr first
      | go near => exact (ih near ((Machine.run_succ_inl second).symm.trans stopped)).before_step first
      | never _ no => exact absurd ⟨rounds, (Machine.run_succ_inl second).symm.trans stopped⟩ no

/-- Masks that are read alike take the same names. -/
theorem Twin.unlimited (twin : Twin open_ false m m') (n : List Char) :
    Machine.Ends (Scan.step open_) (scanStart m n) true ↔ Machine.Ends (Scan.step open_) (scanStart m' n) true :=
  Near.ends_iff ⟨rfl, rfl, twin, fun _ => rfl, fun _ => rfl, nofun⟩

end

end Ircd.Match
