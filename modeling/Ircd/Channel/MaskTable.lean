import Ircd.Channel.MaskBuf

/-!
# The table of `pretty_mask`

How a mask is written out as `nick!user@host`, and how `pretty_mask` cuts the parameter into
strings where it lies and puts it together again.
-/
namespace Ircd.Chan

/-! ### The parameter in its buffer -/

/-- The string that a pointer into the parameter points to. No pointer is the string `"*"`. -/
def partText (buf : List Char) : Option ℕ → List Char
  | none => ['*']
  | some p => (buf.drop p).takeWhile (· ≠ '\x00')

/-- `strchr` in the string that the pointer points to. -/
def strchr (buf : List Char) (part : Option ℕ) (c : Char) : Option ℕ :=
  if c ∈ partText buf part then some (part.getD 0 + (partText buf part).idxOf c) else none

/-- `check_string`, which ends the parameter at the first white space. -/
def checkIn (buf : List Char) : Option ℕ × List Char :=
  if partText buf (some 0) = [] then (none, buf)
  else
    (some 0,
      match (partText buf (some 0)).findIdx? isSpace with
      | none => buf
      | some n => buf.set n '\x00')

/-- The variables of `pretty_mask` once the parameter is cut into strings. -/
structure MaskParts where
  buf : List Char
  at_ : Option ℕ
  ex : Option ℕ
  nick : Option ℕ
  user : Option ℕ
  host : Option ℕ

/-- `pretty_mask` up to the truncation. -/
def splitIn (mask : Option ℕ) (buf : List Char) : MaskParts :=
  match strchr buf mask '@' with
  | some at_ =>
    let buf := buf.set at_ '\x00'
    match strchr buf mask '!' with
    | some ex => ⟨buf.set ex '\x00', some at_, some ex, mask, some (ex + 1), some (at_ + 1)⟩
    | none => ⟨buf, some at_, none, none, mask, some (at_ + 1)⟩
  | none =>
    match strchr buf mask '!' with
    | some ex => ⟨buf.set ex '\x00', none, some ex, mask, some (ex + 1), none⟩
    | none =>
      if (strchr buf mask '.').isSome ∧ (strchr buf mask ':').isSome then
        ⟨buf, none, none, none, none, mask⟩
      else ⟨buf, none, none, mask, none, none⟩

/-- A part that is too long is ended at its limit. The character that stood there is kept. -/
def chop (limit : ℕ) (part : Option ℕ) (buf : List Char) : Char × List Char :=
  if (partText buf part).length > limit then
    (buf.getD (part.getD 0 + limit) '\x00', buf.set (part.getD 0 + limit) '\x00')
  else ('\x00', buf)

/-- The character that `chop` has kept is put back. -/
def unchop (limit : ℕ) (part : Option ℕ) (kept : Char) (buf : List Char) : List Char :=
  if kept ≠ '\x00' then buf.set (part.getD 0 + limit) kept else buf

def putBack (place : Option ℕ) (c : Char) (buf : List Char) : List Char :=
  match place with
  | some p => buf.set p c
  | none => buf

/-- `pretty_mask` with the buffer of its parameter: what it returns, and what it leaves there. -/
def prettyMaskIn (maskPos : ℕ) (buf : List Char) : Option (List Char) × List Char :=
  let (mask, buf) := checkIn buf
  if bufSize < maskPos + ((partText buf mask).length + 5) then (none, buf)
  else
    let parts := splitIn mask buf
    let (ne, buf) := chop nickLen parts.nick parts.buf
    let (ue, buf) := chop userLen parts.user buf
    let (he, buf) := chop hostLen parts.host buf
    let pretty := partText buf parts.nick ++ ['!'] ++ partText buf parts.user ++ ['@'] ++ partText buf parts.host
    let buf := putBack parts.ex '!' (putBack parts.at_ '@' buf)
    (some pretty, unchop hostLen parts.host he (unchop userLen parts.user ue (unchop nickLen parts.nick ne buf)))

/-! ### The table -/

/-- The table in front of `pretty_mask`: how a mask is read as nick, user and host. The first `@` and the first `!` in
front of it are the separators. -/
inductive Reads : List Char → List Char → List Char → List Char → Prop where
  | full {x y z : List Char} (at_ : '@' ∉ x) (ex : '!' ∉ x) (at' : '@' ∉ y) : Reads (x ++ '!' :: (y ++ '@' :: z)) x y z
  | userHost {y z : List Char} (at_ : '@' ∉ y) (ex : '!' ∉ y) : Reads (y ++ '@' :: z) ['*'] y z
  | nickUser {x y : List Char} (at_ : '@' ∉ x) (ex : '!' ∉ x) (at' : '@' ∉ y) : Reads (x ++ '!' :: y) x y ['*']
  | host {z : List Char} (at_ : '@' ∉ z) (ex : '!' ∉ z) (dotted : '.' ∈ z ∨ ':' ∈ z) : Reads z ['*'] ['*'] z
  | nick {x : List Char} (at_ : '@' ∉ x) (ex : '!' ∉ x) (dot : '.' ∉ x) (colon : ':' ∉ x) : Reads x x ['*'] ['*']

/-- A part of the mask as it is written out. -/
def writePart (limit : ℕ) (part : List Char) : List Char := if part = [] then ['*'] else part.take limit

def writeMask (nick user host : List Char) : List Char :=
  writePart nickLen nick ++ ['!'] ++ writePart userLen user ++ ['@'] ++ writePart hostLen host

/-- The parameter with this text gives what the table says, which gives itself again, and is left as `check_string`
leaves it. -/
structure FollowsTable (maskPos : ℕ) (text rest : List Char) : Prop where
  result : ∃ nick user host, Reads (checkString text) nick user host ∧
    (prettyMaskIn maskPos (text ++ '\x00' :: rest)).1 = some (writeMask nick user host)
  again : ∀ mask, (prettyMaskIn maskPos (text ++ '\x00' :: rest)).1 = some mask →
    ∀ pos, pos + (mask.length + 5) ≤ bufSize → ∀ rest', (prettyMaskIn pos (mask ++ '\x00' :: rest')).1 = some mask
  unchanged : (prettyMaskIn maskPos (text ++ '\x00' :: rest)).2 = (checkIn (text ++ '\x00' :: rest)).2

/-! ### Strings that lie in a buffer -/

/-- The string lies at this place, with its end. -/
def Lies (buf : List Char) (p : ℕ) (text : List Char) : Prop :=
  '\x00' ∉ text ∧ ∃ post, buf.drop p = text ++ '\x00' :: post

theorem Lies.of_append {text : List Char} (clean : '\x00' ∉ text) (pre post : List Char) :
    Lies (pre ++ (text ++ '\x00' :: post)) pre.length text :=
  ⟨clean, post, List.drop_left⟩

theorem Lies.text {buf : List Char} {p : ℕ} {text : List Char} (lies : Lies buf p text) :
    partText buf (some p) = text := by
  obtain ⟨clean, post, behind⟩ := lies
  rw [partText, behind, List.takeWhile_append_of_pos]
  · rw [List.takeWhile_cons_of_neg (by decide), List.append_nil]
  · intro c inside
    have other : c ≠ '\x00' := fun same => clean (same ▸ inside)
    simp [other]

theorem Lies.getElem? {buf : List Char} {p : ℕ} {text : List Char} (lies : Lies buf p text) {i : ℕ}
    (inside : i < text.length) : buf[p + i]? = text[i]? := by
  obtain ⟨-, post, behind⟩ := lies
  rw [← List.getElem?_drop, behind, List.getElem?_append_left inside]

/-- A string stays where nothing of it is written to. -/
theorem Lies.set {buf : List Char} {p : ℕ} {text : List Char} (lies : Lies buf p text) {i : ℕ}
    (outside : i < p ∨ p + text.length < i) (c : Char) : Lies (buf.set i c) p text := by
  obtain ⟨clean, post, behind⟩ := lies
  refine ⟨clean, ?_⟩
  rw [List.drop_set]
  obtain before | after := outside
  · rw [if_pos before, behind]
    exact ⟨post, rfl⟩
  · refine ⟨post.set (i - p - (text.length + 1)) c, ?_⟩
    rw [if_neg (by omega), behind, List.set_append_right _ _ (by omega)]
    obtain ⟨n, place⟩ : ∃ n, i - p - text.length = n + 1 := ⟨i - p - text.length - 1, by omega⟩
    rw [place, List.set_cons_succ]
    congr 3
    omega

/-- A string that is ended early. -/
theorem Lies.cut {buf : List Char} {p n : ℕ} {text : List Char} (lies : Lies buf p text)
    (short : n < text.length) : Lies (buf.set (p + n) '\x00') p (text.take n) := by
  obtain ⟨clean, post, behind⟩ := lies
  refine ⟨fun inside => clean (List.mem_of_mem_take inside), text.drop (n + 1) ++ '\x00' :: post, ?_⟩
  rw [List.drop_set, if_neg (by omega), behind, Nat.add_sub_cancel_left, List.set_append_left _ _ short,
    List.set_eq_take_append_cons_drop, if_pos short, List.append_assoc]
  rfl

/-- A pointer to a part of the mask, with the text it points to. -/
def PartLies (buf : List Char) (part : Option ℕ) (text : List Char) : Prop :=
  match part with
  | none => text = ['*']
  | some p => Lies buf p text

theorem PartLies.text {buf : List Char} {part : Option ℕ} {text : List Char} (lies : PartLies buf part text) :
    partText buf part = text := by
  cases part with
  | none => exact Eq.symm lies
  | some p => exact Lies.text lies

/-- The first part ends before the second begins. -/
def Before (part : Option ℕ) (text : List Char) (part' : Option ℕ) : Prop :=
  ∀ p ∈ part, ∀ q ∈ part', p + text.length < q

/-! ### What is put back -/

/-- The buffer has end marks at the places, and elsewhere what it had before. -/
structure Marked (places : ℕ → Prop) (buf orig : List Char) : Prop where
  length : buf.length = orig.length
  same : ∀ i, ¬places i → buf[i]? = orig[i]?
  ended : ∀ i, places i → buf[i]? = some '\x00'

theorem Marked.refl (buf : List Char) : Marked (fun _ => False) buf buf := ⟨rfl, fun _ _ => rfl, fun _ => False.elim⟩

theorem Marked.mark {places : ℕ → Prop} {buf orig : List Char} (marked : Marked places buf orig) {p : ℕ}
    (inside : p < buf.length) : Marked (fun i => places i ∨ i = p) (buf.set p '\x00') orig := by
  refine ⟨by rw [List.length_set, marked.length], fun i other => ?_, fun i place => ?_⟩
  · rw [not_or] at other
    rw [List.getElem?_set_ne (Ne.symm other.2), marked.same i other.1]
  · by_cases here : i = p
    · rw [here, List.getElem?_set_self inside]
    · rw [List.getElem?_set_ne (Ne.symm here)]
      exact marked.ended i (place.resolve_right here)

/-- A place with its old character is a place no more. -/
theorem Marked.restore {places : ℕ → Prop} {buf orig : List Char} (marked : Marked places buf orig) {p : ℕ} {c : Char}
    (old : orig[p]? = some c) : Marked (fun i => places i ∧ i ≠ p) (buf.set p c) orig := by
  refine ⟨by rw [List.length_set, marked.length], fun i other => ?_, fun i place => ?_⟩
  · by_cases here : i = p
    · obtain ⟨inside, -⟩ := List.getElem?_eq_some_iff.mp old
      rw [here, List.getElem?_set_self (by rw [marked.length]; exact inside), old]
    · rw [List.getElem?_set_ne (Ne.symm here)]
      exact marked.same i fun place => other ⟨place, here⟩
  · rw [List.getElem?_set_ne (Ne.symm place.2)]
    exact marked.ended i place.1

theorem Marked.eq {buf orig : List Char} {places : ℕ → Prop} (marked : Marked places buf orig)
    (none_ : ∀ i, ¬places i) : buf = orig :=
  List.ext_getElem? fun i => marked.same i (none_ i)

/-- The optional places `at` and `ex`. -/
theorem Marked.putBack {places : ℕ → Prop} {buf orig : List Char} (marked : Marked places buf orig) {place : Option ℕ}
    {c : Char} (old : ∀ p ∈ place, orig[p]? = some c) :
    Marked (fun i => places i ∧ place ≠ some i) (putBack place c buf) orig := by
  cases place with
  | none => simpa [Chan.putBack] using marked
  | some p =>
    have restored := marked.restore (old p rfl)
    simpa [Chan.putBack, eq_comm] using restored

/-- Where a part is chopped. -/
def ChopPlace (limit : ℕ) (part : Option ℕ) (text : List Char) (i : ℕ) : Prop :=
  limit < text.length ∧ ∃ p, part = some p ∧ i = p + limit

section

variable {limit : ℕ} {part : Option ℕ} {buf orig : List Char} {text : List Char} {places : ℕ → Prop}

/-- Only a part that lies in the buffer can be too long. -/
theorem chop_cases (room : 1 ≤ limit) (lies : PartLies buf part text) :
    text.length ≤ limit ∧ chop limit part buf = ('\x00', buf) ∨
      limit < text.length ∧ ∃ p c, part = some p ∧ Lies buf p text ∧ buf[p + limit]? = some c ∧ c ≠ '\x00' ∧
        chop limit part buf = (c, buf.set (p + limit) '\x00') := by
  have same := lies.text
  by_cases long : limit < text.length
  · right
    cases part with
    | none =>
      obtain rfl : text = ['*'] := lies
      rw [List.length_singleton] at long
      omega
    | some p =>
      have here := Lies.getElem? lies long
      rw [List.getElem?_eq_getElem long] at here
      refine ⟨long, p, text[limit], rfl, lies, here, ?_, ?_⟩
      · exact fun nul => lies.1 (nul ▸ List.getElem_mem long)
      · rw [chop, same, if_pos long, Option.getD_some, List.getD_eq_getElem?_getD, here]
        rfl
  · left
    rw [chop, same, if_neg long]
    exact ⟨not_lt.mp long, rfl⟩

theorem PartLies.chop (room : 1 ≤ limit) (lies : PartLies buf part text) :
    PartLies (chop limit part buf).2 part (text.take limit) := by
  obtain ⟨short, same⟩ | ⟨long, p, c, rfl, here, -, -, same⟩ := chop_cases room lies
  · rw [same, List.take_of_length_le short]
    exact lies
  · rw [same]
    exact here.cut long

/-- Chopping a part leaves the others as they are. -/
theorem PartLies.chop_other {part' : Option ℕ} {text' : List Char} (room : 1 ≤ limit) (lies : PartLies buf part text)
    (other : PartLies buf part' text') (apart : Before part text part' ∨ Before part' text' part) :
    PartLies (Chan.chop limit part buf).2 part' text' := by
  obtain ⟨short, same⟩ | ⟨long, p, c, rfl, here, -, -, same⟩ := chop_cases room lies
  · rwa [same]
  · cases part' with
    | none => exact other
    | some q =>
      rw [same]
      apply Lies.set other
      obtain front | behind := apart
      · have := front p rfl q rfl
        omega
      · have := behind q rfl p rfl
        omega

theorem Marked.chop (room : 1 ≤ limit) (lies : PartLies buf part text) (marked : Marked places buf orig) :
    Marked (fun i => places i ∨ ChopPlace limit part text i) (chop limit part buf).2 orig := by
  obtain ⟨short, same⟩ | ⟨long, p, c, rfl, here, old, -, same⟩ := chop_cases room lies
  · rw [same]
    simpa [ChopPlace, not_lt.mpr short] using marked
  · rw [same]
    obtain ⟨inside, -⟩ := List.getElem?_eq_some_iff.mp old
    simpa [ChopPlace, long] using marked.mark inside

/-- What is put back is what was there at first. -/
theorem Marked.unchop (room : 1 ≤ limit) (lies : PartLies buf part text) (marked : Marked places buf orig)
    {places' : ℕ → Prop} {buf' : List Char} (marked' : Marked places' buf' orig) :
    Marked (fun i => places' i ∧ ¬ChopPlace limit part text i)
      (unchop limit part (Chan.chop limit part buf).1 buf') orig := by
  obtain ⟨short, same⟩ | ⟨long, p, c, rfl, here, old, some_, same⟩ := chop_cases room lies
  · rw [same, Chan.unchop, if_neg (by simp)]
    simpa [ChopPlace, not_lt.mpr short] using marked'
  · have first : orig[p + limit]? = some c := by
      rw [← marked.same, old]
      intro place
      have nul := marked.ended _ place
      rw [old] at nul
      exact some_ (Option.some.inj nul)
    rw [same, Chan.unchop, if_pos some_]
    simpa [ChopPlace, long] using marked'.restore first

end

/-! ### Cutting the mask -/

theorem cutAt_parts {c : Char} {text : List Char} (found : c ∈ text) :
    text = (cutAt c text).1 ++ c :: (cutAt c text).2 ∧ c ∉ (cutAt c text).1 := by
  constructor
  · have parts := List.takeWhile_append_dropWhile (p := (· != c)) (l := text)
    obtain ⟨d, rest, behind⟩ : ∃ d rest, text.dropWhile (· != c) = d :: rest := by
      apply List.exists_cons_of_ne_nil
      intro nothing
      rw [List.dropWhile_eq_nil_iff] at nothing
      simpa using nothing c found
    have stop := List.head?_dropWhile_not (· != c) text
    rw [behind] at parts stop
    have same : d = c := by simpa using stop
    rw [cutAt, behind, List.tail_cons, ← same]
    rw [← same] at parts
    exact parts.symm
  · intro inside
    have front := List.mem_takeWhile_imp inside
    simp at front

theorem exists_cut {c : Char} {text : List Char} (found : c ∈ text) :
    ∃ x y, cutAt c text = (x, y) ∧ text = x ++ c :: y ∧ c ∉ x :=
  ⟨_, _, rfl, cutAt_parts found⟩

theorem cutAt_eq {c : Char} {x y : List Char} (first : c ∉ x) : cutAt c (x ++ c :: y) = (x, y) := by
  have front : ∀ d ∈ x, (d != c) = true := by
    intro d inside
    have other : d ≠ c := fun same => first (same ▸ inside)
    simpa using other
  rw [cutAt, List.takeWhile_append_of_pos front, List.dropWhile_append_of_pos front,
    List.takeWhile_cons_of_neg (by simp), List.dropWhile_cons_of_neg (by simp), List.append_nil, List.tail_cons]

/-- The string is cut in two at a separator. -/
theorem Lies.cut_at {buf : List Char} {p : ℕ} {c : Char} {x y : List Char} (lies : Lies buf p (x ++ c :: y)) :
    buf[p + x.length]? = some c ∧ Lies (buf.set (p + x.length) '\x00') p x ∧
      Lies (buf.set (p + x.length) '\x00') (p + x.length + 1) y := by
  have inside : x.length < (x ++ c :: y).length := by simp
  have front := lies.cut inside
  rw [List.take_left] at front
  have here := lies.getElem? inside
  rw [List.getElem?_append_right (le_refl _), Nat.sub_self] at here
  refine ⟨here, front, ?_⟩
  obtain ⟨clean, post, behind⟩ := lies
  have back : Lies buf (p + x.length + 1) y := by
    refine ⟨fun nul => clean (by simp [nul]), post, ?_⟩
    rw [Nat.add_assoc, ← List.drop_drop, behind, List.append_assoc, ← List.drop_drop, List.drop_left]
    rfl
  exact back.set (.inl (by omega)) _

theorem strchr_eq {buf : List Char} {part : Option ℕ} {text : List Char} (lies : PartLies buf part text) (c : Char) :
    strchr buf part c = if c ∈ text then some (part.getD 0 + (cutAt c text).1.length) else none := by
  rw [strchr, lies.text]
  by_cases found : c ∈ text
  · obtain ⟨parts, first⟩ := cutAt_parts found
    have index : text.idxOf c = (cutAt c text).1.length := by
      conv_lhs => rw [parts]
      rw [List.idxOf_append_of_notMem first, List.idxOf_cons_self, Nat.add_zero]
    rw [if_pos found, if_pos found, index]
  · rw [if_neg found, if_neg found]

/-- The three strings that the mask is cut into, one behind the other. -/
structure Layout (orig : List Char) (parts : MaskParts) (nick user host : List Char) : Prop where
  nickLies : PartLies parts.buf parts.nick nick
  userLies : PartLies parts.buf parts.user user
  hostLies : PartLies parts.buf parts.host host
  nickUser : Before parts.nick nick parts.user
  userHost : Before parts.user user parts.host
  nickHost : Before parts.nick nick parts.host
  marked : Marked (fun i => parts.at_ = some i ∨ parts.ex = some i) parts.buf orig
  at_ : ∀ p ∈ parts.at_, orig[p]? = some '@'
  ex : ∀ p ∈ parts.ex, orig[p]? = some '!'

theorem before_none {part : Option ℕ} {text : List Char} : Before part text none := fun _ _ _ none_ => by cases none_

theorem none_before {part : Option ℕ} {text : List Char} : Before none text part := fun _ none_ => by cases none_

theorem Marked.congr {places places' : ℕ → Prop} {buf orig : List Char} (marked : Marked places buf orig)
    (same : ∀ i, places i ↔ places' i) : Marked places' buf orig := by
  have equal : places = places' := funext fun i => propext (same i)
  rwa [← equal]

theorem before_some {p q : ℕ} {text : List Char} (before : p + text.length < q) : Before (some p) text (some q) := by
  intro p' here q' there
  obtain rfl := Option.some.inj here
  obtain rfl := Option.some.inj there
  exact before

theorem layout_splitIn {buf : List Char} {part : Option ℕ} {mask : List Char} (lies : PartLies buf part mask) :
    Layout buf (splitIn part buf) (splitMask mask).1 (splitMask mask).2.1 (splitMask mask).2.2 := by
  rw [splitMask_eq, splitIn, strchr_eq lies]
  -- the order of `split_mask`: first the `@`, and then the `!` in what stands before it
  by_cases at_ : '@' ∈ mask
  · rw [if_pos at_, if_pos at_]
    obtain ⟨p, rfl⟩ : ∃ p, part = some p := by
      cases part with
      | none =>
        obtain rfl : mask = ['*'] := lies
        exact absurd at_ (by decide)
      | some p => exact ⟨p, rfl⟩
    obtain ⟨front, host, cutMask, rfl, first⟩ := exists_cut at_
    rw [cutMask]
    obtain ⟨atChar, frontLies, hostLies⟩ := Lies.cut_at lies
    have cut : PartLies (buf.set (p + front.length) '\x00') (some p) front := frontLies
    have marked := (Marked.refl buf).mark (List.getElem?_eq_some_iff.mp atChar).1
    dsimp only [Option.getD_some]
    rw [strchr_eq cut]
    by_cases ex : '!' ∈ front
    · rw [if_pos ex, if_pos ex]
      obtain ⟨nick, user, cutFront, rfl, first'⟩ := exists_cut ex
      rw [cutFront]
      dsimp only [Option.getD_some]
      have long : (nick ++ '!' :: user).length = nick.length + user.length + 1 := by
        simp
        omega
      obtain ⟨exChar, nickLies, userLies⟩ := Lies.cut_at frontLies
      have hostLies' := hostLies.set (i := p + nick.length) (.inl (by omega)) '\x00'
      refine ⟨nickLies, userLies, hostLies', before_some (by omega), before_some (by omega),
        before_some (by omega), ?_, ?_, ?_⟩
      · have marked' := marked.mark (List.getElem?_eq_some_iff.mp exChar).1
        exact marked'.congr fun i => by simp [eq_comm]
      · intro q here
        obtain rfl := Option.some.inj here
        exact atChar
      · intro q here
        obtain rfl := Option.some.inj here
        have apart : ¬(False ∨ p + nick.length = p + (nick ++ '!' :: user).length) := by
          rintro (⟨⟨⟩⟩ | same)
          omega
        rw [← marked.same _ apart]
        exact exChar
    · rw [if_neg ex, if_neg ex]
      dsimp only
      refine ⟨rfl, frontLies, hostLies, none_before, before_some (by omega), none_before, ?_, ?_, ?_⟩
      · exact marked.congr fun i => by simp [eq_comm]
      · intro q here
        obtain rfl := Option.some.inj here
        exact atChar
      · intro q here
        cases here
  · rw [if_neg at_, if_neg at_]
    dsimp only
    rw [strchr_eq lies]
    by_cases ex : '!' ∈ mask
    · rw [if_pos ex, if_pos ex]
      obtain ⟨p, rfl⟩ : ∃ p, part = some p := by
        cases part with
        | none =>
          obtain rfl : mask = ['*'] := lies
          exact absurd ex (by decide)
        | some p => exact ⟨p, rfl⟩
      obtain ⟨nick, user, cutMask, rfl, first⟩ := exists_cut ex
      rw [cutMask]
      dsimp only [Option.getD_some]
      obtain ⟨exChar, nickLies, userLies⟩ := Lies.cut_at lies
      have marked := (Marked.refl buf).mark (List.getElem?_eq_some_iff.mp exChar).1
      refine ⟨nickLies, userLies, rfl, before_some (by omega), before_none, before_none, ?_, ?_, ?_⟩
      · exact marked.congr fun i => by simp [eq_comm]
      · intro q here
        cases here
      · intro q here
        obtain rfl := Option.some.inj here
        exact exChar
    · rw [if_neg ex, if_neg ex]
      have untouched : Marked (fun _ => False) buf buf := Marked.refl buf
      -- no separator: a dot or a colon makes the mask a host, else it is a nick
      have found : ((strchr buf part '.').isSome ∧ (strchr buf part ':').isSome) = ('.' ∈ mask ∧ ':' ∈ mask) := by
        rw [strchr_eq lies, strchr_eq lies]
        by_cases dot : '.' ∈ mask <;> by_cases colon : ':' ∈ mask <;> simp [dot, colon]
      simp only [found]
      split_ifs
      · refine ⟨rfl, rfl, lies, none_before, none_before, none_before, untouched.congr fun i => ?_, ?_, ?_⟩
        · simp
        · intro q here
          cases here
        · intro q here
          cases here
      · refine ⟨lies, rfl, rfl, before_none, none_before, before_none, untouched.congr fun i => ?_, ?_, ?_⟩
        · simp
        · intro q here
          cases here
        · intro q here
          cases here

theorem Before.take {part part' : Option ℕ} {text : List Char} (before : Before part text part') (n : ℕ) :
    Before part (text.take n) part' := by
  intro p here q there
  have apart := before p here q there
  have shorter := List.length_take_le' n text
  omega

/-- The parts are read where they have been cut and chopped, and then everything is put back. -/
theorem Layout.chopped {orig : List Char} {parts : MaskParts} {nick user host : List Char}
    (layout : Layout orig parts nick user host) :
    let first := chop nickLen parts.nick parts.buf
    let second := chop userLen parts.user first.2
    let third := chop hostLen parts.host second.2
    partText third.2 parts.nick ++ ['!'] ++ partText third.2 parts.user ++ ['@'] ++ partText third.2 parts.host =
        nick.take nickLen ++ ['!'] ++ user.take userLen ++ ['@'] ++ host.take hostLen ∧
      unchop hostLen parts.host third.1 (unchop userLen parts.user second.1 (unchop nickLen parts.nick first.1
        (putBack parts.ex '!' (putBack parts.at_ '@' third.2)))) = orig := by
  obtain ⟨nickLies, userLies, hostLies, nickUser, userHost, nickHost, marked, at_, ex⟩ := layout
  have nickRoom : 1 ≤ nickLen := by decide
  have userRoom : 1 ≤ userLen := by decide
  have hostRoom : 1 ≤ hostLen := by decide
  -- the nick is chopped
  have nick₁ := nickLies.chop nickRoom
  have user₁ := nickLies.chop_other nickRoom userLies (.inl nickUser)
  have host₁ := nickLies.chop_other nickRoom hostLies (.inl nickHost)
  have marked₁ := marked.chop nickRoom nickLies
  -- the user is chopped
  have nick₂ := user₁.chop_other userRoom nick₁ (.inr (nickUser.take _))
  have user₂ := user₁.chop userRoom
  have host₂ := user₁.chop_other userRoom host₁ (.inl userHost)
  have marked₂ := marked₁.chop userRoom user₁
  -- the host is chopped
  have nick₃ := host₂.chop_other hostRoom nick₂ (.inr (nickHost.take _))
  have user₃ := host₂.chop_other hostRoom user₂ (.inr (userHost.take _))
  have host₃ := host₂.chop hostRoom
  have marked₃ := marked₂.chop hostRoom host₂
  have restored := Marked.unchop hostRoom host₂ marked₂ (Marked.unchop userRoom user₁ marked₁
    (Marked.unchop nickRoom nickLies marked ((marked₃.putBack at_).putBack ex)))
  refine ⟨?_, restored.eq fun i => ?_⟩
  · rw [nick₃.text, user₃.text, host₃.text]
  · tauto

theorem checkIn_spec {text : List Char} (clean : '\x00' ∉ text) (rest : List Char) :
    PartLies (checkIn (text ++ '\x00' :: rest)).2 (checkIn (text ++ '\x00' :: rest)).1 (checkString text) := by
  have lies : Lies (text ++ '\x00' :: rest) 0 text := Lies.of_append clean [] rest
  have same : partText (text ++ '\x00' :: rest) (some 0) = text := lies.text
  rw [checkIn, same, checkString]
  by_cases empty : text = []
  · rw [if_pos empty, if_pos empty]
    exact rfl
  · rw [if_neg empty, if_neg empty]
    cases space : text.findIdx? isSpace with
    | none =>
      have whole : cutSpace text = text := by
        rw [cutSpace, List.takeWhile_eq_self_iff]
        intro c inside
        simpa using List.findIdx?_eq_none_iff.mp space c inside
      rw [whole]
      exact lies
    | some n =>
      obtain ⟨inside, first⟩ := List.findIdx?_eq_some_iff_findIdx_eq.mp space
      have cut : cutSpace text = text.take n := by
        rw [cutSpace, List.takeWhile_eq_take_findIdx_not, ← first]
        simp
      have cutLies := lies.cut inside
      rw [Nat.zero_add] at cutLies
      rw [cut]
      exact cutLies

/-- With its buffer `pretty_mask` returns what it does for the text, and leaves what `check_string` does. -/
theorem prettyMaskIn_eq (maskPos : ℕ) {text : List Char} (clean : '\x00' ∉ text) (rest : List Char) :
    prettyMaskIn maskPos (text ++ '\x00' :: rest) =
      (prettyMask maskPos text, (checkIn (text ++ '\x00' :: rest)).2) := by
  have lies := checkIn_spec clean rest
  rw [prettyMaskIn, prettyMask_eq]
  generalize checkIn (text ++ '\x00' :: rest) = checked at lies ⊢
  obtain ⟨part, buf⟩ := checked
  dsimp only at lies ⊢
  rw [lies.text]
  by_cases full : bufSize < maskPos + ((checkString text).length + 5)
  · rw [if_pos full, if_pos full]
  · rw [if_neg full, if_neg full]
    have layout := layout_splitIn lies
    rw [layout.chopped.1, layout.chopped.2]

/-! ### What the table says -/

theorem splitMask_full {x y z : List Char} (at_ : '@' ∉ x) (ex : '!' ∉ x) (at' : '@' ∉ y) :
    splitMask (x ++ '!' :: (y ++ '@' :: z)) = (x, y, z) := by
  have whole : x ++ '!' :: (y ++ '@' :: z) = (x ++ '!' :: y) ++ '@' :: z := by simp
  have first : '@' ∉ x ++ '!' :: y := by simp [at_, at']
  rw [splitMask_eq, whole, if_pos (by simp), cutAt_eq first, if_pos (by simp), cutAt_eq ex]

/-- The code reads a mask as the table does, where there is a separator, or both or none of dot and colon. -/
theorem Reads.split {mask nick user host : List Char} (reads : Reads mask nick user host) :
    splitMask mask = (nick, user, host) ∨
      '@' ∉ mask ∧ '!' ∉ mask ∧ ('.' ∈ mask ∨ ':' ∈ mask) ∧ ¬('.' ∈ mask ∧ ':' ∈ mask) ∧
        splitMask mask = (mask, ['*'], ['*']) ∧ (nick, user, host) = (['*'], ['*'], mask) := by
  cases reads with
  | full at_ ex at' => exact .inl (splitMask_full at_ ex at')
  | userHost at_ ex =>
    left
    rw [splitMask_eq, if_pos (by simp), cutAt_eq at_, if_neg ex]
  | nickUser at_ ex at' =>
    left
    rw [splitMask_eq, if_neg (by simp [at_, at']), if_pos (by simp), cutAt_eq ex]
  | host at_ ex dotted =>
    by_cases both : '.' ∈ mask ∧ ':' ∈ mask
    · left
      rw [splitMask_eq, if_neg at_, if_neg ex, if_pos both]
    · refine .inr ⟨at_, ex, dotted, both, ?_, rfl⟩
      rw [splitMask_eq, if_neg at_, if_neg ex, if_neg both]
  | nick at_ ex dot colon =>
    left
    rw [splitMask_eq, if_neg at_, if_neg ex, if_neg fun both => dot both.1]

theorem exists_reads (mask : List Char) : ∃ nick user host, Reads mask nick user host := by
  by_cases at_ : '@' ∈ mask
  · obtain ⟨front, host, -, rfl, first⟩ := exists_cut at_
    by_cases ex : '!' ∈ front
    · obtain ⟨nick, user, -, rfl, first'⟩ := exists_cut ex
      rw [List.mem_append, List.mem_cons, not_or, not_or] at first
      have reads : Reads (nick ++ '!' :: (user ++ '@' :: host)) nick user host := .full first.1 first' first.2.2
      rw [List.append_assoc]
      exact ⟨nick, user, host, reads⟩
    · exact ⟨_, _, _, .userHost first ex⟩
  · by_cases ex : '!' ∈ mask
    · obtain ⟨nick, user, -, rfl, first⟩ := exists_cut ex
      rw [List.mem_append, List.mem_cons, not_or, not_or] at at_
      exact ⟨_, _, _, .nickUser at_.1 first at_.2.2⟩
    · by_cases dotted : '.' ∈ mask ∨ ':' ∈ mask
      · exact ⟨_, _, _, .host at_ ex dotted⟩
      · rw [not_or] at dotted
        exact ⟨_, _, _, .nick at_ ex dotted.1 dotted.2⟩

/-- There is text on both sides of the separators, and a mask without any has both a dot and a colon, or neither. -/
structure Regular (mask : List Char) : Prop where
  nonempty : mask ≠ []
  at_ : ∀ x y, mask = x ++ '@' :: y → '@' ∉ x → x ≠ [] ∧ y ≠ []
  ex : ∀ x y, mask = x ++ '!' :: y → '@' ∉ x → '!' ∉ x → x ≠ [] ∧ y ≠ [] ∧ y.head? ≠ some '@'
  dotted : '@' ∉ mask → '!' ∉ mask → ('.' ∈ mask ↔ ':' ∈ mask)

theorem cut_unique {c : Char} {x y x' y' : List Char} (same : x ++ c :: y = x' ++ c :: y') (first : c ∉ x)
    (first' : c ∉ x') : x = x' ∧ y = y' := by
  have cut := cutAt_eq (y := y) first
  rw [same, cutAt_eq first'] at cut
  exact ⟨(congrArg Prod.fst cut).symm, (congrArg Prod.snd cut).symm⟩

/-- In the masks that are regular every part that is given has text. -/
theorem Reads.regular_iff {mask nick user host : List Char} (reads : Reads mask nick user host) :
    Regular mask ↔ splitMask mask = (nick, user, host) ∧ nick ≠ [] ∧ user ≠ [] ∧ host ≠ [] := by
  have star : (['*'] : List Char) ≠ [] := by simp
  cases reads with
  | full at_ ex at' =>
    have front : '@' ∉ nick ++ '!' :: user := by simp [at_, at']
    -- the cut at the `@` comes first
    have whole : nick ++ '!' :: (user ++ '@' :: host) = (nick ++ '!' :: user) ++ '@' :: host := by simp
    constructor
    · intro regular
      obtain ⟨-, someHost⟩ := regular.at_ _ _ whole front
      obtain ⟨someNick, -, noAt⟩ := regular.ex _ _ rfl at_ ex
      refine ⟨splitMask_full at_ ex at', someNick, ?_, someHost⟩
      rintro rfl
      exact noAt rfl
    · rintro ⟨-, someNick, someUser, someHost⟩
      refine ⟨by simp, fun x y same first => ?_, fun x y same noAt first => ?_, fun noAt => absurd (by simp) noAt⟩
      · rw [whole] at same
        obtain ⟨rfl, rfl⟩ := cut_unique same front first
        exact ⟨by simp, someHost⟩
      · obtain ⟨rfl, rfl⟩ := cut_unique same ex first
        obtain ⟨c, user', rfl⟩ := List.exists_cons_of_ne_nil someUser
        have other : c ≠ '@' := fun same => at' (by simp [same])
        exact ⟨someNick, by simp, by simp [other]⟩
  | userHost at_ ex =>
    constructor
    · intro regular
      obtain ⟨someUser, someHost⟩ := regular.at_ _ _ rfl at_
      exact ⟨by rw [splitMask_eq, if_pos (by simp), cutAt_eq at_, if_neg ex], star, someUser, someHost⟩
    · rintro ⟨-, -, someUser, someHost⟩
      refine ⟨by simp, fun x y same first => ?_, fun x y same noAt first => ?_, fun noAt => absurd (by simp) noAt⟩
      · obtain ⟨rfl, rfl⟩ := cut_unique same at_ first
        exact ⟨someUser, someHost⟩
      · -- the first `!` is behind the `@`
        have cut := cutAt_eq (y := y) first
        have plain : ∀ c ∈ user, (c != '!') = true := by
          intro c inside
          have other : c ≠ '!' := fun same => ex (same ▸ inside)
          simpa using other
        rw [← same, cutAt, List.takeWhile_append_of_pos plain, List.takeWhile_cons_of_pos (by decide)] at cut
        have front : user ++ '@' :: host.takeWhile (· != '!') = x := congrArg Prod.fst cut
        exact absurd (by rw [← front]; simp) noAt
  | nickUser at_ ex at' =>
    have none_ : '@' ∉ nick ++ '!' :: user := by simp [at_, at']
    constructor
    · intro regular
      obtain ⟨someNick, someUser, -⟩ := regular.ex _ _ rfl at_ ex
      exact ⟨by rw [splitMask_eq, if_neg none_, if_pos (by simp), cutAt_eq ex], someNick, someUser, star⟩
    · rintro ⟨-, someNick, someUser, -⟩
      refine ⟨by simp, fun x y same first => ?_, fun x y same noAt first => ?_, fun _ noEx => absurd (by simp) noEx⟩
      · exact absurd (by rw [same]; simp) none_
      · obtain ⟨rfl, rfl⟩ := cut_unique same ex first
        exact ⟨someNick, someUser, fun head => at' (List.mem_of_head? head)⟩
  | host at_ ex dotted =>
    constructor
    · intro regular
      have both : '.' ∈ mask ∧ ':' ∈ mask := by
        have same := regular.dotted at_ ex
        tauto
      exact ⟨by rw [splitMask_eq, if_neg at_, if_neg ex, if_pos both], star, star, regular.nonempty⟩
    · rintro ⟨split_, -, -, someHost⟩
      refine ⟨someHost, fun x y same => absurd (by rw [same]; simp) at_,
        fun x y same => absurd (by rw [same]; simp) ex, fun _ _ => ?_⟩
      rw [splitMask_eq, if_neg at_, if_neg ex] at split_
      split_ifs at split_ with both
      · exact ⟨fun _ => both.2, fun _ => both.1⟩
      · have single : mask = ['*'] := congrArg Prod.fst split_
        rw [single] at dotted
        exact absurd dotted (by decide)
  | nick at_ ex dot colon =>
    constructor
    · intro regular
      exact ⟨by rw [splitMask_eq, if_neg at_, if_neg ex, if_neg fun both => dot both.1], regular.nonempty, star, star⟩
    · rintro ⟨-, someNick, -, -⟩
      exact ⟨someNick, fun x y same => absurd (by rw [same]; simp) at_,
        fun x y same => absurd (by rw [same]; simp) ex, fun _ _ => ⟨fun inside => absurd inside dot,
          fun inside => absurd inside colon⟩⟩

/-! ### The mask again -/

theorem splitMask_clean (mask : List Char) :
    '@' ∉ (splitMask mask).1 ∧ '!' ∉ (splitMask mask).1 ∧ '@' ∉ (splitMask mask).2.1 := by
  obtain ⟨nick, user, host, reads⟩ := exists_reads mask
  obtain split_ | ⟨at_, ex, -, -, split_, -⟩ := reads.split
  · rw [split_]
    cases reads with
    | full at_ ex at' => exact ⟨at_, ex, at'⟩
    | userHost at_ ex => exact ⟨by simp, by simp, at_⟩
    | nickUser at_ ex at' => exact ⟨at_, ex, at'⟩
    | host at_ ex => exact ⟨by simp, by simp, by simp⟩
    | nick at_ ex => exact ⟨at_, ex, by simp⟩
  · rw [split_]
    exact ⟨at_, ex, by simp⟩

theorem space_checkString {text : List Char} {c : Char} (inside : c ∈ checkString text) : isSpace c = false := by
  unfold checkString at inside
  split_ifs at inside
  · rw [List.mem_singleton.mp inside]
    decide
  · simpa using List.mem_takeWhile_imp inside

theorem checkString_eq {mask : List Char} (nonempty : mask ≠ []) (plain : ∀ c ∈ mask, isSpace c = false) :
    checkString mask = mask := by
  rw [checkString, if_neg nonempty, cutSpace, List.takeWhile_eq_self_iff]
  intro c inside
  rw [plain c inside]
  rfl

theorem prettyMask_again {pos maskPos : ℕ} {text mask : List Char} (pretty : prettyMask maskPos text = some mask)
    (room : pos + (mask.length + 5) ≤ bufSize) : prettyMask pos mask = some mask := by
  obtain ⟨noAt, noEx, noAt'⟩ := splitMask_clean (checkString text)
  have parts : ∀ c, c ∈ (splitMask (checkString text)).1 ∨ c ∈ (splitMask (checkString text)).2.1 ∨
      c ∈ (splitMask (checkString text)).2.2 → isSpace c = false := by
    intro c inside
    obtain mask | star := mem_of_mem_splitMask inside
    · exact space_checkString mask
    · rw [star]
      decide
  rw [prettyMask_eq] at pretty
  split_ifs at pretty
  generalize splitMask (checkString text) = split_ at noAt noEx noAt' parts pretty
  obtain ⟨nick, user, host⟩ := split_
  dsimp only at noAt noEx noAt' parts pretty
  have whole : mask = nick.take nickLen ++ '!' :: (user.take userLen ++ '@' :: host.take hostLen) := by
    rw [← Option.some.inj pretty]
    simp
  have plain : ∀ c ∈ mask, isSpace c = false := by
    intro c inside
    rw [whole, List.mem_append, List.mem_cons, List.mem_append, List.mem_cons] at inside
    obtain nick | rfl | user | rfl | host := inside
    · exact parts c (.inl (List.mem_of_mem_take nick))
    · decide
    · exact parts c (.inr (.inl (List.mem_of_mem_take user)))
    · decide
    · exact parts c (.inr (.inr (List.mem_of_mem_take host)))
  have split_ : splitMask mask = (nick.take nickLen, user.take userLen, host.take hostLen) := by
    rw [whole]
    exact splitMask_full (fun inside => noAt (List.mem_of_mem_take inside))
      (fun inside => noEx (List.mem_of_mem_take inside)) fun inside => noAt' (List.mem_of_mem_take inside)
  rw [prettyMask_eq, checkString_eq (by rw [whole]; simp) plain, if_neg (not_lt.mpr room), split_,
    List.take_take, List.take_take, List.take_take, min_self, min_self, min_self]
  exact pretty

/-! ### The code and the table -/

theorem length_writePart (limit : ℕ) (part : List Char) :
    (writePart limit part).length = (part.take limit).length + if part = [] then 1 else 0 := by
  unfold writePart
  split_ifs with empty
  · simp [empty]
  · rfl

theorem length_writeMask (nick user host : List Char) :
    (writeMask nick user host).length =
      (nick.take nickLen ++ ['!'] ++ user.take userLen ++ ['@'] ++ host.take hostLen).length +
        ((if nick = [] then 1 else 0) + (if user = [] then 1 else 0) + if host = [] then 1 else 0) := by
  simp only [writeMask, List.length_append, length_writePart, List.length_singleton]
  omega

theorem writeMask_eq {nick user host : List Char} (someNick : nick ≠ []) (someUser : user ≠ []) (someHost : host ≠ []) :
    writeMask nick user host =
      nick.take nickLen ++ ['!'] ++ user.take userLen ++ ['@'] ++ host.take hostLen := by
  rw [writeMask, writePart, writePart, writePart, if_neg someNick, if_neg someUser, if_neg someHost]

theorem Reads.of_dotted {mask nick user host : List Char} (reads : Reads mask nick user host) (at_ : '@' ∉ mask)
    (ex : '!' ∉ mask) (dotted : '.' ∈ mask ∨ ':' ∈ mask) : nick = ['*'] ∧ user = ['*'] ∧ host = mask := by
  cases reads with
  | full => exact absurd (by simp) at_
  | userHost => exact absurd (by simp) at_
  | nickUser => exact absurd (by simp) ex
  | host => exact ⟨rfl, rfl, rfl⟩
  | nick _ _ dot colon => exact (dotted.elim dot colon).elim

/-- A nick and a host alone are written differently. -/
theorem writeMask_host_ne {mask : List Char} (ex : '!' ∉ mask) (dotted : '.' ∈ mask ∨ ':' ∈ mask) :
    writeMask ['*'] ['*'] mask ≠ mask.take nickLen ++ ['!'] ++ ['*'] ++ ['@'] ++ ['*'] := by
  intro same
  have some_ : mask ≠ [] := by
    rintro rfl
    simp at dotted
  have whole : ['*'].take nickLen = ['*'] ∧ ['*'].take userLen = ['*'] := ⟨rfl, rfl⟩
  rw [writeMask_eq (by simp) (by simp) some_, whole.1, whole.2] at same
  have parts : ['*'] ++ '!' :: ('*' :: '@' :: mask.take hostLen) = mask.take nickLen ++ '!' :: ['*', '@', '*'] := by
    simpa using same
  obtain ⟨front, back⟩ := cut_unique parts (by decide) fun inside => ex (List.mem_of_mem_take inside)
  have host : mask.take hostLen = ['*'] := by simpa using back
  have length := congrArg List.length host
  have short : mask.length = 1 := by
    have limit : hostLen = 63 := rfl
    rw [List.length_take, List.length_singleton] at length
    omega
  rw [List.take_of_length_le (by rw [short]; decide)] at host
  rw [host] at dotted
  exact absurd dotted (by decide)

/-- `pretty_mask` follows its table for a parameter if and only if there is room for it in `mask_buf`, and the
parameter is a regular mask. -/
theorem followsTable_iff (maskPos : ℕ) {text : List Char} (clean : '\x00' ∉ text) (rest : List Char) :
    FollowsTable maskPos text rest ↔
      maskPos + ((checkString text).length + 5) ≤ bufSize ∧ Regular (checkString text) := by
  have code := prettyMaskIn_eq maskPos clean rest
  constructor
  · rintro ⟨⟨nick, user, host, reads, result⟩, -, -⟩
    rw [code, prettyMask_eq] at result
    split_ifs at result with full
    refine ⟨not_lt.mp full, reads.regular_iff.mpr ?_⟩
    have written := Option.some.inj result
    obtain split_ | ⟨-, ex, dotted, -, split_, parts⟩ := reads.split
    · have length := length_writeMask nick user host
      rw [← written, split_] at length
      refine ⟨split_, ?_, ?_, ?_⟩
      · rintro rfl
        simp at length
      · rintro rfl
        simp at length
      · rintro rfl
        simp at length
    · obtain ⟨rfl, rfl, rfl⟩ : nick = ['*'] ∧ user = ['*'] ∧ host = checkString text := by simpa using parts
      rw [split_] at written
      exact absurd written.symm (writeMask_host_ne ex dotted)
  · rintro ⟨room, regular⟩
    obtain ⟨nick, user, host, reads⟩ := exists_reads (checkString text)
    obtain ⟨split_, someNick, someUser, someHost⟩ := reads.regular_iff.mp regular
    refine ⟨⟨nick, user, host, reads, ?_⟩, ?_, ?_⟩
    · rw [code, prettyMask_eq, if_neg (not_lt.mpr room), split_, writeMask_eq someNick someUser someHost]
    · intro mask pretty pos space rest'
      rw [code] at pretty
      rw [prettyMaskIn_eq pos (prettyMask_clean pretty clean) rest']
      exact prettyMask_again pretty space
    · rw [code]

/-- A mask with both separators. -/
theorem followsTable_full : '\x00' ∉ "a!b@c".toList ∧ FollowsTable 0 "a!b@c".toList [] := by
  have clean : '\x00' ∉ "a!b@c".toList := by decide
  have checked : checkString "a!b@c".toList = "a!b@c".toList := by decide
  have reads : Reads "a!b@c".toList ['a'] ['b'] ['c'] :=
    Reads.full (x := ['a']) (y := ['b']) (z := ['c']) (by decide) (by decide) (by decide)
  refine ⟨clean, (followsTable_iff 0 clean []).mpr ⟨by decide, ?_⟩⟩
  rw [checked]
  exact reads.regular_iff.mpr ⟨by decide, by decide, by decide, by decide⟩

/-- A host name is taken for a nick: the code asks for a dot and a colon. -/
theorem host_taken_for_nick : ¬FollowsTable 0 "irc.example.net".toList [] := by
  rintro ⟨⟨nick, user, host, reads, result⟩, -, -⟩
  have code : (prettyMaskIn 0 ("irc.example.net".toList ++ '\x00' :: [])).1 = some "irc.exampl!*@*".toList := by
    decide +kernel
  have checked : checkString "irc.example.net".toList = "irc.example.net".toList := by decide
  rw [checked] at reads
  obtain ⟨rfl, rfl, rfl⟩ := reads.of_dotted (by decide) (by decide) (.inl (by decide))
  rw [code] at result
  exact absurd result (by decide +kernel)

end Ircd.Chan
