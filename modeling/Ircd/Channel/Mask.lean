import Ircd.Channel.State

/-!
# Masks and keys

How `src/channel_mode.c` cleans up what a MODE brings, and `match` and `collapse` of
`src/match.c`.
-/
namespace Ircd.Chan

/-! ### Masks -/

/-- What `check_string` leaves of its argument: the text in front of the first white space. -/
def cutSpace (text : List Char) : List Char := text.takeWhile fun c => !isSpace c

/-- `check_string`. -/
def checkString (text : List Char) : List Char := if text = [] then ['*'] else cutSpace text

/-- Text cut at the first `c`, as `strchr` finds it. -/
def cutAt (c : Char) (text : List Char) : List Char × List Char :=
  (text.takeWhile (· != c), (text.dropWhile (· != c)).tail)

/-- The nick, user and host of a mask. What is not given is a star. -/
def splitMask (mask : List Char) : List Char × List Char × List Char :=
  if '@' ∈ mask then
    let (front, host) := cutAt '@' mask
    if '!' ∈ front then ((cutAt '!' front).1, (cutAt '!' front).2, host) else (['*'], front, host)
  else if '!' ∈ mask then ((cutAt '!' mask).1, (cutAt '!' mask).2, ['*'])
  else if '.' ∈ mask ∧ ':' ∈ mask then (['*'], ['*'], mask)
  else (mask, ['*'], ['*'])

/-- `pretty_mask`, with `mask_pos` characters of `mask_buf` in use. There is no result when
the rest of `mask_buf` is too small. -/
def prettyMask (maskPos : ℕ) (text : List Char) : Option (List Char) :=
  let mask := checkString text
  if bufSize < maskPos + (mask.length + 5) then none
  else
    let (nick, user, host) := splitMask mask
    some (nick.take nickLen ++ ['!'] ++ user.take userLen ++ ['@'] ++ host.take hostLen)

/-- The loop of `collapse`; `star` says that the last character was a star, and `quote` that
it was a backslash. -/
def collapseLoop : Bool → Bool → List Char → List Char
  | _, _, [] => []
  | star, quote, c :: pattern =>
    if !quote && c == '*' then (if star then [] else ['*']) ++ collapseLoop true quote pattern
    else if !quote && c == '\\' then '\\' :: collapseLoop star true pattern
    else c :: collapseLoop false false pattern

/-- `collapse`. -/
def collapse (pattern : List Char) : List Char := collapseLoop false false pattern

/-! ### Matching -/

/-- The variables of `match`; the pointers are positions in the two strings. -/
structure MatchVars where
  m : ℕ
  n : ℕ
  ma : ℕ
  na : ℕ
  wild : Bool
  quote : ℕ

/-- What a pointer to the inside of a string points to. -/
def charAt (text : List Char) (i : ℕ) : Char := text.getD i '\x00'

/-- The position behind the stars at position `i`. -/
def skipStars (mask : List Char) (i : ℕ) : ℕ := i + ((mask.drop i).takeWhile (· == '*')).length

/-- Where the pattern goes back over question marks, from the position in front of `i`. -/
def backOverAny (mask : List Char) : ℕ → ℕ
  | 0 => 0
  | i + 1 => if i > 0 ∧ charAt mask i = '?' then backOverAny mask i else i

/-- The comparison of two characters at the end of a round. -/
def matchChar (mask name : List Char) (v : MatchVars) : Option MatchVars :=
  let m := charAt mask v.m
  let n := charAt name v.n
  if toLower m ≠ toLower n ∧ ¬ (v.quote = 0 ∧ m = '?') then
    if v.wild then some { v with m := v.ma, n := v.na + 1, na := v.na + 1 } else none
  else
    some { v with
      m := if m ≠ '\x00' then v.m + 1 else v.m
      n := if n ≠ '\x00' then v.n + 1 else v.n }

/-- What follows the star in one round. The pattern may be at its end, or the string. -/
def matchRest (mask name : List Char) (v : MatchVars) : Sum Bool MatchVars :=
  let compared := fun (v : MatchVars) =>
    match matchChar mask name v with
    | none => Sum.inl false
    | some v => Sum.inr v
  if charAt mask v.m = '\x00' then
    if charAt name v.n = '\x00' then .inl true
    -- the pattern is at its end, and the string is not
    else if v.quote ≠ 0 then .inl false
    else
      let back := backOverAny mask v.m
      if charAt mask back = '*' ∧ back > 0 then .inl true
      else if !v.wild then .inl false
      else compared { v with m := v.ma, n := v.na + 1, na := v.na + 1 }
  else if charAt name v.n = '\x00' then
    -- the string is at its end: stars may follow
    if v.quote ≠ 0 then .inl false
    else .inl (charAt mask (skipStars mask v.m) = '\x00')
  else compared v

/-- The loop of `match`. -/
def matchLoop (mask name : List Char) : ℕ → MatchVars → Bool
  | 0, _ => false
  | calls + 1, v =>
    -- `quote` counts the rounds, and is dropped at 3
    let quote := if v.quote = 0 then 0 else if v.quote + 1 = 3 then 0 else v.quote + 1
    if charAt mask v.m = '\\' ∧ quote = 0 then
      matchLoop mask name calls { v with m := v.m + 1, quote := 1 }
    else
      let starred : Option MatchVars :=
        if quote = 0 ∧ charAt mask v.m = '*' then
          let m := skipStars mask v.m
          if charAt mask m = '\\' then
            if charAt mask (m + 1) = '\x00' then none
            else some { m := m + 1, n := v.n, ma := m + 1, na := v.n, wild := true, quote := 2 }
          else some { m := m, n := v.n, ma := m, na := v.n, wild := true, quote := quote }
        else some { v with quote := quote }
      match starred with
      | none => false
      | some v =>
        match matchRest mask name v with
        | .inl result => result
        | .inr v => matchLoop mask name calls v

/-- `MATCH_MAX_CALLS`. -/
def matchMaxCalls : ℕ := 512

/-- `match`. -/
def ircMatch (mask name : List Char) : Bool :=
  matchLoop mask name matchMaxCalls ⟨0, 0, 0, 0, false, 0⟩

/-! ### Keys -/

/-- `c & 0x7f`. -/
def sevenBits (c : Char) : Char := Char.ofNat (c.toNat % 128)

/-- `fix_key`. -/
def fixKey (key : List Char) : List Char :=
  (key.map sevenBits).filter fun c => decide (c ≠ ':' ∧ ' ' < c)

/-- `fix_key_old`. A character that loses its only bit ends the key. -/
def fixKeyOld (key : List Char) : List Char :=
  ((key.map sevenBits).filter fun c => decide (c ≠ '\n' ∧ c ≠ ':' ∧ c ≠ '\r')).takeWhile
    (· != '\x00')

end Ircd.Chan
