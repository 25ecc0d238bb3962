import Ircd.Match.Answer

/-!
# Masks without backslashes

`match` reads them as wildcard patterns (`ircMatch_iff`). Its limit changes the answer for names that match, and only
there: the mask must have a long piece between its stars (`limit_only_refuses`).
-/
namespace Ircd.Match

open Chan
open Hostmask (SameChar tokenOf)
open Glob (Matches)

/-- No piece of the mask without stars is longer. -/
def Pieces (size : ℕ) (mask : List Char) : Prop := ∀ piece, piece <:+: mask → '*' ∉ piece → piece.length ≤ size

section

variable {mask name : List Char}

theorem plain_tail {c : Char} (plain : '\\' ∉ c :: mask) : c ≠ '\\' ∧ '\\' ∉ mask := by
  rw [List.mem_cons, not_or] at plain
  exact ⟨plain.1 ∘ Eq.symm, plain.2⟩

theorem reading_plain (plain : '\\' ∉ mask) : reading mask = mask.map tokenOf := by
  induction mask with
  | nil => rfl
  | cons c mask ih =>
    obtain ⟨head, tail⟩ := plain_tail plain
    rw [reading_cons head, ih tail, List.map_cons]

theorem quotedEnd_plain (plain : '\\' ∉ mask) : quotedEnd mask = false := by
  induction mask with
  | nil => rfl
  | cons c mask ih =>
    obtain ⟨head, tail⟩ := plain_tail plain
    rw [quotedEnd_cons head, ih tail]

theorem behindStar_plain (plain : '\\' ∉ mask) : behindStar mask = true := by
  cases mask with
  | nil => rfl
  | cons c mask => simp [behindStar, (plain_tail plain).1]

theorem sound_plain (plain : '\\' ∉ mask) : Sound mask := by
  induction mask with
  | nil => exact ⟨rfl, rfl⟩
  | cons c mask ih =>
    obtain ⟨head, tail⟩ := plain_tail plain
    refine ⟨(complete_cons head _).trans (ih tail).complete, ?_⟩
    by_cases star : c = '*'
    · subst star
      rw [restarts, behindStar_plain tail, (ih tail).restarts, Bool.and_self]
    · exact (restarts_cons head star _).trans (ih tail).restarts

/-- The matcher is never farther behind its anchor than a piece is long. -/
theorem span_plain {size : ℕ} (plain : '\\' ∉ mask) (pieces : Pieces size mask) {all : Prop}
    {pattern : List (Glob.Token Char)} {s : Scan} (inv : s.Inv all pattern) (root : s.ma <:+ mask) :
    s.ma.length ≤ s.m.length + size := by
  obtain ⟨piece, ahead, text, track, here, -⟩ := inv.track
  have inner : '\\' ∉ s.ma := fun inside => plain (root.mem inside)
  have inside : '\\' ∉ s.m := fun inside => inner (track.inside.mem inside)
  have whole : piece ++ ahead = s.ma.map tokenOf := by
    have anchored := track.anchored
    rw [← reading_plain inner]
    generalize s.wild = w, s.na = na, s.ma = ma, piece ++ ahead = pattern' at anchored
    cases anchored <;> rfl
  have left : ahead.length = s.m.length := by
    generalize s.quote = q, s.m = m at here inside
    cases here with
    | plain sound => rw [reading_plain inside, List.length_map]
    | quoted sound => rw [List.length_cons, reading_plain (plain_tail inside).2, List.length_map, List.length_cons]
  have total := congrArg List.length whole
  rw [List.length_append, List.length_map, left] at total
  have short : piece.length ≤ size := by
    have front : piece = (s.ma.take piece.length).map tokenOf := by
      rw [List.map_take, ← whole, List.take_left]
    have length := congrArg List.length front
    rw [List.length_map] at length
    rw [length]
    refine pieces _ ((List.take_prefix _ _).isInfix.trans root.isInfix) fun star => track.fits.star_not_mem ?_
    rw [front]
    exact List.mem_map_of_mem star
  omega

/-- Without its limit `match` says whether the mask stands for the name. -/
theorem unlimited_plain (plain : '\\' ∉ mask) (maskClean : '\x00' ∉ mask) (nameClean : '\x00' ∉ name) :
    Unlimited mask name (Glob.run SameChar (mask.map tokenOf) name) := by
  rw [← reading_plain plain]
  exact unlimited_reads (sound_plain plain) (quotedEnd_plain plain) maskClean nameClean

/-- With the limit it says so as well, or it says no. -/
theorem ircMatch_of_unlimited {answer : Bool} (unlimited : Unlimited mask name answer) :
    (Answered mask name ∧ ircMatch mask name = answer) ∨ (¬Answered mask name ∧ ircMatch mask name = false) := by
  have limited := matchLoop_run mask name matchMaxCalls matchStart
  cases here : Machine.run (matchStep mask name) matchMaxCalls matchStart with
  | inl v =>
    refine .inr ⟨?_, ?_⟩
    · rintro ⟨answer, there⟩
      rw [here] at there
      cases there
    · rw [here] at limited
      exact limited
  | inr answer' =>
    have same := unlimited.unique ⟨_, here⟩
    rw [here] at limited
    exact .inl ⟨⟨answer', here⟩, limited.trans same.symm⟩

end

/-- Where `match` comes to its end, it says whether the mask stands for the name. -/
theorem ircMatch_iff (mask name : List Char) (plain : '\\' ∉ mask) (maskClean : '\x00' ∉ mask)
    (nameClean : '\x00' ∉ name) (answered : Answered mask name) :
    ircMatch mask name = true ↔ Matches SameChar (mask.map tokenOf) name := by
  obtain ⟨-, same⟩ | ⟨stuck, -⟩ := ircMatch_of_unlimited (unlimited_plain plain maskClean nameClean)
  · rw [same, Glob.run_iff]
  · exact absurd answered stuck

theorem ircMatch_iff_ban : ircMatch ['*', '!', '?', 'a', '*'] ['b', '!', 'x', 'A', 'c'] = true ↔
    Matches SameChar (['*', '!', '?', 'a', '*'].map tokenOf) ['b', '!', 'x', 'A', 'c'] :=
  ircMatch_iff _ _ (by decide) (by decide) (by decide) ⟨true, rfl⟩

/-- The limit never lets a name match that does not. It hides a match exactly where the rounds do not suffice, and they
suffice for short pieces. -/
theorem limit_only_refuses (mask name : List Char) (plain : '\\' ∉ mask) (maskClean : '\x00' ∉ mask)
    (nameClean : '\x00' ∉ name) :
    ∃ answer, Unlimited mask name answer ∧ (ircMatch mask name = true → answer = true) ∧
      (ircMatch mask name ≠ answer ↔ answer = true ∧ ¬Answered mask name) ∧
      ∀ size, Pieces size mask → (name.length + 1) * (size + 1) ≤ matchMaxCalls → ircMatch mask name = answer := by
  have unlimited := unlimited_plain plain maskClean nameClean
  refine ⟨_, unlimited, ?_, ?_, fun size pieces enough => ?_⟩
  · intro holds
    obtain ⟨-, same⟩ | ⟨-, refused⟩ := ircMatch_of_unlimited unlimited
    · exact same.symm.trans holds
    · rw [refused] at holds
      cases holds
  · obtain ⟨answered, same⟩ | ⟨stuck, refused⟩ := ircMatch_of_unlimited unlimited
    · exact iff_of_false (not_not.mpr same) fun limit => limit.2 answered
    · rw [refused, and_iff_left stuck]
      cases Glob.run SameChar (mask.map tokenOf) name <;> simp
  · have run := run_answers (sound_plain plain) (quotedEnd_plain plain) maskClean nameClean
      (fun t inv root => span_plain plain pieces inv root) enough
    obtain ⟨-, same⟩ | ⟨stuck, -⟩ := ircMatch_of_unlimited unlimited
    · exact same
    · exact absurd ⟨_, run⟩ stuck

/-- A ban on a host, as it comes in a MODE. -/
def longBan : List Char := ['*', '@', '*'] ++ List.replicate 30 'a' ++ ['b']

def longNick : List Char := ['n']

def longUser : List Char := ['u']

/-- A host that the ban is for. -/
def longHost : List Char := List.replicate 62 'a' ++ ['b']

def longName : List Char := longNick ++ ['!'] ++ longUser ++ ['@'] ++ longHost

/-- The ban does not hold the client with the long host. -/
theorem ban_evaded :
    ∃ mask, prettyMask 0 longBan = some mask ∧ '\\' ∉ mask ∧ longNick.length ≤ nickLen ∧
      longUser.length ≤ userLen ∧ longHost.length ≤ hostLen ∧ Unlimited mask longName true ∧
      ircMatch mask longName = false := by
  have plain : '\\' ∉ ['*', '!'] ++ longBan := by decide
  have unlimited := unlimited_plain plain (by decide) (show '\x00' ∉ longName by decide)
  have holds : Glob.run SameChar ((['*', '!'] ++ longBan).map tokenOf) longName = true := by decide +kernel
  rw [holds] at unlimited
  refine ⟨['*', '!'] ++ longBan, ?_, plain, by decide, by decide, by decide, unlimited, ?_⟩
  · decide +kernel
  · decide +kernel

theorem limit_only_refuses_longName :
    ∃ answer, Unlimited longBan longName answer ∧ (ircMatch longBan longName = true → answer = true) ∧
      (ircMatch longBan longName ≠ answer ↔ answer = true ∧ ¬Answered longBan longName) ∧
      ∀ size, Pieces size longBan → (longName.length + 1) * (size + 1) ≤ matchMaxCalls →
        ircMatch longBan longName = answer :=
  limit_only_refuses longBan longName (by decide) (by decide) (by decide)

end Ircd.Match
