import Mathlib.Data.List.Forall2
import Mathlib.Data.List.Infix

/-!
# Wildcard patterns

Patterns of literals, single wildcards and stars over an arbitrary alphabet, where
literals are compared up to a relation `same`. Behind its last wildcard a pattern is
plain text, and that text is compared with the end of the string (`matches_suffix`).
-/
namespace Glob

variable {α : Type}

inductive Token (α : Type) where
  | star
  | any
  | lit (a : α)
deriving DecidableEq

section Language

variable (same : α → α → Prop)

/-- The strings a pattern stands for. -/
def Matches : List (Token α) → List α → Prop
  | [], s => s = []
  | .star :: pattern, s => ∃ front back, s = front ++ back ∧ Matches pattern back
  | .any :: pattern, s => ∃ c rest, s = c :: rest ∧ Matches pattern rest
  | .lit a :: pattern, s => ∃ c rest, s = c :: rest ∧ same a c ∧ Matches pattern rest

theorem matches_append (front back : List (Token α)) (s : List α) :
    Matches same (front ++ back) s ↔
      ∃ s₁ s₂, s = s₁ ++ s₂ ∧ Matches same front s₁ ∧ Matches same back s₂ := by
  induction front generalizing s with
  | nil => simp [Matches]
  | cons token front ih =>
    cases token with
    | star =>
      simp only [List.cons_append, Matches, ih]
      constructor
      · rintro ⟨skipped, _, rfl, s₁, s₂, rfl, left, right⟩
        exact ⟨skipped ++ s₁, s₂, by simp, ⟨skipped, s₁, rfl, left⟩, right⟩
      · rintro ⟨_, s₂, rfl, ⟨skipped, s₁, rfl, left⟩, right⟩
        exact ⟨skipped, s₁ ++ s₂, by simp, s₁, s₂, rfl, left, right⟩
    | any =>
      simp only [List.cons_append, Matches, ih]
      constructor
      · rintro ⟨c, _, rfl, s₁, s₂, rfl, left, right⟩
        exact ⟨c :: s₁, s₂, rfl, ⟨c, s₁, rfl, left⟩, right⟩
      · rintro ⟨_, s₂, rfl, ⟨c, s₁, rfl, left⟩, right⟩
        exact ⟨c, s₁ ++ s₂, rfl, s₁, s₂, rfl, left, right⟩
    | lit a =>
      simp only [List.cons_append, Matches, ih]
      constructor
      · rintro ⟨c, _, rfl, equal, s₁, s₂, rfl, left, right⟩
        exact ⟨c :: s₁, s₂, rfl, ⟨c, s₁, rfl, equal, left⟩, right⟩
      · rintro ⟨_, s₂, rfl, ⟨c, s₁, rfl, equal, left⟩, right⟩
        exact ⟨c, s₁ ++ s₂, rfl, equal, s₁, s₂, rfl, left, right⟩

/-- A pattern without wildcards is compared symbol by symbol. -/
theorem matches_lits (text s : List α) :
    Matches same (text.map .lit) s ↔ List.Forall₂ same text s := by
  induction text generalizing s with
  | nil => simp [Matches]
  | cons a text ih =>
    simp only [List.map_cons, Matches, ih]
    constructor
    · rintro ⟨c, rest, rfl, equal, tail⟩
      exact .cons equal tail
    · intro all
      cases all with
      | cons equal tail => exact ⟨_, _, rfl, equal, tail⟩

theorem matches_suffix {front : List (Token α)} {text s : List α}
    (holds : Matches same (front ++ text.map .lit) s) : ∃ tail, tail <:+ s ∧ List.Forall₂ same text tail := by
  obtain ⟨s₁, s₂, rfl, -, plain⟩ := (matches_append same _ _ s).mp holds
  exact ⟨s₂, List.suffix_append s₁ s₂, (matches_lits same text s₂).mp plain⟩

/-! ### Pieces

A pattern is pieces without stars, with stars between them. A piece fits text of its own length only, so that it is enough
to look for it where it fits first (`matches_star_piece`). -/

def Token.Fits : Token α → α → Prop
  | .star, _ => False
  | .any, _ => True
  | .lit a, c => same a c

/-- A piece, token by token. -/
def Fits : List (Token α) → List α → Prop := List.Forall₂ (Token.Fits same)

variable {same}

theorem Fits.length_eq {piece : List (Token α)} {text : List α} (fits : Fits same piece text) :
    piece.length = text.length :=
  List.Forall₂.length_eq fits

theorem Fits.star_not_mem {piece : List (Token α)} {text : List α} (fits : Fits same piece text) :
    .star ∉ piece := by
  induction fits with
  | nil => exact List.not_mem_nil
  | cons head _ ih =>
    rw [List.mem_cons, not_or]
    refine ⟨?_, ih⟩
    rintro rfl
    exact head

theorem Fits.snoc {piece : List (Token α)} {text : List α} (fits : Fits same piece text) {token : Token α} {c : α}
    (last : token.Fits same c) : Fits same (piece ++ [token]) (text ++ [c]) :=
  List.rel_append fits (.cons last .nil)

theorem matches_cons {token : Token α} (piece : token ≠ .star) (pattern : List (Token α)) (s : List α) :
    Matches same (token :: pattern) s ↔ ∃ c rest, s = c :: rest ∧ token.Fits same c ∧ Matches same pattern rest := by
  cases token with
  | star => exact absurd rfl piece
  | any => simp [Matches, Token.Fits]
  | lit a => simp [Matches, Token.Fits]

theorem matches_piece {piece : List (Token α)} (plain : .star ∉ piece) (pattern : List (Token α)) (s : List α) :
    Matches same (piece ++ pattern) s ↔ ∃ text rest, s = text ++ rest ∧ Fits same piece text ∧ Matches same pattern rest := by
  induction piece generalizing s with
  | nil =>
    constructor
    · intro holds
      exact ⟨[], s, rfl, .nil, holds⟩
    · rintro ⟨text, rest, rfl, fits, holds⟩
      cases fits
      exact holds
  | cons token piece ih =>
    rw [List.mem_cons, not_or] at plain
    rw [List.cons_append, matches_cons (Ne.symm plain.1)]
    constructor
    · rintro ⟨c, rest, rfl, head, holds⟩
      obtain ⟨text, rest, rfl, fits, holds⟩ := (ih plain.2 rest).mp holds
      exact ⟨c :: text, rest, rfl, .cons head fits, holds⟩
    · rintro ⟨text, rest, rfl, fits, holds⟩
      cases fits with
      | cons head fits => exact ⟨_, _, rfl, head, (ih plain.2 _).mpr ⟨_, _, rfl, fits, holds⟩⟩

theorem Fits.matches_append {piece : List (Token α)} {text : List α} (fits : Fits same piece text)
    (pattern : List (Token α)) (s : List α) :
    Matches same (piece ++ pattern) (text ++ s) ↔ Matches same pattern s := by
  rw [matches_piece fits.star_not_mem]
  constructor
  · rintro ⟨text', rest, whole, fits', holds⟩
    obtain ⟨-, rfl⟩ := List.append_inj whole (fits.length_eq.symm.trans fits'.length_eq)
    exact holds
  · exact fun holds => ⟨text, s, rfl, fits, holds⟩

/-- A star is looked for at every end of the text. -/
theorem matches_star (pattern : List (Token α)) (s : List α) :
    Matches same (.star :: pattern) s ↔ ∃ back, back <:+ s ∧ Matches same pattern back := by
  constructor
  · rintro ⟨front, back, rfl, holds⟩
    exact ⟨back, List.suffix_append _ _, holds⟩
  · rintro ⟨back, ⟨front, rfl⟩, holds⟩
    exact ⟨front, back, rfl, holds⟩

theorem matches_star_of_suffix {pattern : List (Token α)} {s back : List α} (suffix : back <:+ s)
    (holds : Matches same (.star :: pattern) back) : Matches same (.star :: pattern) s := by
  obtain ⟨rest, inner, holds⟩ := (matches_star _ _).mp holds
  exact (matches_star _ _).mpr ⟨rest, inner.trans suffix, holds⟩

theorem matches_star_star (pattern : List (Token α)) (s : List α) :
    Matches same (.star :: .star :: pattern) s ↔ Matches same (.star :: pattern) s := by
  rw [matches_star]
  constructor
  · rintro ⟨back, suffix, holds⟩
    exact matches_star_of_suffix suffix holds
  · exact fun holds => ⟨s, List.suffix_refl s, holds⟩

/-- Where the pattern does not match, the star takes the next character. -/
theorem matches_star_cons {pattern : List (Token α)} {c : α} {s : List α} (failed : ¬Matches same pattern (c :: s)) :
    Matches same (.star :: pattern) (c :: s) ↔ Matches same (.star :: pattern) s := by
  constructor
  · intro holds
    obtain ⟨back, suffix, holds⟩ := (matches_star _ _).mp holds
    obtain rfl | suffix := List.suffix_cons_iff.mp suffix
    · exact absurd holds failed
    · exact (matches_star _ _).mpr ⟨back, suffix, holds⟩
  · exact matches_star_of_suffix (List.suffix_cons c s)

/-- A piece between two stars is best taken where it fits first: what is behind it has most room then. -/
theorem matches_star_piece {piece : List (Token α)} {text : List α} (fits : Fits same piece text)
    (pattern : List (Token α)) (s : List α) :
    Matches same (.star :: (piece ++ .star :: pattern)) (text ++ s) ↔ Matches same (.star :: pattern) s := by
  constructor
  · intro holds
    obtain ⟨back, suffix, holds⟩ := (matches_star _ _).mp holds
    obtain ⟨text', rest, rfl, fits', holds⟩ := (matches_piece fits.star_not_mem _ _).mp holds
    have short : rest.length ≤ s.length := by
      have lengths := suffix.length_le
      rw [List.length_append, List.length_append, ← fits.length_eq, ← fits'.length_eq] at lengths
      exact Nat.le_of_add_le_add_left lengths
    have inner := List.suffix_of_suffix_length_le ((List.suffix_append text' rest).trans suffix)
      (List.suffix_append text s) short
    exact matches_star_of_suffix inner holds
  · intro holds
    exact matches_star_of_suffix (List.suffix_refl _) ((matches_star _ _).mpr
      ⟨text ++ s, List.suffix_refl _, (fits.matches_append _ _).mpr holds⟩)

/-- A pattern that needs a character behind its piece does not match where the text ends with the piece. -/
theorem not_matches_of_fits {piece : List (Token α)} {text : List α} (fits : Fits same piece text) {token : Token α}
    (real : token ≠ .star) (pattern : List (Token α)) : ¬Matches same (.star :: (piece ++ token :: pattern)) text := by
  intro holds
  obtain ⟨back, suffix, holds⟩ := (matches_star _ _).mp holds
  obtain ⟨text', rest, rfl, fits', holds⟩ := (matches_piece fits.star_not_mem _ _).mp holds
  obtain ⟨c, rest, rfl, -, -⟩ := (matches_cons real _ _).mp holds
  have short := suffix.length_le
  rw [List.length_append, ← fits.length_eq, ← fits'.length_eq, List.length_cons] at short
  omega

theorem matches_anys (n : ℕ) (s : List α) :
    Matches same (List.replicate n .any) s ↔ s.length = n := by
  induction n generalizing s with
  | zero => simp [Matches]
  | succ n ih =>
    rw [List.replicate_succ]
    cases s with
    | nil => simp [Matches]
    | cons c s => simp [Matches, ih]

theorem matches_star_anys {n : ℕ} {s : List α} (room : n ≤ s.length) :
    Matches same (.star :: List.replicate n .any) s := by
  refine (matches_star _ _).mpr ⟨s.drop (s.length - n), List.drop_suffix _ _, (matches_anys n _).mpr ?_⟩
  rw [List.length_drop]
  omega

/-- What is behind the last star. -/
theorem eq_of_last_star {front front' back back' : List (Token α)} (plain : .star ∉ back) (plain' : .star ∉ back')
    (same_ : front ++ .star :: back = front' ++ .star :: back') : back = back' := by
  obtain ⟨mid, rfl, tail⟩ | ⟨mid, rfl, tail⟩ := List.append_eq_append_iff.mp same_
  · cases mid with
    | nil => exact (List.cons.inj tail).2
    | cons token mid =>
      rw [List.cons_append] at tail
      rw [(List.cons.inj tail).2] at plain
      exact absurd (List.mem_append_right _ List.mem_cons_self) plain
  · cases mid with
    | nil => exact (List.cons.inj tail).2.symm
    | cons token mid =>
      rw [List.cons_append] at tail
      rw [(List.cons.inj tail).2] at plain'
      exact absurd (List.mem_append_right _ List.mem_cons_self) plain'

end Language

/-! ### Deciding -/

section Decide

variable (same : α → α → Prop) [DecidableRel same]

def run : List (Token α) → List α → Bool
  | [], s => s.isEmpty
  | .star :: pattern, s => s.tails.any (run pattern)
  | .any :: _, [] => false
  | .any :: pattern, _ :: rest => run pattern rest
  | .lit _ :: _, [] => false
  | .lit a :: pattern, c :: rest => decide (same a c) && run pattern rest

theorem run_iff (pattern : List (Token α)) (s : List α) :
    run same pattern s = true ↔ Matches same pattern s := by
  induction pattern generalizing s with
  | nil => simp [run, Matches]
  | cons token pattern ih =>
    cases token with
    | star =>
      simp only [run, Matches, List.any_eq_true, List.mem_tails, ih]
      constructor
      · rintro ⟨back, ⟨front, rfl⟩, holds⟩
        exact ⟨front, back, rfl, holds⟩
      · rintro ⟨front, back, rfl, holds⟩
        exact ⟨back, ⟨front, rfl⟩, holds⟩
    | any => cases s <;> simp [run, Matches, ih]
    | lit a => cases s <;> simp [run, Matches, ih]

end Decide

end Glob
