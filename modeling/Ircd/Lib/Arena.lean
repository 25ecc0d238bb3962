import Mathlib.Data.List.Basic
import Mathlib.Logic.Function.Basic

/-!
# Strings in a buffer

Strings with an end mark in the cells of a buffer. What is written behind a string, or in front of it, leaves it
as it is.
-/
namespace Arena

variable {α : Type} (nul : α)

/-- The string lies at this place, with the mark behind it. -/
structure Holds (cells : ℕ → α) (p : ℕ) (text : List α) : Prop where
  clean : nul ∉ text
  cell : ∀ i, i ≤ text.length → cells (p + i) = text.getD i nul

/-- The string and the mark are written. -/
def write (cells : ℕ → α) (p : ℕ) (text : List α) (i : ℕ) : α :=
  if p ≤ i ∧ i ≤ p + text.length then text.getD (i - p) nul else cells i

variable {nul}

theorem write_of_lt (cells : ℕ → α) {p i : ℕ} (text : List α) (front : i < p) :
    write nul cells p text i = cells i :=
  if_neg fun inside => absurd inside.1 (Nat.not_le.mpr front)

theorem holds_write (cells : ℕ → α) (p : ℕ) {text : List α} (clean : nul ∉ text) :
    Holds nul (write nul cells p text) p text := by
  refine ⟨clean, fun i inside => ?_⟩
  rw [write, if_pos ⟨Nat.le_add_right _ _, Nat.add_le_add_left inside _⟩, Nat.add_sub_cancel_left]

theorem Holds.congr {cells cells' : ℕ → α} {p : ℕ} {text : List α} (holds : Holds nul cells p text)
    (same : ∀ i, i ≤ p + text.length → cells' i = cells i) : Holds nul cells' p text :=
  ⟨holds.clean, fun i inside => (same _ (Nat.add_le_add_left inside _)).trans (holds.cell i inside)⟩

end Arena
