import Mathlib.Data.List.Nodup
import Mathlib.Logic.Function.Basic

/-!
# First occurrences

What a walk along a list comes to for the first time, with what has been seen before left out.
-/
namespace Ircd

variable {α : Type*} [DecidableEq α]

/-- The first occurrences of what has not been seen. -/
def fresh (seen : α → Bool) : List α → List α
  | [] => []
  | a :: l => if seen a then fresh seen l else a :: fresh (Function.update seen a true) l

variable {seen seen' : α → Bool} {l l₁ l₂ : List α} {a : α}

@[simp] theorem mem_fresh : a ∈ fresh seen l ↔ a ∈ l ∧ seen a = false := by
  induction l generalizing seen with
  | nil => simp [fresh]
  | cons b l ih =>
    rw [fresh]
    by_cases same : a = b
    · subst same
      cases old : seen a <;> simp [ih, old]
    · cases old : seen b <;> simp [ih, same]

theorem fresh_nodup : (fresh seen l).Nodup := by
  induction l generalizing seen with
  | nil => exact List.nodup_nil
  | cons b l ih =>
    rw [fresh]
    split
    · exact ih
    · exact List.nodup_cons.mpr ⟨by simp, ih⟩

/-- Only what has been seen of the list matters. -/
theorem fresh_congr (same : ∀ a ∈ l, seen a = seen' a) : fresh seen l = fresh seen' l := by
  induction l generalizing seen seen' with
  | nil => rfl
  | cons b l ih =>
    have behind : ∀ a ∈ l, seen a = seen' a := fun a member => same a (List.mem_cons_of_mem b member)
    rw [fresh, fresh, same b List.mem_cons_self, ih behind]
    congr 2
    apply ih
    intro a member
    by_cases first : a = b
    · simp [first]
    · simp [first, behind a member]

theorem fresh_append :
    fresh seen (l₁ ++ l₂) = fresh seen l₁ ++ fresh (fun a => seen a || decide (a ∈ l₁)) l₂ := by
  induction l₁ generalizing seen with
  | nil => simp [fresh]
  | cons b l ih =>
    rw [List.cons_append, fresh, fresh]
    have later : fresh (fun a => seen a || decide (a ∈ b :: l)) l₂ =
        fresh (fun a => Function.update seen b true a || decide (a ∈ l)) l₂ := by
      apply fresh_congr
      intro a _
      by_cases first : a = b <;> simp [first]
    rw [later]
    split
    next old =>
      rw [ih]
      congr 1
      apply fresh_congr
      intro a _
      by_cases first : a = b <;> simp [first, old]
    · rw [ih, List.cons_append]

end Ircd
