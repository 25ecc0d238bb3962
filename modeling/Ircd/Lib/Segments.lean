import Ircd.Lib.DoublyLinked

/-!
# Segments of doubly linked lists

A list that runs both ways, cut into pieces: each piece has something in front of it and something behind it. A piece
is changed at its ends only.
-/
namespace Ircd

variable {α : Type}

/-- The entries point to one another, the first one back to `before` and the last one on to `after`. -/
def IsSegment (next prev : α → Option α) : Option α → List α → Option α → Prop
  | _, [], _ => True
  | before, a :: l, after => prev a = before ∧ next a = l.head?.or after ∧ IsSegment next prev (some a) l after

variable {next prev next' prev' : α → Option α} {before after : Option α} {l l' : List α}

theorem isSegment_append : IsSegment next prev before (l ++ l') after ↔
    IsSegment next prev before l (l'.head?.or after) ∧ IsSegment next prev (l.getLast?.or before) l' after := by
  induction l generalizing before with
  | nil => simp [IsSegment]
  | cons a l ih =>
    have last : (a :: l).getLast?.or before = l.getLast?.or (some a) := by
      rw [List.getLast?_cons]
      cases l.getLast? <;> rfl
    have first : (l ++ l').head?.or after = l.head?.or (l'.head?.or after) := by
      rw [List.head?_append, Option.or_assoc]
    rw [List.cons_append, IsSegment, IsSegment, ih, last, first]
    tauto

theorem IsSegment.congr (segment : IsSegment next prev before l after)
    (same : ∀ a ∈ l, next' a = next a ∧ prev' a = prev a) : IsSegment next' prev' before l after := by
  induction l generalizing before with
  | nil => trivial
  | cons a l ih =>
    obtain ⟨back, on, rest⟩ := segment
    obtain ⟨sameNext, samePrev⟩ := same a List.mem_cons_self
    exact ⟨samePrev.trans back, sameNext.trans on, ih rest fun b member => same b (List.mem_cons_of_mem a member)⟩

theorem IsSegment.next_eq {a : α} (segment : IsSegment next prev before (l ++ a :: l') after) :
    next a = l'.head?.or after := (isSegment_append.mp segment).2.2.1

theorem IsSegment.prev_eq {a : α} (segment : IsSegment next prev before (l ++ a :: l') after) :
    prev a = l.getLast?.or before := (isSegment_append.mp segment).2.1

section

variable [DecidableEq α]

theorem setLink_outside {links : α → Option α} {entry value : Option α} {a : α} (outside : a ∉ l)
    (inside : ∀ b, entry = some b → b ∈ l) : setLink links entry value a = links a :=
  setLink_of_ne fun equal => outside (inside a equal)

/-- The first entry gets something else in front of it. -/
theorem IsSegment.setBefore (segment : IsSegment next prev before l after) (nodup : l.Nodup) (new : Option α) :
    IsSegment next (setLink prev l.head? new) new l after := by
  cases l with
  | nil => trivial
  | cons a l =>
    obtain ⟨-, on, rest⟩ := segment
    refine ⟨setLink_self .., on, rest.congr fun b member => ⟨rfl, setLink_of_ne ?_⟩⟩
    rintro ⟨⟩
    exact (List.nodup_cons.mp nodup).1 member

/-- The last entry gets something else behind it. -/
theorem IsSegment.setAfter (segment : IsSegment next prev before l after) (nodup : l.Nodup) (new : Option α) :
    IsSegment (setLink next l.getLast? new) prev before l new := by
  induction l generalizing before with
  | nil => trivial
  | cons a l ih =>
    obtain ⟨back, on, rest⟩ := segment
    obtain ⟨outside, nodup⟩ := List.nodup_cons.mp nodup
    cases l with
    | nil => exact ⟨back, setLink_self .., trivial⟩
    | cons b l =>
      rw [List.getLast?_cons_cons]
      refine ⟨back, ?_, ih rest nodup⟩
      rw [setLink_outside outside fun c last => List.mem_of_getLast? last, on]
      rfl

end

end Ircd
