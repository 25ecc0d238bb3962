import Mathlib.Data.List.Nodup
import Mathlib.Logic.Function.Basic

/-!
# Relations stored twice

A relation between two kinds of things, stored on both sides: each thing has a list of those it is related to.
-/
namespace Ircd

variable {α β : Type}

structure Mirror (α β : Type) where
  left : α → List β
  right : β → List α

namespace Mirror

/-- The two sides tell the same, and no pair is there twice. -/
structure Holds (m : Mirror α β) : Prop where
  back : ∀ a b, b ∈ m.left a ↔ a ∈ m.right b
  left_nodup : ∀ a, (m.left a).Nodup
  right_nodup : ∀ b, (m.right b).Nodup

variable [DecidableEq α] [DecidableEq β]

/-- The first node of the pair is deleted on each side. -/
def unlink (m : Mirror α β) (a : α) (b : β) : Mirror α β where
  left := Function.update m.left a ((m.left a).erase b)
  right := Function.update m.right b ((m.right b).erase a)

/-- A pair is put at the head of both lists. -/
def link (m : Mirror α β) (a : α) (b : β) : Mirror α β where
  left := Function.update m.left a (b :: m.left a)
  right := Function.update m.right b (a :: m.right b)

variable {m : Mirror α β}

theorem Holds.mem_unlink_left (holds : m.Holds) (a a' : α) (b b' : β) :
    b' ∈ (m.unlink a b).left a' ↔ b' ∈ m.left a' ∧ ¬(a' = a ∧ b' = b) := by
  simp only [unlink, Function.update_apply]
  split
  · next here =>
    subst here
    rw [(holds.left_nodup a').mem_erase_iff]
    tauto
  · next other => simp [other]

theorem Holds.mem_unlink_right (holds : m.Holds) (a a' : α) (b b' : β) :
    a' ∈ (m.unlink a b).right b' ↔ a' ∈ m.right b' ∧ ¬(a' = a ∧ b' = b) := by
  simp only [unlink, Function.update_apply]
  split
  · next here =>
    subst here
    rw [(holds.right_nodup b').mem_erase_iff]
    tauto
  · next other => simp [other]

theorem Holds.unlink (holds : m.Holds) (a : α) (b : β) : (m.unlink a b).Holds := by
  constructor
  · intro a' b'
    rw [holds.mem_unlink_left, holds.mem_unlink_right, holds.back]
  · intro a'
    simp only [Mirror.unlink, Function.update_apply]
    split
    · exact (holds.left_nodup a).erase b
    · exact holds.left_nodup a'
  · intro b'
    simp only [Mirror.unlink, Function.update_apply]
    split
    · exact (holds.right_nodup b).erase a
    · exact holds.right_nodup b'

theorem Holds.link (holds : m.Holds) {a : α} {b : β} (absent : b ∉ m.left a) : (m.link a b).Holds := by
  have absent' : a ∉ m.right b := fun member => absent ((holds.back a b).mpr member)
  constructor
  · intro a' b'
    have old := holds.back a' b'
    simp only [Mirror.link, Function.update_apply]
    by_cases hereA : a' = a <;> by_cases hereB : b' = b
    · subst hereA hereB
      simp
    · subst hereA
      simp [hereB, old]
    · subst hereB
      simp [hereA, old]
    · simp [hereA, hereB, old]
  · intro a'
    simp only [Mirror.link, Function.update_apply]
    split
    · exact List.nodup_cons.mpr ⟨absent, holds.left_nodup a⟩
    · exact holds.left_nodup a'
  · intro b'
    simp only [Mirror.link, Function.update_apply]
    split
    · exact List.nodup_cons.mpr ⟨absent', holds.right_nodup b⟩
    · exact holds.right_nodup b'

/-- Unlinking `b` from everything on a list that has all it is related to leaves it with nothing. -/
theorem Holds.unlinkAll_right (holds : m.Holds) (b : β) (l : List α) :
    let m' := l.foldl (fun m a => m.unlink a b) m
    m'.Holds ∧ ∀ a b', b' ∈ m'.left a ↔ b' ∈ m.left a ∧ ¬(a ∈ l ∧ b' = b) := by
  induction l generalizing m with
  | nil => exact ⟨holds, by simp⟩
  | cons a l ih =>
    obtain ⟨holds', members⟩ := ih (holds.unlink a b)
    refine ⟨holds', fun a' b' => ?_⟩
    rw [List.foldl_cons, members, holds.mem_unlink_left, List.mem_cons]
    tauto

theorem Holds.unlinkAll_left (holds : m.Holds) (a : α) (l : List β) :
    let m' := l.foldl (fun m b => m.unlink a b) m
    m'.Holds ∧ ∀ a' b, b ∈ m'.left a' ↔ b ∈ m.left a' ∧ ¬(b ∈ l ∧ a' = a) := by
  induction l generalizing m with
  | nil => exact ⟨holds, by simp⟩
  | cons b l ih =>
    obtain ⟨holds', members⟩ := ih (holds.unlink a b)
    refine ⟨holds', fun a' b' => ?_⟩
    rw [List.foldl_cons, members, holds.mem_unlink_left, List.mem_cons]
    tauto

/-! ### Links that may be there on one side only -/

/-- What the right side tells, the left side tells too. The right side tells nothing twice. -/
structure Backed (m : Mirror α β) : Prop where
  back : ∀ a b, a ∈ m.right b → b ∈ m.left a
  once : ∀ b, (m.right b).Nodup

theorem Backed.mem_unlink (backed : m.Backed) (a a' : α) (b b' : β) :
    a' ∈ (m.unlink a b).right b' ↔ a' ∈ m.right b' ∧ ¬(a' = a ∧ b' = b) := by
  simp only [unlink, Function.update_apply]
  split
  · next here =>
    subst here
    rw [(backed.once b').mem_erase_iff]
    tauto
  · next other => simp [other]

theorem Backed.unlink (backed : m.Backed) (a : α) (b : β) : (m.unlink a b).Backed := by
  constructor
  · intro a' b' member
    obtain ⟨before, other⟩ := (backed.mem_unlink a a' b b').mp member
    have left := backed.back a' b' before
    simp only [Mirror.unlink, Function.update_apply]
    split
    · next here =>
      subst here
      exact (List.mem_erase_of_ne fun same => other ⟨rfl, same⟩).mpr left
    · exact left
  · intro b'
    simp only [Mirror.unlink, Function.update_apply]
    split
    · exact (backed.once b).erase a
    · exact backed.once b'

theorem Backed.link (backed : m.Backed) {a : α} {b : β} (absent : a ∉ m.right b) : (m.link a b).Backed := by
  constructor
  · intro a' b' member
    simp only [Mirror.link, Function.update_apply] at member ⊢
    by_cases hereA : a' = a
    · subst hereA
      rw [if_pos rfl]
      split at member
      · next here => exact here ▸ List.mem_cons_self
      · exact List.mem_cons_of_mem _ (backed.back a' b' member)
    · rw [if_neg hereA]
      split at member
      · next here =>
        rcases List.mem_cons.mp member with same | before
        · exact absurd same hereA
        · exact here ▸ backed.back a' b before
      · exact backed.back a' b' member
  · intro b'
    simp only [Mirror.link, Function.update_apply]
    split
    · exact List.nodup_cons.mpr ⟨absent, backed.once b⟩
    · exact backed.once b'

omit [DecidableEq α] in
/-- One on the right is related to nothing any more. -/
theorem Backed.forget (backed : m.Backed) (b : β) :
    Mirror.Backed { m with right := Function.update m.right b [] } := by
  constructor
  · intro a b' member
    simp only [Function.update_apply] at member
    split at member
    · cases member
    · exact backed.back a b' member
  · intro b'
    simp only [Function.update_apply]
    split
    · exact List.nodup_nil
    · exact backed.once b'

end Mirror

end Ircd
