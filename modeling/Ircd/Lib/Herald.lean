import Mathlib.Data.List.Count

/-!
# Introductions

A sequence of messages, some of which introduce a thing and some of which name things. A thing should be introduced
once, and before it is named.
-/
namespace Ircd

structure Herald (α β : Type) where
  introduces : β → Option α
  names : β → List α

namespace Herald

variable {α β : Type} [DecidableEq α] (h : Herald α β) {l k : List β} {a : α}

def introductions (messages : List β) (a : α) : ℕ := messages.countP fun m => h.introduces m = some a

/-- Whatever names the thing comes after an introduction of it. -/
def Follows (messages : List β) (a : α) : Prop :=
  ∀ before m after, messages = before ++ m :: after → a ∈ h.names m → 0 < h.introductions before a

theorem introductions_append (l k : List β) (a : α) :
    h.introductions (l ++ k) a = h.introductions l a + h.introductions k a :=
  List.countP_append

theorem introductions_single (m : β) (a : α) : h.introductions [m] a = if h.introduces m = some a then 1 else 0 := by
  simp [introductions]

theorem follows_nil : h.Follows [] a := by
  intro before m after split
  cases before <;> cases split

theorem follows_append_single {m : β} :
    h.Follows (l ++ [m]) a ↔ h.Follows l a ∧ (a ∈ h.names m → 0 < h.introductions l a) := by
  constructor
  · intro follows
    refine ⟨fun before m' after split named => ?_, follows l m [] rfl⟩
    exact follows before m' (after ++ [m]) (by rw [split]; simp) named
  · rintro ⟨follows, last⟩ before m' after split named
    rcases List.eq_nil_or_concat after with rfl | ⟨after', m'', rfl⟩
    · obtain ⟨rfl, same⟩ := List.append_inj' split rfl
      obtain rfl := (List.cons.inj same).1
      exact last named
    · have split' : l ++ [m] = (before ++ m' :: after') ++ [m''] := by rw [split]; simp
      exact follows before m' after' (List.append_inj' split' rfl).1 named

/-- Messages that do not name the thing make no difference. -/
theorem follows_append (silent : ∀ m ∈ k, a ∉ h.names m) : h.Follows (l ++ k) a ↔ h.Follows l a := by
  induction k generalizing l with
  | nil => rw [List.append_nil]
  | cons m k ih =>
    have step := ih (l := l ++ [m]) fun m' member => silent m' (List.mem_cons_of_mem _ member)
    rw [List.append_assoc, List.singleton_append] at step
    rw [step, follows_append_single, and_iff_left fun named => absurd named (silent m List.mem_cons_self)]

end Herald

end Ircd
