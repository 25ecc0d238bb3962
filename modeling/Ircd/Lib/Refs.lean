import Mathlib.Algebra.BigOperators.Group.Finset.Basic
import Mathlib.Algebra.Order.BigOperators.Group.Finset
import Mathlib.Logic.Function.Basic

/-!
# References from lists

Finitely many owners have a list each. How often a thing is on the lists, when things are put on them and taken off; and
things that know it themselves and are given up when they are on no list.
-/
namespace Ircd

variable {ι α : Type*} [Fintype ι] [DecidableEq α]

/-- How often a thing is on the lists. -/
def refs (lists : ι → List α) (a : α) : ℕ := ∑ h, (lists h).count a

variable {lists : ι → List α} {a b : α}

theorem refs_pos_iff : 0 < refs lists a ↔ ∃ h, a ∈ lists h := by
  simp [refs, Finset.sum_pos_iff, List.count_pos_iff]

variable [DecidableEq ι]

/-- The count changes by what changes on one list. -/
theorem refs_update (lists : ι → List α) (h : ι) (list : List α) (a : α) :
    refs (Function.update lists h list) a + (lists h).count a = refs lists a + list.count a := by
  have others : ∑ k ∈ Finset.univ.erase h, (Function.update lists h list k).count a =
      ∑ k ∈ Finset.univ.erase h, (lists k).count a := by
    apply Finset.sum_congr rfl
    intro k member
    rw [Function.update_of_ne (Finset.ne_of_mem_erase member)]
  rw [refs, refs, ← Finset.add_sum_erase _ _ (Finset.mem_univ h),
    ← Finset.add_sum_erase _ (fun k => (lists k).count a) (Finset.mem_univ h), others, Function.update_self]
  omega

/-- A thing is put on a list. -/
theorem refs_put {h : ι} {list : List α} (shape : list.Perm (b :: lists h)) :
    refs (Function.update lists h list) a = refs lists a + if a = b then 1 else 0 := by
  have change := refs_update lists h list a
  rw [shape.count_eq, List.count_cons] at change
  simp only [beq_iff_eq, eq_comm (a := b)] at change
  omega

/-- A thing is taken off a list. -/
theorem refs_take {h : ι} {list : List α} (shape : (lists h).Perm (b :: list)) :
    refs (Function.update lists h list) a + (if a = b then 1 else 0) = refs lists a := by
  have change := refs_update lists h list a
  rw [shape.count_eq, List.count_cons] at change
  simp only [beq_iff_eq, eq_comm (a := b)] at change
  omega

/-! ### Counted references -/

/-- Things are made one after another. Each knows how often it is on the lists, and `alive` of them are on some list. -/
structure Counted (lists : ι → List ℕ) (refcount : ℕ → ℤ) (made : ℕ) (alive : ℤ) : Prop where
  listed : ∀ h, ∀ id ∈ lists h, id < made
  refcount : ∀ id < made, refcount id = refs lists id
  alive : alive = ((Finset.range made).filter fun id => 0 < refs lists id).card

namespace Counted

variable {lists : ι → List ℕ} {refcount : ℕ → ℤ} {made id : ℕ} {alive : ℤ} {h : ι}

omit [DecidableEq ι] in
theorem refs_made (counted : Counted lists refcount made alive) : refs lists made = 0 := by
  by_contra some_
  obtain ⟨k, member⟩ := refs_pos_iff.mp (Nat.pos_of_ne_zero some_)
  exact Nat.lt_irrefl _ (counted.listed k _ member)

/-- A thing is made and put on a list. -/
theorem make (counted : Counted lists refcount made alive) : Counted (Function.update lists h (lists h ++ [made]))
    (Function.update refcount made 1) (made + 1) (alive + 1) := by
  have count : ∀ old, refs (Function.update lists h (lists h ++ [made])) old =
      refs lists old + if old = made then 1 else 0 := fun old => refs_put (List.perm_append_singleton made _)
  constructor
  · rw [Function.forall_update_iff lists fun _ list => ∀ id ∈ list, id < made + 1]
    constructor
    · intro id member
      rcases List.mem_append.mp member with before | last
      · exact Nat.lt_succ_of_lt (counted.listed h id before)
      · rw [List.mem_singleton.mp last]
        exact Nat.lt_succ_self _
    · exact fun k _ id member => Nat.lt_succ_of_lt (counted.listed k id member)
  · intro id below
    rw [count]
    rcases Nat.lt_succ_iff_lt_or_eq.mp below with below | rfl
    · rw [Function.update_of_ne below.ne, if_neg below.ne, counted.refcount id below]
      rfl
    · rw [Function.update_self, if_pos rfl, counted.refs_made]
      rfl
  · have others : ((Finset.range made).filter fun id => 0 < refs (Function.update lists h (lists h ++ [made])) id) =
        (Finset.range made).filter fun id => 0 < refs lists id := by
      apply Finset.filter_congr
      intro id below
      rw [count, if_neg (Finset.mem_range.mp below).ne, Nat.add_zero]
    have one : 0 < refs (Function.update lists h (lists h ++ [made])) made := by
      rw [count, if_pos rfl]
      exact Nat.succ_pos _
    rw [Finset.range_add_one, Finset.filter_insert, if_pos one, others, Finset.card_insert_of_notMem (by simp),
      Int.natCast_add, ← counted.alive]
    rfl

/-- A thing that is on some list is put on another. -/
theorem attach (counted : Counted lists refcount made alive) (on : 0 < refs lists id) :
    Counted (Function.update lists h (lists h ++ [id])) (Function.update refcount id (refcount id + 1)) made alive := by
  have count : ∀ old, refs (Function.update lists h (lists h ++ [id])) old =
      refs lists old + if old = id then 1 else 0 := fun old => refs_put (List.perm_append_singleton id _)
  obtain ⟨k, member⟩ := refs_pos_iff.mp on
  have below := counted.listed k id member
  constructor
  · rw [Function.forall_update_iff lists fun _ list => ∀ id ∈ list, id < made]
    constructor
    · intro old member
      rcases List.mem_append.mp member with before | last
      · exact counted.listed h old before
      · exact List.mem_singleton.mp last ▸ below
    · exact fun k _ => counted.listed k
  · intro old below
    rw [count]
    by_cases here : old = id
    · subst here
      rw [Function.update_self, if_pos rfl, counted.refcount old below]
      rfl
    · rw [Function.update_of_ne here, if_neg here, counted.refcount old below]
      rfl
  · rw [counted.alive]
    congr 2
    apply Finset.filter_congr
    intro old _
    rw [count]
    split
    · next here => exact iff_of_true (here ▸ on) (Nat.succ_pos _)
    · rw [Nat.add_zero]

/-- A thing is taken off a list, and given up if it is on no other. -/
theorem take (counted : Counted lists refcount made alive) {rest : List ℕ} (shape : lists h = id :: rest) :
    Counted (Function.update lists h rest) (Function.update refcount id (refcount id - 1)) made
      (if refcount id - 1 = 0 then alive - 1 else alive) := by
  have count : ∀ old, refs (Function.update lists h rest) old + (if old = id then 1 else 0) = refs lists old :=
    fun old => refs_take (.of_eq shape)
  have others : ∀ old, old ≠ id → refs (Function.update lists h rest) old = refs lists old := fun old other => by
    rw [← count old, if_neg other, Nat.add_zero]
  have below : id < made := counted.listed h id (shape ▸ List.mem_cons_self)
  have here := count id
  rw [if_pos rfl] at here
  have known := counted.refcount id below
  constructor
  · rw [Function.forall_update_iff lists fun _ list => ∀ id ∈ list, id < made]
    exact ⟨fun old member => counted.listed h old (shape ▸ List.mem_cons_of_mem _ member), fun k _ => counted.listed k⟩
  · intro old below
    by_cases same : old = id
    · subst same
      rw [Function.update_self]
      omega
    · rw [Function.update_of_ne same, others old same, counted.refcount old below]
  · have inside : id ∈ (Finset.range made).filter fun old => 0 < refs lists old :=
      Finset.mem_filter.mpr ⟨Finset.mem_range.mpr below, by omega⟩
    split
    · next gone =>
      have erased : ((Finset.range made).filter fun old => 0 < refs (Function.update lists h rest) old) =
          ((Finset.range made).filter fun old => 0 < refs lists old).erase id := by
        ext old
        rw [Finset.mem_erase, Finset.mem_filter, Finset.mem_filter]
        by_cases same : old = id
        · subst same
          exact iff_of_false (fun both => by omega) fun both => both.1 rfl
        · rw [others old same, and_iff_right same]
      have positive := Finset.card_pos.mpr ⟨id, inside⟩
      rw [erased, Finset.card_erase_of_mem inside, counted.alive]
      omega
    · next stays =>
      rw [counted.alive]
      congr 2
      apply Finset.filter_congr
      intro old _
      by_cases same : old = id
      · subst same
        exact iff_of_true (by omega) (by omega)
      · rw [others old same]

omit [DecidableEq ι] in
/-- A thing on a list has been counted. -/
theorem refcount_pos (counted : Counted lists refcount made alive) (on : id ∈ lists h) : 0 < refcount id := by
  rw [counted.refcount id (counted.listed h id on)]
  exact Int.natCast_pos.mpr (refs_pos_iff.mpr ⟨h, on⟩)

end Counted

end Ircd
