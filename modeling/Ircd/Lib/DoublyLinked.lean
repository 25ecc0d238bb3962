import Ircd.Lib.Chain

/-!
# Doubly linked lists

Lists that run through the entries of a store: a head for each list, and two pointers in each entry. An entry is
linked in at the head of a list and unlinked without a walk.
-/
namespace Ircd

variable {α κ : Type}

/-! ### One list -/

/-- The list `l` runs from `head` through the pointers, behind the entry `before`. -/
def IsLinked (next prev : α → Option α) : Option α → Option α → List α → Prop
  | _, head, [] => head = none
  | before, head, a :: l => head = some a ∧ prev a = before ∧ IsLinked next prev (some a) (next a) l

/-- The entries that a walk passes. -/
def follow (next : α → Option α) : ℕ → Option α → List α
  | 0, _ => []
  | _ + 1, none => []
  | n + 1, some a => a :: follow next n (next a)

variable {next prev next' prev' : α → Option α} {before head : Option α}

theorem IsLinked.follow_eq {l : List α} (linked : IsLinked next prev before head l) {n : ℕ} (long : l.length ≤ n) :
    follow next n head = l := by
  induction l generalizing before head n with
  | nil =>
    obtain rfl : head = none := linked
    cases n <;> rfl
  | cons a l ih =>
    obtain ⟨rfl, -, rest⟩ := linked
    obtain ⟨n, rfl⟩ : ∃ m, n = m + 1 := ⟨n - 1, by simp at long; omega⟩
    rw [follow, ih rest (by simpa using long)]

theorem IsLinked.isChain {l : List α} (linked : IsLinked next prev before head l) : IsChain next head l := by
  induction l generalizing before head with
  | nil => exact linked
  | cons a l ih => exact ⟨linked.1, ih linked.2.2⟩

theorem IsLinked.head_eq {l : List α} (linked : IsLinked next prev before head l) : head = l.head? := by
  cases l with
  | nil => exact linked
  | cons a l => exact linked.1

/-- A list depends on the pointers of its own entries only. -/
theorem IsLinked.congr {l : List α} (linked : IsLinked next prev before head l)
    (same : ∀ a ∈ l, next' a = next a ∧ prev' a = prev a) : IsLinked next' prev' before head l := by
  induction l generalizing before head with
  | nil => exact linked
  | cons a l ih =>
    obtain ⟨rfl, back, rest⟩ := linked
    obtain ⟨sameNext, samePrev⟩ := same a List.mem_cons_self
    refine ⟨rfl, samePrev.trans back, ?_⟩
    rw [sameNext]
    exact ih rest fun b member => same b (List.mem_cons_of_mem _ member)

theorem IsLinked.next_eq {front rest : List α} {a : α}
    (linked : IsLinked next prev before head (front ++ a :: rest)) : next a = rest.head? := by
  induction front generalizing before head with
  | nil => exact linked.2.2.head_eq
  | cons b front ih => exact ih linked.2.2

theorem IsLinked.prev_eq {front rest : List α} {a : α}
    (linked : IsLinked next prev before head (front ++ a :: rest)) : prev a = front.getLast?.or before := by
  induction front generalizing before head with
  | nil => simpa using linked.2.1
  | cons b front ih =>
    rw [ih linked.2.2, List.getLast?_cons]
    cases front.getLast? <;> rfl

section

variable [DecidableEq α]

/-- A pointer of an entry is set, if there is an entry. -/
def setLink (links : α → Option α) (entry value : Option α) : α → Option α :=
  match entry with
  | some a => Function.update links a value
  | none => links

theorem setLink_of_ne {links : α → Option α} {entry value : Option α} {a : α} (other : entry ≠ some a) :
    setLink links entry value a = links a := by
  cases entry with
  | none => rfl
  | some b => exact Function.update_of_ne (fun equal => other (by rw [equal])) _ _

theorem setLink_self (links : α → Option α) (a : α) (value : Option α) : setLink links (some a) value a = value :=
  Function.update_self ..

theorem setLink_congr {links links' : α → Option α} {a : α} (same : links a = links' a) (entry value : Option α) :
    setLink links entry value a = setLink links' entry value a := by
  cases entry with
  | none => exact same
  | some b => simp only [setLink, Function.update_apply, same]

/-- The first entry is told what stands before it. -/
theorem IsLinked.behind {l : List α} (linked : IsLinked next prev before head l) (nodup : l.Nodup)
    (new : Option α) : IsLinked next (setLink prev head new) new head l := by
  cases l with
  | nil => exact linked
  | cons a l =>
    obtain ⟨rfl, -, rest⟩ := linked
    refine ⟨rfl, setLink_self .., rest.congr fun b member => ⟨rfl, setLink_of_ne ?_⟩⟩
    rintro ⟨⟩
    exact (List.nodup_cons.mp nodup).1 member

/-- An entry is bypassed in both directions. -/
theorem IsLinked.unlinked {front rest : List α} {a : α}
    (linked : IsLinked next prev before head (front ++ a :: rest)) (nodup : (front ++ a :: rest).Nodup)
    (outside : ∀ b, before = some b → b ∉ front ++ a :: rest) :
    IsLinked (setLink next (prev a) (next a)) (setLink prev (next a) (prev a)) before (front ++ rest).head?
      (front ++ rest) := by
  have ahead := linked.next_eq
  have behind := linked.prev_eq
  induction front generalizing before head with
  | nil =>
    obtain ⟨rfl, back, linked⟩ := linked
    rw [List.nil_append, List.nodup_cons] at nodup
    cases rest with
    | nil => rfl
    | cons b rest =>
      obtain ⟨_, _, rest'⟩ := linked
      obtain ⟨_, nodup⟩ := nodup
      have apart : ∀ c ∈ b :: rest, prev a ≠ some c := fun c member equal =>
        outside c (back.symm.trans equal) (List.mem_cons_of_mem _ member)
      refine ⟨rfl, ?_, ?_⟩
      · rw [ahead, List.head?_cons, setLink_self, back]
      · rw [setLink_of_ne (apart b List.mem_cons_self), ahead]
        refine rest'.congr fun c member => ⟨setLink_of_ne (apart c (List.mem_cons_of_mem _ member)), ?_⟩
        apply setLink_of_ne
        rintro ⟨⟩
        exact (List.nodup_cons.mp nodup).1 member
  | cons z front ih =>
    obtain ⟨rfl, back, linked⟩ := linked
    rw [List.cons_append, List.nodup_cons] at nodup
    have notNext : next a ≠ some z := by
      rw [ahead]
      intro first
      exact nodup.1 (by simp [List.mem_of_mem_head? first])
    refine ⟨rfl, (setLink_of_ne notNext).trans back, ?_⟩
    have rest' := ih linked nodup.2 (fun b isZ => by cases isZ; exact nodup.1) linked.prev_eq
    have first : setLink next (prev a) (next a) z = (front ++ rest).head? := by
      cases front with
      | nil =>
        rw [behind]
        exact (setLink_self ..).trans ahead
      | cons w front =>
        rw [setLink_of_ne, linked.head_eq]
        · rfl
        · rw [linked.prev_eq]
          intro last
          have inside : z ∈ w :: front := by
            rw [List.getLast?_cons, Option.some_or] at last
            exact List.mem_of_getLast? (by rw [List.getLast?_cons, last])
          exact nodup.1 (List.mem_append_left _ inside)
    rw [first]
    exact rest'

end

/-! ### Tables of lists -/

/-- The pointers of the entries, and the heads of the lists. -/
structure LinkTable (α κ : Type) where
  next : α → Option α
  prev : α → Option α
  heads : κ → Option α

namespace LinkTable

/-- The lists of the table. They have no entry in common. -/
structure Holds (t : LinkTable α κ) (lists : κ → List α) : Prop where
  linked : ∀ k, IsLinked t.next t.prev none (t.heads k) (lists k)
  nodup : ∀ k, (lists k).Nodup
  apart : ∀ {k k' a}, a ∈ lists k → a ∈ lists k' → k = k'

variable [DecidableEq α] [DecidableEq κ]

/-- An entry is linked in at the head of a list. -/
def push (t : LinkTable α κ) (k : κ) (a : α) : LinkTable α κ where
  next := Function.update t.next a (t.heads k)
  prev := setLink (Function.update t.prev a none) (t.heads k) (some a)
  heads := Function.update t.heads k (some a)

/-- An entry is taken out of the list. -/
def unlink (t : LinkTable α κ) (k : κ) (a : α) : LinkTable α κ where
  next := setLink t.next (t.prev a) (t.next a)
  prev := setLink t.prev (t.next a) (t.prev a)
  heads := if t.prev a = none then Function.update t.heads k (t.next a) else t.heads

variable {t : LinkTable α κ} {lists : κ → List α}

theorem Holds.push (holds : t.Holds lists) (k : κ) {a : α} (fresh : ∀ k, a ∉ lists k) :
    (t.push k a).Holds (Function.update lists k (a :: lists k)) := by
  have kept : ∀ k', ∀ b ∈ lists k', b ≠ a := fun k' b member equal => fresh k' (equal ▸ member)
  constructor
  · intro k'
    by_cases here : k' = k
    · subst here
      have old := (holds.linked k').behind (holds.nodup k') (some a)
      have isHead : t.heads k' ≠ some a := by
        rw [old.head_eq]
        exact fun first => fresh k' (List.mem_of_mem_head? first)
      simp only [LinkTable.push, Function.update_self]
      refine ⟨rfl, ?_, ?_⟩
      · rw [setLink_of_ne isHead, Function.update_self]
      · rw [Function.update_self]
        refine old.congr fun b member => ⟨Function.update_of_ne (kept k' b member) _ _, ?_⟩
        exact setLink_congr (Function.update_of_ne (kept k' b member) _ _) _ _
    · simp only [LinkTable.push, Function.update_of_ne here]
      refine (holds.linked k').congr fun b member => ⟨Function.update_of_ne (kept k' b member) _ _, ?_⟩
      rw [setLink_of_ne, Function.update_of_ne (kept k' b member)]
      intro first
      rw [(holds.linked k).head_eq] at first
      exact here (holds.apart member (List.mem_of_mem_head? first))
  · intro k'
    by_cases here : k' = k
    · subst here
      rw [Function.update_self, List.nodup_cons]
      exact ⟨fresh k', holds.nodup k'⟩
    · rw [Function.update_of_ne here]
      exact holds.nodup k'
  · have inOld : ∀ k' b, b ∈ Function.update lists k (a :: lists k) k' → b = a ∧ k' = k ∨ b ∈ lists k' := by
      intro k' b member
      by_cases here : k' = k
      · subst here
        rw [Function.update_self, List.mem_cons] at member
        exact member.imp_left (fun equal => ⟨equal, rfl⟩)
      · rw [Function.update_of_ne here] at member
        exact Or.inr member
    intro k₁ k₂ b member₁ member₂
    rcases inOld k₁ b member₁ with ⟨rfl, rfl⟩ | old₁ <;> rcases inOld k₂ b member₂ with ⟨equal, rfl⟩ | old₂
    · rfl
    · exact absurd old₂ (fresh k₂)
    · exact absurd (equal ▸ old₁) (fresh k₁)
    · exact holds.apart old₁ old₂

theorem Holds.unlink (holds : t.Holds lists) {k : κ} {a : α} (member : a ∈ lists k) :
    (t.unlink k a).Holds (Function.update lists k ((lists k).erase a)) := by
  obtain ⟨front, rest, split⟩ := List.append_of_mem member
  have linked := holds.linked k
  have nodup := holds.nodup k
  rw [split] at linked nodup
  have notFront : a ∉ front := fun inFront =>
    (List.nodup_append.mp nodup).2.2 a inFront a List.mem_cons_self rfl
  have erased : (lists k).erase a = front ++ rest := by
    rw [split, List.erase_append_right _ notFront, List.erase_cons_head]
  have bypassed := linked.unlinked nodup (by rintro b ⟨⟩)
  have isPrev := linked.prev_eq
  have isNext := linked.next_eq
  rw [Option.or_none] at isPrev
  rw [erased]
  constructor
  · intro k'
    by_cases here : k' = k
    · subst here
      have isHead : (t.unlink k' a).heads k' = (front ++ rest).head? := by
        simp only [LinkTable.unlink]
        rw [isPrev, isNext]
        cases front with
        | nil => simp
        | cons b front => simp [linked.head_eq, List.getLast?_cons]
      rw [Function.update_self, isHead]
      exact bypassed
    · have isHead : (t.unlink k a).heads k' = t.heads k' := by
        simp only [LinkTable.unlink]
        split
        · exact Function.update_of_ne here _ _
        · rfl
      rw [Function.update_of_ne here, isHead]
      refine (holds.linked k').congr fun b inside => ⟨setLink_of_ne ?_, setLink_of_ne ?_⟩
      · rw [isPrev]
        intro last
        apply here
        apply holds.apart inside
        rw [split]
        exact List.mem_append_left _ (List.mem_of_getLast? last)
      · rw [isNext]
        intro first
        apply here
        apply holds.apart inside
        rw [split]
        exact List.mem_append_right _ (List.mem_cons_of_mem _ (List.mem_of_mem_head? first))
  · intro k'
    by_cases here : k' = k
    · subst here
      rw [Function.update_self, ← erased]
      exact (holds.nodup k').erase a
    · rw [Function.update_of_ne here]
      exact holds.nodup k'
  · have inOld : ∀ k' b, b ∈ Function.update lists k (front ++ rest) k' → b ∈ lists k' := by
      intro k' b inside
      by_cases here : k' = k
      · subst here
        rw [Function.update_self, ← erased] at inside
        exact List.mem_of_mem_erase inside
      · rwa [Function.update_of_ne here] at inside
    intro k₁ k₂ b member₁ member₂
    exact holds.apart (inOld k₁ b member₁) (inOld k₂ b member₂)

end LinkTable

end Ircd
