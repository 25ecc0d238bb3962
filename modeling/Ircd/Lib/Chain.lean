import Mathlib.Data.List.Nodup
import Mathlib.Logic.Function.Basic
import Mathlib.Data.Set.Insert

/-!
# Chained hash tables

A hash table whose chains run through the entries themselves: a head for each bucket, and one
pointer in each entry. A walk gives up after as many steps as it is told; `none` stands for a
chain that goes on for longer.
-/
namespace Ircd

variable {α : Type} [DecidableEq α]

/-! ### Walks -/

/-- A walk up to the first entry that is looked for. -/
def findFrom (next : α → Option α) (p : α → Bool) : ℕ → Option α → Option (Option α)
  | _, none => some none
  | 0, some _ => none
  | n + 1, some a => if p a then some (some a) else findFrom next p n (next a)

/-- A walk up to an entry. Gives the entry before it, if the walk finds it. -/
def entryBefore (next : α → Option α) (target : α) :
    ℕ → Option α → Option α → Option (Option (Option α))
  | _, _, none => some none
  | 0, _, some _ => none
  | n + 1, prev, some a =>
    if a = target then some (some prev) else entryBefore next target n (some a) (next a)

/-- The entries of a chain, in order. -/
def IsChain (next : α → Option α) : Option α → List α → Prop
  | head, [] => head = none
  | head, a :: l => head = some a ∧ IsChain next (next a) l

omit [DecidableEq α] in
theorem findFrom_eq {next : α → Option α} (p : α → Bool) {l : List α} {head : Option α}
    (chain : IsChain next head l) {n : ℕ} (long : l.length ≤ n) :
    findFrom next p n head = some (l.find? p) := by
  induction l generalizing head n with
  | nil =>
    obtain rfl : head = none := chain
    cases n <;> rfl
  | cons a l ih =>
    obtain ⟨rfl, rest⟩ := chain
    obtain ⟨n, rfl⟩ : ∃ m, n = m + 1 := ⟨n - 1, by simp at long; omega⟩
    rw [findFrom, List.find?_cons]
    cases found : p a with
    | true => rfl
    | false =>
      rw [List.length_cons] at long
      simpa using ih rest (by omega)

omit [DecidableEq α] in
/-- A walk among old entries depends on these only, and goes the same way with more steps. -/
theorem findFrom_congr {next next' : α → Option α} {p p' : α → Bool} (old : α → Prop)
    (closed : ∀ a c, next a = some c → old c) (same : ∀ a, old a → next' a = next a ∧ p' a = p a) {n m : ℕ}
    (more : n ≤ m) {head : Option α} (start : ∀ a, head = some a → old a) {found : Option α}
    (walk : findFrom next p n head = some found) : findFrom next' p' m head = some found := by
  induction n generalizing m head with
  | zero =>
    cases head with
    | none => cases m <;> exact walk
    | some a => cases walk
  | succ n ih =>
    cases head with
    | none => cases m <;> exact walk
    | some a =>
      obtain ⟨m, rfl⟩ : ∃ k, m = k + 1 := ⟨m - 1, by omega⟩
      obtain ⟨sameNext, sameTest⟩ := same a (start a rfl)
      rw [findFrom] at walk ⊢
      rw [sameTest, sameNext]
      split at walk
      next found => rwa [if_pos found]
      next notFound =>
        rw [if_neg notFound]
        exact ih (by omega) (fun c pointed => closed a c pointed) walk

omit [DecidableEq α] in
/-- What a walk among old entries finds is old. -/
theorem findFrom_old {next : α → Option α} {p : α → Bool} (old : α → Prop)
    (closed : ∀ a c, next a = some c → old c) {n : ℕ} {head : Option α} (start : ∀ a, head = some a → old a) {a : α}
    (walk : findFrom next p n head = some (some a)) : old a := by
  induction n generalizing head with
  | zero => cases head <;> cases walk
  | succ n ih =>
    cases head with
    | none => cases walk
    | some b =>
      rw [findFrom] at walk
      split at walk
      · obtain rfl := Option.some.inj (Option.some.inj walk)
        exact start b rfl
      · exact ih (fun c pointed => closed b c pointed) walk

omit [DecidableEq α] in
/-- A chain depends on the pointers of its own entries only. -/
theorem IsChain.congr {next next' : α → Option α} {l : List α} {head : Option α}
    (chain : IsChain next head l) (same : ∀ a ∈ l, next' a = next a) : IsChain next' head l := by
  induction l generalizing head with
  | nil => exact chain
  | cons a l ih =>
    obtain ⟨rfl, rest⟩ := chain
    refine ⟨rfl, ?_⟩
    rw [same a List.mem_cons_self]
    exact ih rest fun b member => same b (List.mem_cons_of_mem _ member)

/-- What a walk to an entry tells: nothing stands before the first, and any other entry is
pointed to by the one before it. -/
theorem entryBefore_eq {next : α → Option α} {target : α} {l : List α} {head : Option α}
    (prev : Option α) (chain : IsChain next head l) {n : ℕ} (long : l.length ≤ n) (member : target ∈ l) :
    (∃ rest, l = target :: rest ∧ entryBefore next target n prev head = some (some prev)) ∨
      ∃ front before rest, l = front ++ before :: target :: rest ∧ target ∉ front ++ [before] ∧
        entryBefore next target n prev head = some (some (some before)) := by
  induction l generalizing head prev n with
  | nil => cases member
  | cons a l ih =>
    obtain ⟨rfl, rest⟩ := chain
    obtain ⟨n, rfl⟩ : ∃ m, n = m + 1 := ⟨n - 1, by simp at long; omega⟩
    by_cases here : a = target
    · subst here
      exact Or.inl ⟨l, rfl, by rw [entryBefore, if_pos rfl]⟩
    · rw [List.length_cons] at long
      have later : target ∈ l := by
        rcases List.mem_cons.mp member with equal | later
        · exact absurd equal.symm here
        · exact later
      rw [entryBefore, if_neg here]
      right
      rcases ih (some a) rest (n := n) (by omega) later with
        ⟨rest', rfl, found⟩ | ⟨front, before, rest', rfl, apart, found⟩
      · exact ⟨[], a, rest', rfl, by simpa using Ne.symm here, found⟩
      · refine ⟨a :: front, before, rest', rfl, ?_, found⟩
        intro inside
        rcases List.mem_cons.mp inside with equal | inside
        · exact here equal.symm
        · exact apart inside

theorem entryBefore_eq_none {next : α → Option α} {target : α} {l : List α}
    {head prev : Option α} (chain : IsChain next head l) {n : ℕ} (long : l.length ≤ n)
    (absent : target ∉ l) : entryBefore next target n prev head = some none := by
  induction l generalizing head prev n with
  | nil =>
    obtain rfl : head = none := chain
    cases n <;> rfl
  | cons a l ih =>
    obtain ⟨rfl, rest⟩ := chain
    obtain ⟨n, rfl⟩ : ∃ m, n = m + 1 := ⟨n - 1, by simp at long; omega⟩
    rw [List.length_cons] at long
    obtain ⟨other, later⟩ := not_or.mp (mt List.mem_cons.mpr absent)
    rw [entryBefore, if_neg (Ne.symm other)]
    exact ih rest (by omega) later

/-- The entry before `target` is made to point behind it. -/
theorem IsChain.bypass {next : α → Option α} {front rest : List α} {before target : α}
    {head : Option α} (chain : IsChain next head (front ++ before :: target :: rest))
    (nodup : (front ++ before :: target :: rest).Nodup) :
    IsChain (Function.update (Function.update next before (next target)) target none) head
      (front ++ before :: rest) := by
  induction front generalizing head with
  | nil =>
    obtain ⟨rfl, -, chain⟩ := chain
    rw [List.nil_append, List.nodup_cons, List.nodup_cons] at nodup
    obtain ⟨notBefore, notTarget, -⟩ := nodup
    obtain ⟨different, notBefore⟩ := not_or.mp (mt List.mem_cons.mpr notBefore)
    refine ⟨rfl, ?_⟩
    rw [Function.update_of_ne different, Function.update_self]
    refine chain.congr fun a member => ?_
    rw [Function.update_of_ne (ne_of_mem_of_not_mem member notTarget),
      Function.update_of_ne (ne_of_mem_of_not_mem member notBefore)]
  | cons a front ih =>
    obtain ⟨rfl, chain⟩ := chain
    rw [List.cons_append, List.nodup_cons] at nodup
    refine ⟨rfl, ?_⟩
    have notBefore : a ≠ before := by
      rintro rfl
      exact nodup.1 (by simp)
    have notTarget : a ≠ target := by
      rintro rfl
      exact nodup.1 (by simp)
    rw [Function.update_of_ne notTarget, Function.update_of_ne notBefore]
    exact ih chain nodup.2

/-! ### Tables -/

/-- The pointers of the entries, and the heads of the buckets. -/
structure ChainTable (α : Type) where
  next : α → Option α
  heads : ℕ → Option α

namespace ChainTable

/-- A new entry goes to the head of its bucket. -/
def add (t : ChainTable α) (bucket : ℕ) (a : α) : ChainTable α where
  next := Function.update t.next a (t.heads bucket)
  heads := Function.update t.heads bucket (some a)

/-- An entry is looked for in a bucket, and bypassed if it is there. -/
def delete (t : ChainTable α) (n bucket : ℕ) (a : α) : Option (ChainTable α) :=
  (entryBefore t.next a n none (t.heads bucket)).map fun
    | none => t
    | some none => ⟨Function.update t.next a none, Function.update t.heads bucket (t.next a)⟩
    | some (some before) =>
      { t with next := Function.update (Function.update t.next before (t.next a)) a none }

def find (t : ChainTable α) (n bucket : ℕ) (p : α → Bool) : Option (Option α) :=
  findFrom t.next p n (t.heads bucket)

/-- The table has exactly the given members, each once and in the bucket of its key. -/
def Holds (t : ChainTable α) (key : α → ℕ) (members : Set α) : Prop :=
  ∀ bucket, ∃ l, IsChain t.next (t.heads bucket) l ∧ l.Nodup ∧
    ∀ a, a ∈ l ↔ a ∈ members ∧ key a = bucket

end ChainTable

/-- As many steps are enough for all chains of members. -/
def Enough (members : Set α) (n : ℕ) : Prop :=
  ∀ l : List α, l.Nodup → (∀ a ∈ l, a ∈ members) → l.length ≤ n

namespace ChainTable

variable {t : ChainTable α} {key : α → ℕ} {members : Set α}

omit [DecidableEq α] in
/-- The keys of other entries do not matter. -/
theorem Holds.congr_key (holds : t.Holds key members) {key' : α → ℕ}
    (same : ∀ a ∈ members, key' a = key a) : t.Holds key' members := by
  intro bucket
  obtain ⟨l, chain, nodup, inside⟩ := holds bucket
  refine ⟨l, chain, nodup, fun a => ?_⟩
  rw [inside]
  constructor
  · rintro ⟨member, rfl⟩
    exact ⟨member, same a member⟩
  · rintro ⟨member, rfl⟩
    exact ⟨member, (same a member).symm⟩

omit [DecidableEq α] in
theorem Holds.find (holds : t.Holds key members) {n : ℕ} (enough : Enough members n) (bucket : ℕ)
    (p : α → Bool) :
    ∃ found, t.find n bucket p = some found ∧
      (∀ a, found = some a → a ∈ members ∧ key a = bucket ∧ p a = true) ∧
      (found = none → ∀ a ∈ members, key a = bucket → p a = false) := by
  obtain ⟨l, chain, nodup, inside⟩ := holds bucket
  have long := enough l nodup fun a member => ((inside a).mp member).1
  refine ⟨l.find? p, findFrom_eq p chain long, fun a found => ?_, fun none a member here => ?_⟩
  · obtain ⟨member, here⟩ := (inside a).mp (List.mem_of_find?_eq_some found)
    exact ⟨member, here, List.find?_some found⟩
  · have := List.find?_eq_none.mp none a ((inside a).mpr ⟨member, here⟩)
    simpa using this

theorem Holds.add (holds : t.Holds key members) {a : α} (absent : a ∉ members) (bucket : ℕ) :
    (t.add bucket a).Holds (Function.update key a bucket) (insert a members) := by
  intro b
  obtain ⟨l, chain, nodup, inside⟩ := holds b
  have notInside : a ∉ l := fun member => absent ((inside a).mp member).1
  have rest : IsChain (t.add bucket a).next (t.heads b) l := chain.congr fun c member =>
    Function.update_of_ne (ne_of_mem_of_not_mem member notInside) _ _
  have other : ∀ c, c ≠ a →
      (c ∈ insert a members ∧ Function.update key a bucket c = b ↔ c ∈ members ∧ key c = b) := by
    intro c different
    rw [Set.mem_insert_iff, Function.update_of_ne different]
    simp [different]
  by_cases here : b = bucket
  · subst here
    refine ⟨a :: l, ⟨Function.update_self .., ?_⟩, List.nodup_cons.mpr ⟨notInside, nodup⟩, fun c => ?_⟩
    · rw [show (t.add b a).next a = t.heads b from Function.update_self ..]
      exact rest
    · by_cases same : c = a
      · subst same
        simp
      · rw [List.mem_cons, other c same, inside]
        simp [same]
  · refine ⟨l, ?_, nodup, fun c => ?_⟩
    · rw [show (t.add bucket a).heads b = t.heads b from Function.update_of_ne here _ _]
      exact rest
    · by_cases same : c = a
      · subst same
        rw [Function.update_self]
        simp [notInside, Ne.symm here]
      · rw [other c same, inside]

theorem Holds.delete_absent (holds : t.Holds key members) {n : ℕ} (enough : Enough members n)
    {a : α} (absent : a ∉ members) (bucket : ℕ) : t.delete n bucket a = some t := by
  obtain ⟨l, chain, nodup, inside⟩ := holds bucket
  have long := enough l nodup fun b member => ((inside b).mp member).1
  unfold ChainTable.delete
  rw [entryBefore_eq_none chain long fun member => absent ((inside a).mp member).1]
  rfl

theorem Holds.delete (holds : t.Holds key members) {n : ℕ} (enough : Enough members n) {a : α}
    (member : a ∈ members) :
    ∃ t', t.delete n (key a) a = some t' ∧ t'.Holds key (members \ {a}) := by
  obtain ⟨l, chain, nodup, inside⟩ := holds (key a)
  have long := enough l nodup fun b member => ((inside b).mp member).1
  have here : a ∈ l := (inside a).mpr ⟨member, rfl⟩
  -- the other buckets keep their chains: no entry of theirs is `a` or the one before it
  have others : ∀ next' : α → Option α, (∀ b, b ∉ l → next' b = t.next b) → ∀ bucket, bucket ≠ key a →
      ∃ l', IsChain next' (t.heads bucket) l' ∧ l'.Nodup ∧
        ∀ b, b ∈ l' ↔ b ∈ members \ {a} ∧ key b = bucket := by
    intro next' same bucket different
    obtain ⟨l', chain', nodup', inside'⟩ := holds bucket
    refine ⟨l', chain'.congr fun b member' => same b fun also => ?_, nodup', fun b => ?_⟩
    · exact different (((inside' b).mp member').2.symm.trans ((inside b).mp also).2)
    · rw [inside', Set.mem_sdiff, Set.mem_singleton_iff]
      constructor
      · rintro ⟨member', rfl⟩
        exact ⟨⟨member', fun equal => different (equal ▸ rfl)⟩, rfl⟩
      · rintro ⟨⟨member', -⟩, rfl⟩
        exact ⟨member', rfl⟩
  have left : ∀ b, b ∈ l.erase a ↔ b ∈ members \ {a} ∧ key b = key a := by
    intro b
    rw [nodup.mem_erase_iff, inside, Set.mem_sdiff, Set.mem_singleton_iff]
    tauto
  unfold ChainTable.delete
  rcases entryBefore_eq none chain long here with
    ⟨rest, rfl, found⟩ | ⟨front, before, rest, rfl, apart, found⟩
  · rw [found]
    refine ⟨_, rfl, fun bucket => ?_⟩
    rw [List.nodup_cons] at nodup
    by_cases same : bucket = key a
    · subst same
      refine ⟨rest, ?_, nodup.2, fun b => ?_⟩
      · dsimp only
        rw [Function.update_self]
        exact chain.2.congr fun b inRest =>
          Function.update_of_ne (ne_of_mem_of_not_mem inRest nodup.1) _ _
      · rw [← left b, List.erase_cons_head]
    · dsimp only
      rw [Function.update_of_ne same]
      exact others _ (fun b outside => Function.update_of_ne (List.ne_of_not_mem_cons outside) _ _)
        bucket same
  · rw [found]
    refine ⟨_, rfl, fun bucket => ?_⟩
    by_cases same : bucket = key a
    · subst same
      have erased : (front ++ before :: a :: rest).erase a = front ++ before :: rest := by
        rw [List.append_cons, List.erase_append_right _ apart, List.erase_cons_head]
        simp
      refine ⟨front ++ before :: rest, chain.bypass nodup, ?_, fun b => ?_⟩
      · rw [← erased]
        exact nodup.erase a
      · rw [← left b, erased]
    · refine others _ (fun b outside => ?_) bucket same
      dsimp only
      rw [Function.update_of_ne (fun equal => outside (by simp [equal])),
        Function.update_of_ne (fun equal => outside (by simp [equal]))]

end ChainTable

end Ircd
