import Mathlib.Order.MinMax
import Mathlib.Data.List.Perm.Basic

/-!
# Oldest wins

Replicated values with a timestamp: of two different timestamps the older one wins with its
value, and values with equal timestamps are merged. The order in which they arrive does not
matter, except that the first one may be merged with a start value; then it matters exactly
when that makes a difference to the oldest values and a younger value may come first.
-/
namespace OldestWins

variable {τ μ : Type} [LinearOrder τ] (merge : μ → μ → μ)

def join (x y : τ × μ) : τ × μ :=
  if x.1 < y.1 then x else if y.1 < x.1 then y else (x.1, merge x.2 y.2)

@[simp] theorem join_of_lt {x y : τ × μ} (older : x.1 < y.1) : join merge x y = x := if_pos older

@[simp] theorem join_of_gt {x y : τ × μ} (younger : y.1 < x.1) : join merge x y = y := by
  rw [join, if_neg younger.le.not_gt, if_pos younger]

theorem join_of_eq {x y : τ × μ} (equal : x.1 = y.1) : join merge x y = (x.1, merge x.2 y.2) := by
  rw [join, if_neg equal.not_lt, if_neg equal.not_gt]

theorem join_fst (x y : τ × μ) : (join merge x y).1 = min x.1 y.1 := by
  rcases lt_trichotomy x.1 y.1 with older | equal | younger
  · rw [join_of_lt merge older, min_eq_left older.le]
  · rw [join_of_eq merge equal, equal, min_self]
  · rw [join_of_gt merge younger, min_eq_right younger.le]

section Semilattice

theorem join_comm [commutative : Std.Commutative merge] (x y : τ × μ) :
    join merge x y = join merge y x := by
  rcases lt_trichotomy x.1 y.1 with older | equal | younger
  · rw [join_of_lt merge older, join_of_gt merge older]
  · rw [join_of_eq merge equal, join_of_eq merge equal.symm, commutative.comm x.2, equal]
  · rw [join_of_gt merge younger, join_of_lt merge younger]

variable [associative : Std.Associative merge]

theorem join_assoc (x y z : τ × μ) :
    join merge (join merge x y) z = join merge x (join merge y z) := by
  rcases lt_trichotomy x.1 y.1 with xy | xy | xy <;> rcases lt_trichotomy y.1 z.1 with yz | yz | yz
  · rw [join_of_lt merge xy, join_of_lt merge yz, join_of_lt merge xy, join_of_lt merge (xy.trans yz)]
  · rw [join_of_lt merge xy, join_of_eq merge yz, join_of_lt merge (xy.trans_eq yz)]
    exact (join_of_lt merge (y := (y.1, merge y.2 z.2)) xy).symm
  · rw [join_of_lt merge xy, join_of_gt merge yz]
  · rw [join_of_lt merge yz, join_of_eq merge xy]
    exact join_of_lt merge (xy.trans_lt yz)
  · have left : join merge (x.1, merge x.2 y.2) z = (x.1, merge (merge x.2 y.2) z.2) :=
      join_of_eq merge (xy.trans yz)
    have right : join merge x (y.1, merge y.2 z.2) = (x.1, merge x.2 (merge y.2 z.2)) :=
      join_of_eq merge xy
    rw [join_of_eq merge xy, join_of_eq merge yz, left, right, associative.assoc]
  · have younger : z.1 < x.1 := yz.trans_eq xy.symm
    rw [join_of_eq merge xy, join_of_gt merge yz, join_of_gt merge younger]
    exact join_of_gt merge younger
  · rw [join_of_gt merge xy, join_of_lt merge yz, join_of_gt merge xy]
  · rw [join_of_gt merge xy, join_of_eq merge yz]
    exact (join_of_gt merge (y := (y.1, merge y.2 z.2)) xy).symm
  · rw [join_of_gt merge xy, join_of_gt merge yz, join_of_gt merge (yz.trans xy)]

variable [commutative : Std.Commutative merge]

/-- Onto a value that is there, the others may be joined in any order. -/
theorem foldl_perm {l l' : List (τ × μ)} (same : l'.Perm l) (start : τ × μ) :
    l'.foldl (join merge) start = l.foldl (join merge) start := by
  refine same.foldl_eq' (fun x _ y _ z => ?_) start
  rw [join_assoc, join_assoc, join_comm merge x y]

end Semilattice

/-! ### Starting from nothing -/

section First

variable (e : μ)

/-- The value merged with the start value. -/
def boost (x : τ × μ) : τ × μ := (x.1, merge e x.2)

/-- The first value is merged with the start value, the others are joined to it. -/
def foldFirst : List (τ × μ) → Option (τ × μ)
  | [] => none
  | x :: xs => some (xs.foldl (join merge) (boost merge e x))

/-- The join of a non-empty list. -/
def oldest : List (τ × μ) → Option (τ × μ)
  | [] => none
  | x :: xs => some (xs.foldl (join merge) x)

variable [associative : Std.Associative merge]

private theorem join_boost (x y : τ × μ) :
    join merge (boost merge e x) y =
      if x.1 ≤ y.1 then boost merge e (join merge x y) else join merge x y := by
  rcases lt_trichotomy x.1 y.1 with older | equal | younger
  · rw [if_pos older.le, join_of_lt merge older]
    exact join_of_lt merge older
  · have left : join merge (boost merge e x) y = (x.1, merge (merge e x.2) y.2) :=
      join_of_eq merge equal
    rw [if_pos equal.le, left, join_of_eq merge equal, boost, associative.assoc]
  · rw [if_neg younger.not_ge, join_of_gt merge younger]
    exact join_of_gt merge younger

private theorem foldl_boost (x : τ × μ) (xs : List (τ × μ)) :
    (xs.foldl (join merge) x).1 ≤ x.1 ∧
      xs.foldl (join merge) (boost merge e x) =
        if x.1 = (xs.foldl (join merge) x).1 then boost merge e (xs.foldl (join merge) x)
        else xs.foldl (join merge) x := by
  induction xs generalizing x with
  | nil => simp
  | cons y ys ih =>
    obtain ⟨below, equal⟩ := ih (join merge x y)
    have first := join_fst merge x y
    refine ⟨below.trans (by rw [first]; exact min_le_left _ _), ?_⟩
    rw [List.foldl_cons, List.foldl_cons, join_boost]
    by_cases older : x.1 ≤ y.1
    · rw [if_pos older, equal, first, min_eq_left older]
    · have younger : y.1 < x.1 := not_le.mp older
      rw [first, min_eq_right younger.le] at below
      rw [if_neg older, if_neg (ne_of_gt (lt_of_le_of_lt below younger))]

private theorem foldFirst_eq {l : List (τ × μ)} {r : τ × μ} (result : oldest merge l = some r) :
    foldFirst merge e l = l.head?.map fun x => if x.1 = r.1 then boost merge e r else r := by
  cases l with
  | nil => cases result
  | cons x xs =>
    obtain rfl := Option.some.inj result
    exact congrArg some (foldl_boost merge e x xs).2

variable [commutative : Std.Commutative merge]

private theorem oldest_perm {l l' : List (τ × μ)} (same : l'.Perm l) :
    oldest merge l' = oldest merge l := by
  induction same with
  | nil => rfl
  | cons x _ _ => exact congrArg some (foldl_perm merge ‹_› x)
  | swap x y l => simp only [oldest, List.foldl_cons, join_comm merge x y]
  | trans _ _ left right => exact left.trans right

omit associative commutative in
/-- The oldest timestamp is that of one of the values, and none is older. -/
theorem oldest_fst {l : List (τ × μ)} {r : τ × μ} (result : oldest merge l = some r) :
    (∃ x ∈ l, x.1 = r.1) ∧ ∀ x ∈ l, r.1 ≤ x.1 := by
  cases l with
  | nil => cases result
  | cons x xs =>
    obtain rfl := Option.some.inj result
    clear result
    induction xs generalizing x with
    | nil => simp
    | cons y ys ih =>
      rw [List.foldl_cons]
      obtain ⟨⟨z, member, equal⟩, below⟩ := ih (join merge x y)
      have first := join_fst merge x y
      refine ⟨?_, fun w inside => ?_⟩
      · rcases List.mem_cons.mp member with rfl | later
        · rw [first] at equal
          rcases min_choice x.1 y.1 with left | right
          · exact ⟨x, by simp, left.symm.trans equal⟩
          · exact ⟨y, by simp, right.symm.trans equal⟩
        · exact ⟨z, by simp [later], equal⟩
      · have head := below (join merge x y) (by simp)
        rw [first] at head
        rcases List.mem_cons.mp inside with rfl | inside
        · exact head.trans (min_le_left _ _)
        · rcases List.mem_cons.mp inside with rfl | inside
          · exact head.trans (min_le_right _ _)
          · exact below w (List.mem_cons_of_mem _ inside)

omit associative commutative in
/-- A property that a merge has when one of the values has it. -/
theorem oldest_snd {P : μ → Prop} (either : ∀ a b, P (merge a b) ↔ P a ∨ P b)
    {l : List (τ × μ)} {r : τ × μ} (result : oldest merge l = some r) :
    P r.2 ↔ ∃ x ∈ l, x.1 = r.1 ∧ P x.2 := by
  cases l with
  | nil => cases result
  | cons x xs =>
    obtain rfl := Option.some.inj result
    clear result
    induction xs generalizing x with
    | nil => simp
    | cons y ys ih =>
      obtain ⟨-, below⟩ := oldest_fst merge (l := join merge x y :: ys) rfl
      have head := below (join merge x y) (by simp)
      have first := join_fst merge x y
      rw [List.foldl_cons, ih (join merge x y)]
      simp only [List.mem_cons, exists_eq_or_imp]
      generalize ys.foldl (join merge) (join merge x y) = r at head
      rw [← or_assoc]
      apply or_congr_left
      rcases lt_trichotomy x.1 y.1 with older | equal | younger
      · rw [join_of_lt merge older] at head ⊢
        have : y.1 ≠ r.1 := (head.trans_lt older).ne'
        simp [this]
      · rw [join_of_eq merge equal, either]
        simp only [equal]
        tauto
      · rw [join_of_gt merge younger] at head ⊢
        have : x.1 ≠ r.1 := (head.trans_lt younger).ne'
        simp [this]

/-- Starting from nothing, the order does not matter exactly when all values are equally old
or the start value adds nothing to the oldest ones. -/
theorem foldFirst_perm_iff {l : List (τ × μ)} {r : τ × μ} (result : oldest merge l = some r) :
    (∀ l', l'.Perm l → foldFirst merge e l' = foldFirst merge e l) ↔
      (∀ x ∈ l, x.1 = r.1) ∨ merge e r.2 = r.2 := by
  have outcome : ∀ l', l'.Perm l → foldFirst merge e l' =
      l'.head?.map fun x => if x.1 = r.1 then boost merge e r else r := fun l' same =>
    foldFirst_eq merge e ((oldest_perm merge same).trans result)
  -- every value may come first
  have starting : ∀ x ∈ l, ∃ l', l'.Perm l ∧
      foldFirst merge e l' = some (if x.1 = r.1 then boost merge e r else r) := by
    intro x member
    obtain ⟨front, back, rfl⟩ := List.append_of_mem member
    have same : (x :: (front ++ back)).Perm (front ++ x :: back) := List.perm_middle.symm
    exact ⟨_, same, outcome _ same⟩
  constructor
  · intro agree
    by_contra neither
    obtain ⟨different, grows⟩ := not_or.mp neither
    obtain ⟨x, member, younger⟩ : ∃ x ∈ l, x.1 ≠ r.1 := by simpa using different
    obtain ⟨y, member', old⟩ := (oldest_fst merge result).1
    obtain ⟨l₁, same₁, result₁⟩ := starting x member
    obtain ⟨l₂, same₂, result₂⟩ := starting y member'
    rw [agree l₁ same₁, ← agree l₂ same₂, result₂, if_pos old, if_neg younger] at result₁
    exact grows (congrArg Prod.snd (Option.some.inj result₁))
  · intro either l' same
    have constant : ∀ l'', l''.Perm l → foldFirst merge e l'' = some (boost merge e r) := by
      intro l'' same'
      rw [outcome l'' same']
      cases shape : l'' with
      | nil =>
        rw [shape] at same'
        rw [List.nil_perm.mp same'] at result
        cases result
      | cons x xs =>
        rw [List.head?_cons, Option.map_some]
        rcases either with equal | nothing
        · rw [if_pos (equal x (same'.subset (by simp [shape])))]
        · have boosted : boost merge e r = r := Prod.ext rfl nothing
          rw [boosted, ite_self]
    rw [constant l' same, constant l (List.Perm.refl l)]

end First

end OldestWins
