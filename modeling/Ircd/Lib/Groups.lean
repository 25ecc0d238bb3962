import Mathlib.Data.List.Nodup
import Mathlib.Logic.Function.Basic

/-!
# Groups with roots

Groups have members, and a group may belong under a root. Three structures record this: a group
points to its root, a root lists the groups under it, and a member remembers for each group under a
root that it is in. The operations keep the three in step.
-/
namespace Ircd

structure Groups (γ μ : Type*) where
  all : List γ
  root : γ → Option γ
  subs : γ → List γ
  on : μ → List γ
  cache : μ → List (γ × γ)

namespace Groups

variable {γ μ : Type*} [DecidableEq γ] [DecidableEq μ] {w : Groups γ μ} {top v : γ} {u : μ}

/-- The three structures agree, and a root has no root of its own. -/
structure Linked (w : Groups γ μ) : Prop where
  once : w.all.Nodup
  root : ∀ v ∈ w.all, ∀ b, w.root v = some b → b ∈ w.all ∧ w.root b = none
  subs : ∀ b ∈ w.all, ∀ v, v ∈ w.subs b ↔ v ∈ w.all ∧ w.root v = some b
  subsOnce : ∀ b ∈ w.all, (w.subs b).Nodup
  on : ∀ u, ∀ v ∈ w.on u, v ∈ w.all
  onOnce : ∀ u, (w.on u).Nodup
  cache : ∀ u b v, (b, v) ∈ w.cache u ↔ v ∈ w.on u ∧ w.root v = some b
  cacheOnce : ∀ u, (w.cache u).Nodup

/-! ### The operations -/

/-- A new group, under no root. -/
def create (w : Groups γ μ) (v : γ) : Groups γ μ :=
  { w with
    all := v :: w.all
    root := Function.update w.root v none
    subs := Function.update w.subs v [] }

/-- A group comes under a root. -/
def link (w : Groups γ μ) (top v : γ) : Groups γ μ :=
  { w with
    root := Function.update w.root v (some top)
    subs := Function.update w.subs top (v :: w.subs top) }

/-- A member enters a group. -/
def join (w : Groups γ μ) (u : μ) (v : γ) : Groups γ μ :=
  { w with
    on := Function.update w.on u (v :: w.on u)
    cache := Function.update w.cache u
      (match w.root v with
        | some b => (b, v) :: w.cache u
        | none => w.cache u) }

/-- A member leaves a group. -/
def leave (w : Groups γ μ) (u : μ) (v : γ) : Groups γ μ :=
  { w with
    on := Function.update w.on u ((w.on u).erase v)
    cache := Function.update w.cache u
      (if (w.root v).isSome then (w.cache u).eraseP (·.2 = v) else w.cache u) }

/-- Several members leave a group. -/
def evict (w : Groups γ μ) (l : List μ) (v : γ) : Groups γ μ := l.foldl (fun w u => w.leave u v) w

/-- A group is destroyed, unless it is the top of others. -/
def destroy (w : Groups γ μ) (v : γ) : Groups γ μ :=
  if w.root v = none ∧ w.subs v ≠ [] then w
  else
    { w with
      all := w.all.erase v
      subs := match w.root v with
        | some b => Function.update w.subs b ((w.subs b).erase v)
        | none => w.subs }

/-! ### What the members have -/

omit [DecidableEq γ] in
theorem join_on (w : Groups γ μ) (u : μ) (v : γ) (u' : μ) :
    (w.join u v).on u' = if u' = u then v :: w.on u else w.on u' :=
  Function.update_apply ..

omit [DecidableEq γ] in
theorem join_cache (w : Groups γ μ) (u : μ) (v : γ) (u' : μ) :
    (w.join u v).cache u' = if u' = u then
      (match w.root v with
        | some b => (b, v) :: w.cache u
        | none => w.cache u) else w.cache u' :=
  Function.update_apply ..

theorem leave_on (w : Groups γ μ) (u : μ) (v : γ) (u' : μ) :
    (w.leave u v).on u' = if u' = u then (w.on u).erase v else w.on u' :=
  Function.update_apply ..

theorem leave_cache (w : Groups γ μ) (u : μ) (v : γ) (u' : μ) :
    (w.leave u v).cache u' = if u' = u then
      (if (w.root v).isSome then (w.cache u).eraseP (·.2 = v) else w.cache u) else w.cache u' :=
  Function.update_apply ..

theorem evict_all (w : Groups γ μ) (l : List μ) (v : γ) : (w.evict l v).all = w.all := by
  induction l generalizing w with
  | nil => rfl
  | cons u l ih => exact ih (w.leave u v)

omit [DecidableEq μ] in
theorem destroy_on (w : Groups γ μ) (v : γ) : (w.destroy v).on = w.on := by
  unfold destroy
  split
  · rfl
  · rfl

/-! ### They keep the groups linked -/

omit [DecidableEq μ] in
theorem Linked.create (linked : w.Linked) (absent : v ∉ w.all) : (w.create v).Linked := by
  have other : ∀ {c}, c ∈ w.all → c ≠ v := fun member => ne_of_mem_of_not_mem member absent
  have root : ∀ {c}, c ≠ v → (w.create v).root c = w.root c := fun different =>
    Function.update_of_ne different ..
  have subs : ∀ {c}, c ≠ v → (w.create v).subs c = w.subs c := fun different =>
    Function.update_of_ne different ..
  have rootNew : (w.create v).root v = none := Function.update_self ..
  have subsNew : (w.create v).subs v = [] := Function.update_self ..
  refine ⟨List.nodup_cons.mpr ⟨absent, linked.once⟩, fun c member b isRoot => ?_,
    fun b member c => ?_, fun b member => ?_, fun u c on => List.mem_cons_of_mem _ (linked.on u c on),
    linked.onOnce, fun u b c => ?_, linked.cacheOnce⟩
  · rcases List.mem_cons.mp member with rfl | old
    · rw [rootNew] at isRoot
      cases isRoot
    · rw [root (other old)] at isRoot
      obtain ⟨listed, flat⟩ := linked.root c old b isRoot
      exact ⟨List.mem_cons_of_mem _ listed, by rw [root (other listed), flat]⟩
  · rcases List.mem_cons.mp member with rfl | old
    · -- nobody points to the new group
      rw [subsNew]
      refine iff_of_false List.not_mem_nil ?_
      rintro ⟨inside, isRoot⟩
      rcases List.mem_cons.mp inside with rfl | before
      · rw [rootNew] at isRoot
        cases isRoot
      · rw [root (other before)] at isRoot
        exact absent (linked.root c before b isRoot).1
    · rw [subs (other old), linked.subs b old c]
      constructor
      · rintro ⟨before, isRoot⟩
        exact ⟨List.mem_cons_of_mem _ before, by rw [root (other before), isRoot]⟩
      · rintro ⟨inside, isRoot⟩
        rcases List.mem_cons.mp inside with rfl | before
        · rw [rootNew] at isRoot
          cases isRoot
        · rw [root (other before)] at isRoot
          exact ⟨before, isRoot⟩
  · rcases List.mem_cons.mp member with rfl | old
    · rw [subsNew]
      exact List.nodup_nil
    · rw [subs (other old)]
      exact linked.subsOnce b old
  · rw [show (w.create v).cache u = w.cache u from rfl, show (w.create v).on u = w.on u from rfl,
      linked.cache u b c]
    exact and_congr_right fun on => by rw [root (other (linked.on u c on))]

omit [DecidableEq μ] in
/-- A group is put under a root that has none, if it is a root for nobody and nobody is in it. -/
theorem Linked.link (linked : w.Linked) (topListed : top ∈ w.all) (listed : v ∈ w.all)
    (other : top ≠ v) (topFlat : w.root top = none) (noRoot : w.root v = none) (bare : w.subs v = [])
    (nobody : ∀ u, v ∉ w.on u) : (w.link top v).Linked := by
  have root : ∀ {c}, c ≠ v → (w.link top v).root c = w.root c := fun different =>
    Function.update_of_ne different ..
  have rootNew : (w.link top v).root v = some top := Function.update_self ..
  have subs : ∀ {c}, c ≠ top → (w.link top v).subs c = w.subs c := fun different =>
    Function.update_of_ne different ..
  have subsNew : (w.link top v).subs top = v :: w.subs top := Function.update_self ..
  have fresh : v ∉ w.subs top := fun inside => by
    have isRoot := ((linked.subs top topListed v).mp inside).2
    rw [noRoot] at isRoot
    cases isRoot
  -- the group has been a root for nobody
  have notRoot : ∀ c ∈ w.all, w.root c ≠ some v := fun c member isRoot => by
    have inside := (linked.subs v listed c).mpr ⟨member, isRoot⟩
    rw [bare] at inside
    cases inside
  refine ⟨linked.once, fun c member b isRoot => ?_, fun b member c => ?_, fun b member => ?_,
    linked.on, linked.onOnce, fun u b c => ?_, linked.cacheOnce⟩
  · by_cases here : c = v
    · subst here
      rw [rootNew] at isRoot
      obtain rfl := Option.some.inj isRoot
      exact ⟨topListed, by rw [root other, topFlat]⟩
    · rw [root here] at isRoot
      obtain ⟨bListed, flat⟩ := linked.root c member b isRoot
      refine ⟨bListed, ?_⟩
      rw [root, flat]
      rintro rfl
      exact notRoot c member isRoot
  · by_cases here : c = v
    · subst here
      rw [rootNew]
      by_cases isTop : b = top
      · subst isTop
        rw [subsNew]
        exact iff_of_true List.mem_cons_self ⟨listed, rfl⟩
      · rw [subs isTop, linked.subs b member c, noRoot]
        refine iff_of_false (fun both => ?_) fun both => isTop (Option.some.inj both.2).symm
        cases both.2
    · rw [root here]
      by_cases isTop : b = top
      · subst isTop
        rw [subsNew, List.mem_cons, or_iff_right here, linked.subs b member c]
        exact Iff.rfl
      · rw [subs isTop, linked.subs b member c]
        exact Iff.rfl
  · by_cases isTop : b = top
    · subst isTop
      rw [subsNew]
      exact List.nodup_cons.mpr ⟨fresh, linked.subsOnce b member⟩
    · rw [subs isTop]
      exact linked.subsOnce b member
  · rw [show (w.link top v).cache u = w.cache u from rfl, show (w.link top v).on u = w.on u from rfl,
      linked.cache u b c]
    refine and_congr_right fun on => ?_
    rw [root]
    rintro rfl
    exact nobody u on

omit [DecidableEq γ] in
theorem Linked.join (linked : w.Linked) (listed : v ∈ w.all) (outside : v ∉ w.on u) :
    (w.join u v).Linked := by
  have fresh : ∀ b, (b, v) ∉ w.cache u := fun b inside => outside ((linked.cache u b v).mp inside).1
  refine ⟨linked.once, linked.root, linked.subs, linked.subsOnce, fun u' c inside => ?_,
    fun u' => ?_, fun u' b c => ?_, fun u' => ?_⟩
  · rw [join_on] at inside
    split at inside
    · rcases List.mem_cons.mp inside with rfl | before
      · exact listed
      · exact linked.on u c before
    · exact linked.on u' c inside
  · rw [join_on]
    split
    · exact List.nodup_cons.mpr ⟨outside, linked.onOnce u⟩
    · exact linked.onOnce u'
  · rw [join_on, join_cache]
    change _ ↔ _ ∧ w.root c = some b
    split
    next here =>
      subst here
      cases isRoot : w.root v with
      | none =>
        rw [linked.cache u' b c, List.mem_cons]
        refine and_congr_left fun given => (or_iff_right ?_).symm
        rintro rfl
        rw [isRoot] at given
        cases given
      | some b' =>
        rw [List.mem_cons, linked.cache u' b c, List.mem_cons]
        constructor
        · rintro (equal | ⟨before, given⟩)
          · obtain ⟨rfl, rfl⟩ := Prod.mk.inj equal
            exact ⟨Or.inl rfl, isRoot⟩
          · exact ⟨Or.inr before, given⟩
        · rintro ⟨rfl | before, given⟩
          · rw [isRoot] at given
            obtain rfl := Option.some.inj given
            exact Or.inl rfl
          · exact Or.inr ⟨before, given⟩
    next => exact linked.cache u' b c
  · rw [join_cache]
    split
    · cases w.root v with
      | none => exact linked.cacheOnce u
      | some b => exact List.nodup_cons.mpr ⟨fresh b, linked.cacheOnce u⟩
    · exact linked.cacheOnce u'

/-- Where only one element has the property, it is gone after `eraseP`, and all others stay. -/
theorem mem_eraseP_of_unique {α : Type*} {p : α → Bool} {l : List α} (once : l.Nodup)
    (unique : ∀ a ∈ l, ∀ b ∈ l, p a = true → p b = true → a = b) (a : α) :
    a ∈ l.eraseP p ↔ a ∈ l ∧ p a = false := by
  induction l with
  | nil => simp
  | cons b l ih =>
    obtain ⟨absent, once⟩ := List.nodup_cons.mp once
    by_cases here : p b = true
    · rw [List.eraseP_cons_of_pos here]
      constructor
      · intro member
        refine ⟨List.mem_cons_of_mem _ member, Bool.eq_false_iff.mpr fun also => ?_⟩
        have same := unique a (List.mem_cons_of_mem _ member) b List.mem_cons_self also here
        exact absent (same ▸ member)
      · rintro ⟨member, not⟩
        rcases List.mem_cons.mp member with rfl | member
        · rw [here] at not
          cases not
        · exact member
    · rw [List.eraseP_cons_of_neg here, List.mem_cons, List.mem_cons,
        ih once fun c hc d hd => unique c (List.mem_cons_of_mem _ hc) d (List.mem_cons_of_mem _ hd)]
      constructor
      · rintro (rfl | ⟨member, not⟩)
        · exact ⟨Or.inl rfl, Bool.eq_false_iff.mpr here⟩
        · exact ⟨Or.inr member, not⟩
      · rintro ⟨rfl | member, not⟩
        · exact Or.inl rfl
        · exact Or.inr ⟨member, not⟩

theorem Linked.leave (linked : w.Linked) (u : μ) (v : γ) : (w.leave u v).Linked := by
  -- what is remembered for the group goes, and nothing else
  have erased : ∀ pair, pair ∈ (if (w.root v).isSome then (w.cache u).eraseP (·.2 = v)
      else w.cache u) ↔ pair ∈ w.cache u ∧ pair.2 ≠ v := by
    intro pair
    split
    · rw [mem_eraseP_of_unique (linked.cacheOnce u), decide_eq_false_iff_not]
      rintro ⟨b, c⟩ member ⟨b', c'⟩ member' here here'
      obtain rfl : c = v := of_decide_eq_true here
      obtain rfl : c' = c := of_decide_eq_true here'
      have isRoot := ((linked.cache u b c').mp member).2
      have isRoot' := ((linked.cache u b' c').mp member').2
      rw [isRoot] at isRoot'
      rw [Option.some.inj isRoot']
    next none =>
      refine ⟨fun member => ⟨member, ?_⟩, And.left⟩
      rintro rfl
      have isRoot := ((linked.cache u pair.1 pair.2).mp member).2
      rw [isRoot] at none
      exact none rfl
  refine ⟨linked.once, linked.root, linked.subs, linked.subsOnce, fun u' c inside => ?_,
    fun u' => ?_, fun u' b c => ?_, fun u' => ?_⟩
  · rw [leave_on] at inside
    split at inside
    · exact linked.on u c (List.mem_of_mem_erase inside)
    · exact linked.on u' c inside
  · rw [leave_on]
    split
    · exact (linked.onOnce u).erase v
    · exact linked.onOnce u'
  · rw [leave_on, leave_cache]
    change _ ↔ _ ∧ w.root c = some b
    split
    next here =>
      rw [erased, linked.cache u b c, (linked.onOnce u).mem_erase_iff]
      exact ⟨fun ⟨⟨before, isRoot⟩, other⟩ => ⟨⟨other, before⟩, isRoot⟩,
        fun ⟨⟨other, before⟩, isRoot⟩ => ⟨⟨before, isRoot⟩, other⟩⟩
    next => exact linked.cache u' b c
  · rw [leave_cache]
    split
    · split
      · exact (linked.cacheOnce u).sublist List.eraseP_sublist
      · exact linked.cacheOnce u
    · exact linked.cacheOnce u'

theorem Linked.evict (linked : w.Linked) (l : List μ) (v : γ) : (w.evict l v).Linked := by
  induction l generalizing w with
  | nil => exact linked
  | cons u l ih => exact ih (linked.leave u v)

omit [DecidableEq μ] in
theorem Linked.destroy (linked : w.Linked) (listed : v ∈ w.all) (nobody : ∀ u, v ∉ w.on u) :
    (w.destroy v).Linked := by
  unfold Groups.destroy
  split
  · exact linked
  next goes =>
    -- the group is a root for nobody: it would have no root itself, and would stay
    have notRoot : ∀ c ∈ w.all, w.root c ≠ some v := fun c member isRoot => by
      have inside := (linked.subs v listed c).mpr ⟨member, isRoot⟩
      exact goes ⟨(linked.root c member v isRoot).2, List.ne_nil_of_mem inside⟩
    have left : ∀ c, c ∈ w.all.erase v ↔ c ≠ v ∧ c ∈ w.all := fun c =>
      linked.once.mem_erase_iff
    have subs : ∀ b ∈ w.all, ∀ c, c ∈ (match w.root v with
        | some b => Function.update w.subs b ((w.subs b).erase v)
        | none => w.subs) b ↔ c ≠ v ∧ c ∈ w.subs b := by
      intro b member c
      cases isRoot : w.root v with
      | none =>
        refine ⟨fun inside => ⟨?_, inside⟩, And.right⟩
        rintro rfl
        have given := ((linked.subs b member c).mp inside).2
        rw [isRoot] at given
        cases given
      | some b' =>
        dsimp only
        by_cases here : b = b'
        · subst here
          rw [Function.update_self, (linked.subsOnce b member).mem_erase_iff]
        · rw [Function.update_of_ne here]
          refine ⟨fun inside => ⟨?_, inside⟩, And.right⟩
          rintro rfl
          have given := ((linked.subs b member c).mp inside).2
          rw [isRoot] at given
          exact here (Option.some.inj given).symm
    refine ⟨linked.once.erase v, fun c member b isRoot => ?_, fun b member c => ?_,
      fun b member => ?_, fun u c on => ?_, linked.onOnce, linked.cache, linked.cacheOnce⟩
    · obtain ⟨-, before⟩ := (left c).mp member
      obtain ⟨bListed, flat⟩ := linked.root c before b isRoot
      refine ⟨(left b).mpr ⟨?_, bListed⟩, flat⟩
      rintro rfl
      exact notRoot c before isRoot
    · obtain ⟨-, before⟩ := (left b).mp member
      rw [subs b before c, linked.subs b before c, left]
      exact and_assoc.symm
    · obtain ⟨-, before⟩ := (left b).mp member
      cases w.root v with
      | none => exact linked.subsOnce b before
      | some b' =>
        dsimp only
        by_cases here : b = b'
        · subst here
          rw [Function.update_self]
          exact (linked.subsOnce b before).erase v
        · rw [Function.update_of_ne here]
          exact linked.subsOnce b before
    · refine (left c).mpr ⟨?_, linked.on u c on⟩
      rintro rfl
      exact nobody u on

end Groups

end Ircd
