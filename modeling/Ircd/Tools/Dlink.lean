import Ircd.Lib.Segments

/-!
# Doubly linked lists

The `dlink_list`s of `src/tools.c`: nodes with a pointer to their data and two to other nodes, and lists with a head
and a tail. Nodes and lists are names; what stands in them is looked up in the memory. `dlinkAdd` leaves the `prev` of
the node as it was.
-/
namespace Ircd.Tools

/-- The `dlink_node`s and the `dlink_list`s. -/
structure Memory (ν κ δ : Type) where
  data : ν → δ
  prev : ν → Option ν
  next : ν → Option ν
  head : κ → Option ν
  tail : κ → Option ν

variable {ν κ δ : Type} [DecidableEq ν] [DecidableEq κ]

namespace Memory

/-- `dlinkAdd`. -/
def dlinkAdd (s : Memory ν κ δ) (data : δ) (m : ν) (list : κ) : Memory ν κ δ where
  data := Function.update s.data m data
  next := Function.update s.next m (s.head list)
  prev := setLink s.prev (s.head list) (some m)
  tail := if s.head list = none ∧ s.tail list = none then Function.update s.tail list (some m) else s.tail
  head := Function.update s.head list (some m)

/-- `dlinkAddBefore`, which follows the `prev` of the node unless it is the first. -/
def dlinkAddBefore (s : Memory ν κ δ) (b : ν) (data : δ) (m : ν) (list : κ) : Option (Memory ν κ δ) :=
  if s.head list = some b then some (s.dlinkAdd data m list)
  else
    (s.prev b).map fun before =>
      { s with
        data := Function.update s.data m data
        next := Function.update (Function.update s.next before (some m)) m (some b)
        prev := Function.update (Function.update s.prev m (some before)) b (some m) }

/-- `dlinkAddTail`. -/
def dlinkAddTail (s : Memory ν κ δ) (data : δ) (m : ν) (list : κ) : Memory ν κ δ where
  data := Function.update s.data m data
  next := setLink (Function.update s.next m none) (s.tail list) (some m)
  prev := Function.update s.prev m (s.tail list)
  head := if s.tail list = none ∧ s.head list = none then Function.update s.head list (some m) else s.head
  tail := Function.update s.tail list (some m)

/-- `dlinkDelete`. -/
def dlinkDelete (s : Memory ν κ δ) (m : ν) (list : κ) : Memory ν κ δ where
  data := s.data
  prev := Function.update (setLink s.prev (s.next m) (s.prev m)) m none
  tail := if s.next m = none then Function.update s.tail list (s.prev m) else s.tail
  next := Function.update (setLink s.next (s.prev m) (s.next m)) m none
  head := if s.prev m = none then Function.update s.head list (s.next m) else s.head

/-- `dlinkMoveList`. Where both lists have nodes, the tail of the one that is moved is followed. -/
def dlinkMoveList (s : Memory ν κ δ) (source target : κ) : Option (Memory ν κ δ) :=
  match s.head source, s.head target with
  | none, _ => some s
  | some first, none =>
    some { s with
      head := Function.update (Function.update s.head target (some first)) source none
      tail := Function.update (Function.update s.tail target (s.tail source)) source none }
  | some first, some old =>
    (s.tail source).map fun last =>
      { s with
        next := Function.update s.next last (some old)
        prev := Function.update (Function.update s.prev first (s.prev old)) old (some last)
        head := Function.update (Function.update s.head target (some first)) source none
        tail := Function.update s.tail source none }

/-- The loop of `dlink_list_length`, with so many rounds at most. -/
def countLoop (s : Memory ν κ δ) : ℕ → Option ν → ℕ → Option ℕ
  | 0, _, _ => none
  | _ + 1, none, count => some count
  | rounds + 1, some ptr, count => s.countLoop rounds (s.next ptr) (count + 1)

/-- `dlink_list_length`. -/
def dlinkListLength (s : Memory ν κ δ) (list : κ) (rounds : ℕ) : Option ℕ := s.countLoop rounds (s.head list) 0

/-- The loop of `dlinkFind`, with so many rounds at most. -/
def findLoop [DecidableEq δ] (s : Memory ν κ δ) (data : δ) : ℕ → Option ν → Option (Option ν)
  | 0, _ => none
  | _ + 1, none => some none
  | rounds + 1, some ptr => if s.data ptr = data then some (some ptr) else s.findLoop data rounds (s.next ptr)

/-- `dlinkFind`. -/
def dlinkFind [DecidableEq δ] (s : Memory ν κ δ) (list : κ) (data : δ) (rounds : ℕ) : Option (Option ν) :=
  s.findLoop data rounds (s.head list)

end Memory

/-! ### What the lists stand for -/

/-- The nodes of a sequence. -/
def nodes (l : List (ν × δ)) : List ν := l.map Prod.fst

/-- The lists are well formed and stand for these sequences. No node is on two of them. -/
structure Represents (s : Memory ν κ δ) (lists : κ → List (ν × δ)) : Prop where
  head : ∀ k, s.head k = (nodes (lists k)).head?
  tail : ∀ k, s.tail k = (nodes (lists k)).getLast?
  linked : ∀ k, IsSegment s.next s.prev none (nodes (lists k)) none
  data : ∀ k, ∀ e ∈ lists k, s.data e.1 = e.2
  nodup : ∀ k, (nodes (lists k)).Nodup
  apart : ∀ {k k' m}, m ∈ nodes (lists k) → m ∈ nodes (lists k') → k = k'

section

variable {s s' : Memory ν κ δ} {lists : κ → List (ν × δ)} {k : κ} {m b : ν} {data : δ}

omit [DecidableEq ν] in
/-- One list gets another sequence, and the nodes of the others are left alone. -/
theorem Represents.replace (rep : Represents s lists) {new : List (ν × δ)}
    (head : s'.head = Function.update s.head k (nodes new).head?)
    (tail : s'.tail = Function.update s.tail k (nodes new).getLast?)
    (linked : IsSegment s'.next s'.prev none (nodes new) none) (data : ∀ e ∈ new, s'.data e.1 = e.2)
    (nodup : (nodes new).Nodup)
    (others : ∀ k' ≠ k, ∀ n ∈ nodes (lists k'),
      (s'.next n = s.next n ∧ s'.prev n = s.prev n) ∧ s'.data n = s.data n)
    (apart : ∀ k' ≠ k, ∀ n ∈ nodes new, n ∉ nodes (lists k')) :
    Represents s' (Function.update lists k new) where
  head k' := by
    rw [head]
    by_cases here : k' = k
    · subst here
      simp only [Function.update_self]
    · simp only [Function.update_of_ne here, rep.head]
  tail k' := by
    rw [tail]
    by_cases here : k' = k
    · subst here
      simp only [Function.update_self]
    · simp only [Function.update_of_ne here, rep.tail]
  linked k' := by
    by_cases here : k' = k
    · subst here
      rwa [Function.update_self]
    · rw [Function.update_of_ne here]
      exact (rep.linked k').congr fun n member => (others k' here n member).1
  data k' e member := by
    by_cases here : k' = k
    · subst here
      rw [Function.update_self] at member
      exact data e member
    · rw [Function.update_of_ne here] at member
      exact (others k' here e.1 (List.mem_map_of_mem member)).2.trans (rep.data k' e member)
  nodup k' := by
    by_cases here : k' = k
    · subst here
      rwa [Function.update_self]
    · rw [Function.update_of_ne here]
      exact rep.nodup k'
  apart {k₁ k₂ n} first second := by
    by_cases here₁ : k₁ = k <;> by_cases here₂ : k₂ = k
    · rw [here₁, here₂]
    · subst here₁
      rw [Function.update_self] at first
      rw [Function.update_of_ne here₂] at second
      exact absurd second (apart k₂ here₂ n first)
    · subst here₂
      rw [Function.update_of_ne here₁] at first
      rw [Function.update_self] at second
      exact absurd first (apart k₁ here₁ n second)
    · rw [Function.update_of_ne here₁] at first
      rw [Function.update_of_ne here₂] at second
      exact rep.apart first second

omit [DecidableEq ν] [DecidableEq κ] in
theorem Represents.elsewhere (rep : Represents s lists) {k' : κ} (other : k' ≠ k) {n : ν}
    (member : n ∈ nodes (lists k')) : n ∉ nodes (lists k) := fun here => other (rep.apart member here)

theorem Represents.add (rep : Represents s lists) (fresh : ∀ k, m ∉ nodes (lists k)) (clean : s.prev m = none)
    (data : δ) (k : κ) : Represents (s.dlinkAdd data m k) (Function.update lists k ((m, data) :: lists k)) := by
  have inside : ∀ n, s.head k = some n → n ∈ nodes (lists k) := fun n first =>
    List.mem_of_mem_head? (by rw [← rep.head k]; exact first)
  have notM : ∀ k', ∀ n ∈ nodes (lists k'), n ≠ m := by
    rintro k' n member rfl
    exact fresh k' member
  refine rep.replace rfl ?_ ?_ ?_ ?_ ?_ ?_
  · change (if _ then _ else _) = _
    rw [rep.head, rep.tail]
    cases empty : nodes (lists k) with
    | nil => simp [nodes] at empty ⊢; simp [empty]
    | cons n l =>
      rw [if_neg (by simp)]
      refine (Function.update_eq_self k s.tail).symm.trans ?_
      rw [rep.tail k, empty]
      simp only [nodes, List.map_cons] at empty ⊢
      rw [empty, List.getLast?_cons_cons]
  · refine ⟨?_, ?_, ?_⟩
    · exact (setLink_outside (fresh k) inside).trans clean
    · rw [Option.or_none]
      exact (Function.update_self ..).trans (rep.head k)
    · have behind := (rep.linked k).setBefore (rep.nodup k) (some m)
      rw [← rep.head k] at behind
      exact behind.congr fun n member => ⟨Function.update_of_ne (notM k n member) _ _, rfl⟩
  · intro e member
    rcases List.mem_cons.mp member with rfl | member
    · exact Function.update_self ..
    · exact (Function.update_of_ne (notM k e.1 (List.mem_map_of_mem member)) _ _).trans (rep.data k e member)
  · exact List.nodup_cons.mpr ⟨fresh k, rep.nodup k⟩
  · intro k' other n member
    have apart := notM k' n member
    exact ⟨⟨Function.update_of_ne apart _ _, setLink_outside (rep.elsewhere other member) inside⟩,
      Function.update_of_ne apart _ _⟩
  · intro k' other n member
    rcases List.mem_cons.mp member with rfl | member
    · exact fresh k'
    · exact rep.elsewhere (Ne.symm other) member

theorem Represents.addTail (rep : Represents s lists) (fresh : ∀ k, m ∉ nodes (lists k)) (data : δ) (k : κ) :
    Represents (s.dlinkAddTail data m k) (Function.update lists k (lists k ++ [(m, data)])) := by
  have inside : ∀ n, s.tail k = some n → n ∈ nodes (lists k) := fun n last =>
    List.mem_of_getLast? (by rw [← rep.tail k]; exact last)
  have notM : ∀ k', ∀ n ∈ nodes (lists k'), n ≠ m := by
    rintro k' n member rfl
    exact fresh k' member
  have shape : nodes (lists k ++ [(m, data)]) = nodes (lists k) ++ [m] := List.map_append
  refine rep.replace ?_ ?_ ?_ ?_ ?_ ?_ ?_
  · rw [shape]
    change (if _ then _ else _) = _
    rw [rep.tail, rep.head]
    cases empty : nodes (lists k) with
    | nil => simp
    | cons n l =>
      rw [if_neg (by simp)]
      refine (Function.update_eq_self k s.head).symm.trans ?_
      rw [rep.head k, empty]
      rfl
  · rw [shape, List.getLast?_concat]
    rfl
  · rw [shape, isSegment_append, ← rep.tail k, Option.or_none]
    have ahead := (rep.linked k).setAfter (rep.nodup k) (some m)
    rw [← rep.tail k] at ahead
    refine ⟨ahead.congr fun n member => ⟨?_, Function.update_of_ne (notM k n member) _ _⟩,
      (Function.update_self ..).trans Option.or_none.symm, ?_, trivial⟩
    · exact setLink_congr (Function.update_of_ne (notM k n member) _ _) _ _
    · exact (setLink_outside (fresh k) inside).trans (Function.update_self ..)
  · intro e member
    rcases List.mem_append.mp member with member | last
    · exact (Function.update_of_ne (notM k e.1 (List.mem_map_of_mem member)) _ _).trans (rep.data k e member)
    · obtain rfl := List.mem_singleton.mp last
      exact Function.update_self ..
  · rw [shape]
    refine List.nodup_append.mpr ⟨rep.nodup k, List.nodup_singleton m, ?_⟩
    intro n member n' last
    obtain rfl := List.mem_singleton.mp last
    exact notM k n member
  · intro k' other n member
    have apart := notM k' n member
    refine ⟨⟨?_, Function.update_of_ne apart _ _⟩, Function.update_of_ne apart _ _⟩
    exact (setLink_outside (rep.elsewhere other member) inside).trans (Function.update_of_ne apart _ _)
  · intro k' other n member
    rw [shape] at member
    rcases List.mem_append.mp member with member | last
    · exact rep.elsewhere (Ne.symm other) member
    · obtain rfl := List.mem_singleton.mp last
      exact fresh k'

/-- A node goes in front of another one that is not the first. -/
theorem Represents.insert (rep : Represents s lists) (fresh : ∀ k, m ∉ nodes (lists k)) (data : δ) (k : κ)
    {front rest : List (ν × δ)} {e : ν × δ} (split : lists k = front ++ e :: rest) (inner : front ≠ []) :
    ∃ s', s.dlinkAddBefore e.1 data m k = some s' ∧
      Represents s' (Function.update lists k (front ++ (m, data) :: e :: rest)) := by
  have linked := rep.linked k
  have nodup := rep.nodup k
  have shape : nodes (lists k) = nodes front ++ e.1 :: nodes rest := by
    rw [split]
    exact List.map_append
  rw [shape] at linked nodup
  obtain ⟨before, last⟩ : ∃ before, (nodes front).getLast? = some before := by
    rw [← Option.isSome_iff_exists, List.getLast?_isSome]
    simpa [nodes] using inner
  have inFront : before ∈ nodes front := List.mem_of_getLast? last
  have back : s.prev e.1 = some before := by
    rw [linked.prev_eq, last]
    rfl
  have notFirst : s.head k ≠ some e.1 := by
    rw [rep.head, shape, List.head?_append_of_ne_nil _ (by simpa [nodes] using inner)]
    intro first
    exact (List.nodup_append.mp nodup).2.2 e.1 (List.mem_of_mem_head? first) e.1 List.mem_cons_self rfl
  have notM : ∀ k', ∀ n ∈ nodes (lists k'), n ≠ m := by
    rintro k' n member rfl
    exact fresh k' member
  have here : ∀ n ∈ nodes front ++ e.1 :: nodes rest, n ∈ nodes (lists k) := by
    rw [shape]
    exact fun n => id
  have ofFront : ∀ n ∈ nodes front, n ∈ nodes front ++ e.1 :: nodes rest := fun n => List.mem_append_left _
  have ofRest : ∀ n ∈ e.1 :: nodes rest, n ∈ nodes front ++ e.1 :: nodes rest := fun n => List.mem_append_right _
  have disjoint := (List.nodup_append.mp nodup).2.2
  have shape' : nodes (front ++ (m, data) :: e :: rest) = nodes front ++ m :: e.1 :: nodes rest := List.map_append
  have eNotM := notM k e.1 (here _ (ofRest _ List.mem_cons_self))
  unfold Memory.dlinkAddBefore
  rw [if_neg notFirst, back, Option.map_some]
  refine ⟨_, rfl, rep.replace ?_ ?_ ?_ ?_ ?_ ?_ ?_⟩
  · refine (Function.update_eq_self k s.head).symm.trans ?_
    rw [rep.head, shape, shape', List.head?_append_of_ne_nil _ (by simpa [nodes] using inner),
      List.head?_append_of_ne_nil _ (by simpa [nodes] using inner)]
  · refine (Function.update_eq_self k s.tail).symm.trans ?_
    rw [rep.tail, shape, shape', List.getLast?_append, List.getLast?_append, List.getLast?_cons_cons]
  · obtain ⟨ahead, -, on, behind⟩ := isSegment_append.mp linked
    have ahead' := ahead.setAfter (List.nodup_append.mp nodup).1 (some m)
    rw [last] at ahead'
    have notBefore : ∀ n ∈ e.1 :: nodes rest, n ≠ before := fun n member => (disjoint _ inFront n member).symm
    dsimp only
    rw [shape', isSegment_append, last]
    refine ⟨ahead'.congr fun n member => ⟨?_, ?_⟩, ?_, ?_, ?_, ?_, behind.congr fun n member => ⟨?_, ?_⟩⟩
    · exact Function.update_of_ne (notM k n (here n (ofFront n member))) _ _
    · rw [Function.update_of_ne (disjoint n member e.1 List.mem_cons_self),
        Function.update_of_ne (notM k n (here n (ofFront n member)))]
    · rw [Function.update_of_ne eNotM.symm]
      exact Function.update_self ..
    · exact Function.update_self ..
    · exact Function.update_self ..
    · rw [Function.update_of_ne eNotM, Function.update_of_ne (notBefore _ List.mem_cons_self)]
      exact on
    · have member' := List.mem_cons_of_mem e.1 member
      rw [Function.update_of_ne (notM k n (here n (ofRest n member'))), Function.update_of_ne (notBefore n member')]
    · have member' := List.mem_cons_of_mem e.1 member
      have notE : n ≠ e.1 := by
        rintro rfl
        exact (List.nodup_cons.mp (List.nodup_append.mp nodup).2.1).1 member
      rw [Function.update_of_ne notE, Function.update_of_ne (notM k n (here n (ofRest n member')))]
  · intro e' member
    have old : e' ∈ lists k → Function.update s.data m data e'.1 = e'.2 := fun member =>
      (Function.update_of_ne (notM k e'.1 (List.mem_map_of_mem member)) _ _).trans (rep.data k e' member)
    rcases List.mem_append.mp member with member | member
    · exact old (by rw [split]; exact List.mem_append_left _ member)
    · rcases List.mem_cons.mp member with rfl | member
      · exact Function.update_self ..
      · exact old (by rw [split]; exact List.mem_append_right _ member)
  · rw [shape']
    have outside : m ∉ nodes front ++ e.1 :: nodes rest := fun member => fresh k (here m member)
    exact (List.perm_middle.nodup_iff).mpr (List.nodup_cons.mpr ⟨outside, nodup⟩)
  · intro k' other n member
    have apart := notM k' n member
    have away : ∀ n' ∈ nodes front ++ e.1 :: nodes rest, n ≠ n' := by
      rintro n' inside rfl
      exact rep.elsewhere other member (here n inside)
    refine ⟨⟨?_, ?_⟩, Function.update_of_ne apart _ _⟩
    · exact (Function.update_of_ne apart _ _).trans (Function.update_of_ne (away before (ofFront _ inFront)) _ _)
    · exact (Function.update_of_ne (away e.1 (ofRest _ List.mem_cons_self)) _ _).trans
        (Function.update_of_ne apart _ _)
  · intro k' other n member
    rw [shape'] at member
    by_cases isM : n = m
    · rw [isM]
      exact fresh k'
    · refine rep.elsewhere (Ne.symm other) (here n ?_)
      rcases List.mem_append.mp member with member | member
      · exact ofFront n member
      · exact ofRest n ((List.mem_cons.mp member).resolve_left isM)

theorem Represents.delete (rep : Represents s lists) {k : κ} {front rest : List (ν × δ)} {e : ν × δ}
    (split : lists k = front ++ e :: rest) :
    Represents (s.dlinkDelete e.1 k) (Function.update lists k (front ++ rest)) := by
  have linked := rep.linked k
  have nodup := rep.nodup k
  have shape : nodes (lists k) = nodes front ++ e.1 :: nodes rest := by
    rw [split]
    exact List.map_append
  have shape' : nodes (front ++ rest) = nodes front ++ nodes rest := List.map_append
  rw [shape] at linked nodup
  have isNext := linked.next_eq
  have isPrev := linked.prev_eq
  rw [Option.or_none] at isNext isPrev
  obtain ⟨front', ⟨outside, rest'⟩, disjoint⟩ := by
    simpa only [List.nodup_append, List.nodup_cons] using nodup
  have here : ∀ n ∈ nodes front ++ e.1 :: nodes rest, n ∈ nodes (lists k) := by
    rw [shape]
    exact fun n => id
  have ofFront : ∀ n ∈ nodes front, n ∈ nodes front ++ e.1 :: nodes rest := fun n => List.mem_append_left _
  have ofRest : ∀ n ∈ nodes rest, n ∈ nodes front ++ e.1 :: nodes rest := fun n member =>
    List.mem_append_right _ (List.mem_cons_of_mem _ member)
  refine rep.replace ?_ ?_ ?_ ?_ ?_ ?_ ?_
  · change (if _ then _ else _) = _
    rw [isPrev, isNext, shape']
    cases empty : nodes front with
    | nil => simp
    | cons n l =>
      rw [if_neg (by simp)]
      refine (Function.update_eq_self k s.head).symm.trans ?_
      rw [rep.head, shape, empty]
      rfl
  · change (if _ then _ else _) = _
    rw [isPrev, isNext, shape']
    cases empty : nodes rest with
    | nil => simp
    | cons n l =>
      rw [if_neg (by simp)]
      refine (Function.update_eq_self k s.tail).symm.trans ?_
      rw [rep.tail, shape, empty, List.getLast?_append, List.getLast?_append, List.getLast?_cons_cons]
  · obtain ⟨ahead, -, -, behind⟩ := isSegment_append.mp linked
    have ahead' := ahead.setAfter front' (s.next e.1)
    have behind' := behind.setBefore rest' (s.prev e.1)
    rw [← isPrev] at ahead'
    rw [← isNext] at behind'
    have notE : ∀ n, n ∈ nodes front ∨ n ∈ nodes rest → n ≠ e.1 := by
      rintro n (member | member) rfl
      · exact disjoint _ member _ List.mem_cons_self rfl
      · exact outside member
    rw [shape', isSegment_append, Option.or_none, Option.or_none, ← isPrev, ← isNext]
    refine ⟨ahead'.congr fun n member => ⟨?_, ?_⟩, behind'.congr fun n member => ⟨?_, ?_⟩⟩
    · exact Function.update_of_ne (notE n (Or.inl member)) _ _
    · refine (Function.update_of_ne (notE n (Or.inl member)) _ _).trans (setLink_of_ne ?_)
      rw [isNext]
      exact fun first => disjoint n member n (List.mem_cons_of_mem _ (List.mem_of_mem_head? first)) rfl
    · refine (Function.update_of_ne (notE n (Or.inr member)) _ _).trans (setLink_of_ne ?_)
      rw [isPrev]
      exact fun last => disjoint n (List.mem_of_getLast? last) n (List.mem_cons_of_mem _ member) rfl
    · exact Function.update_of_ne (notE n (Or.inr member)) _ _
  · intro e' member
    refine rep.data k e' ?_
    rw [split]
    exact List.mem_append.mpr ((List.mem_append.mp member).imp id (List.mem_cons_of_mem e))
  · rw [shape']
    refine List.nodup_append.mpr ⟨front', rest', fun n member n' member' => ?_⟩
    exact disjoint n member n' (List.mem_cons_of_mem _ member')
  · intro k' other n member
    have away : ∀ n' ∈ nodes front ++ e.1 :: nodes rest, n ≠ n' := by
      rintro n' inside rfl
      exact rep.elsewhere other member (here n inside)
    have notE := away e.1 (List.mem_append_right _ List.mem_cons_self)
    refine ⟨⟨?_, ?_⟩, rfl⟩
    · refine (Function.update_of_ne notE _ _).trans (setLink_of_ne ?_)
      rw [isPrev]
      exact fun last => away n (ofFront n (List.mem_of_getLast? last)) rfl
    · refine (Function.update_of_ne notE _ _).trans (setLink_of_ne ?_)
      rw [isNext]
      exact fun first => away n (ofRest n (List.mem_of_mem_head? first)) rfl
  · intro k' other n member
    rw [shape'] at member
    refine rep.elsewhere (Ne.symm other) (here n ?_)
    exact (List.mem_append.mp member).elim (ofFront n) (ofRest n)

omit [DecidableEq ν] in
/-- One list is emptied, and another one has the nodes of both. -/
theorem Represents.merge (rep : Represents s lists) {source target : κ} (two : source ≠ target)
    (head : s'.head = Function.update (Function.update s.head target
      (nodes (lists source ++ lists target)).head?) source none)
    (tail : s'.tail = Function.update (Function.update s.tail target
      (nodes (lists source ++ lists target)).getLast?) source none)
    (linked : IsSegment s'.next s'.prev none (nodes (lists source ++ lists target)) none)
    (others : ∀ k, k ≠ source → k ≠ target → ∀ n ∈ nodes (lists k), s'.next n = s.next n ∧ s'.prev n = s.prev n)
    (data : s'.data = s.data) :
    Represents s' (Function.update (Function.update lists source []) target (lists source ++ lists target)) := by
  have shape : nodes (lists source ++ lists target) = nodes (lists source) ++ nodes (lists target) := List.map_append
  have atTarget : ∀ k, k = target → Function.update (Function.update lists source []) target
      (lists source ++ lists target) k = lists source ++ lists target := by
    rintro k rfl
    exact Function.update_self ..
  have atSource : ∀ k, k ≠ target → k = source → Function.update (Function.update lists source []) target
      (lists source ++ lists target) k = [] := by
    rintro k other rfl
    rw [Function.update_of_ne other, Function.update_self]
  have atOther : ∀ k, k ≠ target → k ≠ source → Function.update (Function.update lists source []) target
      (lists source ++ lists target) k = lists k := by
    intro k other other'
    rw [Function.update_of_ne other, Function.update_of_ne other']
  -- every node was on one of the lists before
  have old : ∀ {k n}, n ∈ nodes (Function.update (Function.update lists source []) target
      (lists source ++ lists target) k) → ∃ k', n ∈ nodes (lists k') ∧
        (k = k' ∧ k ≠ source ∨ k = target ∧ k' = source) := by
    intro k n member
    by_cases here : k = target
    · rw [atTarget k here, shape] at member
      rcases List.mem_append.mp member with first | second
      · exact ⟨source, first, Or.inr ⟨here, rfl⟩⟩
      · exact ⟨target, second, Or.inl ⟨here, here ▸ two.symm⟩⟩
    · by_cases here' : k = source
      · rw [atSource k here here'] at member
        cases member
      · rw [atOther k here here'] at member
        exact ⟨k, member, Or.inl ⟨rfl, here'⟩⟩
  constructor
  · intro k
    rw [head]
    by_cases here : k = target
    · rw [atTarget k here, here, Function.update_of_ne two.symm, Function.update_self]
    · by_cases here' : k = source
      · rw [atSource k here here', here', Function.update_self]
        rfl
      · rw [atOther k here here', Function.update_of_ne here', Function.update_of_ne here, rep.head]
  · intro k
    rw [tail]
    by_cases here : k = target
    · rw [atTarget k here, here, Function.update_of_ne two.symm, Function.update_self]
    · by_cases here' : k = source
      · rw [atSource k here here', here', Function.update_self]
        rfl
      · rw [atOther k here here', Function.update_of_ne here', Function.update_of_ne here, rep.tail]
  · intro k
    by_cases here : k = target
    · rwa [atTarget k here]
    · by_cases here' : k = source
      · rw [atSource k here here']
        trivial
      · rw [atOther k here here']
        exact (rep.linked k).congr (others k here' here)
  · intro k e member
    rw [data]
    by_cases here : k = target
    · rw [atTarget k here] at member
      rcases List.mem_append.mp member with first | second
      · exact rep.data source e first
      · exact rep.data target e second
    · by_cases here' : k = source
      · rw [atSource k here here'] at member
        cases member
      · rw [atOther k here here'] at member
        exact rep.data k e member
  · intro k
    by_cases here : k = target
    · rw [atTarget k here, shape]
      refine List.nodup_append.mpr ⟨rep.nodup source, rep.nodup target, ?_⟩
      rintro n first n' second rfl
      exact two (rep.apart first second)
    · by_cases here' : k = source
      · rw [atSource k here here']
        exact List.nodup_nil
      · rw [atOther k here here']
        exact rep.nodup k
  · intro k₁ k₂ n first second
    obtain ⟨k₁', first, from₁⟩ := old first
    obtain ⟨k₂', second, from₂⟩ := old second
    obtain rfl := rep.apart first second
    rcases from₁ with ⟨rfl, other₁⟩ | ⟨rfl, is₁⟩ <;> rcases from₂ with ⟨rfl, other₂⟩ | ⟨rfl, is₂⟩
    · rfl
    · exact absurd is₂ other₁
    · exact absurd is₁ other₂
    · rfl

/-- The nodes of a list go in front of those of another one. -/
theorem Represents.move (rep : Represents s lists) {source target : κ} (two : source ≠ target ∨ lists source = []) :
    ∃ s', s.dlinkMoveList source target = some s' ∧
      Represents s' (Function.update (Function.update lists source []) target (lists source ++ lists target)) := by
  have first := rep.head source
  have old := rep.head target
  unfold Memory.dlinkMoveList
  by_cases empty : lists source = []
  · rw [empty] at first
    rw [first]
    refine ⟨s, rfl, ?_⟩
    rwa [empty, List.nil_append, ← empty, Function.update_eq_self, Function.update_eq_self]
  · obtain ⟨e, rest, split⟩ := List.exists_cons_of_ne_nil empty
    have other := two.resolve_right empty
    have shape : nodes (lists source ++ lists target) = nodes (lists source) ++ nodes (lists target) :=
      List.map_append
    have isHead : (nodes (lists source ++ lists target)).head? = some e.1 := by
      rw [split]
      rfl
    rw [split] at first
    rw [first]
    by_cases empty' : lists target = []
    · -- the list is handed over as it is
      rw [empty'] at old
      rw [old]
      refine ⟨_, rfl, rep.merge other ?_ ?_ ?_ (fun _ _ _ _ _ => ⟨rfl, rfl⟩) rfl⟩
      · rw [isHead]
      · rw [empty', List.append_nil, ← rep.tail source]
      · rw [empty', List.append_nil]
        exact rep.linked source
    · obtain ⟨e', rest', split'⟩ := List.exists_cons_of_ne_nil empty'
      obtain ⟨last, isLast⟩ : ∃ last, s.tail source = some last := by
        rw [rep.tail, ← Option.isSome_iff_exists, List.getLast?_isSome]
        simpa [nodes] using empty
      have onSource : last ∈ nodes (lists source) := List.mem_of_getLast? (by rw [← rep.tail source, isLast])
      have onTarget : e'.1 ∈ nodes (lists target) := by
        rw [split']
        exact List.mem_cons_self
      have onSource' : e.1 ∈ nodes (lists source) := by
        rw [split]
        exact List.mem_cons_self
      have segment := rep.linked target
      have isPrev : s.prev e'.1 = none := by
        rw [split'] at segment
        exact segment.1
      have isPrev' : s.prev e.1 = none := by
        have segment := rep.linked source
        rw [split] at segment
        exact segment.1
      rw [split'] at old
      rw [old, isLast]
      refine ⟨_, rfl, rep.merge other ?_ ?_ ?_ ?_ rfl⟩
      · rw [isHead]
      · have same : (nodes (lists source ++ lists target)).getLast? = s.tail target := by
          rw [rep.tail, shape, List.getLast?_append_of_ne_nil _ (by simp [nodes, split'])]
        rw [same, Function.update_eq_self]
      · have ahead := (rep.linked source).setAfter (rep.nodup source) (some e'.1)
        have behind := segment.setBefore (rep.nodup target) (some last)
        rw [← rep.tail source, isLast] at ahead
        rw [← rep.head target, old] at behind
        rw [shape, isSegment_append, ← rep.tail source, isLast, ← rep.head target, old]
        dsimp only
        -- what stands in front of the first node is nothing, as before
        have kept : Function.update s.prev e.1 (s.prev e'.1) = s.prev := by
          rw [isPrev, ← isPrev', Function.update_eq_self]
        rw [kept]
        refine ⟨ahead.congr fun n member => ⟨rfl, Function.update_of_ne ?_ _ _⟩,
          behind.congr fun n member => ⟨Function.update_of_ne ?_ _ _, rfl⟩⟩
        · rintro rfl
          exact other (rep.apart member onTarget)
        · rintro rfl
          exact other (rep.apart onSource member)
      · intro k notSource notTarget n member
        refine ⟨Function.update_of_ne ?_ _ _, (Function.update_of_ne ?_ _ _).trans (Function.update_of_ne ?_ _ _)⟩
        · rintro rfl
          exact notSource (rep.apart member onSource)
        · rintro rfl
          exact notTarget (rep.apart member onTarget)
        · rintro rfl
          exact notSource (rep.apart member onSource')

/-! ### What stays -/

/-- A node that is on none of the lists does not change when another one is added. -/
theorem Represents.dlinkAdd_outside (rep : Represents s lists) {n : ν} (other : n ≠ m)
    (outside : n ∉ nodes (lists k)) (data : δ) :
    (s.dlinkAdd data m k).prev n = s.prev n ∧ (s.dlinkAdd data m k).data n = s.data n :=
  ⟨setLink_outside outside fun _ first => List.mem_of_mem_head? (by rw [← rep.head k]; exact first),
    Function.update_of_ne other _ _⟩

theorem Represents.dlinkDelete_outside (rep : Represents s lists) {n : ν} (member : m ∈ nodes (lists k))
    (outside : n ∉ nodes (lists k)) :
    (s.dlinkDelete m k).prev n = s.prev n ∧ (s.dlinkDelete m k).data n = s.data n := by
  refine ⟨?_, rfl⟩
  have other : n ≠ m := by
    rintro rfl
    exact outside member
  obtain ⟨front, rest, split⟩ := List.append_of_mem member
  have linked := rep.linked k
  rw [split] at linked outside
  refine (Function.update_of_ne other _ _).trans (setLink_of_ne ?_)
  rw [linked.next_eq, Option.or_none]
  exact fun first => outside (List.mem_append_right _ (List.mem_cons_of_mem _ (List.mem_of_mem_head? first)))

end

end Ircd.Tools
