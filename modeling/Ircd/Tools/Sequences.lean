import Ircd.Tools.Dlink

/-!
# Linked lists as sequences

The lists of `src/tools.c` do what the operations on sequences do, as long as a node that is put in front has no
`prev` and no list is moved onto itself.
-/
namespace Ircd.Tools

variable {ν κ δ : Type} [DecidableEq ν] [DecidableEq κ]

/-- The operations that change lists. -/
inductive DlinkOp (ν κ δ : Type) where
  | add (data : δ) (m : ν) (list : κ)
  | addBefore (b : ν) (data : δ) (m : ν) (list : κ)
  | addTail (data : δ) (m : ν) (list : κ)
  | delete (m : ν) (list : κ)
  | move (source target : κ)

/-- There is no memory behind a null pointer that has been followed. -/
def Memory.step (s : Memory ν κ δ) : DlinkOp ν κ δ → Option (Memory ν κ δ)
  | .add data m list => some (s.dlinkAdd data m list)
  | .addBefore b data m list => s.dlinkAddBefore b data m list
  | .addTail data m list => some (s.dlinkAddTail data m list)
  | .delete m list => some (s.dlinkDelete m list)
  | .move source target => s.dlinkMoveList source target

/-! ### The operations on sequences -/

def insertBefore (b : ν) (e : ν × δ) : List (ν × δ) → List (ν × δ)
  | [] => []
  | e' :: l => if e'.1 = b then e :: e' :: l else e' :: insertBefore b e l

/-- What the operation does to the sequences. -/
def DlinkOp.apply (lists : κ → List (ν × δ)) : DlinkOp ν κ δ → κ → List (ν × δ)
  | .add data m list => Function.update lists list ((m, data) :: lists list)
  | .addBefore b data m list => Function.update lists list (insertBefore b (m, data) (lists list))
  | .addTail data m list => Function.update lists list (lists list ++ [(m, data)])
  | .delete m list => Function.update lists list ((lists list).eraseP fun e => e.1 = m)
  | .move source target =>
    Function.update (Function.update lists source []) target (lists source ++ lists target)

/-- A node that is added is on no list, and one that is deleted, or that another one goes in front of, is on the
list. -/
def DlinkOp.Allowed (lists : κ → List (ν × δ)) : DlinkOp ν κ δ → Prop
  | .add _ m _ => ∀ k, m ∉ nodes (lists k)
  | .addBefore b _ m list => (∀ k, m ∉ nodes (lists k)) ∧ b ∈ nodes (lists list)
  | .addTail _ m _ => ∀ k, m ∉ nodes (lists k)
  | .delete m list => m ∈ nodes (lists list)
  | .move _ _ => True

/-- The node that becomes the first has no `prev`, and no list that has nodes is moved onto itself. -/
def DlinkOp.Clean (s : Memory ν κ δ) (lists : κ → List (ν × δ)) : DlinkOp ν κ δ → Prop
  | .add _ m _ => s.prev m = none
  | .addBefore b _ m list => s.head list = some b → s.prev m = none
  | .addTail _ _ _ => True
  | .delete _ _ => True
  | .move source target => source ≠ target ∨ lists source = []

/-- The lists are well formed, stand for the sequences, and are walked as they are. -/
structure Agrees [DecidableEq δ] (s : Memory ν κ δ) (lists : κ → List (ν × δ)) : Prop where
  represents : Represents s lists
  length : ∀ k rounds, (lists k).length < rounds → s.dlinkListLength k rounds = some (lists k).length
  find : ∀ k data rounds, (lists k).length < rounds →
    s.dlinkFind k data rounds = some (((lists k).find? fun e => e.2 = data).map Prod.fst)

/-- In every state of the run the lists agree with the sequences. -/
def AgreesAlong [DecidableEq δ] : Memory ν κ δ → (κ → List (ν × δ)) → List (DlinkOp ν κ δ) → Prop
  | s, lists, [] => Agrees s lists
  | s, lists, op :: ops => Agrees s lists ∧ ∃ s', s.step op = some s' ∧ AgreesAlong s' (op.apply lists) ops

def AllowedAlong : (κ → List (ν × δ)) → List (DlinkOp ν κ δ) → Prop
  | _, [] => True
  | lists, op :: ops => op.Allowed lists ∧ AllowedAlong (op.apply lists) ops

/-- Every operation of the run is clean. -/
def CleanAlong : Memory ν κ δ → (κ → List (ν × δ)) → List (DlinkOp ν κ δ) → Prop
  | _, _, [] => True
  | s, lists, op :: ops => op.Clean s lists ∧ ∀ s', s.step op = some s' → CleanAlong s' (op.apply lists) ops

/-! ### Walks -/

section

variable {s : Memory ν κ δ} {lists : κ → List (ν × δ)}

omit [DecidableEq ν] [DecidableEq κ] in
theorem countLoop_eq {l : List ν} {before : Option ν} (linked : IsSegment s.next s.prev before l none) (rounds : ℕ)
    (enough : l.length < rounds) (count : ℕ) : s.countLoop rounds l.head? count = some (count + l.length) := by
  obtain ⟨rounds, rfl⟩ : ∃ n, rounds = n + 1 := ⟨rounds - 1, by omega⟩
  induction l generalizing before rounds count with
  | nil => rfl
  | cons n l ih =>
    obtain ⟨-, on, rest⟩ := linked
    obtain ⟨rounds, rfl⟩ : ∃ n, rounds = n + 1 := ⟨rounds - 1, by simp at enough; omega⟩
    rw [Option.or_none] at on
    rw [List.head?_cons, Memory.countLoop, on, ih rest (count + 1) rounds (by simpa using enough), List.length_cons]
    congr 1
    omega

omit [DecidableEq ν] [DecidableEq κ] in
theorem findLoop_eq [DecidableEq δ] {l : List (ν × δ)} {before : Option ν}
    (linked : IsSegment s.next s.prev before (nodes l) none) (data : ∀ e ∈ l, s.data e.1 = e.2) (rounds : ℕ)
    (enough : l.length < rounds) (wanted : δ) :
    s.findLoop wanted rounds (nodes l).head? = some ((l.find? fun e => e.2 = wanted).map Prod.fst) := by
  obtain ⟨rounds, rfl⟩ : ∃ n, rounds = n + 1 := ⟨rounds - 1, by omega⟩
  induction l generalizing before rounds with
  | nil => rfl
  | cons e l ih =>
    obtain ⟨-, on, rest⟩ := linked
    obtain ⟨rounds, rfl⟩ : ∃ n, rounds = n + 1 := ⟨rounds - 1, by simp at enough; omega⟩
    rw [Option.or_none] at on
    have tail := ih rest (fun e' member => data e' (List.mem_cons_of_mem e member)) rounds (by simpa using enough)
    change (if s.data e.1 = wanted then _ else s.findLoop wanted (rounds + 1) (s.next e.1)) = _
    change s.next e.1 = (nodes l).head? at on
    rw [data e List.mem_cons_self, on, tail, List.find?_cons]
    by_cases found : e.2 = wanted <;> simp [found]

omit [DecidableEq ν] [DecidableEq κ] in
theorem Represents.agrees [DecidableEq δ] (rep : Represents s lists) : Agrees s lists where
  represents := rep
  length k rounds enough := by
    have walk := countLoop_eq (rep.linked k) rounds (by simpa [nodes] using enough) 0
    rw [← rep.head, Nat.zero_add, nodes, List.length_map] at walk
    exact walk
  find k data rounds enough := by
    have walk := findLoop_eq (rep.linked k) (rep.data k) rounds enough data
    rw [← rep.head] at walk
    exact walk

/-! ### One operation -/

omit [DecidableEq κ] in
theorem insertBefore_eq {front rest : List (ν × δ)} {e' : ν × δ} (outside : e'.1 ∉ nodes front) (e : ν × δ) :
    insertBefore e'.1 e (front ++ e' :: rest) = front ++ e :: e' :: rest := by
  induction front with
  | nil => exact if_pos rfl
  | cons x front ih =>
    obtain ⟨other, outside⟩ := not_or.mp (mt List.mem_cons.mpr outside)
    exact (if_neg (Ne.symm other)).trans (congrArg (x :: ·) (ih outside))

omit [DecidableEq κ] in
theorem eraseP_eq {front rest : List (ν × δ)} {e' : ν × δ} (outside : e'.1 ∉ nodes front) :
    ((front ++ e' :: rest).eraseP fun e => e.1 = e'.1) = front ++ rest := by
  rw [List.eraseP_append_right _ fun e member => ?_, List.eraseP_cons_of_pos (by simp)]
  rw [decide_eq_true_iff]
  intro equal
  exact outside (equal ▸ List.mem_map_of_mem member)

omit [DecidableEq κ] [DecidableEq ν] in
/-- Where a node stands in a list. -/
theorem Represents.split (rep : Represents s lists) {k : κ} {m : ν} (member : m ∈ nodes (lists k)) :
    ∃ front e rest, lists k = front ++ e :: rest ∧ e.1 = m ∧ m ∉ nodes front := by
  obtain ⟨e, inside, rfl⟩ := List.mem_map.mp member
  obtain ⟨front, rest, split⟩ := List.append_of_mem inside
  have nodup := rep.nodup k
  rw [split, nodes, List.map_append] at nodup
  exact ⟨front, e, rest, split, rfl, fun again =>
    (List.nodup_append.mp nodup).2.2 e.1 again e.1 (List.mem_cons_self) rfl⟩

/-- A node that becomes the first keeps its `prev`, and must not have one. -/
theorem Represents.clean_of_add (rep : Represents s lists) {k : κ} {m : ν} {data : δ} (fresh : m ∉ nodes (lists k))
    (added : Represents (s.dlinkAdd data m k) (Function.update lists k ((m, data) :: lists k))) : s.prev m = none := by
  have linked := added.linked k
  rw [Function.update_self] at linked
  have kept : (s.dlinkAdd data m k).prev m = s.prev m := setLink_outside fresh fun n first =>
    List.mem_of_mem_head? (by rw [← rep.head k]; exact first)
  rw [← kept]
  exact linked.1

/-- An operation does what it does to the sequences if and only if it is clean. -/
theorem Represents.step_iff (rep : Represents s lists) {op : DlinkOp ν κ δ} (allowed : op.Allowed lists) :
    (∃ s', s.step op = some s' ∧ Represents s' (op.apply lists)) ↔ op.Clean s lists := by
  cases op with
  | add data m k =>
    constructor
    · rintro ⟨s', step, added⟩
      obtain rfl := Option.some.inj step
      exact rep.clean_of_add (allowed k) added
    · exact fun clean => ⟨_, rfl, rep.add allowed clean data k⟩
  | addBefore b data m k =>
    obtain ⟨fresh, member⟩ := allowed
    obtain ⟨front, e, rest, split, rfl, outside⟩ := rep.split member
    have applied : insertBefore e.1 (m, data) (lists k) = front ++ (m, data) :: e :: rest := by
      rw [split, insertBefore_eq outside]
    change (∃ s', s.dlinkAddBefore e.1 data m k = some s' ∧
      Represents s' (Function.update lists k (insertBefore e.1 (m, data) (lists k)))) ↔ (_ → _)
    rw [applied]
    cases front with
    | nil =>
      have first : s.head k = some e.1 := by
        rw [rep.head, split]
        rfl
      unfold Memory.dlinkAddBefore
      rw [if_pos first, List.nil_append, show e :: rest = lists k from split.symm]
      constructor
      · rintro ⟨s', step, added⟩ -
        obtain rfl := Option.some.inj step
        exact rep.clean_of_add (fresh k) added
      · exact fun clean => ⟨_, rfl, rep.add fresh (clean first) data k⟩
    | cons e' front =>
      refine iff_of_true (rep.insert fresh data k split (List.cons_ne_nil _ _)) fun first => ?_
      rw [rep.head, split] at first
      have same : e'.1 = e.1 := Option.some.inj first
      exact absurd (same ▸ List.mem_cons_self) outside
  | addTail data m k => exact iff_of_true ⟨_, rfl, rep.addTail allowed data k⟩ trivial
  | delete m k =>
    obtain ⟨front, e, rest, split, rfl, outside⟩ := rep.split allowed
    refine iff_of_true ⟨_, rfl, ?_⟩ trivial
    have deleted := rep.delete split
    rw [← eraseP_eq outside, ← split] at deleted
    exact deleted
  | move source target =>
    constructor
    · rintro ⟨s', step, moved⟩
      -- a list that is moved to itself would have its nodes twice
      by_contra same
      obtain ⟨same, some⟩ := not_or.mp (show ¬(source ≠ target ∨ lists source = []) from same)
      obtain rfl := not_not.mp same
      have nodup := moved.nodup source
      obtain ⟨e, rest, split⟩ := List.exists_cons_of_ne_nil some
      have atSource : DlinkOp.apply lists (.move source source : DlinkOp ν κ δ) source =
          lists source ++ lists source := Function.update_self ..
      rw [atSource, nodes, List.map_append, split] at nodup
      exact (List.nodup_append.mp nodup).2.2 e.1 List.mem_cons_self e.1 List.mem_cons_self rfl
    · exact rep.move

/-! ### Runs -/

/-- In every state of a run the lists agree with the sequences, if and only if every operation is clean. -/
theorem agreesAlong_iff [DecidableEq δ] (rep : Represents s lists) {ops : List (DlinkOp ν κ δ)}
    (allowed : AllowedAlong lists ops) : AgreesAlong s lists ops ↔ CleanAlong s lists ops := by
  induction ops generalizing s lists with
  | nil => exact iff_of_true rep.agrees trivial
  | cons op ops ih =>
    obtain ⟨first, rest⟩ := allowed
    have one := rep.step_iff first
    constructor
    · rintro ⟨-, s', step, along⟩
      have next : Represents s' (op.apply lists) := by
        cases ops with
        | nil => exact Agrees.represents along
        | cons op' ops => exact along.1.represents
      refine ⟨one.mp ⟨s', step, next⟩, fun s'' step' => ?_⟩
      obtain rfl := Option.some.inj (step.symm.trans step')
      exact (ih next rest).mp along
    · rintro ⟨clean, along⟩
      obtain ⟨s', step, next⟩ := one.mpr clean
      exact ⟨rep.agrees, s', step, (ih next rest).mpr (along s' step)⟩

end

/-- Two empty lists, and nodes that have these `prev`s. -/
def emptyLists (prev : ℕ → Option ℕ) : Memory ℕ Bool ℕ :=
  ⟨fun _ => 0, prev, fun _ => none, fun _ => none, fun _ => none⟩

theorem emptyLists_represents (prev : ℕ → Option ℕ) : Represents (emptyLists prev) fun _ => [] where
  head _ := rfl
  tail _ := rfl
  linked _ := trivial
  data _ _ member := by cases member
  nodup _ := List.nodup_nil
  apart member := by cases member

theorem agreesAlong_iff_emptyLists :
    AgreesAlong (emptyLists fun _ => none) (fun _ => []) [.add 7 1 true, .addTail 8 2 false, .delete 1 true] ↔
      CleanAlong (emptyLists fun _ => none) (fun _ => []) [.add 7 1 true, .addTail 8 2 false, .delete 1 true] :=
  agreesAlong_iff (emptyLists_represents _)
    ⟨fun k => (by cases k <;> decide), fun k => (by cases k <;> decide),
      (by decide : 1 ∈ nodes (DlinkOp.apply (DlinkOp.apply (fun _ => []) (.add 7 1 true)) (.addTail 8 2 false) true)),
      trivial⟩

/-- A node whose `prev` has not been cleared is put on an empty list. -/
theorem stale_prev_breaks_list : ¬ ∀ (s : Memory ℕ Bool ℕ) (lists : Bool → List (ℕ × ℕ)) (ops : List (DlinkOp ℕ Bool ℕ)),
    Represents s lists → AllowedAlong lists ops → AgreesAlong s lists ops := by
  intro all
  have along := all (emptyLists fun _ => some 0) (fun _ => []) [.add 7 1 true] (emptyLists_represents _)
    ⟨fun k => (by cases k <;> decide), trivial⟩
  obtain ⟨-, s', step, agrees⟩ := along
  obtain rfl := Option.some.inj step
  have linked := agrees.represents.linked true
  exact absurd linked.1 (by decide)

end Ircd.Tools
