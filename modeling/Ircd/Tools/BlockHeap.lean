import Ircd.Tools.Dlink
import Mathlib.Data.List.Basic
import Mathlib.Data.List.Perm.Subperm

/-!
# The block heap

The allocator of `src/balloc.c`, as it is built with `mmap`. The elements of a block are handed out from a free list;
a block counts those of its elements that are in use, and is given back when there is none. What the system returns
for a new block, and what has been allocated and not freed, are kept beside it.
-/
namespace Ircd.Tools

/-- The nodes that lie in a block: its own one, and one in front of each element. -/
inductive HeapNode where
  | block (b : ℕ)
  | element (b i : ℕ)
deriving DecidableEq

/-- The block that a node lies in. -/
def HeapNode.home : HeapNode → ℕ
  | block b => b
  | element b _ => b

/-- `f_elements` and `blocks`. -/
inductive HeapList where
  | elements
  | blocks
deriving DecidableEq

/-- `BlockHeap`, with the `usedcount` of every block. `mapped` are the blocks that the system has given and not got
back, `live` the elements that have been allocated and not freed. -/
structure BlockHeap where
  mem : Memory HeapNode HeapList ℕ
  elsperblock : ℕ
  usedcount : ℕ → ℤ
  mapped : ℕ → Bool
  live : List HeapNode

/-- What `mmap` returns: where the block lies, and what stands in the `prev`s of its nodes. -/
structure Page where
  block : ℕ
  prev : HeapNode → Option HeapNode

namespace BlockHeap

/-- `BlockHeapCreate`. -/
def create (elsperblock : ℕ) : BlockHeap where
  mem := ⟨fun _ => 0, fun _ => none, fun _ => none, fun _ => none, fun _ => none⟩
  elsperblock := elsperblock
  usedcount := fun _ => 0
  mapped := fun _ => false
  live := []

/-- The nodes of the elements of a block. -/
def cells (s : BlockHeap) (b : ℕ) : List HeapNode := (List.range s.elsperblock).map (.element b)

/-- `get_block`. -/
def getBlock (s : BlockHeap) (page : Page) : BlockHeap :=
  { s with
    mem := { s.mem with prev := fun n => if n.home = page.block then page.prev n else s.mem.prev n }
    mapped := Function.update s.mapped page.block true }

/-- `BlockHeapAddBlock`. There is no test of what `get_block` returns. -/
def addBlock (s : BlockHeap) (page : Option Page) : Option BlockHeap :=
  page.map fun page =>
    let s := s.getBlock page
    let b := page.block
    { s with
      mem := (s.cells b).foldl (fun mem n => mem.dlinkAdd b n .elements) (s.mem.dlinkAdd b (.block b) .blocks)
      usedcount := Function.update s.usedcount b 0 }

/-- The end of `BlockHeapAlloc`: the first node of the free list is taken out by hand. -/
def takeFirst (s : BlockHeap) (first : HeapNode) : BlockHeap :=
  let rest := s.mem.next first
  { s with
    mem := { s.mem with
      head := Function.update s.mem.head .elements rest
      tail := if rest = none then Function.update s.mem.tail .elements none else s.mem.tail
      prev := setLink s.mem.prev rest none }
    usedcount := Function.update s.usedcount (s.mem.data first) (s.usedcount (s.mem.data first) + 1)
    live := first :: s.live }

/-- `BlockHeapAlloc`. -/
def blockHeapAlloc (s : BlockHeap) (page : Option Page) : Option BlockHeap :=
  (if s.mem.head .elements = none then s.addBlock page else some s).bind fun s =>
    (s.mem.head .elements).map s.takeFirst

/-- `BlockHeapFree`. -/
def blockHeapFree (s : BlockHeap) (el : HeapNode) : BlockHeap :=
  let b := s.mem.data el
  { s with
    mem := s.mem.dlinkAdd b el .elements
    usedcount := Function.update s.usedcount b (s.usedcount b - 1)
    live := s.live.erase el }

/-- A block is given back. -/
def release (s : BlockHeap) (b : ℕ) : BlockHeap :=
  { s with
    mem := ((s.cells b).foldl (fun mem n => mem.dlinkDelete n .elements) s.mem).dlinkDelete (.block b) .blocks
    mapped := Function.update s.mapped b false }

/-- The loop of `BlockHeapGarbageCollect`, with so many rounds at most. -/
def gcLoop : ℕ → Option HeapNode → BlockHeap → Option BlockHeap
  | 0, _, _ => none
  | _ + 1, none, s => some s
  | rounds + 1, some bhb, s =>
    let bhbn := s.mem.next bhb
    if s.usedcount bhb.home ≠ 0 then gcLoop rounds bhbn s else gcLoop rounds bhbn (s.release bhb.home)

/-- `BlockHeapGarbageCollect`. -/
def blockHeapGarbageCollect (s : BlockHeap) (rounds : ℕ) : Option BlockHeap :=
  gcLoop rounds (s.mem.head .blocks) s

end BlockHeap

/-! ### Accounts -/

/-- The two lists as sequences. -/
def heapLists (free : List HeapNode) (held : List ℕ) : HeapList → List (HeapNode × ℕ)
  | .elements => free.map fun n => (n, n.home)
  | .blocks => held.map fun b => (.block b, b)

/-- The elements of the blocks on the list are free or live, every one of them once, and the blocks count them. -/
structure BlockHeap.Accounts (s : BlockHeap) (free : List HeapNode) (held : List ℕ) : Prop where
  rep : Represents s.mem (heapLists free held)
  cells : (free ++ s.live).Perm (held.flatMap s.cells)
  owner : ∀ n ∈ s.live, s.mem.data n = n.home
  cleared : ∀ n ∈ s.live, s.mem.prev n = none
  used : ∀ b ∈ held, s.usedcount b = s.live.countP fun n => n.home = b
  mapped : ∀ b, s.mapped b = true ↔ b ∈ held

/-! ### The lists -/

section

variable {free : List HeapNode} {held : List ℕ} {s : BlockHeap}

theorem nodes_map (free : List HeapNode) : nodes (free.map fun n => (n, n.home)) = free := by
  simp [nodes, Function.comp_def]

@[simp] theorem nodes_elements : nodes (heapLists free held .elements) = free := nodes_map free

@[simp] theorem nodes_blocks : nodes (heapLists free held .blocks) = held.map .block := by
  simp [nodes, heapLists, Function.comp_def]

theorem update_elements (new : List HeapNode) :
    Function.update (heapLists free held) .elements (new.map fun n => (n, n.home)) = heapLists new held := by
  funext k
  cases k <;> rfl

theorem update_blocks (new : List ℕ) :
    Function.update (heapLists free held) .blocks (new.map fun b => (.block b, b)) = heapLists free new := by
  funext k
  cases k <;> rfl

theorem mem_cells {b : ℕ} {n : HeapNode} : n ∈ s.cells b ↔ ∃ i < s.elsperblock, n = .element b i := by
  simp [BlockHeap.cells, eq_comm]

theorem home_of_mem_cells {b : ℕ} {n : HeapNode} (member : n ∈ s.cells b) : n.home = b := by
  obtain ⟨i, -, rfl⟩ := mem_cells.mp member
  rfl

theorem cells_nodup (s : BlockHeap) (b : ℕ) : (s.cells b).Nodup :=
  List.nodup_range.map fun _ _ equal => (HeapNode.element.inj equal).2

theorem BlockHeap.Accounts.nodup (accounts : s.Accounts free held) : (held.flatMap s.cells).Nodup := by
  have blocks := accounts.rep.nodup .blocks
  rw [nodes_blocks] at blocks
  have once : held.Nodup := blocks.of_map _
  refine List.nodup_flatMap.mpr ⟨fun b _ => cells_nodup s b, once.imp fun {b c} other => ?_⟩
  intro n first second
  exact other ((home_of_mem_cells first).symm.trans (home_of_mem_cells second))

theorem BlockHeap.Accounts.live_nodup (accounts : s.Accounts free held) : s.live.Nodup :=
  (List.nodup_append.mp (accounts.cells.nodup_iff.mpr accounts.nodup)).2.1

theorem BlockHeap.Accounts.mem_iff (accounts : s.Accounts free held) {n : HeapNode} :
    n ∈ free ∨ n ∈ s.live ↔ n.home ∈ held ∧ n ∈ s.cells n.home := by
  rw [← List.mem_append, accounts.cells.mem_iff, List.mem_flatMap]
  constructor
  · rintro ⟨b, inside, member⟩
    obtain rfl := home_of_mem_cells member
    exact ⟨inside, member⟩
  · exact fun ⟨inside, member⟩ => ⟨n.home, inside, member⟩

theorem BlockHeap.Accounts.not_both (accounts : s.Accounts free held) {n : HeapNode} (live : n ∈ s.live) :
    n ∉ free := fun inFree =>
  (List.nodup_append.mp (accounts.cells.nodup_iff.mpr accounts.nodup)).2.2 n inFree n live rfl

/-- A node of an element is no node of a block. -/
theorem not_mem_blocks {n : HeapNode} {b : ℕ} (element : n ∈ s.cells b) (free : List HeapNode) (held : List ℕ) :
    n ∉ nodes (heapLists free held .blocks) := by
  obtain ⟨i, -, rfl⟩ := mem_cells.mp element
  simp

/-! ### A new block -/

/-- The system gives a block that it has not given already, and its memory has been cleared. -/
structure Page.Mapped (page : Page) (s : BlockHeap) : Prop where
  new : s.mapped page.block = false
  cleared : ∀ n, page.prev n = none

/-- The elements of a new block go to the front of the free list, one by one. -/
theorem foldl_dlinkAdd {mem : Memory HeapNode HeapList ℕ} {b : ℕ} {new : List HeapNode}
    (rep : Represents mem (heapLists free held)) (home : ∀ n ∈ new, n.home = b) (nodup : new.Nodup)
    (fresh : ∀ n ∈ new, ∀ k, n ∉ nodes (heapLists free held k)) (cleared : ∀ n ∈ new, mem.prev n = none) :
    Represents (new.foldl (fun mem n => mem.dlinkAdd b n .elements) mem) (heapLists (new.reverse ++ free) held) ∧
      ∀ n, n ∉ new → n ∉ free →
        (new.foldl (fun mem n => mem.dlinkAdd b n .elements) mem).prev n = mem.prev n ∧
          (new.foldl (fun mem n => mem.dlinkAdd b n .elements) mem).data n = mem.data n := by
  induction new generalizing mem free with
  | nil => exact ⟨rep, fun _ _ _ => ⟨rfl, rfl⟩⟩
  | cons m new ih =>
    obtain ⟨outside, nodup⟩ := List.nodup_cons.mp nodup
    have first := rep.add (fresh m List.mem_cons_self) (cleared m List.mem_cons_self) b .elements
    have shape : Function.update (heapLists free held) .elements ((m, b) :: heapLists free held .elements) =
        heapLists (m :: free) held := by
      rw [← home m List.mem_cons_self]
      exact update_elements (m :: free)
    rw [shape] at first
    have notM : ∀ n ∈ new, n ≠ m := by
      rintro n member rfl
      exact outside member
    have next := ih first (fun n member => home n (List.mem_cons_of_mem m member)) nodup ?_ ?_
    · rw [List.foldl_cons, List.reverse_cons, List.append_assoc]
      refine ⟨next.1, fun n notNew notFree => ?_⟩
      obtain ⟨other, notNew⟩ := not_or.mp (mt List.mem_cons.mpr notNew)
      have later := next.2 n notNew (by simpa using ⟨other, notFree⟩)
      have now := rep.dlinkAdd_outside (k := .elements) other (by rwa [nodes_elements]) b
      exact ⟨later.1.trans now.1, later.2.trans now.2⟩
    · intro n member k
      have before := fresh n (List.mem_cons_of_mem m member) k
      cases k with
      | elements =>
        rw [nodes_elements] at before ⊢
        exact fun inside => (List.mem_cons.mp inside).elim (notM n member) before
      | blocks =>
        rw [nodes_blocks] at before ⊢
        exact before
    · intro n member
      have before := fresh n (List.mem_cons_of_mem m member) .elements
      exact (rep.dlinkAdd_outside (notM n member) before b).1.trans (cleared n (List.mem_cons_of_mem m member))

/-- A block that has not been given is not on the list, and nothing in it is free or live. -/
theorem BlockHeap.Accounts.elsewhere (accounts : s.Accounts free held) {page : Page} (mapped : page.Mapped s) :
    page.block ∉ held ∧ ∀ n, n ∈ free ∨ n ∈ s.live → n.home ≠ page.block := by
  have outside : page.block ∉ held := by
    rw [← accounts.mapped, mapped.new]
    decide
  refine ⟨outside, fun n member equal => outside ?_⟩
  rw [← equal]
  exact (accounts.mem_iff.mp member).1

/-- The memory of a new block stands on no list. -/
theorem BlockHeap.Accounts.getBlock (accounts : s.Accounts free held) {page : Page} (mapped : page.Mapped s) :
    Represents (s.getBlock page).mem (heapLists free held) := by
  obtain ⟨outside, apart⟩ := accounts.elsewhere mapped
  have away : ∀ k, ∀ n ∈ nodes (heapLists free held k), n.home ≠ page.block := by
    intro k n member
    cases k with
    | elements =>
      rw [nodes_elements] at member
      exact apart n (Or.inl member)
    | blocks =>
      rw [nodes_blocks] at member
      obtain ⟨b, inside, rfl⟩ := List.mem_map.mp member
      rintro rfl
      exact outside inside
  have rep := accounts.rep
  exact ⟨rep.head, rep.tail, fun k => (rep.linked k).congr fun n member => ⟨rfl, if_neg (away k n member)⟩,
    rep.data, rep.nodup, rep.apart⟩

theorem BlockHeap.Accounts.addBlock (accounts : s.Accounts free held) {page : Page} (mapped : page.Mapped s) :
    ∃ s', s.addBlock (some page) = some s' ∧ s'.elsperblock = s.elsperblock ∧ s'.live = s.live ∧
      s'.Accounts ((s.cells page.block).reverse ++ free) (page.block :: held) := by
  obtain ⟨outside, apart⟩ := accounts.elsewhere mapped
  have rep := accounts.getBlock mapped
  have notBlock : HeapNode.block page.block ∉ nodes (heapLists free held .blocks) := by
    rw [nodes_blocks]
    simpa using outside
  have notFree : HeapNode.block page.block ∉ free := fun member => apart _ (Or.inl member) rfl
  have cleared : ∀ n : HeapNode, n.home = page.block → (s.getBlock page).mem.prev n = none := fun n here =>
    (if_pos here).trans (mapped.cleared n)
  have onList := rep.add (m := .block page.block)
    (fun k => by cases k with | elements => rwa [nodes_elements] | blocks => exact notBlock)
    (cleared _ rfl) page.block .blocks
  have shape : Function.update (heapLists free held) .blocks
      ((.block page.block, page.block) :: heapLists free held .blocks) = heapLists free (page.block :: held) :=
    update_blocks (page.block :: held)
  rw [shape] at onList
  have other : ∀ n ∈ s.cells page.block, n ≠ .block page.block := by
    intro n member
    obtain ⟨i, -, rfl⟩ := mem_cells.mp member
    exact nofun
  obtain ⟨all, kept⟩ := foldl_dlinkAdd (b := page.block) onList (fun n => home_of_mem_cells)
    (cells_nodup s page.block)
    (fun n member k => by
      cases k with
      | elements =>
        rw [nodes_elements]
        exact fun inFree => apart n (Or.inl inFree) (home_of_mem_cells member)
      | blocks => exact not_mem_blocks member free _)
    (fun n member => (rep.dlinkAdd_outside (other n member) (not_mem_blocks member free held) _).1.trans
      (cleared n (home_of_mem_cells member)))
  -- what is live lies in other blocks
  have live : ∀ n ∈ s.live, n ∉ s.cells page.block ∧ n ∉ free ∧ n ≠ .block page.block ∧
      n ∉ nodes (heapLists free held .blocks) := by
    intro n member
    have elsewhere := apart n (Or.inr member)
    refine ⟨fun inside => elsewhere (home_of_mem_cells inside), accounts.not_both member, ?_, ?_⟩
    · rintro rfl
      exact elsewhere rfl
    · exact not_mem_blocks (accounts.mem_iff.mp (Or.inr member)).2 free held
  refine ⟨_, rfl, rfl, rfl, all, ?_, ?_, ?_, ?_, ?_⟩
  · rw [List.append_assoc]
    exact (List.reverse_perm _).append accounts.cells
  · intro n member
    obtain ⟨notNew, notFree, notBlock, notBlocks⟩ := live n member
    exact (kept n notNew notFree).2.trans
      ((rep.dlinkAdd_outside notBlock notBlocks _).2.trans (accounts.owner n member))
  · intro n member
    obtain ⟨notNew, notFree, notBlock, notBlocks⟩ := live n member
    refine (kept n notNew notFree).1.trans ((rep.dlinkAdd_outside notBlock notBlocks _).1.trans ?_)
    exact (if_neg (apart n (Or.inr member))).trans (accounts.cleared n member)
  · intro b member
    change Function.update s.usedcount page.block 0 b = _
    by_cases here : b = page.block
    · subst here
      rw [Function.update_self]
      have nothing : s.live.countP (fun n => n.home = page.block) = 0 :=
        List.countP_eq_zero.mpr fun n member => by simpa using apart n (Or.inr member)
      change (0 : ℤ) = (s.live.countP _ : ℕ)
      rw [nothing]
      rfl
    · rw [Function.update_of_ne here]
      exact accounts.used b ((List.mem_cons.mp member).resolve_left here)
  · intro b
    change Function.update s.mapped page.block true b = true ↔ _
    by_cases here : b = page.block
    · subst here
      simp
    · rw [Function.update_of_ne here, accounts.mapped, List.mem_cons]
      exact (or_iff_right here).symm

/-! ### Allocating and freeing -/

theorem BlockHeap.Accounts.takeFirst {n : HeapNode} (accounts : s.Accounts (n :: free) held) :
    (s.takeFirst n).Accounts free held := by
  have rep := accounts.rep
  have segment := rep.linked .elements
  rw [nodes_elements] at segment
  obtain ⟨isFirst, on, rest⟩ := segment
  rw [Option.or_none] at on
  have nodup := rep.nodup .elements
  rw [nodes_elements, List.nodup_cons] at nodup
  have data : s.mem.data n = n.home := rep.data .elements (n, n.home) List.mem_cons_self
  have inRest : ∀ m, s.mem.next n = some m → m ∈ free := fun m next =>
    List.mem_of_mem_head? (by rw [← on]; exact next)
  -- nothing but the first of the rest gets another `prev`
  have prev : ∀ m, m ∉ free → (s.takeFirst n).mem.prev m = s.mem.prev m := fun m outside =>
    setLink_outside outside inRest
  have popped : Represents (s.takeFirst n).mem (heapLists free held) := by
    have shape : Function.update (heapLists (n :: free) held) .elements (free.map fun n => (n, n.home)) =
        heapLists free held := update_elements free
    rw [← shape]
    refine rep.replace ?_ ?_ ?_ ?_ ?_ ?_ ?_
    · change Function.update s.mem.head .elements (s.mem.next n) = _
      rw [on, nodes_map]
    · change (if s.mem.next n = none then _ else _) = _
      rw [on, nodes_map]
      cases free with
      | nil => rfl
      | cons m free =>
        rw [if_neg (by simp)]
        refine (Function.update_eq_self HeapList.elements s.mem.tail).symm.trans ?_
        rw [rep.tail, nodes_elements, List.getLast?_cons_cons]
    · have behind := rest.setBefore nodup.2 none
      rw [← on] at behind
      rw [nodes_map]
      exact behind
    · exact fun e member => rep.data .elements e (List.mem_cons_of_mem _ member)
    · rw [nodes_map]
      exact nodup.2
    · intro k other m member
      have outside : m ∉ free := fun inside => other (rep.apart member (by rw [nodes_elements]; simp [inside]))
      exact ⟨⟨rfl, prev m outside⟩, rfl⟩
    · intro k other m member inside
      rw [nodes_map] at member
      exact other (rep.apart inside (by rw [nodes_elements]; simp [member]))
  refine ⟨popped, ?_, ?_, ?_, ?_, accounts.mapped⟩
  · exact List.perm_middle.trans accounts.cells
  · intro m member
    rcases List.mem_cons.mp member with rfl | member
    · exact data
    · exact accounts.owner m member
  · intro m member
    rcases List.mem_cons.mp member with rfl | member
    · exact (prev m nodup.1).trans isFirst
    · have outside : m ∉ free := fun inside => accounts.not_both member (List.mem_cons_of_mem n inside)
      exact (prev m outside).trans (accounts.cleared m member)
  · intro b member
    change Function.update s.usedcount (s.mem.data n) _ b = ((n :: s.live).countP _ : ℕ)
    rw [data, List.countP_cons]
    by_cases here : b = n.home
    · subst here
      rw [Function.update_self, accounts.used _ member]
      simp
    · rw [Function.update_of_ne here, accounts.used b member]
      simp [Ne.symm here]

theorem BlockHeap.Accounts.alloc (accounts : s.Accounts free held) {page : Option Page} {s' : BlockHeap}
    (mapped : ∀ p, page = some p → p.Mapped s) (done : s.blockHeapAlloc page = some s') :
    s'.elsperblock = s.elsperblock ∧ ∃ free' held', s'.Accounts free' held' := by
  have first := accounts.rep.head .elements
  rw [nodes_elements] at first
  unfold BlockHeap.blockHeapAlloc at done
  cases free with
  | cons n free =>
    rw [first, if_neg (by simp), Option.bind_some, first] at done
    obtain rfl := Option.some.inj done
    exact ⟨rfl, free, held, accounts.takeFirst⟩
  | nil =>
    rw [first, List.head?_nil, if_pos rfl] at done
    cases page with
    | none => cases done
    | some page =>
      obtain ⟨s₁, added, same, -, accounts₁⟩ := accounts.addBlock (mapped page rfl)
      have first₁ := accounts₁.rep.head .elements
      rw [nodes_elements] at first₁
      rw [added, Option.bind_some, first₁] at done
      cases shape : (s.cells page.block).reverse ++ [] with
      | nil =>
        rw [shape] at done
        cases done
      | cons n rest =>
        rw [shape] at done accounts₁
        obtain rfl := Option.some.inj done
        exact ⟨same, rest, _, accounts₁.takeFirst⟩

theorem BlockHeap.Accounts.freed (accounts : s.Accounts free held) {el : HeapNode} (live : el ∈ s.live) :
    (s.blockHeapFree el).Accounts (el :: free) held := by
  have data := accounts.owner el live
  have element := (accounts.mem_iff.mp (Or.inr live)).2
  have nowhere : ∀ k, el ∉ nodes (heapLists free held k) := by
    intro k
    cases k with
    | elements =>
      rw [nodes_elements]
      exact accounts.not_both live
    | blocks => exact not_mem_blocks element free held
  have rep := accounts.rep.add nowhere (accounts.cleared el live) el.home .elements
  have shape : Function.update (heapLists free held) .elements ((el, el.home) :: heapLists free held .elements) =
      heapLists (el :: free) held := update_elements (el :: free)
  rw [shape] at rep
  have once := accounts.live_nodup
  -- the other live elements are on no list
  have others : ∀ n ∈ s.live.erase el, (s.blockHeapFree el).mem.prev n = s.mem.prev n ∧
      (s.blockHeapFree el).mem.data n = s.mem.data n := by
    intro n member
    obtain ⟨other, member⟩ := (List.Nodup.mem_erase_iff once).mp member
    refine accounts.rep.dlinkAdd_outside (k := .elements) other ?_ _
    rw [nodes_elements]
    exact accounts.not_both member
  refine ⟨?_, ?_, ?_, ?_, ?_, accounts.mapped⟩
  · change Represents (s.mem.dlinkAdd (s.mem.data el) el .elements) _
    rw [data]
    exact rep
  · have moved : (el :: free ++ s.live.erase el).Perm (free ++ s.live) :=
      List.perm_middle.symm.trans ((List.perm_cons_erase live).symm.append_left free)
    exact moved.trans accounts.cells
  · exact fun n member => (others n member).2.trans (accounts.owner n (List.mem_of_mem_erase member))
  · exact fun n member => (others n member).1.trans (accounts.cleared n (List.mem_of_mem_erase member))
  · intro b member
    change Function.update s.usedcount (s.mem.data el) _ b = ((s.live.erase el).countP _ : ℕ)
    have count := (List.perm_cons_erase live).countP_eq fun n => decide (n.home = b)
    rw [List.countP_cons] at count
    rw [data]
    by_cases here : b = el.home
    · subst here
      rw [Function.update_self, accounts.used _ member, count]
      simp
    · rw [Function.update_of_ne here, accounts.used b member, count]
      simp [Ne.symm here]

/-! ### Giving blocks back -/

/-- The elements of a block are taken out of the free list, one by one. -/
theorem foldl_dlinkDelete {mem : Memory HeapNode HeapList ℕ} {old : List HeapNode}
    (rep : Represents mem (heapLists free held)) (nodup : old.Nodup) (all : ∀ n ∈ old, n ∈ free) :
    Represents (old.foldl (fun mem n => mem.dlinkDelete n .elements) mem) (heapLists (free.diff old) held) ∧
      ∀ n, n ∉ free → (old.foldl (fun mem n => mem.dlinkDelete n .elements) mem).prev n = mem.prev n ∧
        (old.foldl (fun mem n => mem.dlinkDelete n .elements) mem).data n = mem.data n := by
  induction old generalizing mem free with
  | nil => exact ⟨rep, fun _ _ => ⟨rfl, rfl⟩⟩
  | cons m old ih =>
    obtain ⟨outside, nodup⟩ := List.nodup_cons.mp nodup
    have here := all m List.mem_cons_self
    have once := rep.nodup .elements
    rw [nodes_elements] at once
    obtain ⟨front, rest, rfl⟩ := List.append_of_mem here
    have notFront : m ∉ front := fun again => (List.nodup_append.mp once).2.2 m again m List.mem_cons_self rfl
    have erased : (front ++ m :: rest).erase m = front ++ rest := by
      rw [List.erase_append_right _ notFront, List.erase_cons_head]
    have split : heapLists (front ++ m :: rest) held .elements =
        (front.map fun n => (n, n.home)) ++ (m, m.home) :: rest.map fun n => (n, n.home) := List.map_append
    have first := rep.delete split
    rw [← List.map_append, update_elements] at first
    have next := ih first nodup fun n member => ?_
    · rw [List.foldl_cons, List.diff_cons, erased]
      refine ⟨next.1, fun n notFree => ?_⟩
      have later := next.2 n fun inside => notFree ?_
      · have now := rep.dlinkDelete_outside (k := .elements) (by rwa [nodes_elements]) (by rwa [nodes_elements])
        exact ⟨later.1.trans now.1, later.2.trans now.2⟩
      · exact List.mem_append.mpr ((List.mem_append.mp inside).imp id (List.mem_cons_of_mem m))
    · rw [← erased, List.Nodup.mem_erase_iff once]
      refine ⟨?_, all n (List.mem_cons_of_mem m member)⟩
      rintro rfl
      exact outside member

/-- Of a block that counts no element in use, all elements are free. -/
theorem BlockHeap.Accounts.unused (accounts : s.Accounts free held) {b : ℕ} (member : b ∈ held)
    (none : s.usedcount b = 0) : (∀ n ∈ s.live, n.home ≠ b) ∧ ∀ n ∈ s.cells b, n ∈ free := by
  have nothing : ∀ n ∈ s.live, n.home ≠ b := by
    rw [accounts.used b member] at none
    have count := List.countP_eq_zero.mp (Int.ofNat_eq_zero.mp none)
    exact fun n live => by simpa using count n live
  refine ⟨nothing, fun n inside => ?_⟩
  have home := home_of_mem_cells inside
  have somewhere := accounts.mem_iff.mpr ⟨home ▸ member, home.symm ▸ inside⟩
  exact somewhere.resolve_right fun live => nothing n live home

theorem BlockHeap.Accounts.release {done todo : List ℕ} {b : ℕ} (accounts : s.Accounts free (done ++ b :: todo))
    (none : s.usedcount b = 0) : (s.release b).Accounts (free.diff (s.cells b)) (done ++ todo) := by
  obtain ⟨nothing, all⟩ := accounts.unused (by simp) none
  have blocks := accounts.rep.nodup .blocks
  rw [nodes_blocks] at blocks
  have once : (done ++ b :: todo).Nodup := blocks.of_map _
  obtain ⟨rep, kept⟩ := foldl_dlinkDelete accounts.rep (cells_nodup s b) all
  have split : heapLists (free.diff (s.cells b)) (done ++ b :: todo) .blocks =
      (done.map fun b => (.block b, b)) ++ (.block b, b) :: todo.map fun b => (.block b, b) := List.map_append
  have deleted := rep.delete split
  rw [← List.map_append, update_blocks] at deleted
  -- what is live is on no list
  have same : ∀ n ∈ s.live, (s.release b).mem.prev n = s.mem.prev n ∧ (s.release b).mem.data n = s.mem.data n := by
    intro n live
    have element := (accounts.mem_iff.mp (Or.inr live)).2
    have now := rep.dlinkDelete_outside (k := .blocks) (m := .block b) (by rw [nodes_blocks]; simp)
      (not_mem_blocks element _ _)
    have before := kept n (accounts.not_both live)
    exact ⟨now.1.trans before.1, now.2.trans before.2⟩
  have others : ∀ c, c ∈ done ++ todo ↔ c ∈ done ++ b :: todo ∧ c ≠ b := by
    intro c
    have erased : (done ++ b :: todo).erase b = done ++ todo := by
      have notDone : b ∉ done := fun again => (List.nodup_append.mp once).2.2 b again b List.mem_cons_self rfl
      rw [List.erase_append_right _ notDone, List.erase_cons_head]
    rw [← erased, List.Nodup.mem_erase_iff once, and_comm]
  refine ⟨deleted, ?_, ?_, ?_, ?_, ?_⟩
  · have taken : (s.cells b ++ free.diff (s.cells b)).Perm free := List.subperm_append_diff_self_of_count_le ?_
    · have whole : (s.cells b ++ (free.diff (s.cells b) ++ s.live)).Perm
          (s.cells b ++ (done ++ todo).flatMap s.cells) := by
        rw [← List.append_assoc]
        refine (taken.append_right _).trans (accounts.cells.trans ?_)
        rw [List.flatMap_append, List.flatMap_append, List.flatMap_cons]
        exact List.perm_append_comm_assoc _ _ _
      exact (List.perm_append_left_iff _).mp whole
    · intro n inside
      rw [List.count_eq_one_of_mem (cells_nodup s b) inside]
      exact List.count_pos_iff.mpr (all n inside)
  · exact fun n live => (same n live).2.trans (accounts.owner n live)
  · exact fun n live => (same n live).1.trans (accounts.cleared n live)
  · exact fun c member => accounts.used c ((others c).mp member).1
  · intro c
    change Function.update s.mapped b false c = true ↔ _
    rw [others]
    by_cases here : c = b
    · simp [here]
    · rw [Function.update_of_ne here, accounts.mapped]
      exact (and_iff_left here).symm

theorem BlockHeap.Accounts.gcLoop {done todo : List ℕ} (accounts : s.Accounts free (done ++ todo)) (rounds : ℕ)
    (enough : todo.length < rounds) :
    ∃ s' free' held', BlockHeap.gcLoop rounds (todo.head?.map .block) s = some s' ∧ s'.Accounts free' held' ∧
      s'.live = s.live ∧ s'.elsperblock = s.elsperblock := by
  obtain ⟨rounds, rfl⟩ : ∃ n, rounds = n + 1 := ⟨rounds - 1, by omega⟩
  induction todo generalizing done free s rounds with
  | nil => exact ⟨s, free, _, rfl, accounts, rfl, rfl⟩
  | cons b todo ih =>
    obtain ⟨rounds, rfl⟩ : ∃ n, rounds = n + 1 := ⟨rounds - 1, by simp at enough; omega⟩
    have linked := accounts.rep.linked .blocks
    rw [nodes_blocks, List.map_append, List.map_cons] at linked
    have next := linked.next_eq
    rw [Option.or_none, List.head?_map] at next
    have fewer : todo.length < rounds + 1 := by simpa using enough
    have round : BlockHeap.gcLoop (rounds + 1 + 1) (some (.block b)) s =
        if s.usedcount b ≠ 0 then BlockHeap.gcLoop (rounds + 1) (s.mem.next (.block b)) s
        else BlockHeap.gcLoop (rounds + 1) (s.mem.next (.block b)) (s.release b) := rfl
    rw [List.head?_cons, Option.map_some, round, next]
    by_cases used : s.usedcount b = 0
    · rw [if_neg (not_not.mpr used)]
      exact ih (accounts.release used) rounds fewer
    · rw [if_pos used]
      have further : s.Accounts free ((done ++ [b]) ++ todo) := by
        rwa [List.append_assoc, List.singleton_append]
      exact ih further rounds fewer

theorem BlockHeap.Accounts.collect (accounts : s.Accounts free held) {rounds : ℕ} (enough : held.length < rounds) :
    ∃ s' free' held', s.blockHeapGarbageCollect rounds = some s' ∧ s'.Accounts free' held' ∧ s'.live = s.live ∧
      s'.elsperblock = s.elsperblock := by
  have first := accounts.rep.head .blocks
  rw [nodes_blocks, List.head?_map] at first
  unfold BlockHeap.blockHeapGarbageCollect
  rw [first]
  have whole : s.Accounts free ([] ++ held) := accounts
  exact whole.gcLoop rounds enough

/-- With more rounds nothing else comes out. -/
theorem gcLoop_more {ptr : Option HeapNode} {s' : BlockHeap} {rounds : ℕ}
    (done : BlockHeap.gcLoop rounds ptr s = some s') (more : ℕ) :
    BlockHeap.gcLoop (rounds + more) ptr s = some s' := by
  induction rounds generalizing ptr s with
  | zero => cases done
  | succ rounds ih =>
    rw [Nat.add_right_comm]
    cases ptr with
    | none => exact done
    | some bhb =>
      unfold BlockHeap.gcLoop at done ⊢
      dsimp only at done ⊢
      split at done
      next used =>
        rw [if_pos used]
        exact ih done
      next unused =>
        rw [if_neg unused]
        exact ih done

end

/-! ### Runs -/

/-- What is done with a heap. `page` is what `mmap` returns if it is called. -/
inductive HeapOp where
  | alloc (page : Option Page)
  | free (el : HeapNode)
  | garbageCollect (rounds : ℕ)

namespace BlockHeap

/-- There is no heap behind a null pointer that has been followed, and none where the rounds run out. -/
def step (s : BlockHeap) : HeapOp → Option BlockHeap
  | .alloc page => s.blockHeapAlloc page
  | .free el => some (s.blockHeapFree el)
  | .garbageCollect rounds => s.blockHeapGarbageCollect rounds

def run (s : BlockHeap) (ops : List HeapOp) : Option BlockHeap := ops.foldlM step s

/-- New blocks come from `mmap`, and only live elements are freed. -/
def Allows (s : BlockHeap) : HeapOp → Prop
  | .alloc page => ∀ p, page = some p → p.Mapped s
  | .free el => el ∈ s.live
  | .garbageCollect _ => True

def AllowsAll : BlockHeap → List HeapOp → Prop
  | _, [] => True
  | s, op :: ops => s.Allows op ∧ ∀ s', s.step op = some s' → s'.AllowsAll ops

/-- The lists stand for these elements and blocks; the live elements are distinct and lie in the blocks; together with
the free ones they are as many as the blocks have. -/
structure Right (s : BlockHeap) (free : List HeapNode) (held : List ℕ) : Prop where
  lists : Represents s.mem (heapLists free held)
  distinct : s.live.Nodup
  inside : ∀ n ∈ s.live, n.home ∈ held ∧ n ∈ s.cells n.home
  count : free.length + s.live.length = held.length * s.elsperblock

variable {s s' : BlockHeap} {free : List HeapNode} {held : List ℕ}

theorem Accounts.right (accounts : s.Accounts free held) : s.Right free held where
  lists := accounts.rep
  distinct := accounts.live_nodup
  inside n live := accounts.mem_iff.mp (Or.inr live)
  count := by
    have whole := accounts.cells.length_eq
    have each : ∀ b, (s.cells b).length = s.elsperblock := fun b => by simp [BlockHeap.cells]
    rw [List.length_append, List.length_flatMap] at whole
    simpa [each] using whole

theorem create_accounts (elsperblock : ℕ) : (create elsperblock).Accounts [] [] where
  rep :=
    { head := fun k => by cases k <;> rfl
      tail := fun k => by cases k <;> rfl
      linked := fun k => by cases k <;> trivial
      data := fun k e member => by cases k <;> cases member
      nodup := fun k => by cases k <;> exact List.nodup_nil
      apart := fun {k _ _} member => by cases k <;> cases member }
  cells := List.Perm.nil
  owner _ member := by cases member
  cleared _ member := by cases member
  used _ member := by cases member
  mapped b := by simp [create]

theorem Accounts.step (accounts : s.Accounts free held) {op : HeapOp} (allowed : s.Allows op)
    (done : s.step op = some s') : ∃ free' held', s'.Accounts free' held' := by
  cases op with
  | alloc page => exact (accounts.alloc allowed done).2
  | free el =>
    obtain rfl := Option.some.inj done
    exact ⟨_, _, accounts.freed allowed⟩
  | garbageCollect rounds =>
    obtain ⟨s'', free', held', collected, accounts', -⟩ :=
      accounts.collect (show held.length < rounds + (held.length + 1) by omega)
    obtain rfl := Option.some.inj (collected.symm.trans (gcLoop_more done (held.length + 1)))
    exact ⟨free', held', accounts'⟩

theorem Accounts.run {ops : List HeapOp} (accounts : s.Accounts free held) (allowed : s.AllowsAll ops)
    (done : s.run ops = some s') : ∃ free' held', s'.Accounts free' held' := by
  induction ops generalizing s free held with
  | nil =>
    obtain rfl := Option.some.inj done
    exact ⟨free, held, accounts⟩
  | cons op ops ih =>
    obtain ⟨next, first, rest⟩ := Option.bind_eq_some_iff.mp ((List.foldlM_cons ..).symm.trans done)
    obtain ⟨free', held', accounts'⟩ := accounts.step allowed.1 first
    exact ih accounts' (allowed.2 next first) rest

/-- After every run the accounts are right, and garbage collection ends and gives back only blocks of which no
element is live. -/
theorem heap_right {elsperblock : ℕ} {ops : List HeapOp} (allowed : (create elsperblock).AllowsAll ops)
    (done : (create elsperblock).run ops = some s) : ∃ free held, s.Right free held ∧
      ∀ rounds, held.length < rounds → ∃ s' free' held', s.blockHeapGarbageCollect rounds = some s' ∧
        s'.Right free' held' ∧ ∀ b ∈ held, b ∉ held' → ∀ n ∈ s.live, n.home ≠ b := by
  obtain ⟨free, held, accounts⟩ := (create_accounts elsperblock).run allowed done
  refine ⟨free, held, accounts.right, fun rounds enough => ?_⟩
  obtain ⟨s', free', held', collected, accounts', live, -⟩ := accounts.collect enough
  refine ⟨s', free', held', collected, accounts'.right, fun b _ gone n member home => gone ?_⟩
  rw [← live] at member
  exact home ▸ (accounts'.right.inside n member).1

def clearedPage (b : ℕ) : Page := ⟨b, fun _ => none⟩

theorem heap_right_small : ∃ s, (create 2).run [.alloc (some (clearedPage 7)), .free (.element 7 1)] = some s ∧
    ∃ free held, s.Right free held ∧
      ∀ rounds, held.length < rounds → ∃ s' free' held', s.blockHeapGarbageCollect rounds = some s' ∧
        s'.Right free' held' ∧ ∀ b ∈ held, b ∉ held' → ∀ n ∈ s.live, n.home ≠ b := by
  have done : (create 2).run [.alloc (some (clearedPage 7)), .free (.element 7 1)] = some _ := rfl
  have allowed : (create 2).AllowsAll [.alloc (some (clearedPage 7)), .free (.element 7 1)] := by
    refine ⟨?_, fun s' first => ⟨?_, fun _ _ => trivial⟩⟩
    · rintro p ⟨⟩
      exact ⟨rfl, fun _ => rfl⟩
    · obtain rfl := Option.some.inj first
      exact List.mem_singleton.mpr rfl
  exact ⟨_, done, heap_right allowed done⟩

end BlockHeap

end Ircd.Tools
