import Mathlib.Data.List.Nodup
import Mathlib.Logic.Relation

/-!
# Forests of siblings

A forest is a list of siblings. Each of them is a node with leaves of its own, the forest below it,
and the siblings behind it. What hangs directly on a node are its leaves and the roots of the forest
below it.
-/

inductive Forest (α : Type) where
  | nil
  | cons (root : α) (leaves : List α) (below next : Forest α)

namespace Forest

variable {α : Type}

def roots : Forest α → List α
  | nil => []
  | cons root _ _ next => root :: next.roots

def nodes : Forest α → List α
  | nil => []
  | cons root _ below next => root :: (below.nodes ++ next.nodes)

def leaves : Forest α → List α
  | nil => []
  | cons _ leaves below next => leaves ++ (below.leaves ++ next.leaves)

/-- Everything, and what hangs on a node in front of it: first the nodes, then the leaves. -/
def postorder : Forest α → List α
  | nil => []
  | cons root leaves below next => below.postorder ++ leaves ++ root :: next.postorder

def size : Forest α → ℕ
  | nil => 1
  | cons _ leaves below next => leaves.length + below.size + next.size + 2

/-- The second hangs directly on the first. -/
def Edge : Forest α → α → α → Prop
  | nil, _, _ => False
  | cons root leaves below next, y, x =>
    y = root ∧ (x ∈ below.roots ∨ x ∈ leaves) ∨ below.Edge y x ∨ next.Edge y x

theorem size_pos (f : Forest α) : 0 < f.size := by
  cases f <;> simp [size]

theorem roots_subset (f : Forest α) : ∀ x ∈ f.roots, x ∈ f.nodes := by
  induction f with
  | nil => simp [roots]
  | cons root leaves below next _ ihNext =>
    intro x member
    rcases List.mem_cons.mp member with rfl | later
    · simp [nodes]
    · simp [nodes, ihNext x later]

theorem mem_postorder {f : Forest α} {x : α} : x ∈ f.postorder ↔ x ∈ f.nodes ∨ x ∈ f.leaves := by
  induction f with
  | nil => simp [postorder, nodes, leaves]
  | cons root leaves below next ihBelow ihNext =>
    simp only [postorder, nodes, Forest.leaves, List.mem_append, List.mem_cons, ihBelow, ihNext]
    tauto

theorem edge_node {f : Forest α} {y x : α} (edge : f.Edge y x) : y ∈ f.nodes := by
  induction f with
  | nil => exact edge.elim
  | cons root leaves below next ihBelow ihNext =>
    rcases edge with ⟨rfl, -⟩ | inBelow | inNext
    · simp [nodes]
    · simp [nodes, ihBelow inBelow]
    · simp [nodes, ihNext inNext]

theorem edge_mem {f : Forest α} {y x : α} (edge : f.Edge y x) : x ∈ f.postorder := by
  induction f with
  | nil => exact edge.elim
  | cons root leaves below next ihBelow ihNext =>
    simp only [postorder, List.mem_append, List.mem_cons]
    rcases edge with ⟨-, child | leaf⟩ | inBelow | inNext
    · exact Or.inl (Or.inl (mem_postorder.mpr (Or.inl (below.roots_subset x child))))
    · exact Or.inl (Or.inr leaf)
    · exact Or.inl (Or.inl (ihBelow inBelow))
    · exact Or.inr (Or.inr (ihNext inNext))

/-- What hangs on a node comes before it. -/
theorem edge_sublist {f : Forest α} {y x : α} (edge : f.Edge y x) : [x, y].Sublist f.postorder := by
  induction f with
  | nil => exact edge.elim
  | cons root leaves below next ihBelow ihNext =>
    simp only [postorder]
    rcases edge with ⟨rfl, hangs⟩ | inBelow | inNext
    · -- the child is in front, the node is the first of what follows
      have first : [x].Sublist (below.postorder ++ leaves) := by
        apply List.singleton_sublist.mpr
        rcases hangs with child | leaf
        · exact List.mem_append_left _ (mem_postorder.mpr (Or.inl (below.roots_subset x child)))
        · exact List.mem_append_right _ leaf
      exact first.append (List.singleton_sublist.mpr List.mem_cons_self)
    · apply (ihBelow inBelow).trans
      simp
    · exact ((ihNext inNext).trans (List.sublist_cons_self _ _)).trans (List.sublist_append_right _ _)

/-- Everything is reached from the roots. -/
theorem mem_postorder_iff {f : Forest α} {x : α} :
    x ∈ f.postorder ↔ ∃ r ∈ f.roots, Relation.ReflTransGen f.Edge r x := by
  constructor
  · induction f with
    | nil => simp [postorder]
    | cons root leaves below next ihBelow ihNext =>
      intro member
      simp only [postorder, List.mem_append, List.mem_cons] at member
      have inBelow : ∀ y x, below.Edge y x → (cons root leaves below next).Edge y x :=
        fun y x edge => Or.inr (Or.inl edge)
      have inNext : ∀ y x, next.Edge y x → (cons root leaves below next).Edge y x :=
        fun y x edge => Or.inr (Or.inr edge)
      rcases member with (deep | leaf) | rfl | later
      · obtain ⟨r, isRoot, path⟩ := ihBelow deep
        exact ⟨root, List.mem_cons_self, Relation.ReflTransGen.head (Or.inl ⟨rfl, Or.inl isRoot⟩)
          (Relation.ReflTransGen.mono inBelow _ _ path)⟩
      · exact ⟨root, List.mem_cons_self, Relation.ReflTransGen.single (Or.inl ⟨rfl, Or.inr leaf⟩)⟩
      · exact ⟨x, List.mem_cons_self, .refl⟩
      · obtain ⟨r, isRoot, path⟩ := ihNext later
        exact ⟨r, List.mem_cons_of_mem _ isRoot, Relation.ReflTransGen.mono inNext _ _ path⟩
  · rintro ⟨r, isRoot, path⟩
    cases path with
    | refl => exact mem_postorder.mpr (Or.inl (f.roots_subset _ isRoot))
    | tail _ edge => exact edge_mem edge

end Forest
