import Mathlib.Combinatorics.SimpleGraph.Acyclic
import Mathlib.Combinatorics.SimpleGraph.Metric

/-!
# Routes in a tree

From a node of a tree every other node lies behind exactly one of its neighbours. What lies behind the
link from one side lies in front of it from the other.
-/
namespace Ircd.TreeRoute

variable {V : Type*} {G : SimpleGraph V} {x y z d a v : V}

/-- From the first node, the third lies behind the second, a neighbour. -/
def Behind (G : SimpleGraph V) (x y d : V) : Prop := G.Adj x y ∧ G.dist x d = G.dist y d + 1

/-- The node is on the way from the first to the second. -/
def OnPath (G : SimpleGraph V) (a v x : V) : Prop := G.dist a x + G.dist x v = G.dist a v

theorem Behind.ne (behind : Behind G x y d) : x ≠ d := by
  rintro rfl
  have here := behind.2
  rw [SimpleGraph.dist_self] at here
  omega

theorem behind_self (adj : G.Adj x y) : Behind G x y y := by
  refine ⟨adj, ?_⟩
  rw [SimpleGraph.dist_self, SimpleGraph.dist_eq_one_iff_adj.mpr adj]

theorem Behind.not_back (behind : Behind G x y d) : ¬Behind G y x d := by
  rintro ⟨-, back⟩
  have forth := behind.2
  omega

/-- Either side of a link has every node behind it or in front of it. -/
theorem behind_or_behind (tree : G.IsTree) (adj : G.Adj x y) (d : V) : Behind G x y d ∨ Behind G y x d := by
  rcases tree.dist_eq_dist_add_one_of_adj d adj with far | near
  · rw [SimpleGraph.dist_comm, SimpleGraph.dist_comm (u := d)] at far
    exact Or.inl ⟨adj, far⟩
  · rw [SimpleGraph.dist_comm, SimpleGraph.dist_comm (u := d)] at near
    exact Or.inr ⟨adj.symm, near⟩

theorem exists_behind (connected : G.Connected) (ne : x ≠ d) : ∃ y, Behind G x y d := by
  obtain ⟨walk, length⟩ := connected.exists_walk_length_eq_dist x d
  cases walk with
  | nil => exact absurd rfl ne
  | @cons _ y _ adj rest =>
    refine ⟨y, adj, le_antisymm ?_ ?_⟩
    · have step := connected.dist_triangle (u := x) (v := y) (w := d)
      rw [SimpleGraph.dist_eq_one_iff_adj.mpr adj] at step
      omega
    · rw [SimpleGraph.Walk.length_cons] at length
      have short := SimpleGraph.dist_le rest
      omega

/-- A shortest way to what lies behind a neighbour begins with that neighbour. -/
theorem Behind.exists_path (connected : G.Connected) (behind : Behind G x y d) :
    ∃ path : G.Walk x d, path.IsPath ∧ path.snd = y := by
  obtain ⟨rest, length⟩ := connected.exists_walk_length_eq_dist y d
  refine ⟨.cons behind.1 rest, SimpleGraph.Walk.isPath_of_length_eq_dist _ ?_, rest.snd_cons behind.1⟩
  rw [SimpleGraph.Walk.length_cons, length, behind.2]

theorem Behind.unique (tree : G.IsTree) (first : Behind G x y d) (second : Behind G x z d) : y = z := by
  obtain ⟨path, isPath, rfl⟩ := first.exists_path tree.connected
  obtain ⟨other, isPath', rfl⟩ := second.exists_path tree.connected
  rw [(tree.existsUnique_path x d).unique isPath isPath']

/-- On the way there is one link on. -/
theorem OnPath.next (tree : G.IsTree) (on : OnPath G a v x) (behind : Behind G x y v) :
    OnPath G a v y ∧ Behind G y x a := by
  have back : Behind G y x a := by
    refine (behind_or_behind tree behind.1 a).resolve_left fun ahead => ?_
    -- then the way over the neighbour would be shorter
    have short := tree.connected.dist_triangle (u := a) (v := y) (w := v)
    have first := ahead.2
    have second := behind.2
    rw [SimpleGraph.dist_comm, SimpleGraph.dist_comm (u := y)] at first
    rw [OnPath] at on
    omega
  refine ⟨?_, back⟩
  have first := back.2
  have second := behind.2
  rw [SimpleGraph.dist_comm, SimpleGraph.dist_comm (u := x)] at first
  rw [OnPath] at on ⊢
  omega

theorem onPath_left (a v : V) : OnPath G a v a := by
  rw [OnPath, SimpleGraph.dist_self, Nat.zero_add]

/-- The way has one node at each distance. -/
theorem OnPath.unique (tree : G.IsTree) (first : OnPath G a v x) (second : OnPath G a v y)
    (same : G.dist x v = G.dist y v) : x = y := by
  have way : ∀ {z}, OnPath G a v z → ∃ path : G.Walk a v, path.IsPath ∧ path.getVert (G.dist a z) = z := by
    intro z on
    obtain ⟨front, short⟩ := tree.connected.exists_walk_length_eq_dist a z
    obtain ⟨back, short'⟩ := tree.connected.exists_walk_length_eq_dist z v
    refine ⟨front.append back, SimpleGraph.Walk.isPath_of_length_eq_dist _ ?_, ?_⟩
    · rw [SimpleGraph.Walk.length_append, short, short']
      exact on
    · rw [SimpleGraph.Walk.getVert_append, short, if_neg (Nat.lt_irrefl _), Nat.sub_self,
        SimpleGraph.Walk.getVert_zero]
  obtain ⟨path, isPath, at_⟩ := way first
  obtain ⟨other, isPath', at'⟩ := way second
  obtain rfl := (tree.existsUnique_path a v).unique isPath isPath'
  have here : G.dist a x = G.dist a y := by
    rw [OnPath] at first second
    omega
  rw [← at_, ← at', here]

/-- The last link of the way. -/
theorem Behind.onPath (behind : Behind G v x a) : OnPath G a v x ∧ Behind G x v v := by
  refine ⟨?_, behind_self behind.1.symm⟩
  have far := behind.2
  rw [OnPath, SimpleGraph.dist_eq_one_iff_adj.mpr behind.1.symm, SimpleGraph.dist_comm,
    SimpleGraph.dist_comm (u := a)]
  exact far.symm

end Ircd.TreeRoute
