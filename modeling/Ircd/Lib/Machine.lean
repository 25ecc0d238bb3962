import Mathlib.Data.Nat.Notation
import Mathlib.Logic.Basic
import Mathlib.Order.WellFounded

/-!
# Machines that stop with an answer

A machine takes steps by itself until it stops with an answer. It stops if safe steps get nearer to the end, and never if
it comes back to where it was.
-/
namespace Ircd.Machine

variable {σ τ ρ : Type*} {step : σ → σ ⊕ ρ} {s t : σ} {r : ρ} {n m : ℕ}

/-- Where a machine is after some steps, or the answer that it has stopped with. -/
def run (step : σ → σ ⊕ ρ) : ℕ → σ → σ ⊕ ρ
  | 0, s => .inl s
  | n + 1, s =>
    match step s with
    | .inl t => run step n t
    | .inr r => .inr r

/-- The machine stops with an answer. -/
def Ends (step : σ → σ ⊕ ρ) (s : σ) (r : ρ) : Prop := ∃ n, run step n s = .inr r

theorem run_succ_inl (here : step s = .inl t) : run step (n + 1) s = run step n t := by
  rw [run, here]

theorem run_succ_inr (here : step s = .inr r) : run step (n + 1) s = .inr r := by
  rw [run, here]

theorem run_add (first : run step m s = .inl t) : run step (m + n) s = run step n t := by
  induction m generalizing s with
  | zero =>
    rw [Nat.zero_add]
    exact congrArg (run step n) (Sum.inl.inj first)
  | succ m ih =>
    rw [Nat.add_right_comm]
    cases here : step s with
    | inl u =>
      rw [run_succ_inl here] at first ⊢
      exact ih first
    | inr r =>
      rw [run_succ_inr here] at first
      cases first

/-- What has stopped stays so. -/
theorem run_inr (stopped : run step n s = .inr r) : run step (n + m) s = .inr r := by
  induction n generalizing s with
  | zero => cases stopped
  | succ n ih =>
    rw [Nat.add_right_comm]
    cases here : step s with
    | inl u =>
      rw [run_succ_inl here] at stopped ⊢
      exact ih stopped
    | inr r' =>
      rw [run_succ_inr here] at stopped ⊢
      exact stopped

theorem Ends.after_step (ends : Ends step s r) (here : step s = .inl t) : Ends step t r := by
  obtain ⟨n, stopped⟩ := ends
  cases n with
  | zero => cases stopped
  | succ n => exact ⟨n, (run_succ_inl here).symm.trans stopped⟩

theorem Ends.before_step (ends : Ends step t r) (here : step s = .inl t) : Ends step s r := by
  obtain ⟨n, stopped⟩ := ends
  exact ⟨n + 1, (run_succ_inl here).trans stopped⟩

theorem Ends.of_inr (here : step s = .inr r) : Ends step s r := ⟨1, run_succ_inr here⟩

/-- Where two states go the same way, they come to the same end. -/
theorem Ends.of_same (ends : Ends step t r) (same : step s = step t) : Ends step s r := by
  obtain ⟨n, stopped⟩ := ends
  cases n with
  | zero => cases stopped
  | succ n =>
    refine ⟨n + 1, ?_⟩
    rw [run, same]
    exact stopped

theorem Ends.after_run (ends : Ends step s r) (there : run step n s = .inl t) : Ends step t r := by
  obtain ⟨m, stopped⟩ := ends
  refine ⟨m, ?_⟩
  rw [← run_add there, Nat.add_comm]
  exact run_inr stopped

theorem Ends.unique {r' : ρ} (ends : Ends step s r) (ends' : Ends step s r') : r = r' := by
  obtain ⟨n, stopped⟩ := ends
  obtain ⟨m, stopped'⟩ := ends'
  have both : run step (n + m) s = .inr r := run_inr stopped
  rw [Nat.add_comm, run_inr stopped'] at both
  exact (Sum.inr.inj both).symm

/-- What every step keeps holds wherever the machine comes. -/
theorem run_keeps {Inv : σ → Prop} (keep : ∀ s t, Inv s → step s = .inl t → Inv t) (first : Inv s)
    (there : run step n s = .inl t) : Inv t := by
  induction n generalizing s with
  | zero => exact Sum.inl.inj there ▸ first
  | succ n ih =>
    cases here : step s with
    | inl u => exact ih (keep s u first here) ((run_succ_inl here).symm.trans there)
    | inr r =>
      rw [run_succ_inr here] at there
      cases there

/-- A machine whose steps are those of another, seen in another way. -/
theorem run_map {step' : τ → τ ⊕ ρ} {Inv : σ → Prop} (f : σ → τ) (keep : ∀ s t, Inv s → step s = .inl t → Inv t)
    (sim : ∀ s, Inv s → step' (f s) = (step s).map f id) (first : Inv s) :
    run step' n (f s) = (run step n s).map f id := by
  induction n generalizing s with
  | zero => rfl
  | succ n ih =>
    cases here : step s with
    | inl t =>
      have here' : step' (f s) = .inl (f t) := by rw [sim s first, here]; rfl
      rw [run_succ_inl here, run_succ_inl here', ih (keep s t first here)]
    | inr r =>
      have here' : step' (f s) = .inr r := by rw [sim s first, here]; rfl
      rw [run_succ_inr here, run_succ_inr here']
      rfl

/-- A machine whose steps make it lighter stops, and in time. -/
theorem run_of_lighter {Inv : σ → Prop} {weight : σ → ℕ}
    (keep : ∀ s t, Inv s → step s = .inl t → Inv t ∧ weight t < weight s)
    (answer : ∀ s r', Inv s → step s = .inr r' → r' = r) (first : Inv s) (enough : weight s < n) :
    run step n s = .inr r := by
  induction n generalizing s with
  | zero => exact absurd enough (Nat.not_lt_zero _)
  | succ n ih =>
    cases here : step s with
    | inl t =>
      obtain ⟨kept, lighter⟩ := keep s t first here
      rw [run_succ_inl here]
      exact ih kept (Nat.lt_of_lt_of_le lighter (Nat.le_of_lt_succ enough))
    | inr r' => rw [run_succ_inr here, answer s r' first here]

/-- A machine stops with a good answer exactly if it is safe wherever it comes, where safe steps lead nearer to the end
and what is not safe never ends well. -/
theorem ends_iff {Inv Safe : σ → Prop} {good : ρ → Prop} {lt : σ → σ → Prop} (wf : WellFounded lt)
    (keep : ∀ s t, Inv s → step s = .inl t → Inv t)
    (nearer : ∀ s t, Inv s → Safe s → step s = .inl t → lt t s)
    (answer : ∀ s r, Inv s → Safe s → step s = .inr r → good r)
    (stuck : ∀ s, Inv s → ¬Safe s → ∀ r, good r → ¬Ends step s r) (first : Inv s) :
    (∃ r, good r ∧ Ends step s r) ↔ ∀ n t, run step n s = .inl t → Safe t := by
  constructor
  · rintro ⟨r, fine, ends⟩ n t there
    by_contra unsafe_
    exact stuck t (run_keeps keep first there) unsafe_ r fine (ends.after_run there)
  · intro safe
    induction s using wf.induction with
    | _ s ih =>
      have here := safe 0 s rfl
      cases next : step s with
      | inl t =>
        obtain ⟨r, fine, n, stopped⟩ := ih t (nearer s t first here next) (keep s t first next) fun n u there =>
          safe (n + 1) u ((run_succ_inl next).trans there)
        exact ⟨r, fine, n + 1, (run_succ_inl next).trans stopped⟩
      | inr r => exact ⟨r, answer s r first here next, 1, run_succ_inr next⟩

end Ircd.Machine
