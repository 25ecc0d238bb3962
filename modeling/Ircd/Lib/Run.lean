import Mathlib.Data.List.Basic

/-!
# Runs of a machine

A machine takes a step for each event. What holds along a run holds of every state and the event that it meets; an
invariant that safe events keep turns a law about one step into a law about runs.
-/
namespace Ircd

variable {σ ε : Type*} (step : σ → ε → σ)

/-- Every event of a run is met in a state such that `P` holds of the two. -/
def Along (P : σ → ε → Prop) (s : σ) : List ε → Prop
  | [] => True
  | e :: events => P s e ∧ Along P (step s e) events

variable {step} {P Q : σ → ε → Prop} {Inv : σ → Prop} {s : σ} {events : List ε}

theorem Along.mono (imp : ∀ s e, P s e → Q s e) (along : Along step P s events) : Along step Q s events := by
  induction events generalizing s with
  | nil => trivial
  | cons e events ih => exact ⟨imp s e along.1, ih along.2⟩

/-- A run, and another behind it. -/
theorem along_append {later : List ε} :
    Along step P s (events ++ later) ↔ Along step P s events ∧ Along step P (events.foldl step s) later := by
  induction events generalizing s with
  | nil => simp [Along]
  | cons e events ih => rw [List.cons_append, Along, Along, ih, List.foldl_cons, and_assoc]

/-- The first events of a run. -/
theorem Along.take (along : Along step P s events) (k : ℕ) : Along step P s (events.take k) := by
  induction events generalizing s k with
  | nil => simp [Along]
  | cons e events ih =>
    cases k with
    | zero => trivial
    | succ k => exact ⟨along.1, ih along.2 k⟩

/-- The event that comes at some point of a run. -/
theorem Along.at_index (along : Along step P s events) {k : ℕ} {e : ε} (here : events[k]? = some e) :
    P ((events.take k).foldl step s) e := by
  induction events generalizing s k with
  | nil => cases here
  | cons e' events ih =>
    cases k with
    | zero =>
      obtain rfl := Option.some.inj here
      exact along.1
    | succ k => exact ih along.2 here

/-- What safe events keep holds after a run of them. -/
theorem Along.keeps (keep : ∀ s e, Inv s → P s e → Inv (step s e)) (first : Inv s)
    (along : Along step P s events) : Inv (events.foldl step s) := by
  induction events generalizing s with
  | nil => exact first
  | cons e events ih => exact ih (keep s e first along.1) along.2

/-- Two laws agree along a run if they agree where the invariant holds and the one keeps the invariant. -/
theorem along_congr (agree : ∀ s e, Inv s → (Q s e ↔ P s e)) (keep : ∀ s e, Inv s → P s e → Inv (step s e))
    (first : Inv s) : Along step Q s events ↔ Along step P s events := by
  induction events generalizing s with
  | nil => exact Iff.rfl
  | cons e events ih =>
    constructor
    · rintro ⟨here, rest⟩
      have safe := (agree s e first).mp here
      exact ⟨safe, (ih (keep s e first safe)).mp rest⟩
    · rintro ⟨safe, rest⟩
      exact ⟨(agree s e first).mpr safe, (ih (keep s e first safe)).mpr rest⟩

/-- A law of states holds in all states of a run if it holds in the first and every event leads to one where it
holds. -/
theorem forall_take_iff {H : σ → Prop} :
    (∀ k, H ((events.take k).foldl step s)) ↔ H s ∧ Along step (fun s e => H (step s e)) s events := by
  induction events generalizing s with
  | nil => simp [Along]
  | cons e events ih =>
    constructor
    · intro all
      exact ⟨all 0, all 1, (ih.mp fun k => all (k + 1)).2⟩
    · rintro ⟨here, next, rest⟩ k
      cases k with
      | zero => exact here
      | succ k => exact ih.mpr ⟨next, rest⟩ k

/-- A law of states holds in all states of a run exactly if all its events are safe, where the invariant gives the law
and an event that leads to a state of the law is safe. -/
theorem forall_take_iff_along {H : σ → Prop} (law : ∀ s, Inv s → H s)
    (safe : ∀ s e, Inv s → H (step s e) → P s e) (keep : ∀ s e, Inv s → P s e → Inv (step s e)) (first : Inv s) :
    (∀ k, H ((events.take k).foldl step s)) ↔ Along step P s events := by
  rw [forall_take_iff, and_iff_right (law s first)]
  exact along_congr (fun s e inv => ⟨safe s e inv, fun ok => law _ (keep s e inv ok)⟩) keep first

end Ircd
