import Mathlib.Data.List.Basic

/-!
# Walking a list that changes

A loop over a linked list whose body may take nodes off the list. Nodes are known by their data. A node that is
taken off has no next node, so a loop that stands on it ends; a node in front of the loop is passed
over, and what is added to the list comes before the loop.
-/
namespace Ircd

variable {σ α : Type*} [DecidableEq α]

/-- The loop from some node on. `nodes` is the list in a state. -/
def walk (nodes : σ → List α) (body : σ → α → Option σ) : List α → σ → Option σ
  | [], s => some s
  | x :: rest, s =>
    if x ∈ nodes s then
      (body s x).bind fun s' => if x ∈ nodes s' then walk nodes body rest s' else some s'
    else walk nodes body rest s

/-- The loop over the whole list. -/
def walkAll (nodes : σ → List α) (body : σ → α → Option σ) (s : σ) : Option σ :=
  walk nodes body (nodes s) s

variable {nodes : σ → List α} {body : σ → α → Option σ} {s s' : σ}

/-- A loop does what one turn can do, any number of times. A turn sees a node that is on the list. -/
theorem walk_rel (rel : σ → σ → Prop) (refl : ∀ s, rel s s)
    (trans : ∀ s t u, rel s t → rel t u → rel s u) (l : List α)
    (turn : ∀ t x t', rel s t → x ∈ l → x ∈ nodes t → body t x = some t' → rel t t')
    (walked : walk nodes body l s = some s') : rel s s' := by
  induction l generalizing s with
  | nil =>
    cases walked
    exact refl _
  | cons x rest ih =>
    unfold walk at walked
    split at walked
    · rename_i here
      obtain ⟨t, turned, walked⟩ := Option.bind_eq_some_iff.mp walked
      have first := turn s x t (refl s) (by simp) here turned
      split at walked
      · apply trans s t s' first
        apply ih _ walked
        intro u y u' before member
        exact turn u y u' (trans s t u first before) (by simp [member])
      · cases walked
        exact first
    · apply ih _ walked
      intro u y u' before member
      exact turn u y u' before (by simp [member])

/-- A loop whose body leaves the list alone is a loop over a list. -/
theorem walk_eq_foldlM (keeps : σ → Prop) (l : List α)
    (turn : ∀ t x t', keeps t → x ∈ l → nodes t = nodes s → body t x = some t' →
      keeps t' ∧ nodes t' = nodes s)
    (kept : keeps s) (within : ∀ x ∈ l, x ∈ nodes s) :
    walk nodes body l s = l.foldlM body s := by
  have along : ∀ t, keeps t → nodes t = nodes s → walk nodes body l t = l.foldlM body t := by
    induction l with
    | nil =>
      intro t _ _
      rfl
    | cons x rest ih =>
      intro t kept same
      have here : x ∈ nodes t := same ▸ within x (by simp)
      simp only [walk, here, if_true, List.foldlM_cons]
      cases turned : body t x with
      | none => rfl
      | some t' =>
        obtain ⟨kept', same'⟩ := turn t x t' kept (by simp) same turned
        have still : x ∈ nodes t' := same' ▸ within x (by simp)
        simp only [Option.bind_some, still, if_true, Option.bind_eq_bind]
        apply ih _ _ t' kept' same'
        · intro u y u' k m
          exact turn u y u' k (by simp [m])
        · intro y m
          exact within y (by simp [m])
  exact along s kept rfl

end Ircd
