import Ircd.Channel.Mask

/-!
# Collapsed masks

What `collapse` of `src/match.c` does to a mask.
-/
namespace Ircd.Chan

theorem collapseLoop_sublist (star quote : Bool) (pattern : List Char) :
    (collapseLoop star quote pattern).Sublist pattern := by
  induction pattern generalizing star quote with
  | nil => simp [collapseLoop]
  | cons c pattern ih =>
    unfold collapseLoop
    split_ifs with free repeated escape
    · exact (ih true quote).cons _
    · obtain ⟨-, rfl⟩ : _ ∧ c = '*' := by simpa using free
      exact (ih true quote).cons_cons _
    · obtain ⟨-, rfl⟩ : _ ∧ c = '\\' := by simpa using escape
      exact (ih star true).cons_cons _
    · exact (ih false false).cons_cons _

/-- Characters are only left out. -/
theorem collapse_sublist (pattern : List Char) : (collapse pattern).Sublist pattern :=
  collapseLoop_sublist false false pattern

end Ircd.Chan
