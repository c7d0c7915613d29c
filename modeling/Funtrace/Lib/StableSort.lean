/-
  Stable sorting.

  A list is stably sorted into another if the other is sorted and has the elements of each
  class of equivalent ones in the same order.  Insertion sort does this
  (`sortedStably_insertionSort`).
-/
import Mathlib.Data.List.Sort

namespace Funtrace

section
variable {α : Type} (r : α → α → Prop) [DecidableRel r]

/-- The list `l'` is `l`, sorted stably. -/
structure SortedStably (l l' : List α) : Prop where
  sorted : l'.Pairwise r
  stable : ∀ a, (l'.filter fun b => r a b ∧ r b a) = l.filter fun b => r a b ∧ r b a

variable [IsTrans α r]

theorem filter_orderedInsert (x a : α) : ∀ l : List α,
    ((l.orderedInsert r a).filter fun b => r x b ∧ r b x) = (a :: l).filter fun b => r x b ∧ r b x
  | [] => rfl
  | b :: l => by
    rw [List.orderedInsert]
    split_ifs with hab
    · rfl
    · -- `a` and `b` are not equivalent
      have hnot : ¬ ((r x a ∧ r a x) ∧ r x b ∧ r b x) := fun h => hab (IsTrans.trans _ _ _ h.1.2 h.2.1)
      rw [List.filter_cons, filter_orderedInsert x a l]
      by_cases ha : r x a ∧ r a x
      · have hb : ¬ (r x b ∧ r b x) := fun hb => hnot ⟨ha, hb⟩
        simp [ha, hb]
      · by_cases hb : r x b ∧ r b x <;> simp [ha, hb]

variable [Std.Total r]

/-- **Insertion sort** is stable. -/
theorem sortedStably_insertionSort (l : List α) : SortedStably r l (l.insertionSort r) where
  sorted := List.pairwise_insertionSort r l
  stable x := by
    induction l with
    | nil => rfl
    | cons a l ih =>
      rw [List.insertionSort_cons, filter_orderedInsert, List.filter_cons, List.filter_cons, ih]

end

end Funtrace
