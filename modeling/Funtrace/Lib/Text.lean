/-
  Places in texts.

  Where two neighbours lie in a text that is put together of parts, and what is said of
  some place and what stands before it.
-/
import Mathlib.Data.List.Basic

namespace Funtrace

variable {α : Type}

theorem mem_of_infix_pair {a b : α} {A : List α} (h : [a, b] <:+: A) : a ∈ A ∧ b ∈ A :=
  ⟨h.subset (by simp), h.subset (by simp)⟩

/-- Two neighbours in a text lie in one of its parts or at the border. -/
theorem pair_infix_append {a b : α} {A B : List α} (h : [a, b] <:+: A ++ B) :
    [a, b] <:+: A ∨ [a, b] <:+: B ∨ (A.getLast? = some a ∧ B.head? = some b) := by
  obtain ⟨s, t, h⟩ := h
  rw [List.append_assoc, List.cons_append, List.singleton_append] at h
  rcases List.append_eq_append_iff.1 h with ⟨m, rfl, hm⟩ | ⟨m, rfl, hm⟩
  · -- the pair begins in `A`, at the end of `s`
    rcases m with _ | ⟨x, _ | ⟨y, m⟩⟩
    · rw [List.nil_append] at hm
      exact Or.inr (Or.inl ⟨[], t, by simpa using hm⟩)
    · rw [List.cons_append, List.nil_append, List.cons.injEq] at hm
      obtain ⟨rfl, rfl⟩ := hm
      exact Or.inr (Or.inr ⟨by simp, rfl⟩)
    · simp only [List.cons_append, List.cons.injEq] at hm
      obtain ⟨rfl, rfl, rfl⟩ := hm
      exact Or.inl ⟨s, m, by simp⟩
  · exact Or.inr (Or.inl ⟨m, t, by simp [hm]⟩)

/-- A place in a list is its first one or one in the rest. -/
theorem exists_split_cons {P : List α → α → Prop} {x : α} {l : List α} :
    (∃ before a after, x :: l = before ++ a :: after ∧ P before a) ↔
      P [] x ∨ ∃ before a after, l = before ++ a :: after ∧ P (x :: before) a := by
  constructor
  · rintro ⟨before, a, after, heq, h⟩
    cases before with
    | nil =>
      rw [List.nil_append, List.cons.injEq] at heq
      exact Or.inl (heq.1 ▸ h)
    | cons y before =>
      rw [List.cons_append, List.cons.injEq] at heq
      obtain ⟨rfl, rfl⟩ := heq
      exact Or.inr ⟨before, a, after, rfl, h⟩
  · rintro (h | ⟨before, a, after, rfl, h⟩)
    · exact ⟨[], x, l, rfl, h⟩
    · exact ⟨x :: before, a, after, rfl, h⟩

/-- Places are searched from the first one on. -/
instance decidableSplit (P : List α → α → Prop) [∀ before a, Decidable (P before a)] :
    ∀ l : List α, Decidable (∃ before a after, l = before ++ a :: after ∧ P before a)
  | [] => isFalse (by simp)
  | x :: l =>
    have := decidableSplit (fun before a => P (x :: before) a) l
    decidable_of_iff _ exists_split_cons.symm

end Funtrace
