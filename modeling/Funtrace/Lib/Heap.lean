/-
  Allocation, and vectors whose order does not matter.

  * `Heap` knows what is allocated and counts the calls of `free` for something
    that is not: a program that never frees anything twice keeps `badFrees` at zero;
  * `swapRemove` removes an element of a vector by moving the last one to its place;
    up to order it removes just that element (`swapRemove_perm`).
-/
import Mathlib.Data.List.Perm.Basic
import Mathlib.Tactic.SplitIfs

namespace Funtrace

/-! ## Heaps -/

/-- The allocated blocks, each with its address, and the number of wrong calls of `free`. -/
structure Heap (K V : Type) where
  blocks : List (K × V)
  badFrees : ℕ

namespace Heap
variable {K V : Type}

/-- Nothing is allocated. -/
def empty : Heap K V := ⟨[], 0⟩

/-- There is a block of this name. -/
def Live (h : Heap K V) (k : K) : Prop := ∃ v, (k, v) ∈ h.blocks

/-- A block is allocated. -/
def alloc (h : Heap K V) (k : K) (v : V) : Heap K V := { h with blocks := (k, v) :: h.blocks }

/-- The block of a name is freed; it is an error if there is none. -/
def free [DecidableEq K] (h : Heap K V) (k : K) : Heap K V :=
  if h.blocks.any (·.1 = k) then { h with blocks := h.blocks.filter (·.1 ≠ k) }
  else { h with badFrees := h.badFrees + 1 }

variable {h : Heap K V} {k k' : K} {v v' : V}

@[simp] theorem not_live_empty : ¬ (empty : Heap K V).Live k := by simp [Live, empty]

@[simp] theorem mem_alloc : (k', v') ∈ (h.alloc k v).blocks ↔ (k' = k ∧ v' = v) ∨
    (k', v') ∈ h.blocks := by
  simp [alloc]

theorem live_alloc : (h.alloc k v).Live k' ↔ k' = k ∨ h.Live k' := by
  simp [Live, exists_or]

variable [DecidableEq K]

theorem mem_free : (k', v') ∈ (h.free k).blocks ↔ k' ≠ k ∧ (k', v') ∈ h.blocks := by
  unfold free
  split_ifs with hk
  · simp [and_comm]
  · simp only [List.any_eq_true, decide_eq_true_eq, not_exists, not_and] at hk
    exact ⟨fun hmem => ⟨hk _ hmem, hmem⟩, And.right⟩

theorem live_free : (h.free k).Live k' ↔ k' ≠ k ∧ h.Live k' := by
  simp [Live, mem_free]

theorem badFrees_free (hk : h.Live k) : (h.free k).badFrees = h.badFrees := by
  obtain ⟨v, hv⟩ := hk
  have hany : h.blocks.any (·.1 = k) := List.any_eq_true.2 ⟨_, hv, by simp⟩
  simp [free, hany]

end Heap

/-! ## Vectors -/

section
variable {α : Type}

/-- `v[i] = v.back(); v.pop_back()`. -/
def swapRemove (l : List α) (i : ℕ) : List α :=
  match l.getLast? with
  | none => l
  | some x => (l.set i x).dropLast

theorem set_perm {l : List α} {i : ℕ} {x y : α} (hx : l[i]? = some x) :
    (x :: l.set i y).Perm (y :: l) := by
  obtain ⟨hi, hx⟩ := List.getElem?_eq_some_iff.1 hx
  rw [List.set_eq_take_append_cons_drop, if_pos hi]
  conv_rhs => rw [← List.take_append_drop i l, List.drop_eq_getElem_cons hi, hx]
  have hswap := List.Perm.swap y x (l.take i ++ l.drop (i + 1))
  exact (List.perm_middle.cons x).trans (hswap.trans (List.perm_middle.symm.cons y))

theorem swapRemove_perm {l : List α} {i : ℕ} {x : α} (hx : l[i]? = some x) :
    (x :: swapRemove l i).Perm l := by
  obtain ⟨hi, -⟩ := List.getElem?_eq_some_iff.1 hx
  obtain ⟨init, y, rfl⟩ := List.eq_nil_or_concat l |>.resolve_left (by rintro rfl; simp at hi)
  rw [List.concat_eq_append] at hi hx ⊢
  simp only [swapRemove, List.getLast?_append, List.getLast?_singleton, Option.some_or]
  by_cases hlt : i < init.length
  · rw [List.getElem?_append_left hlt] at hx
    rw [List.set_append_left _ _ hlt, List.dropLast_concat]
    exact (set_perm hx).trans (List.perm_append_singleton y init).symm
  · rw [List.length_append, List.length_singleton] at hi
    obtain rfl : i = init.length := by omega
    rw [List.getElem?_append_right (Nat.le_refl _), Nat.sub_self] at hx
    obtain rfl : y = x := by simpa using hx
    rw [List.set_append_right _ _ (Nat.le_refl _), Nat.sub_self, List.set_cons_zero,
      List.dropLast_concat]
    exact (List.perm_append_singleton y init).symm

theorem length_swapRemove {l : List α} {i : ℕ} {x : α} (h : l[i]? = some x) :
    (swapRemove l i).length + 1 = l.length := (swapRemove_perm h).length_eq

end

end Funtrace
