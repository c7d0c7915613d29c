/-
  Counters of keys, some of which are known.

  What is counted under a key that is not known goes to a counter that all such keys
  share.  Adding keeps the total (`total_add`); a set of counters that is added to
  another entry by entry (`addAll`), from a list of its counts (`Lists`), keeps the
  counts of each key and the total.
-/
import Mathlib.Algebra.BigOperators.Group.Finset.Basic
import Mathlib.Algebra.BigOperators.Group.Finset.Piecewise

namespace Funtrace

/-- Counters of known keys, and one for all the others. -/
structure Counters (K M : Type*) where
  known : Set K
  count : K → M
  unknown : M

namespace Counters
variable {K M : Type*} [DecidableEq K] [AddCommMonoid M] {c d : Counters K M} {k q : K} {n : M}

open Classical in
/-- `n` more of the key. -/
noncomputable def add (c : Counters K M) (k : K) (n : M) : Counters K M :=
  if k ∈ c.known then { c with count := Function.update c.count k (c.count k + n) }
  else { c with unknown := c.unknown + n }

/-- More keys are known. -/
def learn (c : Counters K M) (s : Set K) : Counters K M := { c with known := c.known ∪ s }

/-- Only known keys have counts. -/
def Clean (c : Counters K M) : Prop := ∀ k, k ∉ c.known → c.count k = 0

/-- All that was counted, where `s` has the known keys. -/
def total (s : Finset K) (c : Counters K M) : M := ∑ k ∈ s, c.count k + c.unknown

theorem add_of_known (hk : k ∈ c.known) :
    c.add k n = { c with count := Function.update c.count k (c.count k + n) } := by
  rw [add, if_pos hk]

theorem add_of_not_known (hk : k ∉ c.known) : c.add k n = { c with unknown := c.unknown + n } := by
  rw [add, if_neg hk]

@[simp] theorem known_add : (c.add k n).known = c.known := by
  unfold add
  split_ifs <;> rfl

theorem count_add_self (hk : k ∈ c.known) : (c.add k n).count k = c.count k + n := by
  rw [add_of_known hk]
  exact Function.update_self _ _ _

theorem count_add_of_ne (hq : q ≠ k) : (c.add k n).count q = c.count q := by
  by_cases hk : k ∈ c.known
  · rw [add_of_known hk]
    exact Function.update_of_ne hq _ _
  · rw [add_of_not_known hk]

theorem count_add_of_not_known (hk : k ∉ c.known) : (c.add k n).count q = c.count q := by
  rw [add_of_not_known hk]

theorem Clean.add (h : c.Clean) : (c.add k n).Clean := by
  intro q hq
  rw [known_add] at hq
  by_cases hk : k ∈ c.known
  · have hne : q ≠ k := by
      rintro rfl
      exact hq hk
    rw [count_add_of_ne hne]
    exact h q hq
  · rw [count_add_of_not_known hk]
    exact h q hq

omit [DecidableEq K] in
theorem Clean.learn (h : c.Clean) (s : Set K) : (c.learn s).Clean :=
  fun q hq => h q fun hmem => hq (Or.inl hmem)

/-- **Adding adds to the total.** -/
theorem total_add {s : Finset K} (hs : k ∈ c.known → k ∈ s) :
    (c.add k n).total s = c.total s + n := by
  by_cases hk : k ∈ c.known
  · have hsum : ∑ x ∈ s, Function.update c.count k (c.count k + n) x = ∑ x ∈ s, c.count x + n := by
      rw [Finset.sum_update_of_mem (hs hk),
        Finset.sum_eq_add_sum_sdiff_singleton k c.count fun hnot => absurd (hs hk) hnot]
      ac_rfl
    rw [add_of_known hk, total, total, hsum]
    ac_rfl
  · rw [add_of_not_known hk, total, total, add_assoc]

/-! ## Adding counters to counters -/

/-- What many additions come to. -/
noncomputable def addAll (c : Counters K M) (l : List (K × M)) : Counters K M :=
  l.foldl (fun c e => c.add e.1 e.2) c

@[simp] theorem addAll_cons (e : K × M) (l : List (K × M)) :
    c.addAll (e :: l) = (c.add e.1 e.2).addAll l := rfl

@[simp] theorem known_addAll (l : List (K × M)) : (c.addAll l).known = c.known := by
  induction l generalizing c with
  | nil => rfl
  | cons e l ih => rw [addAll_cons, ih, known_add]

theorem Clean.addAll (h : c.Clean) (l : List (K × M)) : (c.addAll l).Clean := by
  induction l generalizing c with
  | nil => exact h
  | cons e l ih => exact ih h.add

theorem total_addAll {s : Finset K} (hs : ∀ k ∈ c.known, k ∈ s) (l : List (K × M)) :
    (c.addAll l).total s = c.total s + (l.map Prod.snd).sum := by
  induction l generalizing c with
  | nil => simp [addAll]
  | cons e l ih =>
    rw [addAll_cons, ih (by simpa using hs), total_add (hs e.1), List.map_cons, List.sum_cons, add_assoc]

theorem count_addAll {l : List (K × M)} (hl : ∀ e ∈ l, e.1 ∈ c.known) :
    (c.addAll l).count q = c.count q + ((l.filter (·.1 = q)).map Prod.snd).sum := by
  induction l generalizing c with
  | nil => simp [addAll]
  | cons e l ih =>
    rw [addAll_cons, ih fun e' he' => by simpa using hl e' (List.mem_cons_of_mem _ he')]
    by_cases heq : e.1 = q
    · rw [List.filter_cons_of_pos (by simpa using heq), List.map_cons, List.sum_cons, ← heq,
        count_add_self (hl e List.mem_cons_self), add_assoc]
    · rw [List.filter_cons_of_neg (by simpa using heq), count_add_of_ne (Ne.symm heq)]

/-- The list has each count that is not zero, once. -/
structure Lists (l : List (K × M)) (c : Counters K M) : Prop where
  nodup : (l.map Prod.fst).Nodup
  mem_iff : ∀ e, e ∈ l ↔ e.2 ≠ 0 ∧ e.2 = c.count e.1

omit [DecidableEq K] in
theorem Lists.map_snd {l : List (K × M)} (h : Lists l c) :
    l.map Prod.snd = (l.map Prod.fst).map c.count := by
  rw [List.map_map]
  exact List.map_congr_left fun e he => ((h.mem_iff e).1 he).2

theorem Lists.sum_eq {l : List (K × M)} (h : Lists l c) {s : Finset K} (hc : c.Clean)
    (hs : ∀ k ∈ c.known, k ∈ s) : (l.map Prod.snd).sum = ∑ k ∈ s, c.count k := by
  have hcount : ∀ k, k ∈ l.map Prod.fst ↔ c.count k ≠ 0 := by
    intro k
    constructor
    · intro hk
      obtain ⟨e, he, rfl⟩ := List.mem_map.1 hk
      obtain ⟨hne, heq⟩ := (h.mem_iff e).1 he
      rwa [← heq]
    · intro hk
      exact List.mem_map.2 ⟨(k, c.count k), (h.mem_iff _).2 ⟨hk, rfl⟩, rfl⟩
  rw [h.map_snd, ← List.sum_toFinset _ h.nodup]
  refine Finset.sum_subset (fun k hk => hs k ?_) fun k _ hk => ?_
  · by_contra hunknown
    exact (hcount k).1 (List.mem_toFinset.1 hk) (hc k hunknown)
  · by_contra hne
    exact hk (List.mem_toFinset.2 ((hcount k).2 hne))

theorem Lists.sum_filter {l : List (K × M)} (h : Lists l c) (q : K) :
    ((l.filter (·.1 = q)).map Prod.snd).sum = c.count q := by
  by_cases hq : c.count q = 0
  · have hnone : l.filter (·.1 = q) = [] := by
      rw [List.filter_eq_nil_iff]
      intro e he heq
      obtain ⟨hne, hcount⟩ := (h.mem_iff e).1 he
      rw [decide_eq_true_eq] at heq
      exact hne (by rw [hcount, heq, hq])
    rw [hnone, hq]
    rfl
  · have hmem : (q, c.count q) ∈ l := (h.mem_iff _).2 ⟨hq, rfl⟩
    obtain ⟨l₁, l₂, rfl⟩ := List.append_of_mem hmem
    have hnodup := h.nodup
    rw [List.map_append, List.map_cons, List.nodup_middle, List.nodup_cons, List.mem_append] at hnodup
    have hnone : ∀ l' : List (K × M), q ∉ l'.map Prod.fst → l'.filter (·.1 = q) = [] := by
      intro l' hl'
      rw [List.filter_eq_nil_iff]
      intro e he heq
      rw [decide_eq_true_eq] at heq
      exact hl' (heq ▸ List.mem_map_of_mem he)
    rw [List.filter_append, List.filter_cons_of_pos (by simp),
      hnone l₁ fun hq' => hnodup.1 (Or.inl hq'), hnone l₂ fun hq' => hnodup.1 (Or.inr hq')]
    simp

/-- Adding all counts of `d`, those of no known key last. -/
noncomputable def merge (c d : Counters K M) (l : List (K × M)) : Counters K M :=
  { c.addAll l with unknown := (c.addAll l).unknown + d.unknown }

theorem Clean.merge (h : c.Clean) (l : List (K × M)) : (c.merge d l).Clean := h.addAll l

theorem known_merge (l : List (K × M)) : (c.merge d l).known = c.known := known_addAll l

/-- **Merging adds the counts.** -/
theorem count_merge {l : List (K × M)} (h : Lists l d) (hd : d.Clean) (hk : d.known ⊆ c.known) (q : K) :
    (c.merge d l).count q = c.count q + d.count q := by
  have hknown : ∀ e ∈ l, e.1 ∈ c.known := by
    intro e he
    obtain ⟨hne, hcount⟩ := (h.mem_iff e).1 he
    refine hk ?_
    by_contra hunknown
    exact hne (hcount.trans (hd _ hunknown))
  have hadd := count_addAll (q := q) hknown
  rwa [h.sum_filter q] at hadd

theorem total_merge {l : List (K × M)} (h : Lists l d) (hd : d.Clean) {s : Finset K}
    (hc : ∀ k ∈ c.known, k ∈ s) (hs : ∀ k ∈ d.known, k ∈ s) :
    (c.merge d l).total s = c.total s + d.total s := by
  have hadd := total_addAll hc l
  rw [h.sum_eq hd hs] at hadd
  have hmerge : (c.merge d l).total s = (c.addAll l).total s + d.unknown := by
    rw [total, total, merge, add_assoc]
  rw [hmerge, hadd, total, total, add_assoc]

end Counters

end Funtrace
