/-
  `std::lower_bound`: binary search in a partitioned range.

  The range is given as a list, and the comparison with the value looked for as a
  test `below` of its elements.  If the elements that are below come first, the
  search ends at the first one that is not (`lowerBound_append`).
-/
import Mathlib.Data.List.Basic

namespace Funtrace

variable {α : Type*} (below : α → Bool) (xs : List α)

/-- The loop: `len` elements from `first` on are left to search. -/
def lowerBoundLoop (first len : ℕ) : ℕ :=
  if h : 0 < len then
    let half := len / 2
    if xs[first + half]?.any below then lowerBoundLoop (first + half + 1) (len - half - 1)
    else lowerBoundLoop first half
  else first
termination_by len
decreasing_by all_goals omega

/-- `std::lower_bound`: the first place whose element is not below. -/
def lowerBound : ℕ := lowerBoundLoop below xs 0 xs.length

variable {below xs}

theorem lowerBoundLoop_eq {k : ℕ} (hk : ∀ i < xs.length, xs[i]?.any below = decide (i < k))
    (first len : ℕ) (hfirst : first ≤ k) (hlast : k ≤ first + len) (hlen : first + len ≤ xs.length) :
    lowerBoundLoop below xs first len = k := by
  induction first, len using lowerBoundLoop.induct below xs with
  | case1 first len h half hbelow ih =>
    rw [lowerBoundLoop, dif_pos h, if_pos hbelow]
    rw [hk _ (by omega), decide_eq_true_eq] at hbelow
    exact ih (by omega) (by omega) (by omega)
  | case2 first len h half hbelow ih =>
    rw [lowerBoundLoop, dif_pos h, if_neg hbelow]
    rw [hk _ (by omega), decide_eq_true_eq] at hbelow
    exact ih (by omega) (by omega) (by omega)
  | case3 first len h =>
    rw [lowerBoundLoop, dif_neg h]
    omega

/-- **In a partitioned range** the search finds the border. -/
theorem lowerBound_append {ys zs : List α} (hys : ∀ y ∈ ys, below y) (hzs : ∀ z ∈ zs, below z = false) :
    lowerBound below (ys ++ zs) = ys.length := by
  refine lowerBoundLoop_eq (fun i hi => ?_) 0 _ (Nat.zero_le _) (by simp) (by simp)
  rcases Nat.lt_or_ge i ys.length with hlt | hge
  · rw [List.getElem?_append_left hlt, List.getElem?_eq_getElem hlt]
    simpa [hlt] using hys _ (List.getElem_mem hlt)
  · have hi' : i - ys.length < zs.length := by rw [List.length_append] at hi; omega
    rw [List.getElem?_append_right hge, List.getElem?_eq_getElem hi']
    simpa [Nat.not_lt.2 hge] using hzs _ (List.getElem_mem hi')

/-- A range is partitioned if its elements that are below come first. -/
def Partitioned (below : α → Bool) (xs : List α) : Prop :=
  xs.Pairwise fun x y => below y → below x

theorem Partitioned.sublist {ys : List α} (h : Partitioned below xs) (hys : ys.Sublist xs) :
    Partitioned below ys :=
  List.Pairwise.sublist hys h

theorem Partitioned.split : ∀ {xs : List α}, Partitioned below xs →
    xs = xs.filter below ++ xs.filter fun x => !below x
  | [], _ => rfl
  | x :: xs, h => by
    obtain ⟨hx, hxs⟩ := List.pairwise_cons.1 h
    have ih : xs = xs.filter below ++ xs.filter fun x => !below x := Partitioned.split hxs
    cases hb : below x with
    | true =>
      rw [List.filter_cons_of_pos hb, List.filter_cons_of_neg (by simp [hb]), List.cons_append, ← ih]
    | false =>
      have hnone : xs.filter below = [] := List.filter_eq_nil_iff.2 fun y hy hby => by
        rw [hx y hy hby] at hb
        cases hb
      rw [List.filter_cons_of_neg (by simp [hb]), List.filter_cons_of_pos (by simp [hb]), hnone,
        List.nil_append]
      rw [hnone, List.nil_append] at ih
      rw [← ih]

/-- What comes from the border on is what is not below. -/
theorem drop_lowerBound (h : Partitioned below xs) :
    xs.drop (lowerBound below xs) = xs.filter fun x => !below x := by
  have hborder := @lowerBound_append _ below (xs.filter below) (xs.filter fun x => !below x)
    (fun y hy => (List.mem_filter.1 hy).2) fun z hz => by simpa using (List.mem_filter.1 hz).2
  have hdrop := congrArg (fun l => l.drop (xs.filter below).length) h.split
  rw [List.drop_left] at hdrop
  rw [← h.split] at hborder
  rw [hborder]
  exact hdrop

end Funtrace
