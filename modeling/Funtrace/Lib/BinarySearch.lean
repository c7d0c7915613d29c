/-
  `slice::binary_search_by`: binary search for an element that compares equal.

  If the elements that are not greater come first, the search ends at the last of
  them (`binarySearchBy_append`).  In a range partitioned so it is the last element
  that is not greater whose comparison decides (`binarySearchBy_eq`).
-/
import Funtrace.Lib.LowerBound

namespace Funtrace

variable {α : Type*} (cmp : α → Ordering) (l : List α)

/-- The loop, where `cmp` orders an element against the key: it halves `size` and keeps `base`
    at an element that is not greater. -/
def binarySearchLoop : ℕ → ℕ → ℕ → ℕ
  | 0, base, _ => base
  | fuel + 1, base, size =>
    if size ≤ 1 then base
    else
      let half := size / 2
      let mid := base + half
      let base' := if l[mid]?.map cmp = some .gt then base else mid
      binarySearchLoop fuel base' (size - half)

/-- `ok` of an equal element's index, or `error` of the index where one could be inserted. -/
def binarySearchBy : Except ℕ ℕ :=
  let base := binarySearchLoop cmp l l.length 0 l.length
  match l[base]?.map cmp with
  | none => .error 0
  | some .eq => .ok base
  | some .lt => .error (base + 1)
  | some .gt => .error base

/-- Not greater than the key. -/
def notGreater (x : α) : Bool := cmp x ≠ .gt

variable {cmp l}

theorem binarySearchLoop_eq {k : ℕ} (hk : ∀ i < l.length, l[i]?.map cmp = some .gt ↔ k ≤ i) :
    ∀ fuel base size, size ≤ fuel → base + size ≤ l.length → k ≤ base + size →
      base = 0 ∨ base < k → binarySearchLoop cmp l fuel base size = k - 1
  | 0, base, size, hfuel, _, hlast, hfirst => by
    rw [binarySearchLoop]
    omega
  | fuel + 1, base, size, hfuel, hlen, hlast, hfirst => by
    rw [binarySearchLoop]
    by_cases hsize : size ≤ 1
    · rw [if_pos hsize]
      omega
    · rw [if_neg hsize]
      have hmid := hk (base + size / 2) (by omega)
      by_cases hgreater : l[base + size / 2]?.map cmp = some .gt
      · dsimp only
        rw [if_pos hgreater]
        rw [hmid] at hgreater
        exact binarySearchLoop_eq hk fuel _ _ (by omega) (by omega) (by omega) hfirst
      · dsimp only
        rw [if_neg hgreater]
        rw [hmid] at hgreater
        exact binarySearchLoop_eq hk fuel _ _ (by omega) (by omega) (by omega) (by omega)

/-- What is found compares equal, whatever the range. -/
theorem binarySearchBy_ok {i : ℕ} (h : binarySearchBy cmp l = .ok i) : l[i]?.map cmp = some .eq := by
  unfold binarySearchBy at h
  dsimp only at h
  split at h
  · cases h
  · rename_i heq
    rw [← Except.ok.inj h]
    exact heq
  · cases h
  · cases h

/-- **In a partitioned range** the last element that is not greater decides. -/
theorem binarySearchBy_append {ys zs : List α} (hys : ∀ y ∈ ys, notGreater cmp y)
    (hzs : ∀ z ∈ zs, notGreater cmp z = false) :
    binarySearchBy cmp (ys ++ zs) =
      match ys.getLast?.map cmp with
      | some .eq => .ok (ys.length - 1)
      | _ => .error ys.length := by
  have hk : ∀ i < (ys ++ zs).length, (ys ++ zs)[i]?.map cmp = some .gt ↔ ys.length ≤ i := by
    intro i hi
    rcases Nat.lt_or_ge i ys.length with hlt | hge
    · have hy := hys _ (List.getElem_mem hlt)
      rw [List.getElem?_append_left hlt, List.getElem?_eq_getElem hlt]
      simpa [notGreater, Nat.not_le.2 hlt] using hy
    · have hi' : i - ys.length < zs.length := by rw [List.length_append] at hi; omega
      have hz := hzs _ (List.getElem_mem hi')
      rw [List.getElem?_append_right hge, List.getElem?_eq_getElem hi']
      simpa [notGreater, hge] using hz
  unfold binarySearchBy
  rw [binarySearchLoop_eq hk _ 0 _ (Nat.le_refl _) (by simp) (by simp) (Or.inl rfl)]
  rcases List.eq_nil_or_concat ys with rfl | ⟨ys', y, rfl⟩
  · cases zs with
    | nil => rfl
    | cons z zs =>
      have hz : cmp z = .gt := by simpa [notGreater] using hzs z List.mem_cons_self
      simp [hz]
  · have hy : cmp y ≠ .gt := by simpa [notGreater] using hys y (by simp)
    simp only [List.concat_eq_append, List.length_append, List.length_singleton,
      Nat.add_sub_cancel, List.getLast?_append, List.getLast?_singleton, Option.some_or,
      List.append_assoc, List.getElem?_append_right (Nat.le_refl _), Nat.sub_self, List.singleton_append,
      List.getElem?_cons_zero, Option.map_some]
    cases hc : cmp y with
    | gt => exact absurd hc hy
    | eq => rfl
    | lt => rfl

theorem binarySearchBy_eq (h : Partitioned (notGreater cmp) l) :
    binarySearchBy cmp l =
      match (l.filter (notGreater cmp)).getLast?.map cmp with
      | some .eq => .ok ((l.filter (notGreater cmp)).length - 1)
      | _ => .error (l.filter (notGreater cmp)).length := by
  have hsearch := @binarySearchBy_append _ cmp (l.filter (notGreater cmp))
    (l.filter fun x => !notGreater cmp x) (fun y hy => (List.mem_filter.1 hy).2)
    fun z hz => by simpa using (List.mem_filter.1 hz).2
  rwa [← h.split] at hsearch

/-- The index before the border is that of the last element that is not greater. -/
theorem Partitioned.getElem?_border (h : Partitioned (notGreater cmp) l) :
    l[(l.filter (notGreater cmp)).length - 1]? =
      ((l.filter (notGreater cmp)).getLast?).or l[0]? := by
  have hsplit := h.split
  generalize l.filter (notGreater cmp) = ys at hsplit ⊢
  rcases List.eq_nil_or_concat ys with rfl | ⟨ys', y, rfl⟩
  · simp
  · rw [hsplit]
    simp

end Funtrace
