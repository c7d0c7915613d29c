/-
  Tables of counts as counters of slots.

  An address is put together from a table's indices as it was taken apart
  (`slotAddress_parts`).  So a table is a set of counters of slots (`view`): a call adds
  to the counter of its slot if the slot's page is there, and to the unknown ones if not
  (`view_increase`); allocating a page makes its slots known (`view_allocatePage`); the
  entries that a destructor finds are the counters that are not zero (`lists_entries`).
-/
import Mathlib.Data.UInt
import Funtrace.Lib.Counters
import Funtrace.Runtime.Funcount

namespace Funtrace

namespace Funcount

/-! ## Addresses -/

/-- The address of the slot of an address. -/
def slotOf (a : UInt64) : UInt64 := a / countSize * countSize

/-- An address of a slot, of 48 bits. -/
def IsSlot (q : UInt64) : Prop := q.toNat < 2 ^ 48 ∧ q.toNat % 8 = 0

instance (q : UInt64) : Decidable (IsSlot q) := inferInstanceAs (Decidable (_ ∧ _))

/-- As the destructor puts an address together. -/
def slotAddress (hi mid lo : UInt64) : UInt64 :=
  (hi <<< (pageBits * 2)) ||| (mid <<< pageBits) ||| (lo * countSize)

section
variable {a q hi mid lo : UInt64}

theorem toNat_high : (a >>> (pageBits * 2)).toNat = a.toNat / 2 ^ 32 := by
  rw [UInt64.toNat_shiftRight, Nat.shiftRight_eq_div_pow]
  rfl

theorem toNat_midBits : (midBits a).toNat = a.toNat / 2 ^ 16 % 2 ^ 16 := by
  have hmask : pageBitsMask.toNat = 2 ^ 16 - 1 := rfl
  have hbits : (pageBits.toNat % 64) = 16 := rfl
  rw [midBits, UInt64.toNat_and, hmask, Nat.and_two_pow_sub_one_eq_mod, UInt64.toNat_shiftRight, hbits,
    Nat.shiftRight_eq_div_pow]

theorem toNat_lowBits : (lowBits a).toNat = a.toNat % 2 ^ 16 := by
  have hmask : pageBitsMask.toNat = 2 ^ 16 - 1 := rfl
  rw [lowBits, UInt64.toNat_and, hmask, Nat.and_two_pow_sub_one_eq_mod]

theorem toNat_index : (lowBits a / countSize).toNat = a.toNat % 2 ^ 16 / 8 := by
  rw [UInt64.toNat_div, toNat_lowBits]
  rfl

theorem toNat_slotOf : (slotOf a).toNat = a.toNat / 8 * 8 := by
  have hlt := a.toNat_lt
  have hsize : countSize.toNat = 8 := rfl
  rw [slotOf, UInt64.toNat_mul, UInt64.toNat_div, hsize, Nat.mod_eq_of_lt (by omega)]

theorem highBits_eq : highBits a = if a.toNat < 2 ^ 48 then some (a >>> (pageBits * 2)) else none := by
  have hmask : pageBitsMask.toNat = 2 ^ 16 - 1 := rfl
  have hlt := a.toNat_lt
  have hcond : (a >>> (pageBits * 2)) &&& pageBitsMask = a >>> (pageBits * 2) ↔ a.toNat < 2 ^ 48 := by
    rw [← UInt64.toNat_inj, UInt64.toNat_and, hmask, Nat.and_two_pow_sub_one_eq_mod, toNat_high]
    omega
  unfold highBits
  simp only [hcond]

theorem toNat_slotAddress (hhi : hi.toNat < 2 ^ 16) (hmid : mid.toNat < 2 ^ 16) (hlo : lo.toNat < 2 ^ 13) :
    (slotAddress hi mid lo).toNat = hi.toNat * 2 ^ 32 + mid.toNat * 2 ^ 16 + lo.toNat * 8 := by
  have hsize : countSize.toNat = 8 := rfl
  have hbits : pageBits.toNat % 64 = 16 := rfl
  have hbits2 : (pageBits * 2).toNat % 64 = 32 := rfl
  have hlow : (lo * countSize).toNat = lo.toNat * 8 := by
    rw [UInt64.toNat_mul, hsize, Nat.mod_eq_of_lt (by omega)]
  have hmiddle : (mid <<< pageBits).toNat = mid.toNat <<< 16 := by
    rw [UInt64.toNat_shiftLeft, hbits, Nat.shiftLeft_eq, Nat.mod_eq_of_lt (by omega)]
  have hhigh : (hi <<< (pageBits * 2)).toNat = hi.toNat <<< 32 := by
    rw [UInt64.toNat_shiftLeft, hbits2, Nat.shiftLeft_eq, Nat.mod_eq_of_lt (by omega)]
  have hinner : mid.toNat <<< 16 ||| lo.toNat * 8 = mid.toNat * 2 ^ 16 + lo.toNat * 8 := by
    rw [← Nat.shiftLeft_add_eq_or_of_lt (by omega), Nat.shiftLeft_eq]
  rw [slotAddress, UInt64.toNat_or, UInt64.toNat_or, hlow, hmiddle, hhigh, Nat.or_assoc, hinner,
    ← Nat.shiftLeft_add_eq_or_of_lt (by omega), Nat.shiftLeft_eq, Nat.add_assoc]

theorem isSlot_slotOf (h : a.toNat < 2 ^ 48) : IsSlot (slotOf a) := by
  unfold IsSlot
  rw [toNat_slotOf]
  omega

theorem isSlot_slotAddress (hhi : hi.toNat < 2 ^ 16) (hmid : mid.toNat < 2 ^ 16)
    (hlo : lo.toNat < 2 ^ 13) : IsSlot (slotAddress hi mid lo) := by
  unfold IsSlot
  rw [toNat_slotAddress hhi hmid hlo]
  omega

/-- The parts of an address that is put together. -/
theorem parts_slotAddress (hhi : hi.toNat < 2 ^ 16) (hmid : mid.toNat < 2 ^ 16)
    (hlo : lo.toNat < 2 ^ 13) : slotAddress hi mid lo >>> (pageBits * 2) = hi ∧
      midBits (slotAddress hi mid lo) = mid ∧ lowBits (slotAddress hi mid lo) / countSize = lo := by
  refine ⟨?_, ?_, ?_⟩ <;> rw [← UInt64.toNat_inj]
  · rw [toNat_high, toNat_slotAddress hhi hmid hlo]
    omega
  · rw [toNat_midBits, toNat_slotAddress hhi hmid hlo]
    omega
  · rw [toNat_index, toNat_slotAddress hhi hmid hlo]
    omega

/-- A slot's address, put together from its parts. -/
theorem slotAddress_parts (hq : IsSlot q) :
    slotAddress (q >>> (pageBits * 2)) (midBits q) (lowBits q / countSize) = q := by
  obtain ⟨hlt, hmod⟩ := hq
  rw [← UInt64.toNat_inj, toNat_slotAddress]
  · rw [toNat_high, toNat_midBits, toNat_index]
    omega
  · rw [toNat_high]
    omega
  · rw [toNat_midBits]
    omega
  · rw [toNat_index]
    omega

/-- The two addresses lie in one page. -/
def SamePage (a q : UInt64) : Prop :=
  q >>> (pageBits * 2) = a >>> (pageBits * 2) ∧ midBits q = midBits a

instance : Decidable (SamePage a q) := inferInstanceAs (Decidable (_ ∧ _))

theorem samePage_iff : SamePage a q ↔ q.toNat / 2 ^ 16 = a.toNat / 2 ^ 16 := by
  unfold SamePage
  rw [← UInt64.toNat_inj, ← UInt64.toNat_inj, toNat_high, toNat_high, toNat_midBits, toNat_midBits]
  omega

theorem samePage_slotOf : SamePage a (slotOf a) := by
  rw [samePage_iff, toNat_slotOf]
  omega

theorem index_slotOf : lowBits (slotOf a) / countSize = lowBits a / countSize := by
  rw [← UInt64.toNat_inj, toNat_index, toNat_index, toNat_slotOf]
  omega

theorem toNat_and_not_mask : (a &&& ~~~pageBitsMask).toNat = a.toNat / 2 ^ 16 * 2 ^ 16 := by
  have hsplit : (a &&& ~~~pageBitsMask) + (a &&& pageBitsMask) = a := by
    rw [← UInt64.toBitVec_inj, UInt64.toBitVec_add, UInt64.toBitVec_and, UInt64.toBitVec_and,
      UInt64.toBitVec_not, BitVec.add_eq_or_of_and_eq_zero]
    · ext i hi
      simp only [BitVec.getElem_or, BitVec.getElem_and, BitVec.getElem_not]
      cases a.toBitVec[i] <;> cases pageBitsMask.toBitVec[i] <;> rfl
    · ext i hi
      simp only [BitVec.getElem_and, BitVec.getElem_not, BitVec.getElem_zero]
      cases a.toBitVec[i] <;> cases pageBitsMask.toBitVec[i] <;> rfl
  have hlow : (a &&& pageBitsMask).toNat = a.toNat % 2 ^ 16 := toNat_lowBits
  have hle : a &&& pageBitsMask ≤ a := by
    rw [UInt64.le_iff_toNat_le, hlow]
    exact Nat.mod_le _ _
  rw [eq_sub_of_add_eq hsplit, UInt64.toNat_sub_of_le _ _ hle, hlow]
  omega

theorem slotOf_of_isSlot (hq : IsSlot q) : slotOf q = q := by
  obtain ⟨-, hmod⟩ := hq
  rw [← UInt64.toNat_inj, toNat_slotOf]
  omega

/-- The slot of an address, by page and index. -/
theorem eq_slotOf_iff (hq : IsSlot q) :
    q = slotOf a ↔ SamePage a q ∧ lowBits q / countSize = lowBits a / countSize := by
  obtain ⟨-, hmod⟩ := hq
  rw [samePage_iff, ← UInt64.toNat_inj, ← UInt64.toNat_inj, toNat_slotOf, toNat_index, toNat_index]
  omega

end

/-! ## Pages -/

namespace CountsPagesL2
variable {t t' : CountsPagesL2} {a q n : UInt64} {ref : CountRef}

/-- The page of an address. -/
def page (t : CountsPagesL2) (a : UInt64) : Option CountsPage :=
  (t.pagesL1 (a >>> (pageBits * 2))).bind (·.pages (midBits a))

theorem page_congr (h : SamePage a q) : t.page q = t.page a := by
  rw [page, page, h.1, h.2]

theorem getCount_cases (h : t.getCount a = some ref) : a.toNat < 2 ^ 48 ∧
    ((t.page a = none ∧ ref = .unknown) ∨ ((t.page a).isSome ∧
      ref = .slot (a >>> (pageBits * 2)) (midBits a) (lowBits a / countSize))) := by
  unfold getCount at h
  rw [highBits_eq] at h
  split_ifs at h with hlt
  · rw [Option.map_some, Option.some.injEq] at h
    refine ⟨hlt, ?_⟩
    unfold page
    cases hL1 : t.pagesL1 (a >>> (pageBits * 2)) with
    | none => exact Or.inl ⟨rfl, by rw [← h]; simp [hL1]⟩
    | some pages =>
      cases hpage : pages.pages (midBits a) with
      | none => exact Or.inl ⟨by simp [hpage], by rw [← h]; simp [hL1, hpage]⟩
      | some p => exact Or.inr ⟨by simp [hpage], by rw [← h]; simp [hL1, hpage]⟩
  · cases h

theorem getCount_isSome (h : a.toNat < 2 ^ 48) : (t.getCount a).isSome := by
  unfold getCount
  rw [highBits_eq, if_pos h]
  rfl

theorem page_allocatePage (h : t.allocatePage a = some t') : a.toNat < 2 ^ 48 ∧
    t'.unknown = t.unknown ∧
    ∀ q, t'.page q = if SamePage a q then some ((t.page a).getD ⟨fun _ => 0⟩) else t.page q := by
  unfold allocatePage at h
  rw [highBits_eq] at h
  split_ifs at h with hlt
  · rw [Option.map_some, Option.some.injEq] at h
    subst h
    refine ⟨hlt, rfl, fun q => ?_⟩
    unfold page
    dsimp only
    by_cases hhigh : q >>> (pageBits * 2) = a >>> (pageBits * 2)
    · by_cases hmid : midBits q = midBits a
      · rw [if_pos ⟨hhigh, hmid⟩, hhigh, hmid, Function.update_self]
        cases t.pagesL1 (a >>> (pageBits * 2)) <;> simp
      · rw [if_neg fun hsame => hmid hsame.2, hhigh, Function.update_self]
        cases t.pagesL1 (a >>> (pageBits * 2)) <;> simp [Function.update_of_ne hmid]
    · rw [if_neg fun hsame => hhigh hsame.1, Function.update_of_ne hhigh]
  · cases h

theorem page_increase_slot : (t.increase n (.slot (a >>> (pageBits * 2)) (midBits a)
      (lowBits a / countSize))).page q =
    if SamePage a q then (t.page a).map fun page =>
      ⟨Function.update page.counts (lowBits a / countSize) (page.counts (lowBits a / countSize) + n)⟩
    else t.page q := by
  unfold page increase
  dsimp only
  by_cases hhigh : q >>> (pageBits * 2) = a >>> (pageBits * 2)
  · by_cases hmid : midBits q = midBits a
    · rw [if_pos ⟨hhigh, hmid⟩, hhigh, hmid, Function.update_self]
      cases t.pagesL1 (a >>> (pageBits * 2)) <;> simp
    · rw [if_neg fun hsame => hmid hsame.2, hhigh, Function.update_self]
      cases t.pagesL1 (a >>> (pageBits * 2)) <;> simp [Function.update_of_ne hmid]
  · rw [if_neg fun hsame => hhigh hsame.1, Function.update_of_ne hhigh]

/-! ## A table as counters -/

/-- The counters of the slots. -/
def view (t : CountsPagesL2) : Counters UInt64 UInt64 where
  known := {q | IsSlot q ∧ (t.page q).isSome}
  count q := if IsSlot q then (t.page q).elim 0 fun page => page.counts (lowBits q / countSize) else 0
  unknown := t.unknown

theorem clean_view : t.view.Clean := by
  intro q hq
  unfold view
  dsimp only
  split_ifs with hslot
  · have hpage : t.page q = none := by
      rw [← Option.not_isSome_iff_eq_none]
      exact fun hsome => hq ⟨hslot, hsome⟩
    rw [hpage]
    rfl
  · rfl

theorem slotOf_mem_known_iff (ha : a.toNat < 2 ^ 48) : slotOf a ∈ t.view.known ↔ (t.page a).isSome := by
  rw [← page_congr samePage_slotOf]
  exact and_iff_right (isSlot_slotOf ha)

/-- **A call is counted** under its slot, if that is known. -/
theorem view_increase (h : t.getCount a = some ref) :
    (t.increase n ref).view = t.view.add (slotOf a) n := by
  obtain ⟨ha, ⟨hpage, rfl⟩ | ⟨hpage, rfl⟩⟩ := getCount_cases h
  · have hunknown : slotOf a ∉ t.view.known := by
      rw [slotOf_mem_known_iff ha, hpage]
      simp
    rw [Counters.add_of_not_known hunknown]
    rfl
  · have hknown : slotOf a ∈ t.view.known := (slotOf_mem_known_iff ha).2 hpage
    rw [Counters.add_of_known hknown]
    obtain ⟨p, hp⟩ := Option.isSome_iff_exists.1 hpage
    unfold view
    simp only [page_increase_slot, Counters.mk.injEq]
    refine ⟨?_, ?_, rfl⟩
    · ext q
      by_cases hsame : SamePage a q
      · simp [hsame, page_congr hsame, hp]
      · simp [hsame]
    · funext q
      by_cases hq : q = slotOf a
      · subst hq
        rw [Function.update_self, if_pos (isSlot_slotOf ha), if_pos samePage_slotOf, hp]
        simp [index_slotOf, page_congr samePage_slotOf, hp, isSlot_slotOf ha]
      · rw [Function.update_of_ne hq]
        split_ifs with hs hsame
        · have hne : lowBits q / countSize ≠ lowBits a / countSize :=
            fun hidx => hq ((eq_slotOf_iff hs).2 ⟨hsame, hidx⟩)
          simp [page_congr hsame, hp, Function.update_of_ne hne]
        · rfl
        · rfl

/-- The slots of the page of an address. -/
def pageSlots (a : UInt64) : Set UInt64 := {q | IsSlot q ∧ SamePage a q}

/-- **Allocating a page** makes its slots known, and keeps all counts. -/
theorem view_allocatePage (h : t.allocatePage a = some t') : t'.view = t.view.learn (pageSlots a) := by
  obtain ⟨-, hunknown, hpages⟩ := page_allocatePage h
  unfold view Counters.learn
  simp only [hunknown, hpages, Counters.mk.injEq, and_true]
  refine ⟨?_, ?_⟩
  · ext q
    by_cases hsame : SamePage a q
    · simp only [hsame, pageSlots, if_true, Option.isSome_some, and_true, Set.mem_ofPred_eq,
        Set.mem_union]
      exact (or_iff_right_of_imp And.left).symm
    · simp [hsame, pageSlots]
  · funext q
    split_ifs with hs hsame
    · rw [page_congr hsame]
      cases t.page a <;> rfl
    · rfl
    · rfl

/-- An address in a known page is counted in its own slot. -/
theorem getCount_of_known (ha : a.toNat < 2 ^ 48) (hknown : slotOf a ∈ t.view.known) :
    ∃ hi mid lo, t.getCount a = some (.slot hi mid lo) ∧ slotAddress hi mid lo = slotOf a := by
  obtain ⟨ref, href⟩ := Option.isSome_iff_exists.1 (getCount_isSome (t := t) ha)
  obtain ⟨-, ⟨hpage, rfl⟩ | ⟨-, rfl⟩⟩ := getCount_cases href
  · rw [slotOf_mem_known_iff ha, hpage] at hknown
    cases hknown
  · refine ⟨_, _, _, href, ?_⟩
    have hparts := slotAddress_parts (isSlot_slotOf ha)
    rwa [samePage_slotOf.1, samePage_slotOf.2, index_slotOf] at hparts

/-! ## The addresses of a range -/

theorem toNat_toUInt64 {n : UInt64} {i : ℕ} (hi : i < n.toNat) : (Nat.toUInt64 i).toNat = i :=
  UInt64.toNat_ofNat_of_lt' (Nat.lt_trans hi n.toNat_lt)

theorem mem_upTo {x n : UInt64} : x ∈ upTo n ↔ x.toNat < n.toNat := by
  unfold upTo
  rw [List.mem_map]
  constructor
  · rintro ⟨i, hi, rfl⟩
    rw [List.mem_range] at hi
    rwa [toNat_toUInt64 hi]
  · intro hx
    exact ⟨x.toNat, List.mem_range.2 hx, UInt64.ofNat_toNat⟩

theorem mem_pageSlots (ha : a.toNat < 2 ^ 48) {b : UInt64} (hsame : SamePage b a) :
    slotOf a ∈ pageSlots b := by
  refine ⟨isSlot_slotOf ha, ?_⟩
  have hslot := @samePage_slotOf a
  rw [samePage_iff] at hsame hslot ⊢
  exact hslot.trans hsame

end CountsPagesL2

/-- **Every address of a range** is in one of the pages that the loop allocates. -/
theorem exists_mem_rangeAddresses {base size a : UInt64} (hlow : base.toNat ≤ a.toNat)
    (hhigh : a.toNat < base.toNat + size.toNat) (hspace : base.toNat + size.toNat ≤ 2 ^ 48) :
    ∃ b ∈ rangeAddresses base size, SamePage b a := by
  have hpage : pageSize.toNat = 2 ^ 16 := rfl
  have hstart : (base &&& ~~~pageBitsMask).toNat = base.toNat / 2 ^ 16 * 2 ^ 16 := toNat_and_not_mask
  have hsum : (base + size + pageSize - 1).toNat = base.toNat + size.toNat + 2 ^ 16 - 1 := by
    have hone : (1 : UInt64) ≤ base + size + pageSize := by
      rw [UInt64.le_iff_toNat_le, UInt64.toNat_add, UInt64.toNat_add, hpage]
      change 1 ≤ _
      omega
    rw [UInt64.toNat_sub_of_le _ _ hone, UInt64.toNat_add, UInt64.toNat_add, hpage]
    change _ - 1 = _
    omega
  have hstop : ((base + size + pageSize - 1) &&& ~~~pageBitsMask).toNat =
      (base.toNat + size.toNat + 2 ^ 16 - 1) / 2 ^ 16 * 2 ^ 16 := by
    rw [toNat_and_not_mask, hsum]
  unfold rangeAddresses
  dsimp only
  generalize base &&& ~~~pageBitsMask = start at hstart ⊢
  generalize (base + size + pageSize - 1) &&& ~~~pageBitsMask = stop at hstop ⊢
  have hle : start ≤ stop := by
    rw [UInt64.le_iff_toNat_le, hstart, hstop]
    omega
  rw [if_pos hle]
  have hcount : ((stop - start) / pageSize + 1).toNat = (stop.toNat - start.toNat) / 2 ^ 16 + 1 := by
    rw [UInt64.toNat_add, UInt64.toNat_div, UInt64.toNat_sub_of_le _ _ hle, hpage]
    change (_ + 1) % _ = _
    omega
  -- The page of the address, counted from the start.
  set i := a.toNat / 2 ^ 16 - base.toNat / 2 ^ 16 with hi
  have hilt : i < ((stop - start) / pageSize + 1).toNat := by
    rw [hcount, hstart, hstop]
    omega
  refine ⟨start + Nat.toUInt64 i * pageSize, List.mem_map.2 ⟨Nat.toUInt64 i, ?_, rfl⟩, ?_⟩
  · rw [CountsPagesL2.mem_upTo, CountsPagesL2.toNat_toUInt64 hilt]
    exact hilt
  · rw [samePage_iff, UInt64.toNat_add, UInt64.toNat_mul, CountsPagesL2.toNat_toUInt64 hilt, hpage, hstart]
    omega

namespace CountsPagesL2
variable {t t' : CountsPagesL2} {a q n : UInt64} {ref : CountRef}

/-! ## The entries of a table -/

theorem upTo_pairwise (n : UInt64) : (upTo n).Pairwise fun x y => x.toNat < y.toNat := by
  unfold upTo
  rw [List.pairwise_map]
  refine List.pairwise_lt_range.imp_of_mem fun {i j} hi hj hlt => ?_
  rw [List.mem_range] at hi hj
  rwa [toNat_toUInt64 hi, toNat_toUInt64 hj]

/-- An entry comes from a page and an index in it. -/
theorem mem_entries_iff {e : UInt64 × UInt64} : e ∈ t.entries ↔ ∃ hi mid lo pages page,
    hi.toNat < 2 ^ 16 ∧ t.pagesL1 hi = some pages ∧ mid.toNat < 2 ^ 16 ∧ pages.pages mid = some page ∧
      lo.toNat < 2 ^ 13 ∧ page.counts lo ≠ 0 ∧ e = (slotAddress hi mid lo, page.counts lo) := by
  unfold entries
  simp only [List.mem_flatMap, mem_upTo]
  constructor
  · rintro ⟨hi, hhi, hmem⟩
    cases hL1 : t.pagesL1 hi with
    | none => simp [hL1] at hmem
    | some pages =>
      simp only [hL1, List.mem_flatMap, mem_upTo] at hmem
      obtain ⟨mid, hmid, hmem⟩ := hmem
      cases hpage : pages.pages mid with
      | none => simp [hpage] at hmem
      | some page =>
        simp only [hpage, List.mem_filterMap, mem_upTo] at hmem
        obtain ⟨lo, hlo, hmem⟩ := hmem
        split_ifs at hmem with hzero
        exact ⟨hi, mid, lo, pages, page, hhi, hL1, hmid, hpage, hlo, hzero, (Option.some.inj hmem).symm⟩
  · rintro ⟨hi, mid, lo, pages, page, hhi, hL1, hmid, hpage, hlo, hne, rfl⟩
    refine ⟨hi, hhi, ?_⟩
    simp only [hL1, List.mem_flatMap, mem_upTo]
    refine ⟨mid, hmid, ?_⟩
    simp only [hpage, List.mem_filterMap, mem_upTo]
    refine ⟨lo, hlo, ?_⟩
    rw [if_neg hne]
    rfl

theorem mem_entries_view {e : UInt64 × UInt64} : e ∈ t.entries ↔ e.2 ≠ 0 ∧ e.2 = t.view.count e.1 := by
  rw [mem_entries_iff]
  constructor
  · rintro ⟨hi, mid, lo, pages, page, hhi, hL1, hmid, hpage, hlo, hne, rfl⟩
    obtain ⟨hhi', hmid', hlo'⟩ := parts_slotAddress hhi hmid hlo
    refine ⟨hne, ?_⟩
    simp only [view, if_pos (isSlot_slotAddress hhi hmid hlo), CountsPagesL2.page, hhi', hmid', hlo', hL1,
      Option.bind_some, hpage, Option.elim_some]
  · rintro ⟨hne, heq⟩
    unfold view at heq
    dsimp only at heq
    split_ifs at heq with hslot
    · unfold CountsPagesL2.page at heq
      cases hL1 : t.pagesL1 (e.1 >>> (pageBits * 2)) with
      | none => exact absurd (by simpa [hL1] using heq) hne
      | some pages =>
        cases hpage : pages.pages (midBits e.1) with
        | none => exact absurd (by simpa [hL1, hpage] using heq) hne
        | some page =>
          simp only [hL1, Option.bind_some, hpage, Option.elim_some] at heq
          refine ⟨_, _, lowBits e.1 / countSize, pages, page, ?_, hL1, ?_, hpage, ?_, heq ▸ hne, ?_⟩
          · rw [toNat_high]
            have := hslot.1
            omega
          · rw [toNat_midBits]
            omega
          · rw [toNat_index]
            omega
          · rw [slotAddress_parts hslot, ← heq]
    · exact absurd heq hne

/-- The entries are in the order of their addresses. -/
theorem entries_pairwise : t.entries.Pairwise fun e f => e.1.toNat < f.1.toNat := by
  unfold entries
  have hpage : (pageSize : UInt64).toNat = 2 ^ 16 := rfl
  have hindex : (pageSize / countSize : UInt64).toNat = 2 ^ 13 := rfl
  -- Each of the three loops goes up, and what it adds to an address is less than a step of the loop
  -- around it.
  have hlow : ∀ hi mid : UInt64, ∀ page : CountsPage, hi.toNat < 2 ^ 16 → mid.toNat < 2 ^ 16 →
      ∀ e ∈ (upTo (pageSize / countSize)).filterMap (fun lo => if page.counts lo = 0 then none
        else some (slotAddress hi mid lo, page.counts lo)),
        hi.toNat * 2 ^ 32 + mid.toNat * 2 ^ 16 ≤ e.1.toNat ∧
          e.1.toNat < hi.toNat * 2 ^ 32 + (mid.toNat + 1) * 2 ^ 16 := by
    intro hi mid page hhi hmid e he
    rw [List.mem_filterMap] at he
    obtain ⟨lo, hlo, he⟩ := he
    rw [mem_upTo, hindex] at hlo
    split_ifs at he
    rw [← Option.some.inj he, toNat_slotAddress hhi hmid hlo]
    omega
  have hmiddle : ∀ hi mid : UInt64, ∀ page : CountsPage, hi.toNat < 2 ^ 16 → mid.toNat < 2 ^ 16 →
      ∀ e ∈ (upTo (pageSize / countSize)).filterMap (fun lo => if page.counts lo = 0 then none
        else some (slotAddress hi mid lo, page.counts lo)),
        hi.toNat * 2 ^ 32 ≤ e.1.toNat ∧ e.1.toNat < (hi.toNat + 1) * 2 ^ 32 := by
    intro hi mid page hhi hmid e he
    obtain ⟨hle, hlt⟩ := hlow hi mid page hhi hmid e he
    have hstep : (mid.toNat + 1) * 2 ^ 16 ≤ 2 ^ 16 * 2 ^ 16 := Nat.mul_le_mul_right _ hmid
    refine ⟨Nat.le_trans (Nat.le_add_right _ _) hle, ?_⟩
    rw [Nat.succ_mul]
    exact Nat.lt_of_lt_of_le hlt (Nat.add_le_add_left hstep _)
  rw [List.pairwise_flatMap]
  refine ⟨fun hi hhi => ?_, (upTo_pairwise _).imp_of_mem fun {hi hi'} hhi hhi' hlt e he f hf => ?_⟩
  · rw [mem_upTo, hpage] at hhi
    split
    · exact List.Pairwise.nil
    · rw [List.pairwise_flatMap]
      refine ⟨fun mid hmid => ?_, (upTo_pairwise _).imp_of_mem fun {mid mid'} hmid hmid' hlt e he f hf => ?_⟩
      · rw [mem_upTo, hpage] at hmid
        split
        · exact List.Pairwise.nil
        · rw [List.pairwise_filterMap]
          refine (upTo_pairwise _).imp_of_mem fun {lo lo'} hlo hlo' hlt e he f hf => ?_
          rw [mem_upTo, hindex] at hlo hlo'
          split_ifs at he hf
          rw [← Option.some.inj he, ← Option.some.inj hf]
          change (slotAddress hi mid lo).toNat < (slotAddress hi mid lo').toNat
          rw [toNat_slotAddress hhi hmid hlo, toNat_slotAddress hhi hmid hlo']
          omega
      · rw [mem_upTo, hpage] at hmid hmid'
        split at he
        · cases he
        · split at hf
          · cases hf
          · have h₁ := hlow hi mid _ hhi hmid e he
            have h₂ := hlow hi mid' _ hhi hmid' f hf
            omega
  · rw [mem_upTo, hpage] at hhi hhi'
    split at he
    · cases he
    · split at hf
      · cases hf
      · obtain ⟨mid, hmid, he⟩ := List.mem_flatMap.1 he
        obtain ⟨mid', hmid', hf⟩ := List.mem_flatMap.1 hf
        rw [mem_upTo, hpage] at hmid hmid'
        split at he
        · cases he
        · split at hf
          · cases hf
          · have h₁ := hmiddle hi mid _ hhi hmid e he
            have h₂ := hmiddle hi' mid' _ hhi' hmid' f hf
            omega

/-- **The entries list the counters.** -/
theorem lists_entries (t : CountsPagesL2) : Counters.Lists t.entries t.view where
  nodup := by
    rw [List.nodup_iff_pairwise_ne, List.pairwise_map]
    exact entries_pairwise.imp fun hlt heq => absurd (congrArg UInt64.toNat heq) (Nat.ne_of_lt hlt)
  mem_iff _ := mem_entries_view

end CountsPagesL2

end Funcount

end Funtrace
