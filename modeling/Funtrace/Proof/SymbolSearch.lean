/-
  The search for the symbol of an address (`find_symbol` in `procaddr2sym/src/lib.rs`).

  The table is in the order of base addresses, and the last symbol that starts at or
  before the address decides (`findSymbol_eq`).  So symbols that lie in others, or are
  empty, hide what they lie in behind their end; a table is searched completely if
  and only if no symbol does that (`findSymbol_complete_iff`).
-/
import Mathlib.Algebra.Group.Nat.Defs
import Funtrace.Lib.BinarySearch
import Funtrace.Viz.ProcAddr2Sym

namespace Funtrace

theorem notGreater_compare {a : UInt64} {s : Symbol} :
    notGreater (fun s : Symbol => compare s.baseAddress a) s = decide (s.baseAddress ≤ a) := by
  unfold notGreater
  rw [Bool.eq_iff_iff]
  simp [Std.compare_eq_gt, UInt64.not_lt]

theorem readElfSymbols_sorted (elf : Elf) :
    (readElfSymbols elf).Pairwise (·.baseAddress ≤ ·.baseAddress) :=
  List.pairwise_insertionSort (fun s t : Symbol => s.baseAddress ≤ t.baseAddress) _

/-- The symbol of a sorted table that starts last at or before an address. -/
def symbolBefore (symbols : List Symbol) (address : UInt64) : Option Symbol :=
  (symbols.filter fun s => s.baseAddress ≤ address).getLast?

/-- **The symbol of an address** is the last one that starts at or before it, if it has the address. -/
theorem findSymbol_eq {symbols : List Symbol}
    (hsorted : symbols.Pairwise (·.baseAddress ≤ ·.baseAddress)) (a : UInt64) :
    findSymbol symbols a =
      (symbolBefore symbols a).filter fun s => a < s.baseAddress + s.size := by
  have hpart : Partitioned (notGreater fun s : Symbol => compare s.baseAddress a) symbols := by
    refine hsorted.imp fun hle hn => ?_
    rw [notGreater_compare, decide_eq_true_eq] at hn ⊢
    exact UInt64.le_trans hle hn
  have hfilter : (symbols.filter fun s => s.baseAddress ≤ a) =
      symbols.filter (notGreater fun s : Symbol => compare s.baseAddress a) :=
    List.filter_congr fun s _ => notGreater_compare.symm
  have hsearch := binarySearchBy_eq hpart
  have hindex := hpart.getElem?_border
  unfold findSymbol symbolBefore
  rw [hfilter, hsearch]
  rcases hcases : (symbols.filter (notGreater fun s : Symbol => compare s.baseAddress a)).getLast?
    with _ | s
  · rw [List.getLast?_eq_none_iff] at hcases
    rw [hcases]
    rfl
  · have hmem := List.mem_of_getLast? hcases
    have hle : s.baseAddress ≤ a := by
      simpa [notGreater_compare] using (List.mem_filter.1 hmem).2
    rw [hcases, Option.some_or] at hindex
    obtain ⟨k, hk⟩ : ∃ k, (symbols.filter (notGreater fun s : Symbol =>
        compare s.baseAddress a)).length = k + 1 :=
      Nat.exists_eq_succ_of_ne_zero (Nat.ne_of_gt (List.length_pos_of_mem hmem))
    rw [hk, Nat.add_sub_cancel] at hindex
    rw [hk, Option.map_some]
    cases hc : compare s.baseAddress a <;> simp [hindex, hle, Option.filter_some]

/-! ## Completeness -/

/-- The first address behind a symbol. -/
def Symbol.stop (s : Symbol) : ℕ := s.baseAddress.toNat + s.size.toNat

/-- The address is one of the symbol's. -/
def Symbol.Covers (s : Symbol) (address : UInt64) : Prop :=
  s.baseAddress ≤ address ∧ address.toNat < s.stop

/-- What a complete search does. -/
structure SearchedAll (symbols : List Symbol) (address : UInt64) : Prop where
  sound : ∀ s, findSymbol symbols address = some s → s ∈ symbols ∧ s.Covers address
  complete : (∃ s ∈ symbols, s.Covers address) → (findSymbol symbols address).isSome

/-- If a symbol covers an address, so does the last one that starts at or before it. -/
def LastCovers (symbols : List Symbol) (address : UInt64) : Prop :=
  ∀ pre t post, symbols = pre ++ t :: post → t.baseAddress ≤ address →
    (∀ u ∈ post, address < u.baseAddress) → ∀ s ∈ pre, s.Covers address → t.Covers address

/-- Of the symbols that start at one address the last is not behind its end within another, unless
    the next symbol starts by then. -/
def Shadowless (symbols : List Symbol) : Prop :=
  ∀ pre t post, symbols = pre ++ t :: post → (∀ u ∈ post.head?, t.baseAddress < u.baseAddress) →
    ∀ s ∈ pre, s.stop ≤ t.stop ∨ ∃ u ∈ post.head?, u.baseAddress.toNat ≤ t.stop

variable {symbols : List Symbol}

/-- The symbols that start at or before an address come first. -/
theorem symbols_split (hsorted : symbols.Pairwise (·.baseAddress ≤ ·.baseAddress)) (a : UInt64) :
    symbols = symbols.filter (fun s => s.baseAddress ≤ a) ++
      symbols.filter fun s => !decide (s.baseAddress ≤ a) := by
  have hpart : Partitioned (fun s : Symbol => decide (s.baseAddress ≤ a)) symbols := by
    refine hsorted.imp fun hle hn => ?_
    rw [decide_eq_true_eq] at hn ⊢
    exact UInt64.le_trans hle hn
  exact hpart.split

theorem symbolBefore_of_split {pre post : List Symbol} {t : Symbol} {a : UInt64} (ht : t.baseAddress ≤ a)
    (hpost : ∀ u ∈ post, a < u.baseAddress) : symbolBefore (pre ++ t :: post) a = some t := by
  have hnone : post.filter (fun s => decide (s.baseAddress ≤ a)) = [] :=
    List.filter_eq_nil_iff.2 fun u hu => by simpa using hpost u hu
  rw [symbolBefore, List.filter_append, List.filter_cons_of_pos (by simpa using ht), hnone,
    List.getLast?_append, List.getLast?_singleton, Option.some_or]

theorem split_of_symbolBefore (hsorted : symbols.Pairwise (·.baseAddress ≤ ·.baseAddress)) {a : UInt64}
    {t : Symbol} (h : symbolBefore symbols a = some t) : t.baseAddress ≤ a ∧
      ∃ pre post, symbols = pre ++ t :: post ∧ ∀ u ∈ post, a < u.baseAddress := by
  have hsplit := symbols_split hsorted a
  unfold symbolBefore at h
  have hmem := List.mem_of_getLast? h
  obtain ⟨pre, hpre⟩ := List.getLast?_eq_some_iff.1 h
  refine ⟨by simpa using (List.mem_filter.1 hmem).2, pre,
    symbols.filter fun s => !decide (s.baseAddress ≤ a), ?_, fun u hu => ?_⟩
  · conv_lhs => rw [hsplit, hpre, List.append_assoc]
    rfl
  · simpa using (List.mem_filter.1 hu).2

theorem lt_add_iff {s : Symbol} (hfit : s.stop < 2 ^ 64) {a : UInt64} :
    a < s.baseAddress + s.size ↔ a.toNat < s.stop := by
  unfold Symbol.stop at hfit ⊢
  rw [UInt64.lt_iff_toNat_lt, UInt64.toNat_add, Nat.mod_eq_of_lt hfit]

/-- **The search for one address** is complete if the last symbol that starts at or before it covers
    it, or none does. -/
theorem searchedAll_iff (hsorted : symbols.Pairwise (·.baseAddress ≤ ·.baseAddress))
    (hfit : ∀ s ∈ symbols, s.stop < 2 ^ 64) (a : UInt64) :
    SearchedAll symbols a ↔ LastCovers symbols a := by
  have hfind := findSymbol_eq hsorted a
  cases hbefore : symbolBefore symbols a with
  | none =>
    rw [hbefore] at hfind
    have hnone : ∀ s ∈ symbols, ¬ s.baseAddress ≤ a := by
      intro s hs hle
      rw [symbolBefore, List.getLast?_eq_none_iff, List.filter_eq_nil_iff] at hbefore
      exact hbefore s hs (by simpa using hle)
    constructor
    · rintro - pre t post rfl ht
      exact absurd ht (hnone t (by simp))
    · intro _
      refine ⟨fun s hs => ?_, ?_⟩
      · rw [hfind] at hs
        cases hs
      · rintro ⟨s, hs, hcovers⟩
        exact absurd hcovers.1 (hnone s hs)
  | some t =>
    obtain ⟨ht, pre, post, hsplit, hpost⟩ := split_of_symbolBefore hsorted hbefore
    have htmem : t ∈ symbols := by
      rw [hsplit]
      simp
    have hfind' : findSymbol symbols a = if a.toNat < t.stop then some t else none := by
      rw [hfind, hbefore, Option.filter_some]
      simp only [decide_eq_true_eq, lt_add_iff (hfit t htmem)]
    constructor
    · rintro hall pre' t' post' hsplit' ht' hpost' s hs hcovers
      obtain rfl : t' = t := by
        rw [hsplit', symbolBefore_of_split ht' hpost', Option.some.injEq] at hbefore
        exact hbefore
      have hsome := hall.complete ⟨s, by rw [hsplit']; exact List.mem_append_left _ hs, hcovers⟩
      rw [hfind'] at hsome
      split_ifs at hsome with hlt
      · exact ⟨ht', hlt⟩
      · cases hsome
    · intro hlast
      refine ⟨fun s hs => ?_, ?_⟩
      · rw [hfind'] at hs
        split_ifs at hs with hlt
        obtain rfl := Option.some.inj hs
        exact ⟨htmem, ht, hlt⟩
      · rintro ⟨s, hs, hcovers⟩
        have hlt : a.toNat < t.stop := by
          rw [hsplit] at hs
          rcases List.mem_append.1 hs with hs | hs
          · exact (hlast pre t post hsplit ht hpost s hs hcovers).2
          · rcases List.mem_cons.1 hs with rfl | hs
            · exact hcovers.2
            · exact absurd hcovers.1 (UInt64.not_le.2 (hpost s hs))
        rw [hfind', if_pos hlt]
        rfl

/-- What holds of the address right behind the last symbol holds of all. -/
theorem lastCovers_iff (hsorted : symbols.Pairwise (·.baseAddress ≤ ·.baseAddress))
    (hfit : ∀ s ∈ symbols, s.stop < 2 ^ 64) : (∀ a, LastCovers symbols a) ↔ Shadowless symbols := by
  constructor
  · rintro hall pre t post rfl hnext s hs
    by_contra hnot
    rw [not_or, not_le] at hnot
    obtain ⟨hlong, hgap⟩ := hnot
    have hstop : (UInt64.ofNat t.stop).toNat = t.stop := by
      rw [UInt64.toNat_ofNat']
      exact Nat.mod_eq_of_lt (hfit t (by simp))
    obtain ⟨-, htpost, hbefore⟩ := List.pairwise_append.1 hsorted
    have ht : t.baseAddress ≤ UInt64.ofNat t.stop := by
      rw [UInt64.le_iff_toNat_le, hstop]
      exact Nat.le_add_right _ _
    have hpost : ∀ u ∈ post, UInt64.ofNat t.stop < u.baseAddress := by
      intro u hu
      rw [UInt64.lt_iff_toNat_lt, hstop]
      cases post with
      | nil => cases hu
      | cons v post =>
        have hv : t.stop < v.baseAddress.toNat := by
          by_contra hle
          exact hgap ⟨v, rfl, not_lt.1 hle⟩
        rcases List.mem_cons.1 hu with rfl | hu
        · exact hv
        · have hle := (List.pairwise_cons.1 (List.pairwise_cons.1 htpost).2).1 u hu
          exact Nat.lt_of_lt_of_le hv (UInt64.le_iff_toNat_le.1 hle)
    have hcovers := hall (UInt64.ofNat t.stop) pre t post rfl ht hpost s hs
      ⟨UInt64.le_trans (hbefore s hs t List.mem_cons_self) ht, by rw [hstop]; exact hlong⟩
    have hlt := hcovers.2
    rw [hstop] at hlt
    exact Nat.lt_irrefl _ hlt
  · rintro hshadow a pre t post rfl ht hpost s hs hcovers
    refine ⟨ht, ?_⟩
    have hnext : ∀ u ∈ post.head?, t.baseAddress < u.baseAddress := fun u hu =>
      UInt64.lt_of_le_of_lt ht (hpost u (List.mem_of_head? hu))
    rcases hshadow pre t post rfl hnext s hs with hle | ⟨u, hu, hle⟩
    · exact Nat.lt_of_lt_of_le hcovers.2 hle
    · have hlt := UInt64.lt_iff_toNat_lt.1 (hpost u (List.mem_of_head? hu))
      exact Nat.lt_of_lt_of_le hlt hle

/-- **Completeness of the search**, for one address and for all. -/
theorem findSymbol_complete_iff (hsorted : symbols.Pairwise (·.baseAddress ≤ ·.baseAddress))
    (hfit : ∀ s ∈ symbols, s.stop < 2 ^ 64) :
    (∀ a, SearchedAll symbols a ↔ LastCovers symbols a) ∧
      ((∀ a, SearchedAll symbols a) ↔ Shadowless symbols) := by
  refine ⟨searchedAll_iff hsorted hfit, ?_⟩
  rw [← lastCovers_iff hsorted hfit]
  exact forall_congr' (searchedAll_iff hsorted hfit)

/-- The symbols of the small program lie apart. -/
theorem findSymbol_complete_iff_demo :
    SearchedAll [⟨0x100, 0x10, "f()"⟩, ⟨0x200, 0x10, "g()"⟩] 0x108 := by
  have hsorted : [(⟨0x100, 0x10, "f()"⟩ : Symbol), ⟨0x200, 0x10, "g()"⟩].Pairwise
      (·.baseAddress ≤ ·.baseAddress) := by
    simp
  have hfit : ∀ s ∈ [(⟨0x100, 0x10, "f()"⟩ : Symbol), ⟨0x200, 0x10, "g()"⟩], s.stop < 2 ^ 64 := by
    simp [Symbol.stop]
  refine (findSymbol_complete_iff hsorted hfit).2.2 ?_ 0x108
  intro pre t post hsplit _ s hs
  have hlength := congrArg List.length hsplit
  rcases pre with _ | ⟨p, _ | ⟨q, pre⟩⟩
  · cases hs
  · obtain ⟨rfl, htail⟩ := List.cons.inj hsplit
    obtain ⟨rfl, -⟩ := List.cons.inj htail
    obtain rfl := List.mem_singleton.1 hs
    exact Or.inl (by simp [Symbol.stop])
  · simp at hlength

/-- Behind an empty symbol within another, nothing is found. -/
theorem not_findSymbol_complete : ¬ ∀ (symbols : List Symbol) (a : UInt64),
    symbols.Pairwise (·.baseAddress ≤ ·.baseAddress) → (∀ s ∈ symbols, s.stop < 2 ^ 64) →
      SearchedAll symbols a := by
  intro hall
  have hsearched := hall [⟨0x100, 0x100, "outer"⟩, ⟨0x120, 0, "label"⟩] 0x130 (by simp)
    (by simp [Symbol.stop])
  have hsome := hsearched.complete ⟨⟨0x100, 0x100, "outer"⟩, by simp, by simp [Symbol.Covers, Symbol.stop]⟩
  revert hsome
  decide

end Funtrace
