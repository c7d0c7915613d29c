/-
  Call counts are conserved.

  Every call adds one to the counters of all tables, under its slot or as unknown;
  allocating pages changes no count; at exit the first table knows the slots of all
  others (`Prepared`), and the counters are merged in it.  What is lost is what was
  counted before `funcount_init`, which clears the tables (`counts_conserved_iff`).
-/
import Mathlib.Algebra.BigOperators.Group.Finset.Basic
import Funtrace.Proof.CountTables

namespace Funtrace

namespace Funcount

/-! ## Merging -/

namespace CountsPagesL2
variable {t last : CountsPagesL2}

theorem foldlM_increase : ∀ (l : List (UInt64 × UInt64)) (last : CountsPagesL2),
    (∀ e ∈ l, IsSlot e.1) → ∃ last',
      l.foldlM (fun (last : CountsPagesL2) e => (last.getCount e.1).map (last.increase e.2)) last =
        some last' ∧ last'.view = last.view.addAll l
  | [], last, _ => ⟨last, rfl, rfl⟩
  | e :: l, last, hl => by
    have he := hl e List.mem_cons_self
    obtain ⟨ref, href⟩ := Option.isSome_iff_exists.1 (getCount_isSome (t := last) he.1)
    obtain ⟨last', hfold, hview⟩ := foldlM_increase l (last.increase e.2 ref)
      fun e' he' => hl e' (List.mem_cons_of_mem e he')
    refine ⟨last', ?_, ?_⟩
    · rw [List.foldlM_cons, href]
      exact hfold
    · rw [hview, view_increase href, slotOf_of_isSlot he, Counters.addAll_cons]

theorem isSlot_of_mem_entries {e : UInt64 × UInt64} (he : e ∈ t.entries) : IsSlot e.1 := by
  obtain ⟨hi, mid, lo, pages, page, hhi, -, hmid, -, hlo, -, rfl⟩ := mem_entries_iff.1 he
  exact isSlot_slotAddress hhi hmid hlo

/-- **A destructor merges the counters** of its table. -/
theorem view_mergeInto (t last : CountsPagesL2) :
    ∃ last', t.mergeInto last = some last' ∧ last'.view = last.view.merge t.view t.entries := by
  obtain ⟨last', hfold, hview⟩ := foldlM_increase t.entries last fun e he => isSlot_of_mem_entries he
  unfold mergeInto
  simp only [hfold, Option.map_some, Option.some.injEq, exists_eq_left']
  unfold Counters.merge
  rw [← hview]
  split_ifs with hzero
  · have hunknown : t.view.unknown = 0 := hzero
    rw [hunknown, add_zero]
  · rfl

/-- All slots, in which the total is taken. -/
def allSlots : Finset UInt64 := (Finset.range (2 ^ 45)).image fun k => UInt64.ofNat (k * 8)

theorem mem_allSlots {q : UInt64} (hq : IsSlot q) : q ∈ allSlots := by
  obtain ⟨hlt, hmod⟩ := hq
  refine Finset.mem_image.2 ⟨q.toNat / 8, Finset.mem_range.2 (by omega), ?_⟩
  rw [Nat.div_mul_cancel (Nat.dvd_of_mod_eq_zero hmod)]
  exact UInt64.ofNat_toNat

theorem known_subset_allSlots (t : CountsPagesL2) : ∀ q ∈ t.view.known, q ∈ allSlots :=
  fun _ hq => mem_allSlots hq.1

/-- The destructors of some tables, whose slots the first one knows. -/
theorem foldlM_mergeInto (tab : ℕ → CountsPagesL2) : ∀ (ts : List ℕ) (last : CountsPagesL2),
    (∀ t ∈ ts, (tab t).view.known ⊆ last.view.known) → ∃ last',
      ts.foldlM (fun last t => (tab t).mergeInto last) last = some last' ∧
      (∀ q, last'.view.count q = last.view.count q + (ts.map fun t => (tab t).view.count q).sum) ∧
      last'.view.total allSlots =
        last.view.total allSlots + (ts.map fun t => (tab t).view.total allSlots).sum
  | [], last, _ => ⟨last, rfl, by simp, by simp⟩
  | t :: ts, last, hts => by
    have ht := hts t List.mem_cons_self
    obtain ⟨last₁, hmerge, hview⟩ := view_mergeInto (tab t) last
    have hknown : last₁.view.known = last.view.known := by
      rw [hview]
      exact Counters.known_merge _
    obtain ⟨last', hfold, hcount, htotal⟩ := foldlM_mergeInto tab ts last₁
      fun t' ht' => by
        rw [hknown]
        exact hts t' (List.mem_cons_of_mem t ht')
    refine ⟨last', ?_, fun q => ?_, ?_⟩
    · rw [List.foldlM_cons, hmerge]
      exact hfold
    · rw [hcount q, hview, Counters.count_merge (lists_entries _) clean_view ht, List.map_cons,
        List.sum_cons, add_assoc]
    · rw [htotal, hview, Counters.total_merge (lists_entries _) clean_view (known_subset_allSlots _)
        (known_subset_allSlots _), List.map_cons, List.sum_cons, add_assoc]

end CountsPagesL2

/-! ## The first table knows the slots of the others -/

/-- Each page that another table is to get is `ready`, or the first table gets it before. -/
def Prepared (ready : UInt64 → Prop) : List (ℕ × UInt64) → Prop
  | [] => True
  | (t, a) :: rest => (t = 0 ∨ ready a) ∧ Prepared (fun b => ready b ∨ t = 0 ∧ b = a) rest

theorem Prepared.mono : ∀ {l : List (ℕ × UInt64)} {r r' : UInt64 → Prop}, (∀ b, r b → r' b) →
    Prepared r l → Prepared r' l
  | [], _, _, _, _ => trivial
  | (_, _) :: _, _, _, hr, ⟨hhead, hrest⟩ =>
    ⟨hhead.imp_right (hr _), hrest.mono fun b hb => hb.imp_left (hr b)⟩

theorem prepared_of_forall : ∀ {l : List (ℕ × UInt64)} {r : UInt64 → Prop},
    (∀ e ∈ l, e.1 = 0 ∨ r e.2) → Prepared r l
  | [], _, _ => trivial
  | e :: _, _, h => ⟨h e List.mem_cons_self, prepared_of_forall fun e' he' =>
    (h e' (List.mem_cons_of_mem e he')).imp_right Or.inl⟩

theorem prepared_append : ∀ {l₁ l₂ : List (ℕ × UInt64)} {r : UInt64 → Prop}, Prepared r l₁ →
    Prepared (fun b => r b ∨ (0, b) ∈ l₁) l₂ → Prepared r (l₁ ++ l₂)
  | [], l₂, r, _, h₂ => h₂.mono fun b hb => hb.resolve_right List.not_mem_nil
  | (t, a) :: l₁, l₂, r, ⟨hhead, hrest⟩, h₂ => by
    refine ⟨hhead, prepared_append hrest (h₂.mono fun b hb => ?_)⟩
    rcases hb with hr | hmem
    · exact Or.inl (Or.inl hr)
    · rcases List.mem_cons.1 hmem with heq | hmem
      · obtain ⟨rfl, rfl⟩ := Prod.mk.inj heq
        exact Or.inl (Or.inr ⟨rfl, rfl⟩)
      · exact Or.inr hmem

theorem prepared_flatMap {α : Type} {f : α → List (ℕ × UInt64)} : ∀ {xs : List α} {r : UInt64 → Prop},
    (∀ x ∈ xs, ∀ r, Prepared r (f x)) → Prepared r (xs.flatMap f)
  | [], _, _ => trivial
  | x :: _, r, h => by
    rw [List.flatMap_cons]
    exact prepared_append (h x List.mem_cons_self r)
      (prepared_flatMap fun y hy => h y (List.mem_cons_of_mem x hy))

/-- A segment is allocated in the first table first. -/
theorem prepared_pageAllocations (n : ℕ) (infos : List DlPhdrInfo) (r : UInt64 → Prop) :
    Prepared r (Program.pageAllocations n infos) := by
  refine prepared_flatMap fun info _ r => prepared_flatMap fun phdr _ r => ?_
  generalize rangeAddresses (info.dlpiAddr + phdr.pVaddr) phdr.pMemsz = addresses
  cases n with
  | zero => trivial
  | succ n =>
    rw [List.range_succ_eq_map, List.flatMap_cons]
    refine prepared_append (prepared_of_forall fun e he => ?_) (prepared_of_forall fun e he => ?_)
    · obtain ⟨a, -, rfl⟩ := List.mem_map.1 he
      exact Or.inl rfl
    · obtain ⟨t, -, he⟩ := List.mem_flatMap.1 he
      obtain ⟨a, ha, rfl⟩ := List.mem_map.1 he
      exact Or.inr (Or.inr (List.mem_map.2 ⟨a, ha, rfl⟩))

/-! ## What the tables amount to -/

namespace Program
variable {n : ℕ} {s s' : Program} {a : Action}

/-- The counts of a slot in all tables. -/
def slotTotal (n : ℕ) (q : UInt64) (s : Program) : UInt64 :=
  ∑ t ∈ Finset.range n, (s.pageTab t).view.count q

/-- The sum of all the counters of the first `n` tables. -/
def grandTotal (n : ℕ) (s : Program) : UInt64 :=
  ∑ t ∈ Finset.range n, (s.pageTab t).view.total CountsPagesL2.allSlots

/-- A call of an address in the slot, while the slot's page is allocated. -/
def countsIn (n : ℕ) (q : UInt64) (s : Program) : Action → ℕ
  | .enter aux func =>
    if slotOf func = q ∧ ((s.pageTab (tabInd n aux)).page func).isSome then 1 else 0
  | _ => 0

/-- Is it a call? -/
def isCall : Action → Bool
  | .enter _ _ => true
  | _ => false

/-- The calls of addresses in a slot that a run makes while the slot's page is allocated. -/
def slotCalls (n : ℕ) (q : UInt64) (s : Program) (acts : List Action) : ℕ :=
  sumAlong (step n) (countsIn n q) s acts

/-- All calls that a run makes. -/
def numCalls (n : ℕ) (s : Program) (acts : List Action) : ℕ :=
  sumAlong (step n) (fun _ a => if isCall a then 1 else 0) s acts

/-- Is it `funcount_init`? -/
def isInit : Action → Bool
  | .funcountInit _ => true
  | _ => false

theorem tabInd_lt (hn : 0 < n) (aux : UInt32) : tabInd n aux < n := by
  unfold tabInd
  split_ifs
  · exact hn
  · exact Nat.mod_lt _ hn

/-- **What a step does** to the tables. -/
theorem step_cases (h : s.step n a = some s') :
    (∃ infos, (a = .funcountInit infos ∨ a = .dlopen infos) ∧ s.allocating = [] ∧
      s'.allocating = pageAllocations n infos ∧
      s'.pageTab = if isInit a then fun _ => .init else s.pageTab) ∨
    (∃ t address rest tab, a = .allocatePage ∧ s.allocating = (t, address) :: rest ∧
      s'.allocating = rest ∧ (s.pageTab t).allocatePage address = some tab ∧
      s'.pageTab = Function.update s.pageTab t tab) ∨
    (∃ aux func ref, a = .enter aux func ∧ s'.allocating = s.allocating ∧
      (s.pageTab (tabInd n aux)).getCount func = some ref ∧
      s'.pageTab = Function.update s.pageTab (tabInd n aux)
        ((s.pageTab (tabInd n aux)).increase 1 ref)) := by
  cases a with
  | funcountInit infos =>
    simp only [step] at h
    split_ifs at h with hempty
    obtain rfl := Option.some.inj h
    exact Or.inl ⟨infos, Or.inl rfl, List.isEmpty_iff.1 hempty, rfl, rfl⟩
  | dlopen infos =>
    simp only [step] at h
    split_ifs at h with hempty
    obtain rfl := Option.some.inj h
    exact Or.inl ⟨infos, Or.inr rfl, List.isEmpty_iff.1 hempty, rfl, rfl⟩
  | allocatePage =>
    simp only [step] at h
    split at h
    · cases h
    · rename_i t address rest halloc
      obtain ⟨tab, htab, rfl⟩ := Option.map_eq_some_iff.1 h
      exact Or.inr (Or.inl ⟨t, address, rest, tab, rfl, halloc, rfl, htab, rfl⟩)
  | enter aux func =>
    simp only [step] at h
    obtain ⟨ref, href, rfl⟩ := Option.map_eq_some_iff.1 h
    exact Or.inr (Or.inr ⟨aux, func, ref, rfl, rfl, href, rfl⟩)

/-- A sum over the tables, one of which changes. -/
theorem sum_update {f : CountsPagesL2 → UInt64} {tab : ℕ → CountsPagesL2} {t : ℕ} (ht : t < n)
    {new : CountsPagesL2} {x : UInt64} (hnew : f new = f (tab t) + x) :
    ∑ i ∈ Finset.range n, f (Function.update tab t new i) = ∑ i ∈ Finset.range n, f (tab i) + x := by
  have hcomp : (fun i => f (Function.update tab t new i)) =
      Function.update (fun i => f (tab i)) t (f (tab t) + x) := by
    funext i
    by_cases hi : i = t
    · subst hi
      simp [hnew]
    · simp [Function.update_of_ne hi]
  have hmem : t ∈ Finset.range n := Finset.mem_range.2 ht
  rw [hcomp, Finset.sum_update_of_mem hmem,
    Finset.sum_eq_add_sum_sdiff_singleton t (fun i => f (tab i)) fun hnot => absurd hmem hnot]
  ac_rfl

/-- Numbers as counts. -/
def ofNatHom : ℕ →+ UInt64 where
  toFun := UInt64.ofNat
  map_zero' := rfl
  map_add' := UInt64.ofNat_add

theorem slotTotal_step (hn : 0 < n) (q : UInt64) (ha : isInit a = false) (h : s.step n a = some s') :
    s'.slotTotal n q = s.slotTotal n q + ofNatHom (countsIn n q s a) := by
  rcases step_cases h with ⟨infos, hinfos, -, -, htab⟩ | ⟨t, address, rest, tab, rfl, -, -, hpage, htab⟩ |
    ⟨aux, func, ref, rfl, -, href, htab⟩
  · have hzero : countsIn n q s a = 0 := by rcases hinfos with rfl | rfl <;> rfl
    rw [ha] at htab
    rw [slotTotal, htab, hzero, map_zero, add_zero]
    rfl
  · have hview := CountsPagesL2.view_allocatePage hpage
    have hcount : ∀ i, (s'.pageTab i).view.count q = (s.pageTab i).view.count q := by
      intro i
      rw [htab]
      by_cases hi : i = t
      · subst hi
        rw [Function.update_self, hview]
        rfl
      · rw [Function.update_of_ne hi]
    simp only [slotTotal, hcount, countsIn, map_zero, add_zero]
  · have hview := CountsPagesL2.view_increase (n := 1) href
    have hlt := (CountsPagesL2.getCount_cases href).1
    rw [slotTotal, slotTotal, htab]
    refine sum_update (f := fun tab => tab.view.count q) (tabInd_lt hn aux) ?_
    have hknown := @CountsPagesL2.slotOf_mem_known_iff (s.pageTab (tabInd n aux)) func hlt
    rw [hview]
    by_cases hpage : ((s.pageTab (tabInd n aux)).page func).isSome
    · by_cases hq : slotOf func = q
      · subst hq
        rw [Counters.count_add_self (hknown.2 hpage), countsIn, if_pos ⟨rfl, hpage⟩]
        rfl
      · rw [Counters.count_add_of_ne (Ne.symm hq), countsIn, if_neg fun hand => hq hand.1, map_zero,
          add_zero]
    · rw [Counters.count_add_of_not_known (mt hknown.1 hpage), countsIn,
        if_neg fun hand => hpage hand.2, map_zero, add_zero]

theorem grandTotal_step (hn : 0 < n) (ha : isInit a = false) (h : s.step n a = some s') :
    s'.grandTotal n = s.grandTotal n + ofNatHom (if isCall a then 1 else 0) := by
  rcases step_cases h with ⟨infos, hinfos, -, -, htab⟩ | ⟨t, address, rest, tab, rfl, -, -, hpage, htab⟩ |
    ⟨aux, func, ref, rfl, -, href, htab⟩
  · have hcall : isCall a = false := by rcases hinfos with rfl | rfl <;> rfl
    rw [ha] at htab
    rw [grandTotal, htab, hcall]
    simp [grandTotal]
  · have hview := CountsPagesL2.view_allocatePage hpage
    have htotal : ∀ i, (s'.pageTab i).view.total CountsPagesL2.allSlots =
        (s.pageTab i).view.total CountsPagesL2.allSlots := by
      intro i
      rw [htab]
      by_cases hi : i = t
      · subst hi
        rw [Function.update_self, hview]
        rfl
      · rw [Function.update_of_ne hi]
    simp [grandTotal, htotal, isCall]
  · have hview := CountsPagesL2.view_increase (n := 1) href
    rw [grandTotal, grandTotal, htab]
    refine sum_update (f := fun tab => tab.view.total CountsPagesL2.allSlots) (tabInd_lt hn aux) ?_
    rw [hview, Counters.total_add fun hknown => CountsPagesL2.known_subset_allSlots _ _ hknown]
    rfl

/-! ## Allocated pages -/

/-- The first table knows all that others know, or will know it before. -/
structure Covers (s : Program) : Prop where
  known : ∀ t, (s.pageTab t).view.known ⊆ (s.pageTab 0).view.known
  prepared : Prepared (fun a => CountsPagesL2.pageSlots a ⊆ (s.pageTab 0).view.known) s.allocating

/-- **Pages stay**: but for `funcount_init`, a step forgets no slot. -/
theorem known_step (ha : isInit a = false) (h : s.step n a = some s') (t : ℕ) :
    (s.pageTab t).view.known ⊆ (s'.pageTab t).view.known := by
  rcases step_cases h with ⟨infos, -, -, -, htab⟩ | ⟨t', address, rest, tab, -, -, -, hpage, htab⟩ |
    ⟨aux, func, ref, -, -, href, htab⟩
  · rw [ha] at htab
    rw [htab]
    exact fun q hq => hq
  · rw [htab]
    by_cases ht : t = t'
    · subst ht
      rw [Function.update_self, CountsPagesL2.view_allocatePage hpage]
      exact Set.subset_union_left
    · rw [Function.update_of_ne ht]
  · rw [htab]
    by_cases ht : t = tabInd n aux
    · subst ht
      rw [Function.update_self, CountsPagesL2.view_increase href, Counters.known_add]
    · rw [Function.update_of_ne ht]

theorem Covers.step (hs : s.Covers) (h : s.step n a = some s') : s'.Covers := by
  rcases step_cases h with ⟨infos, -, -, halloc, htab⟩ |
    ⟨t, address, rest, tab, rfl, hpending, hrest, hpage, htab⟩ | ⟨aux, func, ref, rfl, halloc, href, htab⟩
  · refine ⟨fun t => ?_, halloc ▸ prepared_pageAllocations n infos _⟩
    rw [htab]
    split_ifs
    · exact fun q hq => hq
    · exact hs.known t
  · have hmono := known_step rfl h 0
    have hview := CountsPagesL2.view_allocatePage hpage
    obtain ⟨hhead, htail⟩ : (t = 0 ∨ CountsPagesL2.pageSlots address ⊆ (s.pageTab 0).view.known) ∧ _ := by
      have hprep := hs.prepared
      rwa [hpending] at hprep
    -- What is allocated is known to the first table now.
    have hnew : CountsPagesL2.pageSlots address ⊆ (s'.pageTab 0).view.known := by
      rcases hhead with rfl | hready
      · rw [htab, Function.update_self, hview]
        exact Set.subset_union_right
      · exact hready.trans hmono
    constructor
    · intro i
      by_cases hi : i = t
      · subst hi
        have hi' : (s'.pageTab i).view.known =
            (s.pageTab i).view.known ∪ CountsPagesL2.pageSlots address := by
          rw [htab, Function.update_self, hview]
          rfl
        rw [hi']
        exact Set.union_subset ((hs.known i).trans hmono) hnew
      · have hi' : s'.pageTab i = s.pageTab i := by rw [htab, Function.update_of_ne hi]
        rw [hi']
        exact (hs.known i).trans hmono
    · rw [hrest]
      refine htail.mono fun b hb => ?_
      rcases hb with hready | ⟨rfl, rfl⟩
      · exact hready.trans hmono
      · exact hnew
  · have hsame : ∀ i, (s'.pageTab i).view.known = (s.pageTab i).view.known := by
      intro i
      rw [htab]
      by_cases hi : i = tabInd n aux
      · subst hi
        rw [Function.update_self, CountsPagesL2.view_increase href, Counters.known_add]
      · rw [Function.update_of_ne hi]
    constructor
    · intro i
      rw [hsame, hsame]
      exact hs.known i
    · rw [halloc, hsame]
      exact hs.prepared

theorem covers_start : start.Covers := ⟨fun _ _ hq => hq, trivial⟩

theorem covers_run {acts : List Action} (hrun : runFrom (step n) start acts = some s) : s.Covers :=
  run_invariant (P := fun _ => True) (fun _ _ _ hs _ h => hs.step h) covers_start (fun _ _ => trivial) hrun

/-- What has been asked for has been allocated, or is going to be. -/
def Requested (n : ℕ) (infos : List DlPhdrInfo) (s : Program) : Prop :=
  ∀ e ∈ pageAllocations n infos,
    e ∈ s.allocating ∨ CountsPagesL2.pageSlots e.2 ⊆ (s.pageTab e.1).view.known

theorem requested_step {infos : List DlPhdrInfo} (hs : s.Requested n infos) (ha : isInit a = false)
    (h : s.step n a = some s') : s'.Requested n infos := by
  intro e he
  have hmono := known_step ha h e.1
  rcases hs e he with hpend | hknown
  · rcases step_cases h with ⟨_, -, hempty, -, -⟩ |
      ⟨t, address, rest, tab, -, hpending, hrest, hpage, htab⟩ | ⟨_, _, _, -, halloc, -, -⟩
    · rw [hempty] at hpend
      cases hpend
    · rw [hpending] at hpend
      rcases List.mem_cons.1 hpend with rfl | hin
      · right
        rw [htab, Function.update_self, CountsPagesL2.view_allocatePage hpage]
        exact Set.subset_union_right
      · exact Or.inl (hrest ▸ hin)
    · exact Or.inl (halloc ▸ hpend)
  · exact Or.inr (hknown.trans hmono)

/-! ## The report -/

end Program

/-- The number that the report has for a slot. -/
def Report.count (r : Report) (q : UInt64) : UInt64 :=
  ((r.counts.filter (·.1 = q)).map Prod.snd).sum

namespace Program
variable {n : ℕ} {s s' : Program} {a : Action}

theorem sum_range_eq (hn : 0 < n) (f : ℕ → UInt64) :
    ∑ t ∈ Finset.range n, f t = f 0 + ((List.range' 1 (n - 1)).reverse.map f).sum := by
  obtain ⟨m, rfl⟩ : ∃ m, n = m + 1 := ⟨n - 1, by omega⟩
  have hlist : ∑ i ∈ Finset.range m, f (1 + i) = ((List.range m).map fun i => f (1 + i)).sum := rfl
  rw [Finset.sum_range_succ', Nat.add_sub_cancel, List.map_reverse, List.sum_reverse,
    List.range'_eq_map_range, List.map_map, add_comm]
  simp only [Nat.add_comm _ 1]
  rw [hlist]
  rfl

/-- **The report** has what the tables amount to. -/
theorem finish_eq (hn : 0 < n) (hs : s.Covers) : ∃ r, s.finish n = some r ∧
    (∀ q, r.count q = s.slotTotal n q) ∧ (r.counts.map Prod.snd).sum + r.unknown = s.grandTotal n ∧
      r.counts.Pairwise (fun e f => e.1.toNat < f.1.toNat) ∧ ∀ e ∈ r.counts, IsSlot e.1 ∧ e.2 ≠ 0 := by
  obtain ⟨last, hfold, hcount, htotal⟩ := CountsPagesL2.foldlM_mergeInto s.pageTab
    (List.range' 1 (n - 1)).reverse (s.pageTab 0) fun t _ => hs.known t
  have hfinish : s.finish n = some ⟨last.entries, last.unknown⟩ := by
    rw [finish, hfold]
    rfl
  have hlists := CountsPagesL2.lists_entries last
  have hsorted := CountsPagesL2.entries_pairwise (t := last)
  have hslots : ∀ e ∈ last.entries, IsSlot e.1 ∧ e.2 ≠ 0 :=
    fun e he => ⟨CountsPagesL2.isSlot_of_mem_entries he, (CountsPagesL2.mem_entries_view.1 he).1⟩
  generalize last.entries = counts at hfinish hlists hsorted hslots
  refine ⟨⟨counts, last.unknown⟩, hfinish, fun q => ?_, ?_, hsorted, hslots⟩
  · rw [slotTotal, sum_range_eq hn]
    exact (hlists.sum_filter q).trans (hcount q)
  · rw [grandTotal, sum_range_eq hn, ← htotal, Counters.total,
      ← hlists.sum_eq CountsPagesL2.clean_view (CountsPagesL2.known_subset_allSlots last)]
    rfl

/-- The report has the calls of each slot that were made while its page was allocated; and with the
    unknown ones all that were made. -/
structure Conserved (n : ℕ) (acts : List Action) (r : Report) : Prop where
  slots : ∀ q, IsSlot q → r.count q = UInt64.ofNat (slotCalls n q start acts)
  all : (r.counts.map Prod.snd).sum + r.unknown = UInt64.ofNat (numCalls n start acts)

/-- No count is lost by allocating a page. -/
theorem count_allocatePage (h : s.step n .allocatePage = some s') (t : ℕ) :
    (s.pageTab t).view.known ⊆ (s'.pageTab t).view.known ∧
      (s'.pageTab t).view.count = (s.pageTab t).view.count ∧
      (s'.pageTab t).unknown = (s.pageTab t).unknown := by
  refine ⟨known_step rfl h t, ?_⟩
  rcases step_cases h with ⟨_, hinfos, -⟩ | ⟨t', address, rest, tab, -, -, -, hpage, htab⟩ | ⟨_, _, _, heq, -⟩
  · rcases hinfos with heq | heq <;> cases heq
  · rw [htab]
    by_cases ht : t = t'
    · subst ht
      rw [Function.update_self, CountsPagesL2.view_allocatePage hpage]
      exact ⟨rfl, (CountsPagesL2.page_allocatePage hpage).2.1⟩
    · rw [Function.update_of_ne ht]
      exact ⟨rfl, rfl⟩
  · cases heq

/-- Every address of an allocated segment has its own slot in every table. -/
theorem own_slot {before after : List Action} {infos : List DlPhdrInfo}
    (ha : a = .funcountInit infos ∨ a = .dlopen infos) (hafter : ∀ b ∈ after, isInit b = false)
    (hrun : runFrom (step n) start (before ++ a :: after) = some s) (hdone : s.allocating = [])
    {info : DlPhdrInfo} (hinfo : info ∈ infos) {phdr : Phdr} (hphdr : phdr ∈ info.dlpiPhdr)
    (htext : phdr.isText) {address : UInt64}
    (hspace : (info.dlpiAddr + phdr.pVaddr).toNat + phdr.pMemsz.toNat ≤ 2 ^ 48)
    (hlow : (info.dlpiAddr + phdr.pVaddr).toNat ≤ address.toNat)
    (hhigh : address.toNat < (info.dlpiAddr + phdr.pVaddr).toNat + phdr.pMemsz.toNat) {t : ℕ} (ht : t < n) :
    ∃ hi mid lo, (s.pageTab t).getCount address = some (.slot hi mid lo) ∧
      slotAddress hi mid lo = slotOf address := by
  have hlt : address.toNat < 2 ^ 48 := by omega
  refine CountsPagesL2.getCount_of_known hlt ?_
  obtain ⟨b, hb, hsame⟩ := exists_mem_rangeAddresses hlow hhigh hspace
  have hmem : (t, b) ∈ pageAllocations n infos := by
    refine List.mem_flatMap.2 ⟨info, hinfo, List.mem_flatMap.2 ⟨phdr, List.mem_filter.2 ⟨hphdr, htext⟩, ?_⟩⟩
    exact List.mem_flatMap.2 ⟨t, List.mem_range.2 ht, List.mem_map.2 ⟨b, hb, rfl⟩⟩
  rw [runFrom_append] at hrun
  obtain ⟨s₀, -, hrest⟩ := Option.bind_eq_some_iff.1 hrun
  obtain ⟨s₁, hstep, hrest⟩ := runFrom_cons hrest
  have hfirst : s₁.Requested n infos := by
    intro e he
    rcases ha with rfl | rfl <;> simp only [step] at hstep <;> split_ifs at hstep <;>
      obtain rfl := Option.some.inj hstep <;> exact Or.inl he
  have hreq : s.Requested n infos :=
    run_invariant (fun _ _ _ hs hb h => requested_step hs hb h) hfirst hafter hrest
  have hknown := (hreq _ hmem).resolve_left (by rw [hdone]; exact List.not_mem_nil)
  exact hknown (CountsPagesL2.mem_pageSlots hlt hsame)

/-- The report of a program that calls `funcount_init` has what is counted from then on. -/
theorem report_eq (hn : 0 < n) {before after : List Action} {infos : List DlPhdrInfo}
    (hafter : ∀ b ∈ after, isInit b = false)
    (hrun : runFrom (step n) start (before ++ .funcountInit infos :: after) = some s) :
    ∃ r s₁, s.finish n = some r ∧ (∀ q, r.count q = UInt64.ofNat (slotCalls n q s₁ after)) ∧
      (r.counts.map Prod.snd).sum + r.unknown = UInt64.ofNat (numCalls n s₁ after) ∧
      (∀ q, slotCalls n q start (before ++ .funcountInit infos :: after) =
        slotCalls n q start before + slotCalls n q s₁ after) ∧
      numCalls n start (before ++ .funcountInit infos :: after) =
        numCalls n start before + numCalls n s₁ after ∧
      r.counts.Pairwise (fun e f => e.1.toNat < f.1.toNat) ∧ ∀ e ∈ r.counts, IsSlot e.1 ∧ e.2 ≠ 0 := by
  obtain ⟨r, hr, hcount, htotal, hwell⟩ := finish_eq hn (covers_run hrun)
  rw [runFrom_append] at hrun
  obtain ⟨s₀, hs₀, hrest⟩ := Option.bind_eq_some_iff.1 hrun
  obtain ⟨s₁, hstep, hrest⟩ := runFrom_cons hrest
  -- `funcount_init` clears all tables, and is no call.
  have hcleared : s₁.pageTab = fun _ => .init := by
    simp only [step] at hstep
    split_ifs at hstep
    obtain rfl := Option.some.inj hstep
    rfl
  refine ⟨r, s₁, hr, fun q => ?_, ?_, fun q => ?_, ?_, hwell⟩
  · have hadds : ∀ s a s', isInit a = false → step n s a = some s' →
        s'.slotTotal n q = s.slotTotal n q + ofNatHom (countsIn n q s a) :=
      fun _ _ _ ha h => slotTotal_step hn q ha h
    have hmeasure := run_measure ofNatHom hadds hafter hrest
    have hzero : s₁.slotTotal n q = 0 := by
      rw [slotTotal, hcleared]
      exact Finset.sum_eq_zero fun t _ => by simp [CountsPagesL2.view, CountsPagesL2.page, CountsPagesL2.init]
    rw [hcount, hmeasure, hzero, zero_add]
    rfl
  · have hadds : ∀ s a s', isInit a = false → step n s a = some s' →
        s'.grandTotal n = s.grandTotal n + ofNatHom (if isCall a then 1 else 0) :=
      fun _ _ _ ha h => grandTotal_step hn ha h
    have hmeasure := run_measure ofNatHom hadds hafter hrest
    have hzero : s₁.grandTotal n = 0 := by
      rw [grandTotal, hcleared]
      exact Finset.sum_eq_zero fun t _ => by
        simp [Counters.total, CountsPagesL2.view, CountsPagesL2.page, CountsPagesL2.init]
    rw [htotal, hmeasure, hzero, zero_add]
    rfl
  · rw [slotCalls, sumAlong_append _ _ hs₀, sumAlong, hstep]
    exact congrArg _ (Nat.zero_add _)
  · rw [numCalls, sumAlong_append _ _ hs₀, sumAlong, hstep]
    exact congrArg _ (Nat.zero_add _)

/-- **Call counts are conserved** if and only if nothing was counted before `funcount_init`; and no
    allocation loses a count, and every address of an allocated segment has its own slot. -/
theorem counts_conserved_iff (hn : 0 < n) {before after : List Action} {infos : List DlPhdrInfo}
    (hafter : ∀ b ∈ after, isInit b = false)
    (hrun : runFrom (step n) start (before ++ .funcountInit infos :: after) = some s) :
    (∃ r, s.finish n = some r ∧ r.counts.Pairwise (fun e f => e.1.toNat < f.1.toNat) ∧
      (∀ e ∈ r.counts, IsSlot e.1 ∧ e.2 ≠ 0) ∧
      (Conserved n (before ++ .funcountInit infos :: after) r ↔
        (∀ q, IsSlot q → UInt64.ofNat (slotCalls n q start before) = 0) ∧
          UInt64.ofNat (numCalls n start before) = 0)) ∧
    (∀ s s' t, step n s .allocatePage = some s' →
      (s.pageTab t).view.known ⊆ (s'.pageTab t).view.known ∧
        (s'.pageTab t).view.count = (s.pageTab t).view.count ∧
        (s'.pageTab t).unknown = (s.pageTab t).unknown) ∧
    (∀ mid post loaded a s', runFrom (step n) start (mid ++ a :: post) = some s' →
      a = .funcountInit loaded ∨ a = .dlopen loaded → (∀ b ∈ post, isInit b = false) →
      s'.allocating = [] → ∀ info ∈ loaded, ∀ phdr ∈ info.dlpiPhdr, phdr.isText →
      (info.dlpiAddr + phdr.pVaddr).toNat + phdr.pMemsz.toNat ≤ 2 ^ 48 →
      ∀ address : UInt64, (info.dlpiAddr + phdr.pVaddr).toNat ≤ address.toNat →
        address.toNat < (info.dlpiAddr + phdr.pVaddr).toNat + phdr.pMemsz.toNat →
        ∀ t < n, ∃ hi mid lo, (s'.pageTab t).getCount address = some (.slot hi mid lo) ∧
          slotAddress hi mid lo = slotOf address) := by
  refine ⟨?_, fun s s' t h => count_allocatePage h t, ?_⟩
  · obtain ⟨r, s₁, hr, hslot, hall, hslotCalls, hnumCalls, hsorted, hslots⟩ := report_eq hn hafter hrun
    refine ⟨r, hr, hsorted, hslots, ?_⟩
    constructor
    · rintro ⟨hslots, hcalls⟩
      constructor
      · intro q hq
        have heq := (hslot q).symm.trans (hslots q hq)
        rw [hslotCalls, UInt64.ofNat_add] at heq
        exact add_eq_right.1 heq.symm
      · rw [hall, hnumCalls, UInt64.ofNat_add] at hcalls
        exact add_eq_right.1 hcalls.symm
    · rintro ⟨hslots, hcalls⟩
      constructor
      · intro q hq
        rw [hslot, hslotCalls, UInt64.ofNat_add, hslots q hq, zero_add]
      · rw [hall, hnumCalls, UInt64.ofNat_add, hcalls, zero_add]
  · intro mid post loaded a s' hrun' ha hpost hdone info hinfo phdr hphdr htext hspace address hlow hhigh t ht
    exact own_slot ha hpost hrun' hdone hinfo hphdr htext hspace hlow hhigh ht

/-- An executable with a page of code. -/
def demoImage : DlPhdrInfo := ⟨0, "", [⟨⟨0x1000, 0x401000, 0x1000⟩, 1, 5, 0x1000⟩]⟩

/-- Two tables; two calls of the code on two cores, and one of something unknown. -/
theorem counts_conserved_iff_demo :
    let acts : List Action := [.funcountInit [demoImage], .allocatePage, .allocatePage, .allocatePage,
      .allocatePage, .enter 0 0x401000, .enter 1 0x401008, .enter 1 0x900000]
    ∃ s r, runFrom (step 2) start acts = some s ∧ s.finish 2 = some r ∧ Conserved 2 acts r := by
  intro acts
  have hsome : (runFrom (step 2) start acts).isSome := by decide +kernel
  obtain ⟨s, hs⟩ := Option.isSome_iff_exists.1 hsome
  obtain ⟨⟨r, hr, -, -, hiff⟩, -, -⟩ := @counts_conserved_iff 2 s (by decide) [] acts.tail [demoImage]
    (by decide) hs
  exact ⟨s, r, hs, hr, hiff.2 ⟨fun _ _ => rfl, rfl⟩⟩

/-- A call before `funcount_init`, of a shared object's constructor: it is counted as unknown, and
    that count is cleared. -/
theorem not_conserved :
    let acts : List Action :=
      [.enter 0 0x7f0000001000, .funcountInit [demoImage], .allocatePage, .allocatePage]
    ∃ s r, runFrom (step 1) start acts = some s ∧ s.finish 1 = some r ∧ ¬ Conserved 1 acts r := by
  intro acts
  have hsome : (runFrom (step 1) start acts).isSome := by decide +kernel
  obtain ⟨s, hs⟩ := Option.isSome_iff_exists.1 hsome
  obtain ⟨r, s₁, hr, -, hall, -, hnumCalls, -⟩ := @report_eq 1 s (by decide)
    [.enter 0 0x7f0000001000] [.allocatePage, .allocatePage] [demoImage] (by decide) hs
  refine ⟨s, r, hs, hr, fun hconserved => ?_⟩
  have hcalls := hconserved.all
  have hbefore : numCalls 1 start [.enter 0 0x7f0000001000] = 1 := by decide +kernel
  change _ = UInt64.ofNat (numCalls 1 start
    ([Action.enter 0 0x7f0000001000] ++ .funcountInit [demoImage] :: _)) at hcalls
  rw [hall, hnumCalls, hbefore, UInt64.ofNat_add] at hcalls
  exact absurd (add_eq_right.1 hcalls.symm) (by decide)

end Program

end Funcount

end Funtrace
