/-
  The counts go to the right function.

  A call is counted in the slot of 8 bytes that has the function's first byte, and the
  report has the slot's address.  So the count goes to the function if and only if its
  symbol is the one that the slot's address is found in (`Owns`), and it goes to no
  other function if that is no other's symbol (`counted_iff`).  A function that starts
  within a slot may be found in the symbol before it (`not_counted`).
-/
import Funtrace.Proof.StaticAddr
import Funtrace.Proof.SymbolSearch
import Funtrace.Proof.Counts
import Funtrace.Viz.Funcount2Sym

namespace Funtrace

/-! ## The lines -/

namespace Funcount2Sym
open ProcAddr2Sym
variable {w : World}

theorem countLines_eq : ∀ {p : ProcAddr2Sym}, p.Current w → OwnStarts p.maps → p.panicked = false →
    ∀ counts : List (UInt64 × UInt64), countLines w p counts =
      if counts.any fun e => unreadableAt w p.maps e.1 then none
      else some (counts.map fun e => ⟨e.2, e.1, symInfoAt w p.maps e.1⟩)
  | _, _, _, _, [] => rfl
  | p, h, hstarts, hintact, (address, count) :: rest => by
    obtain ⟨hcur, hmaps, hpanic⟩ := h.lookup address
    rw [hintact, Bool.false_or] at hpanic
    rw [countLines, List.any_cons, List.map_cons]
    dsimp only
    rw [hpanic]
    cases hread : unreadableAt w p.maps address with
    | true => rfl
    | false =>
      have ih := countLines_eq hcur (hmaps ▸ hstarts) (hpanic.trans hread) rest
      rw [hmaps] at ih
      rw [if_neg Bool.false_ne_true, ih, h.procAddr2Sym_fst hstarts, Bool.false_or]
      split_ifs <;> rfl

/-- **What is printed**, a line for each count, unless an executable cannot be parsed. -/
theorem main_eq {data : List UInt8} {maps : List MemoryMap} (hparse : w.memoryMaps data = some maps)
    (hranges : Ranges maps) (r : Funcount.Report) : ∃ maps', maps'.Perm maps ∧
      maps'.Pairwise (·.start ≤ ·.start) ∧
      main w data r = if r.counts.any fun e => unreadableAt w maps' e.1 then none
        else some (r.counts.map fun e => ⟨e.2, e.1, symInfoAt w maps' e.1⟩) := by
  have hset := setProcMaps_eq new hparse
  have hcur := current_new.setProcMaps hset
  have hperm : (maps.insertionSort fun a b => a.start ≤ b.start).Perm maps :=
    List.perm_insertionSort _ maps
  refine ⟨_, hperm, hcur.sorted, ?_⟩
  rw [main, hset, Option.bind_some]
  exact countLines_eq hcur (fun m hm n hn => (hranges.perm hperm).eq_of_start hm hn) rfl r.counts

end Funcount2Sym

/-! ## Functions -/

/-- A function of a running program: where it is, the map and the executable it is in, and the
    symbol that covers it. -/
structure CountedFunction where
  start : UInt64
  len : ℕ
  map : MemoryMap
  path : String
  elf : Elf
  sym : Symbol

namespace CountedFunction
variable (w : World)

/-- Neither contains a byte of the other. -/
def Disjoint (f g : CountedFunction) : Prop :=
  f.start.toNat + f.len ≤ g.start.toNat ∨ g.start.toNat + g.len ≤ f.start.toNat

/-- A line is a function's if it has the symbol. -/
def HasLine (f : CountedFunction) (line : CountLine) : Prop :=
  line.syminfo.executableFile = substitutePath w f.path ∧
    line.syminfo.staticAddr = f.sym.baseAddress ∧ line.syminfo.size = f.sym.size

instance (f : CountedFunction) (line : CountLine) : Decidable (f.HasLine w line) :=
  inferInstanceAs (Decidable (_ ∧ _ ∧ _))

/-- The sum of the counts in a function's lines. -/
def printed (f : CountedFunction) (lines : List CountLine) : ℕ :=
  ((lines.filter fun line => f.HasLine w line).map (·.count.toNat)).sum

/-- The function's symbol is that of its slot: of the symbols of the executable it is the last
    that starts at or before the slot's address there, and it reaches it. -/
def Owns (f : CountedFunction) : Prop :=
  ∃ off, ProcAddr2Sym.vaddrOffset f.elf f.map = some off ∧
    ∃ s, symbolBefore (readElfSymbols f.elf) (Funcount.slotOf f.start - f.map.start + off) = some s ∧
      s.baseAddress = f.sym.baseAddress ∧ s.size = f.sym.size ∧
      Funcount.slotOf f.start - f.map.start + off < s.baseAddress + s.size

/-- The two have one symbol, as where an object is loaded twice. -/
def SameSymbol (f g : CountedFunction) : Prop :=
  substitutePath w f.path = substitutePath w g.path ∧
    f.sym.baseAddress = g.sym.baseAddress ∧ f.sym.size = g.sym.size

/-- Disjoint functions of more than 8 bytes in mapped executables, whose symbols have a size. -/
structure Layout (maps : List MemoryMap) (fs : List CountedFunction) : Prop where
  long : ∀ f ∈ fs, 8 < f.len
  disjoint : fs.Pairwise Disjoint
  mem : ∀ f ∈ fs, f.map ∈ maps
  start : ∀ f ∈ fs, f.map.start ≤ f.start
  stop : ∀ f ∈ fs, f.start < f.map.stop
  /-- maps begin with a page -/
  page : ∀ f ∈ fs, f.map.start.toNat % 8 = 0
  path : ∀ f ∈ fs, f.map.path = some f.path
  elf : ∀ f ∈ fs, w.execFile (substitutePath w f.path) = .elf f.elf
  size : ∀ f ∈ fs, f.sym.size ≠ 0

variable {w} {maps maps' : List MemoryMap} {fs : List CountedFunction} {f g : CountedFunction}

theorem Layout.eq_of_slotOf (h : Layout w maps fs) (hf : f ∈ fs) (hg : g ∈ fs)
    (hslot : Funcount.slotOf f.start = Funcount.slotOf g.start) : f = g := by
  by_contra hne
  have hslot' := congrArg UInt64.toNat hslot
  rw [Funcount.toNat_slotOf, Funcount.toNat_slotOf] at hslot'
  have hlongf := h.long f hf
  have hlongg := h.long g hg
  have hsymm : Std.Symm Disjoint := ⟨fun _ _ hd => hd.symm⟩
  rcases h.disjoint.forall hf hg hne with hd | hd <;> omega

/-- The slot of a function's first byte is in its map. -/
theorem Layout.le_slotOf (h : Layout w maps fs) (hf : f ∈ fs) :
    f.map.start ≤ Funcount.slotOf f.start := by
  have hstart := h.start f hf
  have hpage := h.page f hf
  rw [UInt64.le_iff_toNat_le] at hstart ⊢
  rw [Funcount.toNat_slotOf]
  omega

theorem Layout.slotOf_lt (h : Layout w maps fs) (hf : f ∈ fs) :
    Funcount.slotOf f.start < f.map.stop := by
  refine UInt64.lt_of_le_of_lt ?_ (h.stop f hf)
  rw [UInt64.le_iff_toNat_le, Funcount.toNat_slotOf]
  omega

theorem Layout.map_slotOf (h : Layout w maps fs) (hranges : Ranges maps) (hperm : maps'.Perm maps)
    (hsorted : maps'.Pairwise (·.start ≤ ·.start)) (hf : f ∈ fs) :
    findAddressInMaps (Funcount.slotOf f.start) maps' = some f.map :=
  findAddressInMaps_eq hsorted (hranges.perm hperm) (hperm.mem_iff.2 (h.mem f hf)) (h.le_slotOf hf)
    (h.slotOf_lt hf)

/-- Looking up a slot does not panic. -/
theorem Layout.readable (h : Layout w maps fs) (hranges : Ranges maps) (hperm : maps'.Perm maps)
    (hsorted : maps'.Pairwise (·.start ≤ ·.start)) (hf : f ∈ fs) :
    ProcAddr2Sym.unreadableAt w maps' (Funcount.slotOf f.start) = false := by
  rw [ProcAddr2Sym.unreadableAt, h.map_slotOf hranges hperm hsorted hf, Option.bind_some, h.path f hf,
    Option.any_some, h.elf f hf]
  rfl

/-- **A function has the line of its slot** if and only if it owns it. -/
theorem Layout.hasLine_iff (h : Layout w maps fs) (hranges : Ranges maps) (hperm : maps'.Perm maps)
    (hsorted : maps'.Pairwise (·.start ≤ ·.start)) (hf : f ∈ fs) {count : UInt64} :
    f.HasLine w ⟨count, Funcount.slotOf f.start,
      ProcAddr2Sym.symInfoAt w maps' (Funcount.slotOf f.start)⟩ ↔ f.Owns := by
  have hsize := h.size f hf
  have hfound : ProcAddr2Sym.found w maps' (Funcount.slotOf f.start) =
      (ProcAddr2Sym.vaddrOffset f.elf f.map).map fun off =>
        (f.elf, substitutePath w f.path, Funcount.slotOf f.start - f.map.start + off) := by
    rw [ProcAddr2Sym.found, h.map_slotOf hranges hperm hsorted hf, Option.bind_some, h.path f hf,
      Option.bind_some, h.elf f hf, Executable.elf?, Option.bind_some]
  unfold HasLine Owns ProcAddr2Sym.symInfoAt
  rw [hfound]
  cases ProcAddr2Sym.vaddrOffset f.elf f.map with
  | none => simp [ProcAddr2Sym.unknownSymbol, hsize.symm]
  | some off =>
    simp only [Option.map_some, Option.some.injEq, exists_eq_left', ProcAddr2Sym.symbolize, true_and,
      findSymbol_eq (readElfSymbols_sorted _)]
    cases symbolBefore (readElfSymbols f.elf) (Funcount.slotOf f.start - f.map.start + off) with
    | none => simp [hsize.symm]
    | some s =>
      rw [Option.filter_some]
      split_ifs with hreach
      · rw [decide_eq_true_eq] at hreach
        simp [hreach]
      · rw [decide_eq_true_eq] at hreach
        simp [hreach, hsize.symm]

theorem HasLine.sameSymbol {line : CountLine} (hf : f.HasLine w line) (hg : g.HasLine w line) :
    SameSymbol w f g :=
  ⟨hf.1.symm.trans hg.1, hf.2.1.symm.trans hg.2.1, hf.2.2.symm.trans hg.2.2⟩

theorem SameSymbol.hasLine {line : CountLine} (h : SameSymbol w f g) (hf : f.HasLine w line) :
    g.HasLine w line :=
  ⟨hf.1.trans h.1, hf.2.1.trans h.2.1, hf.2.2.trans h.2.2⟩

end CountedFunction

/-! ## The report -/

namespace Funcount
open Funcount2Sym ProcAddr2Sym

section
variable {r : Report}

theorem Report.filter_eq_singleton (hsorted : r.counts.Pairwise fun e f => e.1.toNat < f.1.toNat)
    {e : UInt64 × UInt64} (he : e ∈ r.counts) : (r.counts.filter (·.1 = e.1)) = [e] := by
  obtain ⟨l₁, l₂, hsplit⟩ := List.append_of_mem he
  rw [hsplit] at hsorted ⊢
  obtain ⟨-, hright, hleft⟩ := List.pairwise_append.1 hsorted
  have hl₁ : l₁.filter (·.1 = e.1) = [] := List.filter_eq_nil_iff.2 fun f hf heq => by
    have hlt := hleft f hf e List.mem_cons_self
    rw [of_decide_eq_true heq] at hlt
    exact Nat.lt_irrefl _ hlt
  have hl₂ : l₂.filter (·.1 = e.1) = [] := List.filter_eq_nil_iff.2 fun f hf heq => by
    have hlt := (List.pairwise_cons.1 hright).1 f hf
    rw [of_decide_eq_true heq] at hlt
    exact Nat.lt_irrefl _ hlt
  rw [List.filter_append, hl₁, List.nil_append, List.filter_cons_of_pos (by simp), hl₂]

theorem Report.count_of_mem (hsorted : r.counts.Pairwise fun e f => e.1.toNat < f.1.toNat)
    {e : UInt64 × UInt64} (he : e ∈ r.counts) : r.count e.1 = e.2 := by
  rw [Report.count, Report.filter_eq_singleton hsorted he]
  simp

/-- At most one count is of a slot, so that nothing overflows. -/
theorem Report.sum_toNat (hsorted : r.counts.Pairwise fun e f => e.1.toNat < f.1.toNat) (q : UInt64) :
    ((r.counts.filter (·.1 = q)).map fun e => e.2.toNat).sum = (r.count q).toNat := by
  by_cases hq : ∃ e ∈ r.counts, e.1 = q
  · obtain ⟨e, he, rfl⟩ := hq
    rw [Report.count, Report.filter_eq_singleton hsorted he]
    simp
  · have hnone : r.counts.filter (·.1 = q) = [] := List.filter_eq_nil_iff.2 fun e he heq =>
      hq ⟨e, he, of_decide_eq_true heq⟩
    rw [Report.count, hnone]
    rfl

end

namespace Program
variable {n : ℕ} {s : Program}

/-- Is it a call of this function? -/
def isCallOf (func : UInt64) : Action → Bool
  | .enter _ func' => func' = func
  | _ => false

/-- Is it a call that this slot counts? -/
def isCallIn (q : UInt64) : Action → Bool
  | .enter _ func => slotOf func = q
  | _ => false

theorem isCall_of_isCallOf {func : UInt64} {a : Action} (h : isCallOf func a = true) :
    isCall a = true := by
  cases a with
  | enter => rfl
  | _ => cases h

theorem isCall_of_isCallIn {q : UInt64} {a : Action} (h : isCallIn q a = true) : isCall a = true := by
  cases a with
  | enter => rfl
  | _ => cases h

/-- A call is made while the page of the function is allocated. -/
def InAllocated (n : ℕ) (s : Program) : Action → Prop
  | .enter aux func => ((s.pageTab (tabInd n aux)).page func).isSome
  | _ => True

theorem countsIn_eq {q : UInt64} {a : Action} (h : InAllocated n s a) :
    countsIn n q s a = if isCallIn q a then 1 else 0 := by
  cases a with
  | enter aux func =>
    unfold InAllocated at h
    simp [countsIn, isCallIn, h]
  | _ => rfl

theorem slotCalls_eq {acts : List Action} {s' : Program} (hok : Along (step n) (InAllocated n) s acts)
    (hrun : runFrom (step n) s acts = some s') (q : UInt64) :
    slotCalls n q s acts = acts.countP (isCallIn q) := by
  have hcounts : ∀ s a, InAllocated n s a → countsIn n q s a = if isCallIn q a then 1 else 0 :=
    fun s a h => countsIn_eq h
  exact sumAlong_eq_countP hcounts hok hrun

/-- The report of a program that makes all its calls after `funcount_init`, in allocated pages. -/
theorem report_of_calls (hn : 0 < n) {before after : List Action} {infos : List DlPhdrInfo}
    (hbefore : ∀ a ∈ before, isCall a = false) (hafter : ∀ a ∈ after, isInit a = false)
    (hok : Along (step n) (InAllocated n) start (before ++ .funcountInit infos :: after))
    (hrun : runFrom (step n) start (before ++ .funcountInit infos :: after) = some s) :
    ∃ r, s.finish n = some r ∧ (∀ q, r.count q = UInt64.ofNat (after.countP (isCallIn q))) ∧
      r.counts.Pairwise (fun e f => e.1.toNat < f.1.toNat) ∧ ∀ e ∈ r.counts, e.2 ≠ 0 := by
  obtain ⟨r, s₁, hr, hcount, -, hcalls, -, hsorted, hslots⟩ := report_eq hn hafter hrun
  refine ⟨r, hr, fun q => ?_, hsorted, fun e he => (hslots e he).2⟩
  have hwhole := slotCalls_eq hok hrun q
  rw [runFrom_append] at hrun
  obtain ⟨s₀, hs₀, -⟩ := Option.bind_eq_some_iff.1 hrun
  have hprefix := slotCalls_eq ((along_append _ _ _).1 hok).1 hs₀ q
  have hnone : before.countP (isCallIn q) = 0 := List.countP_eq_zero.2 fun a ha hin => by
    have hcall := hbefore a ha
    rw [isCall_of_isCallIn hin] at hcall
    cases hcall
  rw [hcalls, hprefix, hnone, List.countP_append, hnone, List.countP_cons] at hwhole
  have hafter' : slotCalls n q s₁ after = after.countP (isCallIn q) := by
    simpa [isCallIn] using hwhole
  rw [hcount, hafter']

/-! ## Every function's count -/

variable (n) in
/-- A run of a program after its calls of functions: all of them after `funcount_init`, and in pages
    that are allocated. -/
structure Calls (fs : List CountedFunction) (before : List Action) (infos : List DlPhdrInfo)
    (after : List Action) (s : Program) : Prop where
  once : ∀ a ∈ after, isInit a = false
  functions : ∀ aux func, .enter aux func ∈ after → ∃ f ∈ fs, f.start = func
  allocated : Along (step n) (InAllocated n) start (before ++ .funcountInit infos :: after)
  run : runFrom (step n) start (before ++ .funcountInit infos :: after) = some s

variable (n) in
/-- A function can be called: there is a run without calls after which its page is allocated. -/
def CanCall (before : List Action) (infos : List DlPhdrInfo) (f : CountedFunction) : Prop :=
  f.start.toNat < 2 ^ 48 ∧ ∃ after aux s, (∀ a ∈ after, isInit a = false ∧ isCall a = false) ∧
    runFrom (step n) start (before ++ .funcountInit infos :: after) = some s ∧
      ((s.pageTab (tabInd n aux)).page f.start).isSome

variable (n) in
/-- After every run each function has its number of calls in the lines that are its own. -/
def Counted (w : World) (data : List UInt8) (fs : List CountedFunction) (before : List Action)
    (infos : List DlPhdrInfo) : Prop :=
  ∀ after s, Calls n fs before infos after s → ∃ r lines, s.finish n = some r ∧
    Funcount2Sym.main w data r = some lines ∧
      ∀ f ∈ fs, f.printed w lines = after.countP (isCallOf f.start) % 2 ^ 64

variable {w : World} {data : List UInt8} {maps : List MemoryMap} {fs : List CountedFunction}
  {before after : List Action} {infos : List DlPhdrInfo}

theorem printed_map (f : CountedFunction) (maps : List MemoryMap) (counts : List (UInt64 × UInt64)) :
    f.printed w (counts.map fun e => ⟨e.2, e.1, symInfoAt w maps e.1⟩) =
      ((counts.filter fun e => f.HasLine w ⟨e.2, e.1, symInfoAt w maps e.1⟩).map fun e =>
        e.2.toNat).sum := by
  rw [CountedFunction.printed, List.filter_map, List.map_map]
  rfl

/-- The calls in a function's slot are its own. -/
theorem countP_isCallIn (hlayout : CountedFunction.Layout w maps fs)
    (hcalls : ∀ aux func, Action.enter aux func ∈ after → ∃ f ∈ fs, f.start = func)
    {f : CountedFunction} (hf : f ∈ fs) :
    after.countP (isCallIn (slotOf f.start)) = after.countP (isCallOf f.start) := by
  refine List.countP_congr fun a ha => ?_
  cases a with
  | enter aux func =>
    obtain ⟨g, hg, rfl⟩ := hcalls aux func ha
    simp only [isCallIn, isCallOf, decide_eq_true_eq]
    constructor
    · intro hslot
      rw [hlayout.eq_of_slotOf hg hf hslot]
    · exact congrArg slotOf
  | _ => exact Iff.rfl

/-- **Functions that own their slots** have their counts. -/
theorem counted_of_owns (hn : 0 < n) (hparse : w.memoryMaps data = some maps) (hranges : Ranges maps)
    (hlayout : CountedFunction.Layout w maps fs) (hbefore : ∀ a ∈ before, isCall a = false)
    (howns : ∀ f ∈ fs, f.Owns)
    (hsymbols : ∀ f ∈ fs, ∀ g ∈ fs, CountedFunction.SameSymbol w f g → f = g) :
    Counted n w data fs before infos := by
  intro after s hcalls
  obtain ⟨r, hr, hcount, hsorted, hnonzero⟩ :=
    report_of_calls hn hbefore hcalls.once hcalls.allocated hcalls.run
  obtain ⟨maps', hperm, hmaps', hmain⟩ := main_eq hparse hranges r
  -- Every count is of the slot of a function.
  have hslots : ∀ e ∈ r.counts, ∃ g ∈ fs, slotOf g.start = e.1 := by
    intro e he
    have hne : after.countP (isCallIn e.1) ≠ 0 := fun hzero => by
      refine hnonzero e he ?_
      rw [← Report.count_of_mem hsorted he, hcount, hzero]
      rfl
    obtain ⟨a, ha, hin⟩ := List.countP_pos_iff.1 (Nat.pos_of_ne_zero hne)
    cases a with
    | enter aux func =>
      obtain ⟨g, hg, rfl⟩ := hcalls.functions aux func ha
      exact ⟨g, hg, of_decide_eq_true hin⟩
    | _ => cases hin
  have hreadable : (r.counts.any fun e => unreadableAt w maps' e.1) = false := by
    rw [List.any_eq_false]
    intro e he
    obtain ⟨g, hg, hslot⟩ := hslots e he
    rw [← hslot, hlayout.readable hranges hperm hmaps' hg]
    exact Bool.false_ne_true
  rw [hreadable, if_neg Bool.false_ne_true] at hmain
  refine ⟨r, _, hr, hmain, fun f hf => ?_⟩
  -- The function's lines are those of its slot.
  have hline : ∀ e ∈ r.counts,
      f.HasLine w ⟨e.2, e.1, symInfoAt w maps' e.1⟩ ↔ e.1 = slotOf f.start := by
    intro e he
    obtain ⟨g, hg, hslot⟩ := hslots e he
    have hown : g.HasLine w ⟨e.2, e.1, symInfoAt w maps' e.1⟩ := by
      rw [← hslot]
      exact (hlayout.hasLine_iff hranges hperm hmaps' hg).2 (howns g hg)
    constructor
    · intro hf'
      rw [hsymbols f hf g hg (hf'.sameSymbol hown), hslot]
    · intro heq
      rw [← hslot] at heq
      rwa [← hlayout.eq_of_slotOf hg hf heq]
  have hfilter : (r.counts.filter fun e => f.HasLine w ⟨e.2, e.1, symInfoAt w maps' e.1⟩) =
      r.counts.filter (·.1 = slotOf f.start) :=
    List.filter_congr fun e he => by simpa using hline e he
  rw [printed_map, hfilter, Report.sum_toNat hsorted, hcount, countP_isCallIn hlayout hcalls.functions hf]
  exact UInt64.toNat_ofNat

/-- What is printed after one call of one function. -/
theorem report_of_call (hn : 0 < n) (hbefore : ∀ a ∈ before, isCall a = false) {f : CountedFunction}
    (hcan : CanCall n before infos f) (hf : f ∈ fs) :
    ∃ after s r, Calls n fs before infos after s ∧
      (∀ func, after.countP (isCallOf func) = if f.start = func then 1 else 0) ∧
      s.finish n = some r ∧ ∀ e ∈ r.counts, e.1 = slotOf f.start ∧ e.2 = 1 := by
  obtain ⟨hlt, after, aux, s, hquiet, hrun, hpage⟩ := hcan
  obtain ⟨ref, href⟩ := Option.isSome_iff_exists.1
    (CountsPagesL2.getCount_isSome (t := s.pageTab (tabInd n aux)) hlt)
  have hnocall : ∀ (g : Action → Bool), (∀ a, g a = true → isCall a = true) → after.countP g = 0 :=
    fun g hg => List.countP_eq_zero.2 fun a ha hga => by
      have hcall := hg a hga
      rw [(hquiet a ha).2] at hcall
      cases hcall
  obtain ⟨s', hstep⟩ : ∃ s', step n s (.enter aux f.start) = some s' := by
    rw [step, href]
    exact ⟨_, rfl⟩
  have hwhole : before ++ .funcountInit infos :: (after ++ [.enter aux f.start]) =
      (before ++ .funcountInit infos :: after) ++ [.enter aux f.start] := by simp
  have hcalls : Calls n fs before infos (after ++ [.enter aux f.start]) s' := by
    refine ⟨fun a ha => ?_, fun aux' func hmem => ?_, ?_, ?_⟩
    · rcases List.mem_append.1 ha with hin | hin
      · exact (hquiet a hin).1
      · rw [List.mem_singleton.1 hin]
        rfl
    · rcases List.mem_append.1 hmem with hin | hin
      · cases (hquiet _ hin).2
      · obtain ⟨rfl, rfl⟩ := Action.enter.inj (List.mem_singleton.1 hin)
        exact ⟨f, hf, rfl⟩
    · rw [hwhole, along_append]
      refine ⟨along_of_forall fun t a ha => ?_, fun t ht => ?_⟩
      · have hcall : isCall a = false := by
          rcases List.mem_append.1 ha with hin | hin
          · exact hbefore a hin
          · rcases List.mem_cons.1 hin with rfl | hin
            · rfl
            · exact (hquiet a hin).2
        cases a with
        | enter aux func => cases hcall
        | _ => trivial
      · obtain rfl := Option.some.inj (hrun.symm.trans ht)
        exact along_singleton.2 hpage
    · rw [hwhole, runFrom_append, hrun, Option.bind_some, runFrom, hstep]
      rfl
  obtain ⟨r, hr, hcount, hsorted, hnonzero⟩ :=
    report_of_calls hn hbefore hcalls.once hcalls.allocated hcalls.run
  refine ⟨_, _, r, hcalls, fun func => ?_, hr, fun e he => ?_⟩
  · rw [List.countP_append, hnocall _ fun a ha => isCall_of_isCallOf ha]
    simp [isCallOf]
  · have hval := Report.count_of_mem hsorted he
    rw [hcount, List.countP_append, hnocall _ fun a ha => isCall_of_isCallIn ha,
      Nat.zero_add, List.countP_singleton] at hval
    by_cases hslot : slotOf f.start = e.1
    · refine ⟨hslot.symm, ?_⟩
      rw [← hval]
      simp [isCallIn, hslot]
    · refine absurd ?_ (hnonzero e he)
      rw [← hval]
      simp [isCallIn, hslot]

/-- **A function that has its counts** owns its slot, and no other function has its symbol. -/
theorem owns_of_counted (hn : 0 < n) (hparse : w.memoryMaps data = some maps) (hranges : Ranges maps)
    (hlayout : CountedFunction.Layout w maps fs) (hbefore : ∀ a ∈ before, isCall a = false)
    {f : CountedFunction} (hf : f ∈ fs) (hcan : CanCall n before infos f)
    (hcounted : Counted n w data fs before infos) :
    f.Owns ∧ ∀ g ∈ fs, CountedFunction.SameSymbol w f g → f = g := by
  obtain ⟨after, s, r, hcalls, hnum, hr, hcounts⟩ := report_of_call hn hbefore hcan hf
  obtain ⟨r', lines, hr', hmain, hprinted⟩ := hcounted after s hcalls
  obtain rfl := Option.some.inj (hr.symm.trans hr')
  obtain ⟨maps', hperm, hmaps', hlines⟩ := main_eq hparse hranges r
  rw [hmain] at hlines
  split_ifs at hlines
  obtain rfl := Option.some.inj hlines
  -- The only line is the function's.
  obtain ⟨e, he, hline⟩ : ∃ e ∈ r.counts, f.HasLine w ⟨e.2, e.1, symInfoAt w maps' e.1⟩ := by
    by_contra hnone
    have hsum := hprinted f hf
    have hempty : (r.counts.filter fun e => f.HasLine w ⟨e.2, e.1, symInfoAt w maps' e.1⟩) = [] :=
      List.filter_eq_nil_iff.2 fun e he hline => hnone ⟨e, he, of_decide_eq_true hline⟩
    rw [printed_map, hempty, hnum, if_pos rfl] at hsum
    cases hsum
  obtain ⟨hslot, hone⟩ := hcounts e he
  refine ⟨?_, fun g hg hsame => ?_⟩
  · rw [hslot] at hline
    exact (hlayout.hasLine_iff hranges hperm hmaps' hf).1 hline
  · by_contra hne
    have hstart : f.start ≠ g.start := fun heq => hne (hlayout.eq_of_slotOf hf hg (congrArg slotOf heq))
    have hsum := hprinted g hg
    rw [printed_map, hnum, if_neg hstart, Nat.zero_mod, List.sum_eq_zero_iff_forall_eq_nat] at hsum
    have hzero := hsum _ (List.mem_map.2 ⟨e, List.mem_filter.2
      ⟨he, decide_eq_true (hsame.hasLine hline)⟩, rfl⟩)
    rw [hone] at hzero
    cases hzero

/-- **Counts go to the right function**, in a layout of functions that can be called, if and only if
    every function owns its slot and no two have one symbol. -/
theorem counted_iff (hn : 0 < n) (hparse : w.memoryMaps data = some maps) (hranges : Ranges maps)
    (hlayout : CountedFunction.Layout w maps fs) (hbefore : ∀ a ∈ before, isCall a = false)
    (hcan : ∀ f ∈ fs, CanCall n before infos f) :
    Counted n w data fs before infos ↔
      (∀ f ∈ fs, f.Owns) ∧ ∀ f ∈ fs, ∀ g ∈ fs, CountedFunction.SameSymbol w f g → f = g := by
  constructor
  · intro hcounted
    exact ⟨fun f hf => (owns_of_counted hn hparse hranges hlayout hbefore hf (hcan f hf) hcounted).1,
      fun f hf => (owns_of_counted hn hparse hranges hlayout hbefore hf (hcan f hf) hcounted).2⟩
  · rintro ⟨howns, hsymbols⟩
    exact counted_of_owns hn hparse hranges hlayout hbefore howns hsymbols

/-! ## Two functions in a page -/

/-- The page of `demoImage`. -/
def codeMap : MemoryMap := ⟨0x401000, 0x402000, 0x1000, some "prog"⟩

/-- The maps that are saved. -/
def codeText : List UInt8 := "00401000-00402000 r-xp 00001000 103:07 1234 prog\n".toUTF8.toList

/-- The file of the small program. -/
def codeElf (syms : List Symbol) : Elf where
  dynsyms := []
  syms := syms
  programHeaders := demoImage.dlpiPhdr.map Phdr.toProgramHeader
  findLocation _ := none
  findFrames _ := none

/-- The decoder's surroundings, with a parser that knows this text. -/
def codeWorld (syms : List Symbol) : World where
  execFile path := if path = "prog" then .elf (codeElf syms) else .missing
  demangle _ := none
  subsPath := []
  memoryMaps data := if data = codeText then some [codeMap] else none
  sourceFile _ := none

/-- The function of a symbol, which is loaded where its symbol is. -/
def codeFunction (syms : List Symbol) (sym : Symbol) : CountedFunction where
  start := sym.baseAddress
  len := sym.size.toNat
  map := codeMap
  path := "prog"
  elf := codeElf syms
  sym := sym

/-- What is reported of the functions of these symbols. -/
def codeFunctions (syms : List Symbol) : List CountedFunction := syms.map (codeFunction syms)

theorem ranges_code : Ranges [codeMap] := ⟨by decide, List.pairwise_singleton _ _⟩

/-- A symbol of more than 8 bytes in the page. -/
def InCode (sym : Symbol) : Prop :=
  8 < sym.size.toNat ∧ 0x401000 ≤ sym.baseAddress ∧ sym.baseAddress < 0x402000

instance (sym : Symbol) : Decidable (InCode sym) := inferInstanceAs (Decidable (_ ∧ _ ∧ _))

section
variable {syms : List Symbol}

theorem memoryMaps_code : (codeWorld syms).memoryMaps codeText = some [codeMap] := if_pos rfl

theorem vaddrOffset_code : vaddrOffset (codeElf syms) codeMap = some 0x401000 := by
  simp [vaddrOffset, codeElf, codeMap, demoImage]

theorem layout_code (hin : ∀ sym ∈ syms, InCode sym)
    (hdisjoint : syms.Pairwise fun s t => s.baseAddress.toNat + s.size.toNat ≤ t.baseAddress.toNat) :
    CountedFunction.Layout (codeWorld syms) [codeMap] (codeFunctions syms) where
  long := List.forall_mem_map.2 fun sym hsym => (hin sym hsym).1
  disjoint := List.pairwise_map.2 (hdisjoint.imp Or.inl)
  mem := List.forall_mem_map.2 fun _ _ => List.mem_singleton_self _
  start := List.forall_mem_map.2 fun sym hsym => (hin sym hsym).2.1
  stop := List.forall_mem_map.2 fun sym hsym => (hin sym hsym).2.2
  page := List.forall_mem_map.2 fun _ _ => show codeMap.start.toNat % 8 = 0 by decide
  path := List.forall_mem_map.2 fun _ _ => rfl
  elf := List.forall_mem_map.2 fun _ _ => rfl
  size := List.forall_mem_map.2 fun sym hsym hzero => by
    have hlong := (hin sym hsym).1
    have hzero' : sym.size = 0 := hzero
    rw [hzero'] at hlong
    exact absurd hlong (by decide)

theorem canCall_code (hin : ∀ sym ∈ syms, InCode sym) :
    ∀ f ∈ codeFunctions syms, CanCall 1 [] [demoImage] f := by
  refine List.forall_mem_map.2 fun sym hsym => ?_
  obtain ⟨-, hlow, hhigh⟩ := hin sym hsym
  have hlow' : 0x401000 ≤ sym.baseAddress.toNat := hlow
  have hhigh' : sym.baseAddress.toNat < 0x402000 := hhigh
  have hrun : ((runFrom (step 1) start [.funcountInit [demoImage], .allocatePage]).map fun s =>
      ((s.pageTab 0).page 0x400000).isSome) = some true := by decide +kernel
  obtain ⟨s, hs, hsome⟩ := Option.map_eq_some_iff.1 hrun
  have hpage : SamePage 0x400000 sym.baseAddress := by
    rw [samePage_iff]
    change _ = 0x400000 / 2 ^ 16
    omega
  refine ⟨Nat.lt_trans hhigh' (by decide), [.allocatePage], 0, s, ?_, hs, ?_⟩
  · intro a ha
    rw [List.mem_singleton.1 ha]
    exact ⟨rfl, rfl⟩
  · rw [← CountsPagesL2.page_congr (t := s.pageTab 0) hpage] at hsome
    exact hsome

end

/-- Both start with a slot. -/
def alignedSyms : List Symbol := [⟨0x401000, 0x14, "g"⟩, ⟨0x401018, 0x10, "f"⟩]

/-- The second starts where the first ends. -/
def packedSyms : List Symbol := [⟨0x401000, 0x14, "g"⟩, ⟨0x401014, 0x10, "f"⟩]

/-- Functions that start with a slot have their counts. -/
theorem counted_iff_demo :
    Counted 1 (codeWorld alignedSyms) codeText (codeFunctions alignedSyms) [] [demoImage] := by
  have hin : ∀ sym ∈ alignedSyms, InCode sym := by simp [alignedSyms, InCode]
  refine (counted_iff (by decide) memoryMaps_code ranges_code (layout_code hin (by simp [alignedSyms]))
    (List.forall_mem_nil _) (canCall_code hin)).2 ⟨?_, ?_⟩
  · refine List.forall_mem_cons.2 ⟨⟨0x401000, vaddrOffset_code, ⟨0x401000, 0x14, "g"⟩, ?_, rfl, rfl, ?_⟩,
      List.forall_mem_singleton.2 ⟨0x401000, vaddrOffset_code, ⟨0x401018, 0x10, "f"⟩, ?_, rfl, rfl, ?_⟩⟩
    all_goals simp [symbolBefore, readElfSymbols, codeFunction, codeElf, codeMap, slotOf, countSize, alignedSyms]
  · simp [codeFunctions, codeFunction, alignedSyms, CountedFunction.SameSymbol]

/-- The one that starts where the other ends, within a slot, has its calls counted as the other's. -/
theorem not_counted :
    CountedFunction.Layout (codeWorld packedSyms) [codeMap] (codeFunctions packedSyms) ∧
      (∀ f ∈ codeFunctions packedSyms, (f.elf.dynsyms ++ f.elf.syms).filter (fun s =>
        s.baseAddress ≤ f.start ∧ f.start.toNat + f.len ≤ s.baseAddress.toNat + s.size.toNat) = [f.sym]) ∧
      (∀ f ∈ codeFunctions packedSyms, CanCall 1 [] [demoImage] f) ∧
      ¬ Counted 1 (codeWorld packedSyms) codeText (codeFunctions packedSyms) [] [demoImage] := by
  have hin : ∀ sym ∈ packedSyms, InCode sym := by simp [packedSyms, InCode]
  have hlayout := layout_code hin (by simp [packedSyms])
  refine ⟨hlayout, ?_, canCall_code hin, fun hcounted => ?_⟩
  · simp [codeFunctions, codeFunction, codeElf, packedSyms]
  · have hf : codeFunction packedSyms ⟨0x401014, 0x10, "f"⟩ ∈ codeFunctions packedSyms := by
      simp [codeFunctions, packedSyms]
    obtain ⟨⟨off, hoff, s, hs, hbase, -⟩, -⟩ := owns_of_counted (by decide) memoryMaps_code ranges_code
      hlayout (List.forall_mem_nil _) hf (canCall_code hin _ hf) hcounted
    obtain rfl : 0x401000 = off := Option.some.inj (vaddrOffset_code.symm.trans hoff)
    -- The slot's address is still one of the first function.
    have hg : some ⟨0x401000, 0x14, "g"⟩ = some s := by
      rw [← hs]
      simp [symbolBefore, readElfSymbols, codeFunction, codeElf, codeMap, slotOf, countSize, packedSyms]
    obtain rfl := Option.some.inj hg
    exact absurd hbase (by decide)

end Program

end Funcount

end Funtrace
