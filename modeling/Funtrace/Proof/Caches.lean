/-
  What the caches of the decoder hold.

  A cached symbol is the one that is found without any cache (`Faithful`).  An address
  is ignored if it lies in a thunk and was looked up in the same sample: a thunk that
  the symbol cache has from an earlier sample is not ignored.  So the calls of a sample
  are given without lookups (`Ready.sampleCalls_eq`).

  A lookup panics if the file of the map cannot be parsed; no symbol of such a map is in
  the cache.  So the lookups of a sample panic if and only if one of the entries that are
  decoded lies in such a map (`Intact.completed_iff`).
-/
import Funtrace.Proof.StaticAddr
import Funtrace.Viz.Sample

namespace Funtrace
open ProcAddr2Sym

/-- A name by which the decoder tells what to ignore. -/
def isThunk (name : String) : Bool := containsStr name "virtual override thunk"

/-- Lookups that have not panicked if the files of all cached addresses can be parsed. -/
structure Lookup.Sound (w : World) (maps : List MemoryMap) (l : Lookup) : Prop where
  current : l.procaddr2sym.Current w
  maps_eq : l.procaddr2sym.maps = maps
  readable : l.procaddr2sym.panicked = false → ∀ a, (l.symCache a).isSome → unreadableAt w maps a = false

/-- Lookups that agree with those without caches, in a sample that starts with the symbols `old`. -/
structure Lookup.Faithful (w : World) (maps : List MemoryMap) (old : UInt64 → Option SymInfo)
    (l : Lookup) : Prop where
  current : l.procaddr2sym.Current w
  maps_eq : l.procaddr2sym.maps = maps
  cached : ∀ a s, l.symCache a = some s → s = symInfoAt w maps a
  kept : ∀ a, l.symCache a = none → old a = none
  ignored : ∀ a, a ∈ l.ignoreAddrs ↔
    isThunk (symInfoAt w maps a).demangledFunc ∧ old a = none ∧ (l.symCache a).isSome

section
variable {w : World} {maps : List MemoryMap} {old : UInt64 → Option SymInfo} {l : Lookup}

theorem Lookup.Sound.resolve (h : l.Sound w maps) (a : UInt64) : (l.resolve w a).Sound w maps := by
  unfold Lookup.resolve
  cases hcache : l.symCache a with
  | some s => exact h
  | none =>
    obtain ⟨hcur, hmaps, hpanic⟩ := h.current.lookup a
    rw [h.maps_eq] at hpanic
    refine ⟨hcur, hmaps.trans h.maps_eq, fun hintact b hb => ?_⟩
    rw [hpanic, Bool.or_eq_false_iff] at hintact
    by_cases hba : b = a
    · rw [hba]
      exact hintact.2
    · exact h.readable hintact.1 b (by simpa [Function.update_of_ne hba] using hb)

/-- A lookup panics if the file cannot be parsed. -/
theorem Lookup.Sound.panicked_resolve (h : l.Sound w maps) (hintact : l.procaddr2sym.panicked = false)
    {a : UInt64} (hread : unreadableAt w maps a = false) :
    (l.resolve w a).procaddr2sym.panicked = false := by
  unfold Lookup.resolve
  cases l.symCache a with
  | some s => exact hintact
  | none =>
    have hpanic := (h.current.lookup a).2.2
    rw [hintact, h.maps_eq, hread] at hpanic
    exact hpanic

theorem Lookup.Faithful.resolve (hstarts : OwnStarts maps) (h : l.Faithful w maps old) (a : UInt64) :
    (l.resolve w a).Faithful w maps old := by
  unfold Lookup.resolve
  cases hcache : l.symCache a with
  | some s => exact h
  | none =>
    obtain ⟨hcur, hmaps, -⟩ := h.current.lookup a
    have hsym : (l.procaddr2sym.procAddr2Sym w a).1 = symInfoAt w maps a := by
      rw [h.current.procAddr2Sym_fst (h.maps_eq ▸ hstarts), h.maps_eq]
    refine ⟨hcur, hmaps.trans h.maps_eq, fun b s hb => ?_, fun b hb => ?_, fun b => ?_⟩
    · by_cases hba : b = a
      · subst hba
        rw [← hsym]
        simpa using hb.symm
      · exact h.cached b s (by simpa [Function.update_of_ne hba] using hb)
    · by_cases hba : b = a
      · subst hba
        simp at hb
      · exact h.kept b (by simpa [Function.update_of_ne hba] using hb)
    · have hold := h.ignored b
      dsimp only
      by_cases hba : b = a
      · -- A new address: it was not ignored, and the sample did not start with it.
        subst hba
        have hnot : b ∉ l.ignoreAddrs := fun hb => by simp [hcache] at hold; exact hold hb
        rw [hsym, ← isThunk]
        cases isThunk (symInfoAt w maps b).demangledFunc <;> simp [hnot, h.kept b hcache]
      · rw [Function.update_of_ne hba, ← hold]
        split_ifs <;> simp [hba]

theorem Lookup.Faithful.sym_eq (h : l.Faithful w maps old) {a : UInt64} (ha : (l.symCache a).isSome) :
    l.sym a = symInfoAt w maps a := by
  obtain ⟨s, hs⟩ := Option.isSome_iff_exists.1 ha
  rw [← h.cached a s hs, Lookup.sym, hs, Option.getD_some]

end

namespace TraceConverter
variable {w : World} {c : TraceConverter} {sampleEntries : List ThreadTrace}
  {ftraceEvents : List FtraceEvent}

/-- The converter before a sample: no lookup has panicked. -/
structure Intact (w : World) (c : TraceConverter) : Prop where
  current : c.procaddr2sym.Current w
  completed : c.procaddr2sym.panicked = false
  readable : ∀ a, (c.symCache a).isSome → unreadableAt w c.procaddr2sym.maps a = false

/-- Its caches hold what would be found without them. -/
structure Ready (w : World) (c : TraceConverter) : Prop where
  current : c.procaddr2sym.Current w
  starts : OwnStarts c.procaddr2sym.maps
  cached : ∀ a s, c.symCache a = some s → s = symInfoAt w c.procaddr2sym.maps a

theorem Intact.sound (h : c.Intact w) : c.lookup.Sound w c.procaddr2sym.maps where
  current := h.current
  maps_eq := rfl
  readable _ := h.readable

theorem Intact.sound_sampleLookup (h : c.Intact w) :
    (c.sampleLookup w sampleEntries ftraceEvents).Sound w c.procaddr2sym.maps :=
  c.decodeThreads_keeps w (fun _ a hl => hl.resolve a) _ _ _ h.sound

/-- The converter after a sample whose lookups did not panic. -/
theorem Intact.of_sound {l : Lookup} {maps : List MemoryMap} (h : l.Sound w maps)
    (hcompleted : l.procaddr2sym.panicked = false) (hlookup : c.lookup = { l with ignoreAddrs := [] }) :
    c.Intact w := by
  have hprocs : c.procaddr2sym = l.procaddr2sym := congrArg Lookup.procaddr2sym hlookup
  have hcache : c.symCache = l.symCache := congrArg Lookup.symCache hlookup
  refine ⟨hprocs ▸ h.current, hprocs ▸ hcompleted, ?_⟩
  rw [hprocs, hcache, h.maps_eq]
  exact h.readable hcompleted

theorem intact_new (args : Cli) : (TraceConverter.new args).Intact w where
  current := current_new
  completed := rfl
  readable _ h := by cases h

/-- New maps go with an empty cache of symbols. -/
theorem Intact.setProcMaps (h : c.Intact w) {data : List UInt8} {p : ProcAddr2Sym}
    (hset : c.procaddr2sym.setProcMaps w data = some p) :
    { c with procaddr2sym := p, symCache := fun _ => none }.Intact w where
  current := h.current.setProcMaps hset
  completed := by
    obtain ⟨maps, -, rfl⟩ := Option.map_eq_some_iff.1 hset
    exact h.completed
  readable _ h := by cases h

theorem Ready.faithful (h : c.Ready w) : c.lookup.Faithful w c.procaddr2sym.maps c.symCache where
  current := h.current
  maps_eq := rfl
  cached := h.cached
  kept _ ha := ha
  ignored a := by
    cases ha : c.symCache a <;> simp [lookup, ha]

theorem Ready.faithful_sampleLookup (h : c.Ready w) :
    (c.sampleLookup w sampleEntries ftraceEvents).Faithful w c.procaddr2sym.maps c.symCache :=
  c.decodeThreads_keeps w (fun _ a hl => hl.resolve h.starts a) _ _ _ h.faithful

theorem decodeThreads_isSome (oldest : UInt64) {t : ThreadTrace} (hsel : c.selects t) {e : FunTraceEntry}
    (he : e ∈ t.trace) (hold : oldest ≤ e.cycle) : ∀ (ts : List ThreadTrace) (l : Lookup), t ∈ ts →
      ((c.decodeThreads w oldest l ts).1.symCache e.addr).isSome
  | t' :: ts, l, ht => by
    rw [decodeThreads]
    dsimp only
    rcases List.mem_cons.1 ht with rfl | ht
    · rw [if_pos hsel]
      have hloop := threadLoop_isSome w oldest (max (t.trace.head t.nonempty).cycle oldest) t.trace
        (l, Dec.init) e he hold
      obtain ⟨i, hi⟩ := Option.isSome_iff_exists.1 hloop
      have hext := c.extends_decodeThreads w oldest ts (decodeThread w oldest l t).1
      rw [(hext _ i hi).1]
      rfl
    · exact decodeThreads_isSome oldest hsel he hold ts _ ht

variable (w c) in
/-- No entry that is decoded lies in a map whose file cannot be parsed. -/
def ExecsRead (sampleEntries : List ThreadTrace) (ftraceEvents : List FtraceEvent) : Prop :=
  ∀ t ∈ sampleEntries, c.selects t → ∀ e ∈ t.trace,
    c.oldestEvent sampleEntries ftraceEvents ≤ e.cycle →
      unreadableAt w c.procaddr2sym.maps e.addr = false

/-- **The lookups of a sample** panic only if the file of a map cannot be parsed. -/
theorem Intact.completed_iff (h : c.Intact w) :
    (c.sampleLookup w sampleEntries ftraceEvents).procaddr2sym.panicked = false ↔
      c.ExecsRead w sampleEntries ftraceEvents := by
  constructor
  · intro hcompleted t ht hsel e he hold
    exact h.sound_sampleLookup.readable hcompleted _ (decodeThreads_isSome _ hsel he hold _ _ ht)
  · intro hread
    refine (c.decodeThreads_keeps_on (P := fun l => l.Sound w c.procaddr2sym.maps ∧
      l.procaddr2sym.panicked = false) w sampleEntries ?_ _ ⟨h.sound, h.completed⟩).2
    rintro t ht hsel e he hold l ⟨hsound, hintact⟩
    exact ⟨hsound.resolve _, hsound.panicked_resolve hintact (hread t ht hsel e he hold)⟩

variable (w c) in
/-- The symbol of an address, without any cache. -/
def symbols (a : UInt64) : SymInfo := symInfoAt w c.procaddr2sym.maps a

variable (w c) in
/-- The entries that are decoded: not too old, and in no thunk unless its symbol is cached from
    before the sample. -/
def heeds (oldest : UInt64) (e : FunTraceEntry) : Bool :=
  decide (oldest ≤ e.cycle) && (!isThunk (nameOf (c.symbols w) e) || (c.symCache e.addr).isSome)

theorem Ready.threadCalls_eq (h : c.Ready w) {t : ThreadTrace} (ht : t ∈ sampleEntries) :
    c.threadCalls (c.sampleLookup w sampleEntries ftraceEvents)
        (c.oldestEvent sampleEntries ftraceEvents) t =
      if c.selects t then
        decodeReported (c.symbols w) (max (t.trace.head t.nonempty).cycle
            (c.oldestEvent sampleEntries ftraceEvents)) (t.trace.getLast t.nonempty).cycle
          (t.trace.filter (c.heeds w (c.oldestEvent sampleEntries ftraceEvents)))
      else [] := by
  unfold threadCalls
  split_ifs with hsel
  · set oldest := c.oldestEvent sampleEntries ftraceEvents with holdest
    set l := c.sampleLookup w sampleEntries ftraceEvents with hl
    have hfaithful : l.Faithful w c.procaddr2sym.maps c.symCache := h.faithful_sampleLookup
    have hsome : ∀ e ∈ t.trace, oldest ≤ e.cycle → (l.symCache e.addr).isSome := fun e he hold =>
      decodeThreads_isSome oldest hsel he hold _ _ ht
    have hfilter : t.trace.filter (l.reports oldest) = t.trace.filter (c.heeds w oldest) := by
      refine List.filter_congr fun e he => ?_
      unfold Lookup.reports heeds
      by_cases hold : oldest ≤ e.cycle
      · have hign := hfaithful.ignored e.addr
        rw [and_iff_left (hsome e he hold)] at hign
        have hnot : ¬ oldest > e.cycle := UInt64.not_lt.2 hold
        rw [decide_eq_false hnot, decide_eq_true hold, Bool.not_false, Bool.true_and, Bool.true_and]
        rw [Bool.eq_iff_iff, Bool.not_eq_true', decide_eq_false_iff_not, hign, Bool.or_eq_true,
          Bool.not_eq_true', ← Option.ne_none_iff_isSome, Classical.not_and_iff_not_or_not,
          Bool.not_eq_true]
        rfl
      · simp [hold, UInt64.not_le.1 hold]
    rw [hfilter]
    refine decodeReported_congr fun e he => hfaithful.sym_eq (hsome e (List.mem_of_mem_filter he) ?_)
    have hheeds := (List.mem_filter.1 he).2
    unfold heeds at hheeds
    rw [Bool.and_eq_true, decide_eq_true_eq] at hheeds
    exact hheeds.1
  · rfl

/-- **The calls of a sample**, without lookups. -/
theorem Ready.sampleCalls_eq (h : c.Ready w) : c.sampleCalls w sampleEntries ftraceEvents =
    sampleEntries.map fun t => if c.selects t then
      decodeReported (c.symbols w) (max (t.trace.head t.nonempty).cycle
          (c.oldestEvent sampleEntries ftraceEvents)) (t.trace.getLast t.nonempty).cycle
        (t.trace.filter (c.heeds w (c.oldestEvent sampleEntries ftraceEvents)))
    else [] := by
  rw [TraceConverter.sampleCalls_eq]
  exact List.map_congr_left fun t ht => h.threadCalls_eq ht

end TraceConverter

end Funtrace
