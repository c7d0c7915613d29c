/-
  Decoding the threads of a sample.

  `sampleCalls_eq` gives the calls made for a sample thread by thread, in terms of
  the lookups that the sample ends with (`sampleLookup`).  `loopAfter` is the loop
  over the first entries of one thread, in the middle of the sample; `loopAfter_eq`
  does the same for it.
-/
import Funtrace.Viz.Converter
import Funtrace.Viz.Runs

namespace Funtrace

/-! ## Order of cycles -/

section
variable {a b c : UInt64}

theorem max_cases (a b : UInt64) : (max a b = a ∧ b ≤ a) ∨ (max a b = b ∧ a ≤ b) := by
  change ((if a ≤ b then b else a) = a ∧ b ≤ a) ∨ ((if a ≤ b then b else a) = b ∧ a ≤ b)
  split_ifs with h
  exacts [Or.inr ⟨rfl, h⟩, Or.inl ⟨rfl, (UInt64.le_total a b).resolve_left h⟩]

theorem max_le_of_le (h : a ≤ c) (h' : b ≤ c) : max a b ≤ c := by
  rcases max_cases a b with ⟨hm, -⟩ | ⟨hm, -⟩ <;> rwa [hm]

theorem max_eq_of_le (h : b ≤ a) : max a b = a := by
  rcases max_cases a b with ⟨hm, -⟩ | ⟨hm, hle⟩
  exacts [hm, hm.trans (UInt64.le_antisymm h hle)]

theorem right_le_max (a b : UInt64) : b ≤ max a b := by
  rcases max_cases a b with ⟨hm, h⟩ | ⟨hm, -⟩ <;> rw [hm]
  exacts [h, UInt64.le_refl b]

theorem min_le_left (a b : UInt64) : min a b ≤ a := by
  change (if a ≤ b then a else b) ≤ a
  split_ifs with h
  exacts [UInt64.le_refl a, (UInt64.le_total a b).resolve_left h]

theorem min_le_right (a b : UInt64) : min a b ≤ b := by
  change (if a ≤ b then a else b) ≤ b
  split_ifs with h
  exacts [h, UInt64.le_refl b]

theorem head_le_of_sorted {α : Type} {f : α → UInt64} {l : List α} (hl : l.Pairwise (f · ≤ f ·))
    (hne : l ≠ []) {a : α} (ha : a ∈ l) : f (l.head hne) ≤ f a := by
  obtain ⟨x, xs, rfl⟩ := List.exists_cons_of_ne_nil hne
  rcases List.mem_cons.1 ha with rfl | ha
  exacts [UInt64.le_refl _, (List.pairwise_cons.1 hl).1 a ha]

end

/-! ## Calls of a sample -/

namespace TraceConverter
variable (w : World) (c : TraceConverter)

theorem extends_decodeThread (oldest : UInt64) (l : Lookup) (t : ThreadTrace) :
    l.Extends (decodeThread w oldest l t).1 :=
  extends_threadLoop w oldest _ t.trace (l, Dec.init)

theorem extends_decodeThreads (oldest : UInt64) :
    ∀ (ts : List ThreadTrace) (l : Lookup), l.Extends (c.decodeThreads w oldest l ts).1
  | [], l => Lookup.Extends.refl l
  | t :: ts, l => by
    simp only [decodeThreads]
    refine Lookup.Extends.trans ?_ (extends_decodeThreads oldest ts _)
    split_ifs
    exacts [extends_decodeThread w oldest l t, Lookup.Extends.refl l]

/-- The lookups with which the decoding of a sample ends. -/
def sampleLookup (sampleEntries : List ThreadTrace) (ftraceEvents : List FtraceEvent) : Lookup :=
  (c.decodeThreads w (c.oldestEvent sampleEntries ftraceEvents) c.lookup sampleEntries).1

/-- The calls made for a thread, given the lookups that the sample ends with. -/
def threadCalls (l : Lookup) (oldest : UInt64) (t : ThreadTrace) : List FunctionCall :=
  if c.selects t then
    decodeReported l.sym (max (t.trace.head t.nonempty).cycle oldest)
      (t.trace.getLast t.nonempty).cycle (t.trace.filter (l.reports oldest))
  else []

theorem decodeThreads_eq (oldest : UInt64) {l' : Lookup} :
    ∀ (ts : List ThreadTrace) (l : Lookup), (c.decodeThreads w oldest l ts).1.Extends l' →
      (c.decodeThreads w oldest l ts).2 = ts.map (c.threadCalls l' oldest)
  | [], _, _ => rfl
  | t :: ts, l, hl' => by
    simp only [decodeThreads, List.map_cons] at hl' ⊢
    rw [decodeThreads_eq oldest ts _ hl']
    congr 1
    have hext := (extends_decodeThreads w c oldest ts _).trans hl'
    unfold threadCalls
    split_ifs at hext ⊢
    · exact decodeThread_eq w oldest hext
    · rfl

/-- **The calls of a sample**, thread by thread. -/
theorem sampleCalls_eq (sampleEntries : List ThreadTrace) (ftraceEvents : List FtraceEvent) :
    c.sampleCalls w sampleEntries ftraceEvents =
      sampleEntries.map (c.threadCalls (c.sampleLookup w sampleEntries ftraceEvents)
        (c.oldestEvent sampleEntries ftraceEvents)) :=
  c.decodeThreads_eq w _ sampleEntries c.lookup (Lookup.Extends.refl _)

/-! ## The loop over one thread -/

theorem decodeThreads_append (oldest : UInt64) (ts ts' : List ThreadTrace) :
    ∀ l, (c.decodeThreads w oldest l (ts ++ ts')).1 =
      (c.decodeThreads w oldest (c.decodeThreads w oldest l ts).1 ts').1 := by
  induction ts with
  | nil => exact fun l => rfl
  | cons t ts ih => exact fun l => ih _

/-- What the lookups of the entries that are decoded keep, a sample keeps. -/
theorem decodeThreads_keeps_on {P : Lookup → Prop} {oldest : UInt64} (ts : List ThreadTrace) :
    (∀ t ∈ ts, c.selects t → ∀ e ∈ t.trace, oldest ≤ e.cycle → ∀ l, P l → P (l.resolve w e.addr)) →
      ∀ l : Lookup, P l → P (c.decodeThreads w oldest l ts).1 := by
  induction ts with
  | nil => exact fun _ l h => h
  | cons t ts ih =>
    intro hkeeps l h
    refine ih (fun t ht => hkeeps t (List.mem_cons_of_mem _ ht)) _ ?_
    split_ifs with hsel
    exacts [threadLoop_keeps w oldest _ t.trace (hkeeps t List.mem_cons_self hsel) (l, Dec.init) h, h]

/-- What every lookup keeps, a sample keeps. -/
theorem decodeThreads_keeps {P : Lookup → Prop} (hkeeps : ∀ l a, P l → P (l.resolve w a))
    (oldest : UInt64) (ts : List ThreadTrace) :
    ∀ l : Lookup, P l → P (c.decodeThreads w oldest l ts).1 :=
  c.decodeThreads_keeps_on w ts fun _ _ _ e _ _ l h => hkeeps l e.addr h

variable (sampleEntries : List ThreadTrace) (ftraceEvents : List FtraceEvent)

theorem ignoresThunks_sampleLookup :
    (c.sampleLookup w sampleEntries ftraceEvents).IgnoresThunks :=
  c.decodeThreads_keeps w (fun l a => Lookup.ignoresThunks_resolve w l a) _ _ _
    (by simp [Lookup.IgnoresThunks, lookup])

/-- The loop over the first `k` entries of the `i`-th thread: the lookups and the state of
    the decoder after them, and the calls made for them. -/
def loopAfter (i : Fin sampleEntries.length) (k : ℕ) : (Lookup × Dec) × List FunctionCall :=
  let t := sampleEntries.get i
  let oldest := c.oldestEvent sampleEntries ftraceEvents
  let l := (c.decodeThreads w oldest c.lookup (sampleEntries.take i)).1
  threadLoop w oldest (max (t.trace.head t.nonempty).cycle oldest) (l, Dec.init) (t.trace.take k)

theorem extends_loopAfter {i : Fin sampleEntries.length} (hsel : c.selects (sampleEntries.get i))
    (k : ℕ) : (c.loopAfter w sampleEntries ftraceEvents i k).1.1.Extends
      (c.sampleLookup w sampleEntries ftraceEvents) := by
  set t := sampleEntries.get i with ht
  set oldest := c.oldestEvent sampleEntries ftraceEvents with hold
  have hsplit : sampleEntries = sampleEntries.take i ++ t :: sampleEntries.drop (i + 1) := by
    rw [ht]; simp
  have hfinal : c.sampleLookup w sampleEntries ftraceEvents =
      (c.decodeThreads w oldest (c.decodeThreads w oldest c.lookup (sampleEntries.take i)).1
        (t :: sampleEntries.drop (i + 1))).1 := by
    rw [← decodeThreads_append, ← hsplit]; rfl
  have hloop : (c.loopAfter w sampleEntries ftraceEvents i k).1.1.Extends
      (decodeThread w oldest (c.decodeThreads w oldest c.lookup (sampleEntries.take i)).1 t).1 := by
    have happ := threadLoop_append w oldest (max (t.trace.head t.nonempty).cycle oldest)
      ((c.decodeThreads w oldest c.lookup (sampleEntries.take i)).1, Dec.init)
      (t.trace.take k) (t.trace.drop k)
    rw [List.take_append_drop] at happ
    simp only [decodeThread, happ]
    exact extends_threadLoop w oldest _ _ _
  rw [hfinal, decodeThreads]
  simp only [hsel, if_true]
  exact hloop.trans (c.extends_decodeThreads w oldest _ _)

/-- **The loop over one thread**, given the lookups that the sample ends with. -/
theorem loopAfter_eq {i : Fin sampleEntries.length} (hsel : c.selects (sampleEntries.get i)) (k : ℕ) :
    ((c.loopAfter w sampleEntries ftraceEvents i k).1.2,
      (c.loopAfter w sampleEntries ftraceEvents i k).2) =
    runEntries (c.sampleLookup w sampleEntries ftraceEvents).sym
      (max ((sampleEntries.get i).trace.head (sampleEntries.get i).nonempty).cycle
        (c.oldestEvent sampleEntries ftraceEvents)) Dec.init
      (((sampleEntries.get i).trace.take k).filter
        ((c.sampleLookup w sampleEntries ftraceEvents).reports
          (c.oldestEvent sampleEntries ftraceEvents))) :=
  threadLoop_eq w _ _ _ _ Dec.init (by simp [Dec.init])
    (c.extends_loopAfter w sampleEntries ftraceEvents hsel k)

section
variable {w c sampleEntries ftraceEvents} {sym : UInt64 → SymInfo}

/-- The loop over a window all of whose addresses resolve. -/
theorem loopAfter_resolved {i : Fin sampleEntries.length} (hsel : c.selects (sampleEntries.get i))
    (hres : (c.sampleLookup w sampleEntries ftraceEvents).Resolves sym (sampleEntries.get i).trace)
    (hold : ∀ e ∈ (sampleEntries.get i).trace, c.oldestEvent sampleEntries ftraceEvents ≤ e.cycle)
    (k : ℕ) : ((c.loopAfter w sampleEntries ftraceEvents i k).1.2,
      (c.loopAfter w sampleEntries ftraceEvents i k).2) =
    runEntries sym (max ((sampleEntries.get i).trace.head (sampleEntries.get i).nonempty).cycle
        (c.oldestEvent sampleEntries ftraceEvents)) Dec.init ((sampleEntries.get i).trace.take k) := by
  have htake : ∀ e ∈ (sampleEntries.get i).trace.take k, e ∈ (sampleEntries.get i).trace :=
    fun e he => List.mem_of_mem_take he
  have hprefix : (c.sampleLookup w sampleEntries ftraceEvents).Resolves sym
      ((sampleEntries.get i).trace.take k) :=
    ⟨fun e he => hres.found e (htake e he), fun e he => hres.noThunk e (htake e he)⟩
  rw [loopAfter_eq w c sampleEntries ftraceEvents hsel, hprefix.filter_reports
    (c.ignoresThunks_sampleLookup w _ _) fun e he => hold e (htake e he)]
  exact runEntries_congr _ _ hprefix.found _ (by simp [Dec.init])

theorem threadCalls_resolved {i : Fin sampleEntries.length} (hsel : c.selects (sampleEntries.get i))
    (hres : (c.sampleLookup w sampleEntries ftraceEvents).Resolves sym (sampleEntries.get i).trace)
    (hold : ∀ e ∈ (sampleEntries.get i).trace, c.oldestEvent sampleEntries ftraceEvents ≤ e.cycle) :
    (c.sampleCalls w sampleEntries ftraceEvents).getD i [] =
      decodeReported sym (max ((sampleEntries.get i).trace.head (sampleEntries.get i).nonempty).cycle
          (c.oldestEvent sampleEntries ftraceEvents))
        ((sampleEntries.get i).trace.getLast (sampleEntries.get i).nonempty).cycle (sampleEntries.get i).trace := by
  have hcalls : (c.sampleCalls w sampleEntries ftraceEvents).getD i [] =
      c.threadCalls (c.sampleLookup w sampleEntries ftraceEvents)
        (c.oldestEvent sampleEntries ftraceEvents) (sampleEntries.get i) := by
    rw [sampleCalls_eq]; simp
  rw [hcalls, threadCalls, if_pos hsel,
    hres.filter_reports (c.ignoresThunks_sampleLookup w _ _) hold]
  exact decodeReported_congr hres.found

theorem foldl_min_le (f : ThreadTrace → UInt64) (ts : List ThreadTrace) : ∀ x : UInt64,
    ts.foldl (fun o t => min (f t) o) x ≤ x ∧
      ∀ t ∈ ts, ts.foldl (fun o t => min (f t) o) x ≤ f t := by
  induction ts with
  | nil => exact fun x => ⟨UInt64.le_refl x, by simp⟩
  | cons t ts ih =>
    intro x
    obtain ⟨hx, hts⟩ := ih (min (f t) x)
    refine ⟨UInt64.le_trans hx (min_le_right _ _), fun t' ht' => ?_⟩
    rcases List.mem_cons.1 ht' with rfl | ht'
    exacts [UInt64.le_trans hx (min_le_left _ _), hts t' ht']

theorem selects_default (hargs : c.args = Cli.default) (t : ThreadTrace) : c.selects t := by
  simp [selects, hargs, Cli.default]

/-- Without options nothing is too old. -/
theorem oldest_le_head (hargs : c.args = Cli.default) {t : ThreadTrace} (ht : t ∈ sampleEntries) :
    c.oldestEvent sampleEntries ftraceEvents ≤ (t.trace.head t.nonempty).cycle := by
  have hall : sampleEntries.filter c.selects = sampleEntries :=
    List.filter_eq_self.2 fun t _ => selects_default hargs t
  have hfold := (foldl_min_le (fun t => (t.trace.head t.nonempty).cycle) sampleEntries (0 - 1)).2 t ht
  simp only [oldestEvent, hall, hargs, Cli.default]
  cases ftraceEvents.head? with
  | none => exact hfold
  | some e => exact UInt64.le_trans (min_le_right _ _) hfold

end

end TraceConverter

/-! ## A small program

Concrete runs are decoded for a program with three functions, a thunk and one map. -/

/-- A small program: `f()`, `g()`, `h()` and a thunk to `g()`, loaded at 0x1000. -/
def demoWorld : World where
  execFile path := if path = "prog" then
      .elf
        { dynsyms := []
          syms := [⟨0x100, 0x10, "f()"⟩, ⟨0x200, 0x10, "g()"⟩, ⟨0x300, 0x10, "h()"⟩,
            ⟨0x400, 0x10, "virtual override thunk to g()"⟩]
          programHeaders := [⟨0, 0, 0x1000⟩]
          findLocation := fun _ => none
          findFrames := fun _ => none }
    else .missing
  demangle _ := none
  subsPath := []
  memoryMaps _ := some [⟨0x1000, 0x2000, 0, some "prog"⟩]
  sourceFile _ := none

/-- The converter after the maps of the program were read, at a frequency of 1 GHz. -/
def demoConverter : TraceConverter :=
  { TraceConverter.new Cli.default with
    procaddr2sym := { ProcAddr2Sym.new with maps := [⟨0x1000, 0x2000, 0, some "prog"⟩] }
    cpuFreq := 1000000000 }

/-- A thread with these entries. -/
def demoThread (e : FunTraceEntry) (es : List FunTraceEntry) : ThreadTrace :=
  ⟨⟨1, 1, Vector.replicate 16 0⟩, e :: es, List.cons_ne_nil e es⟩

end Funtrace
