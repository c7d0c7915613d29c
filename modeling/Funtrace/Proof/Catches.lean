/-
  Exceptions: the decoder against the real stack.

  In a legal run whose catches log an address in the catching function the decoder
  knows from the name how many frames an exception left, and unwinds those that it
  has.  Where every call is flagged as returning upon a throw, the returns of the
  frames are logged, and a catch has nothing to do.
-/
import Funtrace.Proof.Conservation
import Funtrace.Proof.RealRun
import Funtrace.Viz.Events

namespace Funtrace

section
variable {sym : UInt64 → SymInfo} {earliest : UInt64} {pre win post : List Event}

/-- At the start of a window the decoder has nothing. -/
theorem onTop_init : OnTop pre.length Dec.init.stack (realStack pre 0 []) :=
  ⟨[], realStack pre 0 [], rfl, rfl, by simp, fun p hp => by
    simpa using lt_of_mem_realStack pre (i := 0) (by simp) p hp⟩

theorem legalRun_window (h : LegalRun sym (pre ++ win ++ post) []) :
    LegalRun sym win ((realStack pre 0 []).map Prod.snd) := by
  rw [List.append_assoc] at h
  rw [realStack_snd]
  exact (legalRun_append.1 (legalRun_append.1 h).2).1

variable (earliest) in
/-- The decoder in the middle of a window of a legal run. -/
theorem onTop_window (h : LegalRun sym win ((realStack pre 0 []).map Prod.snd)) (k : ℕ) :
    OnTop pre.length (runEntries sym earliest Dec.init ((win.map Event.entry).take k)).1.stack
      (realStack (pre ++ win.take k) 0 []) := by
  rw [← List.take_append_drop k win] at h
  have h := (legalRun_append.1 h).1
  rw [realStack_append, ← List.map_take, Nat.zero_add]
  exact (run_legal (win.take k) le_rfl onTop_init h).1

variable (earliest) in
/-- What the decoder writes for an event in the middle of a window. -/
theorem written_window (h : LegalRun sym win ((realStack pre 0 []).map Prod.snd)) {k : ℕ}
    {ev : Event} (hk : win[k]? = some ev) :
    let d := (runEntries sym earliest Dec.init ((win.map Event.entry).take k)).1
    (handle sym earliest d ev.entry).2 = ev.written sym earliest d := by
  obtain ⟨D, R, hS, hd, -, -⟩ := onTop_window earliest h k
  obtain ⟨hlt, hev⟩ := List.getElem?_eq_some_iff.1 hk
  rw [← List.take_append_drop k win, List.drop_eq_getElem_cons hlt, hev] at h
  have hlegal := (legalRun_append.1 h).2.1
  rw [← realStack_snd (win.take k) pre.length,
    show realStack (win.take k) pre.length (realStack pre 0 []) = D ++ R by
      rw [← hS, realStack_append, Nat.zero_add], List.map_append, ← hd] at hlegal
  exact (handle_legal earliest hlegal).2.1

theorem not_unmatched_window (h : LegalRun sym win ((realStack pre 0 []).map Prod.snd)) :
    ∀ s ∈ runSteps sym earliest Dec.init (win.map Event.entry), ¬ Unmatched sym s.1.stack s.2 :=
  (run_legal win le_rfl onTop_init h).2

/-- A catch finds nothing to unwind if every call returns upon a throw. -/
theorem handle_catch_flagged {d : Dec} {e : FunTraceEntry} (he : e.isCatch)
    (hd : ∀ f ∈ d.stack, f.returnsUponThrow) : (handle sym earliest d e).1.stack = d.stack := by
  have hnone : d.stack.takeWhile (unwinds sym (nameOf sym e)) = [] := by
    cases hst : d.stack with
    | nil => rfl
    | cons f S =>
      have hf := hd f (by rw [hst]; exact List.mem_cons_self)
      exact List.takeWhile_cons_of_neg (by simp [unwinds, hf])
  rw [handle_catch earliest d he, popCount, if_pos he, hnone]
  rfl

end

/-! ## Samples -/

namespace TraceConverter
variable (w : World) (c : TraceConverter) (sampleEntries : List ThreadTrace)
  (ftraceEvents : List FtraceEvent)

/-- The entries of a thread are the window `win` of a legal run, and the decoder takes them all:
    the addresses resolve, there is no thunk, and nothing is too old. -/
structure IsWindow (i : Fin sampleEntries.length) (sym : UInt64 → SymInfo)
    (pre win post : List Event) : Prop where
  selected : c.selects (sampleEntries.get i)
  trace_eq : (sampleEntries.get i).trace = win.map Event.entry
  legal : LegalRun sym (pre ++ win ++ post) []
  sorted : (sampleEntries.get i).trace.Pairwise (·.cycle ≤ ·.cycle)
  resolves : (c.sampleLookup w sampleEntries ftraceEvents).Resolves sym (sampleEntries.get i).trace
  recent : ∀ e ∈ (sampleEntries.get i).trace, c.oldestEvent sampleEntries ftraceEvents ≤ e.cycle

section
variable {w c sampleEntries ftraceEvents} {i : Fin sampleEntries.length}
  {sym : UInt64 → SymInfo} {pre win post : List Event}

/-- The loop over the first entries of a window. -/
theorem IsWindow.loop_eq (h : c.IsWindow w sampleEntries ftraceEvents i sym pre win post) :
    ∃ earliest, ∀ k,
      (c.loopAfter w sampleEntries ftraceEvents i k).1.2 =
        (runEntries sym earliest Dec.init ((win.map Event.entry).take k)).1 ∧
      (c.loopAfter w sampleEntries ftraceEvents i k).2 =
        (runEntries sym earliest Dec.init ((win.map Event.entry).take k)).2 :=
  ⟨_, fun k => Prod.mk.inj ((loopAfter_resolved h.selected h.resolves h.recent k).trans
    (congrArg (fun es => runEntries sym _ Dec.init (es.take k)) h.trace_eq))⟩

theorem IsWindow.stack_eq (h : c.IsWindow w sampleEntries ftraceEvents i sym pre win post) (k : ℕ) :
    (c.loopAfter w sampleEntries ftraceEvents i k).1.2.stack =
      since pre.length (realStack (pre ++ win.take k) 0 []) := by
  obtain ⟨earliest, hloop⟩ := h.loop_eq
  rw [(hloop k).1]
  exact (onTop_window _ (legalRun_window h.legal) k).since_eq

/-- What the loop writes for a catch. -/
theorem IsWindow.calls_throw (h : c.IsWindow w sampleEntries ftraceEvents i sym pre win post)
    {k n : ℕ} {e : FunTraceEntry} (hk : win[k]? = some (.throw n e)) :
    (c.loopAfter w sampleEntries ftraceEvents i (k + 1)).2 =
      (c.loopAfter w sampleEntries ftraceEvents i k).2 ++
        popCalls sym e.cycle 1 (since pre.length ((realStack (pre ++ win.take k) 0 []).take n)) := by
  obtain ⟨earliest, hloop⟩ := h.loop_eq
  have hlegal := legalRun_window h.legal
  have hentry : (win.map Event.entry)[k]? = some e := by
    rw [List.getElem?_map, hk]
    rfl
  have hsnoc : (win.map Event.entry).take (k + 1) = (win.map Event.entry).take k ++ [e] := by
    rw [List.take_add_one, hentry]
    rfl
  rw [(hloop (k + 1)).2, (hloop k).2, hsnoc, runEntries_append]
  have hwritten : (handle sym earliest
      (runEntries sym earliest Dec.init ((win.map Event.entry).take k)).1 e).2 = _ :=
    written_window earliest hlegal hk
  simp only [runEntries, List.append_nil, hwritten]
  rw [Event.written, (onTop_window earliest hlegal k).since_take]

/-- Nothing of a window is lost or written twice. -/
theorem IsWindow.conserves (h : c.IsWindow w sampleEntries ftraceEvents i sym pre win post) :
    c.Conserves w sampleEntries ftraceEvents (sampleEntries.get i)
      ((c.sampleCalls w sampleEntries ftraceEvents).getD i []) := by
  have hcalls : (c.sampleCalls w sampleEntries ftraceEvents).getD i [] =
      c.threadCalls (c.sampleLookup w sampleEntries ftraceEvents)
        (c.oldestEvent sampleEntries ftraceEvents) (sampleEntries.get i) := by
    rw [sampleCalls_eq]; simp
  have hfilter := h.resolves.filter_reports (c.ignoresThunks_sampleLookup w _ _) h.recent
  rw [hcalls, Conserves, reportedSteps, threadCalls, if_pos h.selected, if_pos h.selected, hfilter]
  refine (conserved_decodeReported _ _ _ _).2 fun s hs hu => ?_
  have hstack : ∀ f ∈ s.1.stack, f ∈ (sampleEntries.get i).trace := fun f hf => by
    obtain ⟨es, es', hes, hstate⟩ := mem_runSteps.1 hs
    rw [hes]
    rw [hstate] at hf
    exact List.mem_append_left _ (mem_of_mem_stack hf)
  have hentry : s.2 ∈ (sampleEntries.get i).trace := by
    obtain ⟨es, es', hes, -⟩ := mem_runSteps.1 hs
    rw [hes]
    simp
  rw [runSteps_congr _ h.resolves.found] at hs
  rw [unmatched_congr (h.resolves.found _ hentry) fun f hf => h.resolves.found f (hstack f hf)] at hu
  generalize max ((sampleEntries.get i).trace.head _).cycle _ = earliest at hs
  rw [h.trace_eq] at hs
  exact not_unmatched_window (legalRun_window h.legal) s hs hu

/-- When what a catch writes ends. -/
theorem IsWindow.interval_throw (h : c.IsWindow w sampleEntries ftraceEvents i sym pre win post)
    {k n : ℕ} {e : FunTraceEntry} (hk : win[k]? = some (.throw n e)) {fs : List FunTraceEntry}
    (hfs : fs ⊆ (c.loopAfter w sampleEntries ftraceEvents i k).1.2.stack) {j : ℕ}
    (hj : j < (popCalls sym e.cycle 1 fs).length) (hfit : j + 1 < 2 ^ 31) :
    ((popCalls sym e.cycle 1 fs)[j].interval c.cpuFreq
        (c.thresholds sampleEntries ftraceEvents).2).2 =
      place c.cpuFreq (c.thresholds sampleEntries ftraceEvents).2 e.cycle + (j + 1 : ℕ) / 1000 := by
  obtain ⟨earliest, hloop⟩ := h.loop_eq
  have hlen : j < fs.length := by simpa using hj
  have hf := hfs (List.getElem_mem hlen)
  rw [(hloop k).1] at hf
  have hf := mem_of_mem_stack hf
  have hsplit : win.map Event.entry = (win.map Event.entry).take k ++
      (win.map Event.entry).drop k := (List.take_append_drop _ _).symm
  have he : e ∈ (win.map Event.entry).drop k := by
    obtain ⟨hlt, hev⟩ := List.getElem?_eq_some_iff.1 hk
    rw [← List.map_drop, List.drop_eq_getElem_cons hlt, hev]
    exact List.mem_cons_self
  have hle : fs[j].cycle ≤ e.cycle := by
    have hsorted := h.sorted
    rw [h.trace_eq, hsplit] at hsorted
    exact (List.pairwise_append.1 hsorted).2.2 _ hf _ he
  have hbase : (c.thresholds sampleEntries ftraceEvents).2 ≤ fs[j].cycle :=
    UInt64.le_trans (c.timeBase_le_oldest _ _)
      (h.recent _ (by rw [h.trace_eq]; exact List.mem_of_mem_take hf))
  rw [getElem_popCalls sym e.cycle fs 1 j hlen hj]
  have hint := interval_pop c.cpuFreq (s := symOf sym fs[j]) hbase hle hfit
  rw [show (1 : ℤ) + j = ((j + 1 : ℕ) : ℤ) by push_cast; omega, hint]

end

/-- **Exceptions.**  In a window of a legal run the stack of the decoder is, after each entry,
    the real stack since the start of the window; a catch writes the unwound frames of the
    window, the `k`-th of them ending `k` nanoseconds after the catch; and every call of the
    window is written once.  Where every call is flagged, a catch leaves the stack as it is. -/
theorem follows_exceptions (i : Fin sampleEntries.length) :
    (∀ (sym : UInt64 → SymInfo) (pre win post : List Event),
      c.IsWindow w sampleEntries ftraceEvents i sym pre win post →
      (∀ k ≤ win.length, (c.loopAfter w sampleEntries ftraceEvents i k).1.2.stack =
        since pre.length (realStack (pre ++ win.take k) 0 [])) ∧
      (∀ k n e, win[k]? = some (.throw n e) →
        let unwound := since pre.length ((realStack (pre ++ win.take k) 0 []).take n)
        ∃ calls, (c.loopAfter w sampleEntries ftraceEvents i (k + 1)).2 =
            (c.loopAfter w sampleEntries ftraceEvents i k).2 ++ calls ∧
          calls.map FunctionCall.key = unwound.map (fun f => (symOf sym f, f.cycle)) ∧
          ∀ j (h : j < calls.length), j + 1 < 2 ^ 31 →
            (calls[j].interval c.cpuFreq (c.thresholds sampleEntries ftraceEvents).2).2 =
              place c.cpuFreq (c.thresholds sampleEntries ftraceEvents).2 e.cycle +
                (j + 1 : ℕ) / 1000) ∧
      c.Conserves w sampleEntries ftraceEvents (sampleEntries.get i)
        ((c.sampleCalls w sampleEntries ftraceEvents).getD i [])) ∧
    (c.selects (sampleEntries.get i) →
      (∀ f ∈ (sampleEntries.get i).trace, f.isCall → f.returnsUponThrow) →
      ∀ k e, (sampleEntries.get i).trace[k]? = some e → e.isCatch →
        (c.loopAfter w sampleEntries ftraceEvents i (k + 1)).1.2.stack =
          (c.loopAfter w sampleEntries ftraceEvents i k).1.2.stack) := by
  refine ⟨fun sym pre win post h => ⟨fun k _ => h.stack_eq k, fun k n e hk => ?_, h.conserves⟩,
    fun hsel hflag k e hk he => ?_⟩
  · refine ⟨_, h.calls_throw hk, key_popCalls _ _ _ _, fun j hj hfit =>
      h.interval_throw hk ?_ hj hfit⟩
    rw [h.stack_eq k, since, since]
    exact List.map_subset _ ((List.take_sublist _ _).filter _).subset
  · have htake : (sampleEntries.get i).trace.take (k + 1) = (sampleEntries.get i).trace.take k ++ [e] := by
      rw [List.take_add_one, hk]
      rfl
    have hloop (k) := congrArg Dec.stack
      (Prod.mk.inj (c.loopAfter_eq w sampleEntries ftraceEvents hsel k)).1
    rw [hloop (k + 1), hloop k, htake, List.filter_append, runEntries_append]
    by_cases hrep : (c.sampleLookup w sampleEntries ftraceEvents).reports
        (c.oldestEvent sampleEntries ftraceEvents) e
    · rw [List.filter_cons_of_pos hrep]
      refine handle_catch_flagged he fun f hf => ?_
      have hmem := List.mem_of_mem_filter (mem_of_mem_stack hf)
      exact hflag f (List.mem_of_mem_take hmem) (isCall_of_mem_stack _ (by simp [Dec.init]) f hf)
    · rw [List.filter_cons_of_neg hrep]
      rfl

/-- `f` calls `g`, which throws, and catches. -/
theorem follows_exceptions_demo :
    let sample := [demoThread ⟨0x1100, 10⟩ [⟨0x1200, 20⟩, .traced 0x1100 catchMask 30]]
    let win := [Event.call ⟨0x1100, 10⟩, .call ⟨0x1200, 20⟩, .throw 1 (.traced 0x1100 catchMask 30)]
    (demoConverter.loopAfter demoWorld sample [] 0 3).1.2.stack = since 0 (realStack win 0 []) ∧
    demoConverter.Conserves demoWorld sample [] sample[0]
      ((demoConverter.sampleCalls demoWorld sample []).getD 0 []) := by
  intro sample win
  have hlegal : LegalRun (demoConverter.sampleLookup demoWorld sample []).sym win [] := by
    refine ⟨show FunTraceEntry.isCall _ by decide, show FunTraceEntry.isCall _ by decide,
      ⟨by decide, ⟨⟨0x1100, 10⟩, rfl, rfl⟩, ?_⟩, trivial⟩
    decide +kernel
  have hwin : demoConverter.IsWindow demoWorld sample [] 0
      (demoConverter.sampleLookup demoWorld sample []).sym [] win [] :=
    { selected := by decide
      trace_eq := rfl
      legal := hlegal
      sorted := by decide +kernel
      resolves := ⟨fun e _ => rfl, by decide +kernel⟩
      recent := by decide +kernel }
  have h := (follows_exceptions demoWorld demoConverter sample [] 0).1 _ _ _ _ hwin
  exact ⟨h.1 3 le_rfl, h.2.2⟩

/-- A traced thunk: the decoder ignores its call. -/
theorem not_follows_thunk :
    let sample := [demoThread ⟨0x1400, 10⟩ []]
    LegalRun (demoConverter.sampleLookup demoWorld sample []).sym [.call ⟨0x1400, 10⟩] [] ∧
    (demoConverter.loopAfter demoWorld sample [] 0 1).1.2.stack ≠
      since 0 (realStack [.call ⟨0x1400, 10⟩] 0 []) := by
  refine ⟨⟨?_, trivial⟩, ?_⟩
  · change FunTraceEntry.isCall _ = true
    decide
  · decide +kernel

end TraceConverter

end Funtrace
