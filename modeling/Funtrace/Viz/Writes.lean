/-
  What writing a sample changes, and when it panics.

  * writing events leaves everything as it is that the decoder reads (`Leaves`), so a
    sample is decoded and written with the same options, frequency and lookups;
  * `writes_iff` says for which samples `write_sample_to_json` does not panic.  Source
    files that are cached have been read before (`SourcesRead`), so that it does not
    matter which of them are.
-/
import Funtrace.Lib.Utf8
import Funtrace.Proof.FtraceLines
import Funtrace.Viz.Events

namespace Funtrace

/-- The text of a source file; one that cannot be opened counts as empty. -/
def World.sourceText (w : World) (file : String) : Option String :=
  decodeUtf8 ((w.sourceFile file).getD [])

/-- A computation with two steps, where what the second one needs is known beforehand. -/
theorem isSome_bind_iff {α β : Type} {o : Option α} {f : α → Option β} {P : Prop}
    (h : ∀ a, o = some a → ((f a).isSome ↔ P)) : (o.bind f).isSome ↔ o.isSome ∧ P := by
  cases o with
  | none => simp
  | some a => simp [h a rfl]

namespace TraceConverter

/-- What writing events leaves as it is. -/
structure Leaves (c c' : TraceConverter) : Prop where
  args : c'.args = c.args
  procaddr2sym : c'.procaddr2sym = c.procaddr2sym
  symCache : c'.symCache = c.symCache
  timeBase : c'.timeBase = c.timeBase
  cpuFreq : c'.cpuFreq = c.cpuFreq
  cmdLine : c'.cmdLine = c.cmdLine

theorem Leaves.refl (c : TraceConverter) : c.Leaves c := ⟨rfl, rfl, rfl, rfl, rfl, rfl⟩

theorem Leaves.trans {c c' c'' : TraceConverter} (h : c.Leaves c') (h' : c'.Leaves c'') : c.Leaves c'' :=
  ⟨h'.args.trans h.args, h'.procaddr2sym.trans h.procaddr2sym, h'.symCache.trans h.symCache,
    h'.timeBase.trans h.timeBase, h'.cpuFreq.trans h.cpuFreq, h'.cmdLine.trans h.cmdLine⟩

/-- The cached source files have been read. -/
def SourcesRead (w : World) (c : TraceConverter) : Prop :=
  ∀ file, (c.sourceCache file).isSome → (w.sourceText file).isSome

variable {w : World} {c : TraceConverter}

/-! ## Source files -/

theorem cacheSource_isSome (h : c.SourcesRead w) (file : String) :
    (c.cacheSource w file).isSome ↔ (w.sourceText file).isSome := by
  unfold cacheSource
  split
  · next code hcode =>
    exact ⟨fun _ => h file (by rw [hcode]; rfl), fun _ => rfl⟩
  · change ((w.sourceText file).bind _).isSome ↔ _
    cases w.sourceText file <;> simp

theorem cacheSource_spec {c' : TraceConverter} {file : String} (h : c.cacheSource w file = some c') :
    c.Leaves c' ∧ c'.firstEventInThread = c.firstEventInThread ∧
      (c.SourcesRead w → c'.SourcesRead w) := by
  unfold cacheSource at h
  split at h
  · cases h
    exact ⟨Leaves.refl c, rfl, id⟩
  · simp only [Option.bind_eq_bind, Option.pure_def, Option.bind_eq_some_iff, Option.some.injEq] at h
    obtain ⟨text, htext, rfl⟩ := h
    refine ⟨⟨rfl, rfl, rfl, rfl, rfl, rfl⟩, rfl, fun hread file' hfile' => ?_⟩
    rcases eq_or_ne file' file with rfl | hne
    · exact Option.isSome_iff_exists.2 ⟨text, htext⟩
    · refine hread file' ?_
      rw [← Function.update_of_ne hne (some (⟨text, _⟩ : SourceCode)) c.sourceCache]
      exact hfile'

/-! ## Events -/

/-- The calls that are written without a panic. -/
def Writable (w : World) (c : TraceConverter) (call : FunctionCall) : Prop :=
  (call.isComplete → c.cpuFreq ≠ 0) ∧ (w.sourceText call.sym.file).isSome

theorem Writable.congr {c' : TraceConverter} (h : c.Leaves c') :
    c'.Writable w = c.Writable w := by
  funext call
  rw [Writable, Writable, h.cpuFreq]

theorem startThread_spec {c' : TraceConverter} {t : ThreadID} {es : List JsonEvent}
    (h : c.startThread t = some (c', es)) :
    c.Leaves c' ∧ c'.firstEventInThread = false ∧ (c.SourcesRead w → c'.SourcesRead w) := by
  unfold startThread at h
  split_ifs at h with hfirst
  · simp only [Option.bind_eq_bind, Option.pure_def, Option.bind_eq_some_iff, Option.some.injEq,
      Prod.mk.injEq] at h
    obtain ⟨metadata, -, rfl, -⟩ := h
    exact ⟨⟨rfl, rfl, rfl, rfl, rfl, rfl⟩, rfl, id⟩
  · cases h
    exact ⟨Leaves.refl c, by simpa using hfirst, id⟩

theorem startThread_isSome (t : ThreadID) :
    (c.startThread t).isSome ↔ (c.firstEventInThread → t.nameStr.isSome) := by
  unfold startThread
  split_ifs with hfirst
  · refine (isSome_bind_iff (P := True) fun _ _ => by simp).trans ?_
    have hmeta : (c.threadMetadata t).isSome ↔ t.nameStr.isSome ∧ True :=
      isSome_bind_iff fun _ _ => by simp
    simp [hmeta, hfirst]
  · exact ⟨fun _ h => absurd h hfirst, fun _ => rfl⟩

theorem completeEvent_isSome (t : ThreadID) (call : FunctionCall) :
    (c.completeEvent t call).isSome ↔ (call.isComplete → c.cpuFreq ≠ 0) := by
  unfold completeEvent
  split_ifs <;> simp_all

theorem writeFunctionCallEvent_spec {s s' : TraceConverter × List SymInfo} {t : ThreadID}
    {call : FunctionCall} {es : List JsonEvent}
    (h : writeFunctionCallEvent w t s call = some (s', es)) :
    s.1.Leaves s'.1 ∧ (s.1.args.dry = false → s'.1.firstEventInThread = false) ∧
      (s.1.SourcesRead w → s'.1.SourcesRead w) := by
  simp only [writeFunctionCallEvent] at h
  split_ifs at h with hdry
  · cases h
    exact ⟨⟨rfl, rfl, rfl, rfl, rfl, rfl⟩, fun hnot => absurd hdry (by simp [hnot]), id⟩
  · simp only [Option.bind_eq_bind, Option.pure_def, Option.bind_eq_some_iff, Option.some.injEq,
      Prod.mk.injEq] at h
    obtain ⟨⟨c₁, metadata⟩, hstart, event, -, c₂, hsource, rfl, -⟩ := h
    obtain ⟨hleaves₁, hfirst₁, hread₁⟩ := startThread_spec (w := w) hstart
    obtain ⟨hleaves₂, hfirst₂, hread₂⟩ := cacheSource_spec hsource
    have hleaves : s.1.Leaves c₁ := ⟨hleaves₁.args, hleaves₁.procaddr2sym, hleaves₁.symCache,
      hleaves₁.timeBase, hleaves₁.cpuFreq, hleaves₁.cmdLine⟩
    exact ⟨hleaves.trans hleaves₂, fun _ => hfirst₂.trans hfirst₁, fun h => hread₂ (hread₁ h)⟩

theorem writeFunctionCallEvent_isSome {s : TraceConverter × List SymInfo} (h : s.1.SourcesRead w)
    (t : ThreadID) (call : FunctionCall) : (writeFunctionCallEvent w t s call).isSome ↔
      (s.1.args.dry = false → (s.1.firstEventInThread → t.nameStr.isSome) ∧ s.1.Writable w call) := by
  simp only [writeFunctionCallEvent]
  split_ifs with hdry
  · simp [hdry]
  · have hstart (c₁ : TraceConverter × List JsonEvent)
        (h₁ : { s.1 with numEvents := s.1.numEvents + 1 }.startThread t = some c₁) :
        ((c₁.1.completeEvent t call).bind fun event => (c₁.1.cacheSource w call.sym.file).bind
          fun c₂ => some ((c₂, s.2.insert call.sym), c₁.2 ++ event)).isSome ↔ s.1.Writable w call := by
      obtain ⟨hleaves, -, hread⟩ := startThread_spec (w := w) h₁
      have hsource : ((c₁.1.cacheSource w call.sym.file).isSome) ↔ (w.sourceText call.sym.file).isSome :=
        cacheSource_isSome (hread h) _
      rw [isSome_bind_iff fun event _ => (isSome_bind_iff (P := True) fun _ _ => by simp).trans
        (and_true _).to_iff, completeEvent_isSome, hsource, hleaves.cpuFreq]
      rfl
    refine (isSome_bind_iff hstart).trans ?_
    rw [startThread_isSome]
    simp [hdry]

theorem writeCalls_spec {t : ThreadID} (calls : List FunctionCall) :
    ∀ {s s' : TraceConverter × List SymInfo} {es : List JsonEvent},
      writeCalls w t s calls = some (s', es) →
        s.1.Leaves s'.1 ∧ (s.1.SourcesRead w → s'.1.SourcesRead w) := by
  induction calls with
  | nil =>
    rintro s s' es ⟨⟩
    exact ⟨Leaves.refl _, id⟩
  | cons call calls ih =>
    intro s s' es h
    simp only [writeCalls, Option.bind_eq_bind, Option.pure_def, Option.bind_eq_some_iff,
      Option.some.injEq, Prod.mk.injEq] at h
    obtain ⟨⟨s₁, es₁⟩, h₁, ⟨s₂, es₂⟩, h₂, rfl, -⟩ := h
    obtain ⟨hleaves₁, -, hread₁⟩ := writeFunctionCallEvent_spec h₁
    obtain ⟨hleaves₂, hread₂⟩ := ih h₂
    exact ⟨hleaves₁.trans hleaves₂, fun h => hread₂ (hread₁ h)⟩

theorem writeCalls_isSome (t : ThreadID) (calls : List FunctionCall) :
    ∀ {s : TraceConverter × List SymInfo}, s.1.SourcesRead w →
      ((writeCalls w t s calls).isSome ↔ (s.1.args.dry = false →
        (calls ≠ [] → s.1.firstEventInThread → t.nameStr.isSome) ∧
          ∀ call ∈ calls, s.1.Writable w call)) := by
  induction calls with
  | nil => exact fun _ => by simp [writeCalls]
  | cons call calls ih =>
    intro s hread
    have hrest (r : (TraceConverter × List SymInfo) × List JsonEvent)
        (hr : writeFunctionCallEvent w t s call = some r) :
        ((writeCalls w t r.1 calls).bind fun r' => some (r'.1, r.2 ++ r'.2)).isSome ↔
          (s.1.args.dry = false → ∀ call ∈ calls, s.1.Writable w call) := by
      obtain ⟨hleaves, hfirst, hread'⟩ := writeFunctionCallEvent_spec hr
      refine ((isSome_bind_iff (P := True) fun _ _ => by simp).trans (and_true _).to_iff).trans ?_
      rw [ih (hread' hread), hleaves.args, Writable.congr hleaves]
      refine forall_congr' fun hdry => ?_
      simp [hfirst hdry]
    simp only [writeCalls, Option.bind_eq_bind, Option.pure_def]
    refine (isSome_bind_iff hrest).trans ?_
    rw [writeFunctionCallEvent_isSome hread, ← forall_and]
    refine forall_congr' fun _ => ?_
    simp only [List.mem_cons, forall_eq_or_imp, ne_eq, reduceCtorEq, not_false_eq_true, forall_const,
      and_assoc]

/-! ## Threads -/

theorem Leaves.selects {c' : TraceConverter} (h : c.Leaves c') : c'.selects = c.selects := by
  funext t
  rw [TraceConverter.selects, TraceConverter.selects, h.args]

/-- The threads that are written without a panic, with their calls. -/
def ThreadWritable (w : World) (c : TraceConverter) (p : ThreadTrace × List FunctionCall) : Prop :=
  c.selects p.1 → p.1.threadId.nameStr.isSome ∧
    (c.args.dry = false → ∀ call ∈ p.2, c.Writable w call)

theorem ThreadWritable.congr {c' : TraceConverter} (h : c.Leaves c') :
    c'.ThreadWritable w = c.ThreadWritable w := by
  funext p
  rw [ThreadWritable, ThreadWritable, h.selects, h.args, Writable.congr h]

theorem writeThreads_spec (ts : List (ThreadTrace × List FunctionCall)) :
    ∀ {s s' : TraceConverter × List SymInfo} {ess : List (List JsonEvent)},
      writeThreads w s ts = some (s', ess) →
        s.1.Leaves s'.1 ∧ (s.1.SourcesRead w → s'.1.SourcesRead w) := by
  induction ts with
  | nil =>
    rintro s s' ess ⟨⟩
    exact ⟨Leaves.refl _, id⟩
  | cons p ts ih =>
    intro s s' ess h
    unfold writeThreads at h
    split_ifs at h
    · simp only [Option.bind_eq_bind, Option.pure_def, Option.bind_eq_some_iff, Option.some.injEq,
        Prod.mk.injEq] at h
      obtain ⟨⟨s₁, es₁⟩, h₁, -, -, ⟨s₂, ess₂⟩, h₂, rfl, -⟩ := h
      obtain ⟨hleaves₁, hread₁⟩ := writeCalls_spec p.2 h₁
      obtain ⟨hleaves₂, hread₂⟩ := ih h₂
      have hleaves : s.1.Leaves s₁.1 := ⟨hleaves₁.args, hleaves₁.procaddr2sym, hleaves₁.symCache,
        hleaves₁.timeBase, hleaves₁.cpuFreq, hleaves₁.cmdLine⟩
      exact ⟨hleaves.trans hleaves₂, fun h => hread₂ (hread₁ h)⟩
    · simp only [Option.bind_eq_bind, Option.pure_def, Option.bind_eq_some_iff, Option.some.injEq,
        Prod.mk.injEq] at h
      obtain ⟨⟨s₂, ess₂⟩, h₂, rfl, -⟩ := h
      exact ih h₂

theorem writeThreads_isSome (ts : List (ThreadTrace × List FunctionCall)) :
    ∀ {s : TraceConverter × List SymInfo}, s.1.SourcesRead w →
      ((writeThreads w s ts).isSome ↔ ∀ p ∈ ts, s.1.ThreadWritable w p) := by
  induction ts with
  | nil => exact fun _ => by simp [writeThreads]
  | cons p ts ih =>
    intro s hread
    rw [List.forall_mem_cons]
    unfold writeThreads
    split_ifs with hsel
    · set s₀ : TraceConverter × List SymInfo :=
        ({ s.1 with numEvents := 0, firstEventInThread := true }, s.2)
      have hrest (r : (TraceConverter × List SymInfo) × List JsonEvent)
          (hr : writeCalls w p.1.threadId s₀ p.2 = some r) :
          (p.1.threadId.nameStr.bind fun _ => (writeThreads w r.1 ts).bind fun r' =>
            some (r'.1, r.2 :: r'.2)).isSome ↔
            p.1.threadId.nameStr.isSome ∧ ∀ p ∈ ts, s.1.ThreadWritable w p := by
        obtain ⟨hleaves, hread'⟩ := writeCalls_spec p.2 hr
        have hleaves : s.1.Leaves r.1.1 := ⟨hleaves.args, hleaves.procaddr2sym, hleaves.symCache,
          hleaves.timeBase, hleaves.cpuFreq, hleaves.cmdLine⟩
        refine isSome_bind_iff fun _ _ => ?_
        refine ((isSome_bind_iff (P := True) fun _ _ => by simp).trans (and_true _).to_iff).trans ?_
        rw [ih (hread' hread), ThreadWritable.congr hleaves]
      simp only [Option.bind_eq_bind, Option.pure_def]
      refine (isSome_bind_iff hrest).trans ?_
      have hcalls := @writeCalls_isSome w p.1.threadId p.2 s₀ hread
      rw [hcalls, ThreadWritable, ← and_assoc]
      refine and_congr_left fun _ => ?_
      simp only [hsel, forall_const]
      constructor
      · rintro ⟨hcalls, hname⟩
        exact ⟨hname, fun hdry => (hcalls hdry).2⟩
      · rintro ⟨hname, hcalls⟩
        exact ⟨fun hdry => ⟨fun _ _ => hname, hcalls hdry⟩, hname⟩
    · simp only [Option.bind_eq_bind, Option.pure_def]
      refine ((isSome_bind_iff (P := True) fun _ _ => by simp).trans (and_true _).to_iff).trans ?_
      rw [ih hread]
      exact (and_iff_right fun h => absurd h hsel).symm

/-! ## Samples -/

variable {sampleEntries : List ThreadTrace} {ftraceText : String}

/-- What writing a sample leaves as it is; the symbol lookups are those with which the decoding
    ends. -/
theorem writeSampleToJson_spec {c' : TraceConverter} {json : Option SampleJson}
    (h : c.writeSampleToJson w sampleEntries ftraceText = some (c', json)) :
    c'.args = c.args ∧ c'.cpuFreq = c.cpuFreq ∧ c'.cmdLine = c.cmdLine ∧
      (c.SourcesRead w → c'.SourcesRead w) ∧ ∃ ftraceEvents, c.rawFtrace ftraceText = some ftraceEvents ∧
        (c.sampleLookup w sampleEntries ftraceEvents).procaddr2sym.panicked = false ∧
          c'.lookup = { c.sampleLookup w sampleEntries ftraceEvents with ignoreAddrs := [] } := by
  obtain ⟨raw, shifted, funcset, events, hraw, -, hcompleted, hwrite, -⟩ := exists_of_writeSampleToJson h
  obtain ⟨hleaves, hread⟩ := writeThreads_spec _ hwrite
  refine ⟨hleaves.args, hleaves.cpuFreq, hleaves.cmdLine, hread, raw, hraw, hcompleted, ?_⟩
  rw [lookup, hleaves.procaddr2sym, hleaves.symCache]
  rfl

/-- **The samples that are written** without a panic. -/
theorem writeSampleToJson_isSome (hread : c.SourcesRead w) :
    (c.writeSampleToJson w sampleEntries ftraceText).isSome ↔
      ∃ ftraceEvents, c.rawFtrace ftraceText = some ftraceEvents ∧
        (c.sampleLookup w sampleEntries ftraceEvents).procaddr2sym.panicked = false ∧
          ∀ p ∈ sampleEntries.zip (c.sampleCalls w sampleEntries ftraceEvents), c.ThreadWritable w p := by
  rw [writeSampleToJson_steps]
  cases hraw : c.rawFtrace ftraceText with
  | none => simp
  | some raw =>
    obtain ⟨shifted, hshifted, -⟩ := @timestamps_shiftedFtrace (c.started sampleEntries raw) _ _ hraw
    have hthreads := @writeThreads_isSome w
      (sampleEntries.zip (c.sampleCalls w sampleEntries raw)) (c.decoded w sampleEntries raw, []) hread
    have hwritten : (c.written w sampleEntries raw shifted).isSome ↔
        (c.sampleLookup w sampleEntries raw).procaddr2sym.panicked = false ∧
          ∀ p ∈ sampleEntries.zip (c.sampleCalls w sampleEntries raw), c.ThreadWritable w p := by
      cases hpanic : (c.sampleLookup w sampleEntries raw).procaddr2sym.panicked with
      | true =>
        rw [written_of_panicked hpanic]
        simp
      | false =>
        rw [written_of_completed hpanic, and_iff_right rfl]
        exact ((isSome_bind_iff (P := True) fun _ _ => by simp).trans (and_true _).to_iff).trans hthreads
    rw [Option.bind_some, hshifted, Option.bind_some, hwritten]
    constructor
    · exact fun h => ⟨raw, rfl, h⟩
    · rintro ⟨raw', hsame, h⟩
      cases hsame
      exact h

end TraceConverter

end Funtrace
