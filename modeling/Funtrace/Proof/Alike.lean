/-
  Writing a sample from two converters.

  What is written depends on the options, the frequency, the command line and the calls,
  but not on what the caches hold (`rel_writeSampleToJson`): a source file that one
  converter has cached is read by the other one, as it was before.
-/
import Funtrace.Viz.Writes

namespace Funtrace

/-- Two computations step by step: both fail, or their results are related. -/
theorem rel_bind {α β γ δ : Type} {R : α → β → Prop} {S : γ → δ → Prop} {x : Option α}
    {y : Option β} {f : α → Option γ} {g : β → Option δ} (h : Option.Rel R x y)
    (hf : ∀ a b, R a b → Option.Rel S (f a) (g b)) : Option.Rel S (x.bind f) (y.bind g) := by
  cases h with
  | some hab => exact hf _ _ hab
  | none => exact .none

theorem bind_eq_of_rel {α β γ : Type} {R : α → β → Prop} {x : Option α} {y : Option β}
    {f : α → Option γ} {g : β → Option γ} (h : Option.Rel R x y) (hf : ∀ a b, R a b → f a = g b) :
    x.bind f = y.bind g := by
  cases h with
  | some hab => exact hf _ _ hab
  | none => rfl

theorem rel_of_eq {α : Type} {x y : Option α} (h : x = y) : Option.Rel Eq x y := by
  subst h
  cases x with
  | none => exact .none
  | some a => exact .some rfl

namespace TraceConverter

/-- Converters that write the same for the same calls: their caches may differ. -/
structure Alike (w : World) (c d : TraceConverter) : Prop where
  args : c.args = d.args
  timeBase : c.timeBase = d.timeBase
  cpuFreq : c.cpuFreq = d.cpuFreq
  cmdLine : c.cmdLine = d.cmdLine
  firstEventInJson : c.firstEventInJson = d.firstEventInJson
  sourcesRead : c.SourcesRead w
  sourcesRead' : d.SourcesRead w

/-- The same, among the calls of a thread. -/
structure AlikeInThread (w : World) (c d : TraceConverter) : Prop extends Alike w c d where
  firstEventInThread : c.firstEventInThread = d.firstEventInThread

variable {w : World} {c d : TraceConverter}

/-! ## Events -/

/-- Results of two runs: the converters are related, and what comes with them is the same. -/
def SameRest (R : TraceConverter → TraceConverter → Prop) {α : Type}
    (r r' : TraceConverter × α) : Prop :=
  R r.1 r'.1 ∧ r.2 = r'.2

/-- The same, with the functions that were written. -/
def SameWritten (R : TraceConverter → TraceConverter → Prop) {α : Type}
    (r r' : (TraceConverter × List SymInfo) × α) : Prop :=
  SameRest R r.1 r'.1 ∧ r.2 = r'.2

theorem AlikeInThread.startThread (h : c.AlikeInThread w d) (t : ThreadID) :
    Option.Rel (SameRest (AlikeInThread w)) (c.startThread t) (d.startThread t) := by
  unfold TraceConverter.startThread
  rw [h.firstEventInThread]
  split_ifs
  · have hmetadata : c.threadMetadata t = d.threadMetadata t := by
      rw [threadMetadata, threadMetadata, h.cmdLine]
    refine rel_bind (rel_of_eq hmetadata) ?_
    rintro metadata _ rfl
    exact .some ⟨{ h with firstEventInJson := rfl, firstEventInThread := rfl }, rfl⟩
  · exact .some ⟨h, rfl⟩

theorem AlikeInThread.completeEvent (h : c.AlikeInThread w d) (t : ThreadID) (call : FunctionCall) :
    c.completeEvent t call = d.completeEvent t call := by
  simp only [TraceConverter.completeEvent, h.args, h.timeBase, h.cpuFreq]

theorem cacheSource_form {c' : TraceConverter} {file : String} (h : c.cacheSource w file = some c') :
    ∃ sourceCache, c' = { c with sourceCache } := by
  unfold TraceConverter.cacheSource at h
  split at h
  · cases h
    exact ⟨c.sourceCache, rfl⟩
  · simp only [Option.bind_eq_bind, Option.pure_def, Option.bind_eq_some_iff, Option.some.injEq] at h
    obtain ⟨_, -, rfl⟩ := h
    exact ⟨_, rfl⟩

theorem AlikeInThread.cacheSource (h : c.AlikeInThread w d) (file : String) :
    Option.Rel (AlikeInThread w) (c.cacheSource w file) (d.cacheSource w file) := by
  have hleft := cacheSource_isSome h.sourcesRead file
  have hright := cacheSource_isSome h.sourcesRead' file
  cases hc : c.cacheSource w file with
  | none =>
    cases hd : d.cacheSource w file with
    | none => exact .none
    | some d' =>
      rw [hc] at hleft
      rw [hd] at hright
      exact absurd (hleft.2 (hright.1 rfl)) (by decide)
  | some c' =>
    cases hd : d.cacheSource w file with
    | none =>
      rw [hc] at hleft
      rw [hd] at hright
      exact absurd (hright.2 (hleft.1 rfl)) (by decide)
    | some d' =>
      have hread := (cacheSource_spec hc).2.2 h.sourcesRead
      have hread' := (cacheSource_spec hd).2.2 h.sourcesRead'
      obtain ⟨cache, rfl⟩ := cacheSource_form hc
      obtain ⟨cache', rfl⟩ := cacheSource_form hd
      exact .some { h with sourcesRead := hread, sourcesRead' := hread' }

theorem rel_writeFunctionCallEvent {s s' : TraceConverter × List SymInfo}
    (h : SameRest (AlikeInThread w) s s') (t : ThreadID) (call : FunctionCall) :
    Option.Rel (SameWritten (AlikeInThread w)) (writeFunctionCallEvent w t s call)
      (writeFunctionCallEvent w t s' call) := by
  obtain ⟨c, funcset⟩ := s
  obtain ⟨d, funcset'⟩ := s'
  obtain ⟨halike, hfuncs⟩ := h
  have halike : c.AlikeInThread w d := halike
  obtain rfl : funcset = funcset' := hfuncs
  have hcount : { c with numEvents := c.numEvents + 1 }.AlikeInThread w
      { d with numEvents := d.numEvents + 1 } := { halike with }
  have hargs : c.args = d.args := halike.args
  by_cases hdry : c.args.dry
  · have hdry' : d.args.dry := hargs ▸ hdry
    simp only [writeFunctionCallEvent, if_pos hdry, if_pos hdry']
    exact .some ⟨⟨hcount, rfl⟩, rfl⟩
  · have hdry' : ¬ d.args.dry := hargs ▸ hdry
    simp only [writeFunctionCallEvent, if_neg hdry, if_neg hdry']
    refine rel_bind (hcount.startThread t) ?_
    rintro ⟨c₁, metadata⟩ ⟨d₁, _⟩ ⟨h₁, rfl⟩
    refine rel_bind (rel_of_eq (AlikeInThread.completeEvent h₁ t call)) ?_
    rintro event _ rfl
    refine rel_bind (AlikeInThread.cacheSource h₁ call.sym.file) ?_
    intro c₂ d₂ h₂
    exact .some ⟨⟨h₂, rfl⟩, rfl⟩

theorem rel_writeCalls (t : ThreadID) : ∀ (calls : List FunctionCall)
    {s s' : TraceConverter × List SymInfo}, SameRest (AlikeInThread w) s s' →
      Option.Rel (SameWritten (AlikeInThread w)) (writeCalls w t s calls) (writeCalls w t s' calls)
  | [], _, _, h => .some ⟨h, rfl⟩
  | call :: calls, s, s', h => by
    refine rel_bind (rel_writeFunctionCallEvent h t call) ?_
    rintro ⟨s₁, es⟩ ⟨s₁', _⟩ ⟨h₁, rfl⟩
    refine rel_bind (rel_writeCalls t calls h₁) ?_
    rintro ⟨s₂, es'⟩ ⟨s₂', _⟩ ⟨h₂, rfl⟩
    exact .some ⟨h₂, rfl⟩

theorem Alike.selects (h : c.Alike w d) : c.selects = d.selects := by
  funext t
  rw [TraceConverter.selects, TraceConverter.selects, h.args]

theorem rel_writeThreads : ∀ (ts : List (ThreadTrace × List FunctionCall))
    {s s' : TraceConverter × List SymInfo}, SameRest (Alike w) s s' →
      Option.Rel (SameWritten (Alike w)) (writeThreads w s ts) (writeThreads w s' ts)
  | [], _, _, h => .some ⟨h, rfl⟩
  | (t, calls) :: ts, s, s', h => by
    have hselects : s.1.selects = s'.1.selects := h.1.selects
    simp only [writeThreads, hselects]
    split_ifs
    · have hstart : SameRest (AlikeInThread w)
          ({ s.1 with numEvents := 0, firstEventInThread := true }, s.2)
          ({ s'.1 with numEvents := 0, firstEventInThread := true }, s'.2) :=
        ⟨⟨{ h.1 with }, rfl⟩, h.2⟩
      refine rel_bind (rel_writeCalls t.threadId calls hstart) ?_
      rintro ⟨s₁, es⟩ ⟨s₁', _⟩ ⟨h₁, rfl⟩
      refine rel_bind (rel_of_eq rfl) ?_
      intro name _ _
      refine rel_bind (rel_writeThreads ts ⟨h₁.1.toAlike, h₁.2⟩) ?_
      rintro ⟨s₂, ess⟩ ⟨s₂', _⟩ ⟨h₂, rfl⟩
      exact .some ⟨h₂, rfl⟩
    · refine rel_bind (rel_writeThreads ts h) ?_
      rintro ⟨s₂, ess⟩ ⟨s₂', _⟩ ⟨h₂, rfl⟩
      exact .some ⟨h₂, rfl⟩

/-! ## Samples -/

/-- A JSON file without the texts of source files. -/
def withoutFiles (json : SampleJson) : SampleJson := { json with files := [] }

section
variable {sampleEntries : List ThreadTrace} {ftraceText : String}

theorem fixts_congr (h : c.cpuFreq = d.cpuFreq) : c.fixts = d.fixts := by
  funext timeBase ts
  rw [fixts, fixts, h]

theorem rawFtrace_congr (h : c.cpuFreq = d.cpuFreq) :
    c.rawFtrace ftraceText = d.rawFtrace ftraceText := by
  rw [rawFtrace, rawFtrace, fixts_congr h]

theorem shiftedFtrace_congr (h : c.cpuFreq = d.cpuFreq) (hbase : c.timeBase = d.timeBase)
    (raw : List FtraceEvent) : c.shiftedFtrace ftraceText raw = d.shiftedFtrace ftraceText raw := by
  rw [shiftedFtrace, shiftedFtrace, fixts_congr h, hbase]

theorem oldestEvent_congr (h : c.args = d.args) (raw : List FtraceEvent) :
    c.oldestEvent sampleEntries raw = d.oldestEvent sampleEntries raw := by
  have hselects : c.selects = d.selects := by
    funext t
    rw [TraceConverter.selects, TraceConverter.selects, h]
  rw [oldestEvent, oldestEvent, hselects, h]

theorem thresholds_congr (h : c.args = d.args) (raw : List FtraceEvent) :
    c.thresholds sampleEntries raw = d.thresholds sampleEntries raw := by
  rw [thresholds, thresholds, oldestEvent_congr h, h]

/-- **The same is written**, but for the texts of source files, by two converters with the same
    options, frequency and command line, if they decode the sample to the same calls, and both
    panic over an executable or neither. -/
theorem rel_writeSampleToJson (hargs : c.args = d.args) (hfreq : c.cpuFreq = d.cpuFreq)
    (hcmd : c.cmdLine = d.cmdLine) (hread : c.SourcesRead w) (hread' : d.SourcesRead w)
    (hcalls : ∀ raw, c.rawFtrace ftraceText = some raw →
      c.sampleCalls w sampleEntries raw = d.sampleCalls w sampleEntries raw)
    (hpanics : ∀ raw, c.rawFtrace ftraceText = some raw →
      (c.sampleLookup w sampleEntries raw).procaddr2sym.panicked =
        (d.sampleLookup w sampleEntries raw).procaddr2sym.panicked) :
    Option.Rel (fun r r' => r.2.map withoutFiles = r'.2.map withoutFiles)
      (c.writeSampleToJson w sampleEntries ftraceText)
      (d.writeSampleToJson w sampleEntries ftraceText) := by
  rw [writeSampleToJson_steps, writeSampleToJson_steps, ← rawFtrace_congr hfreq]
  cases hraw : c.rawFtrace ftraceText with
  | none => exact .none
  | some raw =>
    have hthresholds := @thresholds_congr c d sampleEntries hargs raw
    have hshifted : (c.started sampleEntries raw).shiftedFtrace ftraceText raw =
        (d.started sampleEntries raw).shiftedFtrace ftraceText raw :=
      @shiftedFtrace_congr (c.started sampleEntries raw) (d.started sampleEntries raw) ftraceText hfreq
        (congrArg Prod.snd hthresholds) raw
    rw [Option.bind_some, Option.bind_some, ← hshifted]
    cases (c.started sampleEntries raw).shiftedFtrace ftraceText raw with
    | none => exact .none
    | some shifted =>
      rw [Option.bind_some, Option.bind_some]
      have hboth := hpanics raw hraw
      cases hpanic : (c.sampleLookup w sampleEntries raw).procaddr2sym.panicked with
      | true =>
        rw [written_of_panicked hpanic, written_of_panicked (hboth.symm.trans hpanic)]
        exact .none
      | false =>
        have halike : SameRest (Alike w) (c.decoded w sampleEntries raw, ([] : List SymInfo))
            (d.decoded w sampleEntries raw, []) :=
          ⟨⟨hargs, congrArg Prod.snd hthresholds, hfreq, hcmd, rfl, hread, hread'⟩, rfl⟩
        rw [written_of_completed hpanic, written_of_completed (hboth.symm.trans hpanic), hcalls raw hraw,
          ← hargs, ← hthresholds]
        refine rel_bind (rel_writeThreads _ halike) ?_
        rintro ⟨⟨c', funcset⟩, ess⟩ ⟨⟨d', _⟩, _⟩ ⟨⟨h, rfl⟩, rfl⟩
        refine .some ?_
        have h : Alike w c' d' := h
        dsimp only
        split_ifs
        · rfl
        · simp only [Option.map_some, withoutFiles, finishJson, h.args]

end

end TraceConverter

end Funtrace
