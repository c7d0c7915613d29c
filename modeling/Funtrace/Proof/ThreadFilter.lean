/-
  Selecting threads.

  A sample decoded with `--threads` gives the same as the sample of the selected
  threads decoded without it: a thread that is not selected leaves the symbol cache,
  the set of ignored addresses, the source cache and the flags for commas as they are,
  and does not count for the time base.
-/
import Funtrace.Proof.JsonText

namespace Funtrace

namespace TraceConverter
variable {w : World} {c : TraceConverter}

/-- The converter without `--threads`. -/
def unfiltered (c : TraceConverter) : TraceConverter :=
  { c with args := { c.args with threads := [] } }

theorem selects_unfiltered (t : ThreadTrace) : c.unfiltered.selects t = true := rfl

/-! ## Decoding -/

/-- The common time base and the threshold are those of the selected threads. -/
theorem oldestEvent_unfiltered (sampleEntries : List ThreadTrace) (ftraceEvents : List FtraceEvent) :
    c.unfiltered.oldestEvent (sampleEntries.filter c.selects) ftraceEvents =
      c.oldestEvent sampleEntries ftraceEvents := by
  have hall : (sampleEntries.filter c.selects).filter c.unfiltered.selects =
      sampleEntries.filter c.selects := List.filter_eq_self.2 fun t _ => selects_unfiltered t
  unfold oldestEvent
  rw [hall]
  rfl

theorem thresholds_unfiltered (sampleEntries : List ThreadTrace) (ftraceEvents : List FtraceEvent) :
    c.unfiltered.thresholds (sampleEntries.filter c.selects) ftraceEvents =
      c.thresholds sampleEntries ftraceEvents := by
  unfold thresholds
  rw [oldestEvent_unfiltered]
  rfl

/-- **Decoding**: the caches end as they do without the other threads, and each selected thread
    makes the same calls. -/
theorem decodeThreads_unfiltered (oldest : UInt64) : ∀ (ts : List ThreadTrace) (l : Lookup),
    (c.unfiltered.decodeThreads w oldest l (ts.filter c.selects)).1 =
      (c.decodeThreads w oldest l ts).1 ∧
    (ts.filter c.selects).zip (c.unfiltered.decodeThreads w oldest l (ts.filter c.selects)).2 =
      (ts.zip (c.decodeThreads w oldest l ts).2).filter (c.selects ·.1)
  | [], _ => ⟨rfl, rfl⟩
  | t :: ts, l => by
    cases hsel : c.selects t with
    | false =>
      obtain ⟨hlookup, hcalls⟩ := decodeThreads_unfiltered oldest ts l
      rw [List.filter_cons_of_neg (by simp [hsel])]
      simp only [decodeThreads, hsel, Bool.false_eq_true, if_false, List.zip_cons_cons]
      rw [List.filter_cons_of_neg (by simp [hsel])]
      exact ⟨hlookup, hcalls⟩
    | true =>
      obtain ⟨hlookup, hcalls⟩ := decodeThreads_unfiltered oldest ts (decodeThread w oldest l t).1
      rw [List.filter_cons_of_pos hsel]
      simp only [decodeThreads, hsel, selects_unfiltered, if_true, List.zip_cons_cons]
      rw [List.filter_cons_of_pos (by simp [hsel]), hcalls]
      exact ⟨hlookup, rfl⟩

/-! ## Writing -/

/-- The state of the writing functions without `--threads`. -/
def dropFilter (s : TraceConverter × List SymInfo) : TraceConverter × List SymInfo :=
  (s.1.unfiltered, s.2)

theorem startThread_unfiltered (t : ThreadID) : c.unfiltered.startThread t =
    (c.startThread t).map fun r => (r.1.unfiltered, r.2) := by
  unfold startThread
  by_cases hfirst : c.firstEventInThread
  · rw [if_pos hfirst, if_pos (show c.unfiltered.firstEventInThread from hfirst)]
    simp only [threadMetadata, Option.bind_eq_bind, Option.pure_def, Option.map_eq_bind]
    cases t.nameStr <;> rfl
  · rw [if_neg hfirst, if_neg (show ¬ c.unfiltered.firstEventInThread from hfirst)]
    rfl

theorem cacheSource_unfiltered (file : String) : c.unfiltered.cacheSource w file =
    (c.cacheSource w file).map unfiltered := by
  unfold cacheSource
  cases hcache : c.sourceCache file with
  | some code =>
    have hcache' : c.unfiltered.sourceCache file = some code := hcache
    simp only [hcache', Option.map_some]
  | none =>
    have hcache' : c.unfiltered.sourceCache file = none := hcache
    simp only [hcache', Option.bind_eq_bind, Option.pure_def]
    cases String.fromUTF8? ⟨((w.sourceFile file).getD []).toArray⟩ <;> rfl

theorem writeFunctionCallEvent_dropFilter (t : ThreadID) (s : TraceConverter × List SymInfo)
    (call : FunctionCall) : writeFunctionCallEvent w t (dropFilter s) call =
      (writeFunctionCallEvent w t s call).map fun r => (dropFilter r.1, r.2) := by
  simp only [writeFunctionCallEvent]
  by_cases hdry : s.1.args.dry
  · rw [if_pos hdry, if_pos (show (dropFilter s).1.args.dry from hdry)]
    rfl
  · rw [if_neg hdry, if_neg (show ¬ (dropFilter s).1.args.dry from hdry)]
    obtain ⟨c, hc⟩ : ∃ c, { s.1 with numEvents := s.1.numEvents + 1 } = c := ⟨_, rfl⟩
    have hc' : { (dropFilter s).1 with numEvents := (dropFilter s).1.numEvents + 1 } = c.unfiltered := by
      rw [← hc]
      rfl
    rw [hc, hc', startThread_unfiltered]
    simp only [Option.bind_eq_bind, Option.pure_def]
    cases c.startThread t with
    | none => rfl
    | some r =>
      have hevent : r.1.unfiltered.completeEvent t call = r.1.completeEvent t call := rfl
      simp only [Option.map_some, Option.bind_some, hevent, cacheSource_unfiltered]
      cases r.1.completeEvent t call with
      | none => rfl
      | some event =>
        simp only [Option.bind_some]
        cases r.1.cacheSource w call.sym.file <;> rfl

theorem writeCalls_dropFilter (t : ThreadID) : ∀ (calls : List FunctionCall)
    (s : TraceConverter × List SymInfo), writeCalls w t (dropFilter s) calls =
      (writeCalls w t s calls).map fun r => (dropFilter r.1, r.2)
  | [], _ => rfl
  | call :: calls, s => by
    simp only [writeCalls, Option.bind_eq_bind, Option.pure_def, writeFunctionCallEvent_dropFilter]
    cases writeFunctionCallEvent w t s call with
    | none => rfl
    | some r =>
      simp only [Option.map_some, Option.bind_some, writeCalls_dropFilter t calls r.1]
      cases writeCalls w t r.1 calls <;> rfl

/-- **Writing**: a thread that is not selected writes nothing and changes nothing. -/
theorem writeThreads_dropFilter : ∀ (ts : List (ThreadTrace × List FunctionCall))
    (s : TraceConverter × List SymInfo),
      (writeThreads w (dropFilter s) (ts.filter (s.1.selects ·.1))).map flatten =
        ((writeThreads w s ts).map flatten).map fun r => (dropFilter r.1, r.2)
  | [], _ => rfl
  | (t, calls) :: ts, s => by
    cases hsel : s.1.selects t with
    | false =>
      have ih := writeThreads_dropFilter ts s
      rw [List.filter_cons_of_neg (by simp [hsel]), ih]
      simp only [writeThreads, hsel, Bool.false_eq_true, if_false, Option.bind_eq_bind,
        Option.pure_def]
      cases writeThreads w s ts <;> rfl
    | true =>
      rw [List.filter_cons_of_pos (by simp [hsel])]
      obtain ⟨s₀, hs₀⟩ : ∃ s₀ : TraceConverter × List SymInfo,
          ({ s.1 with numEvents := 0, firstEventInThread := true }, s.2) = s₀ := ⟨_, rfl⟩
      have hs₀' : ({ (dropFilter s).1 with numEvents := 0, firstEventInThread := true },
          (dropFilter s).2) = dropFilter s₀ := by
        rw [← hs₀]
        rfl
      have hsel' : (dropFilter s).1.selects t = true := selects_unfiltered t
      simp only [writeThreads, hsel, hsel', if_true, hs₀, hs₀', writeCalls_dropFilter,
        Option.bind_eq_bind, Option.pure_def]
      cases hcalls : writeCalls w t.threadId s₀ calls with
      | none => rfl
      | some r =>
        cases t.threadId.nameStr with
        | none => rfl
        | some name =>
          have hleaves := (writeCalls_spec calls hcalls).1
          have hselects : s.1.selects = r.1.1.selects := by
            have hs : s₀.1.selects = s.1.selects := by
              rw [← hs₀]
              rfl
            rw [hleaves.selects, hs]
          have ih := writeThreads_dropFilter ts r.1
          simp only [Option.map_some, Option.bind_some, hselects]
          revert ih
          cases writeThreads w r.1 ts <;>
            cases writeThreads w (dropFilter r.1) (ts.filter (r.1.1.selects ·.1)) <;>
              intro ih <;> simp_all [flatten]

/-! ## Samples -/

/-- The events of a file in a row, as they stand in it. -/
def inRow (json : SampleJson) : SampleJson := { json with events := [json.events.flatten] }

theorem selects_of_threads (h : c.args.threads ≠ []) :
    c.selects = fun t => decide (t.threadId.tid ∈ c.args.threads) := by
  funext t
  rw [selects, List.isEmpty_eq_false_iff.2 h, Bool.false_or]

theorem started_unfiltered (sampleEntries : List ThreadTrace) (raw : List FtraceEvent) :
    c.unfiltered.started (sampleEntries.filter c.selects) raw =
      (c.started sampleEntries raw).unfiltered := by
  unfold started
  rw [thresholds_unfiltered]
  rfl

theorem sampleLookup_unfiltered (sampleEntries : List ThreadTrace) (raw : List FtraceEvent) :
    c.unfiltered.sampleLookup w (sampleEntries.filter c.selects) raw =
      c.sampleLookup w sampleEntries raw := by
  unfold sampleLookup
  rw [oldestEvent_unfiltered]
  exact (decodeThreads_unfiltered _ sampleEntries c.lookup).1

theorem zip_sampleCalls_unfiltered (sampleEntries : List ThreadTrace) (raw : List FtraceEvent) :
    (sampleEntries.filter c.selects).zip
        (c.unfiltered.sampleCalls w (sampleEntries.filter c.selects) raw) =
      (sampleEntries.zip (c.sampleCalls w sampleEntries raw)).filter (c.selects ·.1) := by
  unfold sampleCalls
  rw [oldestEvent_unfiltered]
  exact (decodeThreads_unfiltered _ sampleEntries c.lookup).2

theorem decoded_unfiltered (sampleEntries : List ThreadTrace) (raw : List FtraceEvent) :
    c.unfiltered.decoded w (sampleEntries.filter c.selects) raw =
      (c.decoded w sampleEntries raw).unfiltered := by
  unfold decoded
  rw [started_unfiltered, sampleLookup_unfiltered]
  rfl

/-- What follows the passes over the ftrace events.  The caches end alike, so a panic of one is
    a panic of the other. -/
theorem written_unfiltered (sampleEntries : List ThreadTrace) (raw shifted : List FtraceEvent) :
    (c.unfiltered.written w (sampleEntries.filter c.selects) raw shifted).map
        (fun r => (r.1, r.2.map inRow)) =
      (c.written w sampleEntries raw shifted).map
        fun r => (r.1.unfiltered, r.2.map inRow) := by
  have hlookup := @sampleLookup_unfiltered w c sampleEntries raw
  cases hpanic : (c.sampleLookup w sampleEntries raw).procaddr2sym.panicked with
  | true =>
    rw [written_of_panicked hpanic, written_of_panicked (by rw [hlookup]; exact hpanic)]
    rfl
  | false =>
    rw [written_of_completed hpanic, written_of_completed (by rw [hlookup]; exact hpanic),
      zip_sampleCalls_unfiltered, decoded_unfiltered, thresholds_unfiltered]
    have hwrite := writeThreads_dropFilter (w := w)
      (sampleEntries.zip (c.sampleCalls w sampleEntries raw)) (c.decoded w sampleEntries raw, [])
    have hwrite : (writeThreads w ((c.decoded w sampleEntries raw).unfiltered, [])
        ((sampleEntries.zip (c.sampleCalls w sampleEntries raw)).filter (c.selects ·.1))).map
          flatten = _ := hwrite
    have hdry : c.unfiltered.args.dry = c.args.dry := rfl
    rw [hdry]
    revert hwrite
    cases writeThreads w (c.decoded w sampleEntries raw, [])
        (sampleEntries.zip (c.sampleCalls w sampleEntries raw)) with
    | none =>
      intro hwrite
      rw [Option.map_eq_none_iff.1 hwrite]
      rfl
    | some r =>
      intro hwrite
      obtain ⟨r', hr', hflat⟩ := Option.map_eq_some_iff.1 hwrite
      rw [hr']
      -- the events stand in one row on either side
      have hconverter : r'.1.1 = r.1.1.unfiltered := congrArg (·.1.1) hflat
      have hfuncset : r'.1.2 = r.1.2 := congrArg (·.1.2) hflat
      have hevents : r'.2.flatten = r.2.flatten := congrArg (·.2) hflat
      simp only [Option.bind_some, Option.map_some, hconverter, hfuncset]
      split_ifs
      · rfl
      · simp only [Option.map_some, inRow, finishJson, hevents]
        rfl

/-- **Selecting threads** gives the same events, functions and source files as the sample of the
    selected threads, and leaves the same caches. -/
theorem threads_commutes (w : World) (c : TraceConverter) (sampleEntries : List ThreadTrace)
    (ftraceText : String) (hlisted : ∃ t ∈ sampleEntries, t.threadId.tid ∈ c.args.threads) :
    (c.writeSampleToJson w sampleEntries ftraceText).map
        (fun r => (r.1.unfiltered, r.2.map inRow)) =
      (c.unfiltered.writeSampleToJson w
        (sampleEntries.filter fun t => t.threadId.tid ∈ c.args.threads) ftraceText).map
          fun r => (r.1, r.2.map inRow) := by
  obtain ⟨t, -, ht⟩ := hlisted
  have hsel := selects_of_threads (c := c) (List.ne_nil_of_mem ht)
  rw [← hsel, writeSampleToJson_steps, writeSampleToJson_steps]
  have hraw : c.unfiltered.rawFtrace ftraceText = c.rawFtrace ftraceText := rfl
  rw [hraw]
  cases c.rawFtrace ftraceText with
  | none => rw [Option.bind_none, Option.bind_none, Option.map_none, Option.map_none]
  | some raw =>
    have hshifted : (c.started sampleEntries raw).unfiltered.shiftedFtrace ftraceText raw =
      (c.started sampleEntries raw).shiftedFtrace ftraceText raw := rfl
    simp only [Option.bind_some, started_unfiltered, hshifted]
    cases (c.started sampleEntries raw).shiftedFtrace ftraceText raw with
    | none => rw [Option.bind_none, Option.bind_none, Option.map_none, Option.map_none]
    | some shifted => exact (written_unfiltered sampleEntries raw shifted).symm

/-- Two threads, of which the second is listed. -/
def threadsDemo : List ThreadTrace :=
  [⟨⟨1, 1, demoName⟩, [⟨0x1100, 5⟩], List.cons_ne_nil _ _⟩,
    ⟨⟨1, 2, demoName⟩, [⟨0x1100, 7⟩, ⟨0x1200, 9⟩], List.cons_ne_nil _ _⟩]

theorem threads_commutes_demo :
    let c := { new { Cli.default with threads := [2] } with cpuFreq := 1000000000 }
    (c.writeSampleToJson demoWorld threadsDemo "").map (fun r => (r.1.unfiltered, r.2.map inRow)) =
      (c.unfiltered.writeSampleToJson demoWorld
        (threadsDemo.filter fun t => t.threadId.tid ∈ ([2] : List UInt64)) "").map
          fun r => (r.1, r.2.map inRow) := by
  intro c
  have hlisted : ∃ t ∈ threadsDemo, t.threadId.tid ∈ c.args.threads :=
    ⟨_, List.mem_cons_of_mem _ List.mem_cons_self, by decide⟩
  exact threads_commutes demoWorld c threadsDemo "" hlisted

end TraceConverter

end Funtrace
