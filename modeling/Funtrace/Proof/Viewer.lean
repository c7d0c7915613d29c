/-
  From a running program to the picture in the viewer.

  A thread whose calls are well nested traces them; a snapshot copies what its buffer still
  holds, whole or from a time on (`window_eq`).  That is a window of the log of the thread,
  so the JSON has an interval for each invocation in it, under the name of the function, and
  the intervals lie as the invocations do.  This holds of every thread of every snapshot in
  a file (`shows_snapshots`).
-/
import Funtrace.Proof.FullSnapshots
import Funtrace.Proof.Independence
import Funtrace.Proof.RoundTrip
import Funtrace.Proof.Spans

namespace Funtrace
open FileBefore ProcAddr2Sym

/-! ## What a snapshot has of a thread -/

/-- A thread whose calls are well nested, as a snapshot finds it: with what it has traced up to
    the pause, and what it goes on to trace until its buffer is copied. -/
structure ProgramThread where
  paused : TracedThread
  laterActs : List TraceAction
  laterEvents : List FunTraceEntry
  tracer : Tracer
  hasTraced : HasTraced paused.start (paused.acts ++ laterActs) (paused.events ++ laterEvents) tracer
  forest : Forest FunTraceEntry
  log : paused.events ++ laterEvents <+: forest.log

/-- The functions of the API that take a snapshot. -/
inductive SnapshotCall where
  | whole
  | startingAt (pauseTime time : UInt64)

namespace SnapshotCall

/-- The snapshot that the call gives. -/
def get : SnapshotCall → List ThreadBuffer → FtraceHandler → List UInt8 → FuntraceSnapshot
  | whole, threads, ftraceHandler, procmaps => pauseAndGetSnapshot threads ftraceHandler procmaps
  | startingAt pauseTime time, threads, ftraceHandler, procmaps =>
    snapshotStartingAtTime threads ftraceHandler procmaps pauseTime time

/-- What is copied of a buffer. -/
def copy : SnapshotCall → ThreadBuffer → List FunTraceEntry
  | whole, t => t.buf
  | startingAt pauseTime time, t => copyStartingAtTime t.buf t.pos time pauseTime

/-- Is an event to be in the snapshot? -/
def keeps : SnapshotCall → FunTraceEntry → Bool
  | whole, _ => true
  | startingAt pauseTime time, e => inInterval time pauseTime e

theorem threadTraces_get (call : SnapshotCall) (threads : List ThreadBuffer)
    (ftraceHandler : FtraceHandler) (procmaps : List UInt8) :
    (call.get threads ftraceHandler procmaps).threadTraces =
      threads.map fun t => ⟨t.id, call.copy t⟩ := by
  cases call <;> rfl

/-- No more is copied than there is. -/
theorem length_copy_le (call : SnapshotCall) (t : ThreadBuffer) :
    (call.copy t).length ≤ t.buf.length := by
  have hfrom (range : List FunTraceEntry) (start : Option ℕ) :
      (copyFrom range start).length ≤ range.length := by
    cases start with
    | none => exact Nat.zero_le _
    | some p => exact (List.length_drop ..).trans_le (Nat.sub_le _ _)
  cases call with
  | whole => exact Nat.le_refl _
  | startingAt pauseTime time =>
    have hsplit := congrArg List.length (List.take_append_drop t.pos t.buf)
    rw [List.length_append] at hsplit
    rw [SnapshotCall.copy, copyStartingAtTime, List.length_append, ← hsplit, Nat.add_comm]
    exact Nat.add_le_add (hfrom _ _) (hfrom _ _)

end SnapshotCall

namespace ProgramThread
variable (t : ProgramThread) (call : SnapshotCall)

/-- The thread when its buffer is copied. -/
def copied : TracedThread :=
  { t.paused with
    acts := t.paused.acts ++ t.laterActs
    events := t.paused.events ++ t.laterEvents
    tracer := t.tracer
    hasTraced := t.hasTraced }

/-- The position is read at the pause, the slots are copied after it. -/
def buffer : ThreadBuffer :=
  ⟨t.paused.id, t.tracer.data.slots t.tracer.mem, t.paused.tracer.data.posIndex⟩

/-- The events that the buffer still holds, those among them that are to be in the snapshot. -/
def window : List FunTraceEntry :=
  (t.copied.events.drop (t.copied.events.length - t.copied.numSlots)).filter call.keeps

/-- What the snapshot relies on: that nothing lay in the slots that were not written, or that the
    thread traces nothing older than the pause after it. -/
def Takes : SnapshotCall → Prop
  | .whole => t.copied.RestZero
  | .startingAt pauseTime time => time ≤ pauseTime ∧ (∀ e ∈ t.paused.events, e.cycle ≤ pauseTime) ∧
    ∀ e ∈ t.laterEvents, pauseTime < e.cycle

end ProgramThread

/-! ## Windows -/

/-- The events of an interval follow each other in a sorted log. -/
theorem filter_inInterval_isInfix (time pauseTime : UInt64) {es : List FunTraceEntry}
    (hes : es.Pairwise (·.cycle < ·.cycle)) : es.filter (inInterval time pauseTime) <:+: es := by
  have hold : Partitioned (fun e : FunTraceEntry => decide (e.cycle < time)) es :=
    hes.imp fun hlt he => decide_eq_true (UInt64.lt_trans hlt (of_decide_eq_true he))
  have hin : Partitioned (fun e : FunTraceEntry => decide (e.cycle ≤ pauseTime))
      (es.filter fun e => !decide (e.cycle < time)) :=
    (hes.sublist List.filter_sublist).imp fun hlt he =>
      decide_eq_true (UInt64.le_trans (UInt64.le_of_lt hlt) (of_decide_eq_true he))
  have hwindow : (es.filter fun e => !decide (e.cycle < time)).filter
      (fun e => decide (e.cycle ≤ pauseTime)) = es.filter (inInterval time pauseTime) := by
    rw [List.filter_filter]
    refine List.filter_congr fun e _ => ?_
    simp only [inInterval, ← decide_not, UInt64.not_lt, ← Bool.decide_and, and_comm]
  have hsplit := hold.split
  rw [hin.split, hwindow] at hsplit
  exact ⟨_, _, by rw [List.append_assoc, ← hsplit]⟩

/-- Sorted nonzero entries are read as they are. -/
theorem nonzeroEntries_of_sorted {es : List FunTraceEntry} (hes : es.Pairwise (·.cycle < ·.cycle))
    (hnonzero : ∀ e ∈ es, e.cycle ≠ 0) : nonzeroEntries es = es := by
  have hall : es.filter (!·.isEmpty) = es := by
    refine List.filter_eq_self.2 fun e he => ?_
    simp [FunTraceEntry.isEmpty, hnonzero e he]
  rw [nonzeroEntries, hall]
  exact List.Pairwise.insertionSort_eq (hes.imp UInt64.le_of_lt)

/-- Entries that are sorted by different cycles have only one order. -/
theorem eq_of_perm_of_sorted {es es' : List FunTraceEntry} (hperm : es.Perm es')
    (hes : es.Pairwise (·.cycle ≤ ·.cycle)) (hes' : es'.Pairwise (·.cycle < ·.cycle)) : es = es' := by
  refine hperm.eq_of_pairwise (fun a b ha hb hab hba => ?_) hes (hes'.imp UInt64.le_of_lt)
  have hcycle : a.cycle = b.cycle := UInt64.le_antisymm hab hba
  have hne : es'.Pairwise fun a b => a.cycle ≠ b.cycle := hes'.imp UInt64.ne_of_lt
  have : Std.Symm fun a b : FunTraceEntry => a.cycle ≠ b.cycle := ⟨fun _ _ h => h.symm⟩
  by_contra hdiff
  exact hne.forall (hperm.mem_iff.1 ha) hb hdiff hcycle

namespace ProgramThread
variable {sym : UInt64 → SymInfo} {t : ProgramThread} {call : SnapshotCall}

theorem window_isInfix (hF : Recorded sym t.forest) : t.window call <:+: t.forest.log := by
  have hdrop : t.copied.events.drop (t.copied.events.length - t.copied.numSlots) <:+: t.forest.log :=
    (List.drop_suffix _ _).isInfix.trans t.log.isInfix
  refine List.IsInfix.trans ?_ hdrop
  cases call with
  | whole =>
    have hall : t.window .whole = t.copied.events.drop (t.copied.events.length - t.copied.numSlots) :=
      List.filter_eq_self.2 fun _ _ => rfl
    rw [hall]
  | startingAt pauseTime time =>
    exact filter_inInterval_isInfix time pauseTime (hF.sorted.sublist hdrop.sublist)

theorem length_window_le : (t.window call).length ≤ t.copied.numSlots := by
  refine (List.length_filter_le _ _).trans ?_
  rw [List.length_drop]
  omega

/-- **What a snapshot has of a thread** is the window, in its order. -/
theorem window_eq (hF : Recorded sym t.forest) (htakes : t.Takes call) :
    nonzeroEntries (call.copy t.buffer) = t.window call := by
  have hsorted : (t.window call).Pairwise (·.cycle < ·.cycle) :=
    hF.sorted.sublist (window_isInfix hF).sublist
  have hnonzero : ∀ e ∈ t.window call, e.cycle ≠ 0 := fun e he =>
    hF.nonzero e ((window_isInfix hF).subset he)
  have hevents : (t.paused.events ++ t.laterEvents).Pairwise (·.cycle < ·.cycle) :=
    hF.sorted.sublist t.log.sublist
  cases call with
  | whole =>
    have hheld : t.copied.held = t.window .whole := by
      rw [TracedThread.held, window]
      refine List.filter_congr fun e he => ?_
      have hne := hF.nonzero e (t.log.subset (List.mem_of_mem_drop he))
      simp [FunTraceEntry.isEmpty, hne, SnapshotCall.keeps]
    have hperm := t.copied.perm_held_iff.2 htakes
    rw [hheld] at hperm
    refine eq_of_perm_of_sorted hperm ?_ hsorted
    exact (sortedStably_insertionSort _ _).sorted
  | startingAt pauseTime time =>
    obtain ⟨htime, hpast, hlater⟩ := htakes
    obtain ⟨hne, hinit, hholds⟩ := holds_allocate t.paused.allocates t.paused.five_le t.paused.le_thirty
      t.paused.before t.paused.defaultLogBufSize t.paused.memory
    have hcopy : copyStartingAtTime (t.tracer.data.slots t.tracer.mem) t.paused.tracer.data.posIndex
        time pauseTime = t.window (.startingAt pauseTime time) := by
      have hring := copyStartingAtTime_ring hne hinit (List.pairwise_append.1 hevents).1
        (fun e he => hF.nonzero e (t.log.subset (List.mem_append_left _ he))) hpast hlater htime
      have hlength := t.copied.length_start_slots
      rw [(t.hasTraced.holds hholds).1, (t.paused.hasTraced.holds hholds).2, ringOf, Ring.pushAll_append]
      refine hring.trans ?_
      rw [window, ← hlength]
      rfl
    rw [SnapshotCall.copy, buffer, hcopy]
    exact nonzeroEntries_of_sorted hsorted hnonzero

end ProgramThread

/-! ## What the viewer shows -/

/-- The thread that an event belongs to. -/
def JsonEvent.thread : JsonEvent → UInt64 × UInt64
  | .threadName pid tid _ => (pid, tid)
  | .processName pid tid _ => (pid, tid)
  | .complete tid _ _ _ pid => (pid, tid)

/-- A snapshot that a program writes to its file. -/
structure ProgramSnapshot where
  call : SnapshotCall
  threads : List ProgramThread
  ftraceHandler : FtraceHandler
  file : TextSnapshot
  threadTraces_eq : file.file.saved = (call.get (threads.map ProgramThread.buffer) ftraceHandler
    file.file.procmaps).threadTraces
  ftraceEvents_eq : file.file.ftraceEvents = (call.get (threads.map ProgramThread.buffer) ftraceHandler
    file.file.procmaps).ftraceEvents

namespace ProgramSnapshot
variable (w : World) (snap : ProgramSnapshot)

/-- The maps, in the order in which they are looked up. -/
def maps : List MemoryMap := sortMaps ((w.memoryMaps snap.file.file.procmaps).getD [])

/-- The function at an address. -/
def symbols : UInt64 → SymInfo := symInfoAt w (snap.maps w)

/-- Does the snapshot have anything to show? -/
def hasSample : Bool := snap.file.hasSample

/-- The calls of a thread, each under the name of its function; the intervals lie as they do. -/
structure ShowsThread (cpuFreq timeBase : UInt64) (t : ProgramThread) (events : List JsonEvent) :
    Prop where
  thread : ∀ e ∈ events, e.thread = (t.paused.id.pid, t.paused.id.tid)
  calls : ∃ hne : t.window snap.call ≠ [],
    let win : ThreadTrace := ⟨t.paused.id, t.window snap.call, hne⟩
    let span := t.forest.span win cpuFreq timeBase
    (∀ e ∈ win.trace, timeBase ≤ e.cycle) ∧
    events.filterMap JsonEvent.span = (t.forest.invocations win.trace).map (fun v =>
      (jsonName false (symOf (snap.symbols w) v.1), span v)) ∧
    ∀ u ∈ t.forest.invocations win.trace, ∀ v ∈ t.forest.invocations win.trace,
      Fits (span u) (span v) ∧ (Within (span u) (span v) ↔ u = v ∨ t.forest.Inside u v)

/-- The JSON file of a snapshot has its threads in order, those of which the snapshot has nothing
    left out. -/
def Shows (sample : WrittenSample) : Prop :=
  Reads snap.file sample ∧ ∃ json timeBase, sample.json = some json ∧
    List.Forall₂ (snap.ShowsThread w snap.file.file.cpuFreq timeBase)
      (snap.threads.filter fun t => t.window snap.call ≠ []) json.events

/-- What the conversion relies on. -/
structure Viewable : Prop where
  maps : (w.memoryMaps snap.file.file.procmaps).isSome
  starts : OwnStarts (snap.maps w)
  takes : ∀ t ∈ snap.threads, t.Takes snap.call
  recorded : ∀ t ∈ snap.threads, Recorded (snap.symbols w) t.forest
  noThunk : ∀ t ∈ snap.threads, ∀ e ∈ t.forest.log, ¬ isThunk (nameOf (snap.symbols w) e)
  execs : snap.file.file.ExecsOk w
  noWideBlank : ∀ line ∈ linesOf snap.file.ftraceText.toList, ¬ WideBlank line

end ProgramSnapshot

/-! ## Events of a thread -/

namespace TraceConverter
variable {w : World}

theorem thread_writeFunctionCallEvent {t : ThreadID} {call : FunctionCall}
    {s s' : TraceConverter × List SymInfo} {es : List JsonEvent}
    (h : writeFunctionCallEvent w t s call = some (s', es)) : ∀ e ∈ es, e.thread = (t.pid, t.tid) := by
  have hmetadata {c c' : TraceConverter} {es : List JsonEvent} (h : c.startThread t = some (c', es)) :
      ∀ e ∈ es, e.thread = (t.pid, t.tid) := by
    unfold startThread at h
    split_ifs at h
    · simp only [threadMetadata, Option.bind_eq_bind, Option.pure_def, Option.bind_eq_some_iff,
        Option.some.injEq, Prod.mk.injEq] at h
      obtain ⟨_, ⟨_, -, rfl⟩, -, rfl⟩ := h
      intro e he
      split_ifs at he
      · rcases List.mem_pair.1 he with rfl | rfl <;> rfl
      · rw [List.mem_singleton.1 he]
        rfl
    · cases h
      exact List.forall_mem_nil _
  have hevent {c : TraceConverter} {es : List JsonEvent} (h : c.completeEvent t call = some es) :
      ∀ e ∈ es, e.thread = (t.pid, t.tid) := by
    unfold completeEvent at h
    split_ifs at h <;> cases h
    · exact List.forall_mem_singleton.2 rfl
    · exact List.forall_mem_nil _
  simp only [writeFunctionCallEvent] at h
  split_ifs at h
  · cases h
    exact List.forall_mem_nil _
  · simp only [Option.bind_eq_bind, Option.pure_def, Option.bind_eq_some_iff, Option.some.injEq,
      Prod.mk.injEq] at h
    obtain ⟨⟨c₁, metadata⟩, hstart, event, hcall, c₂, -, -, rfl⟩ := h
    exact List.forall_mem_append.2 ⟨hmetadata hstart, hevent hcall⟩

theorem thread_writeCalls {t : ThreadID} : ∀ (calls : List FunctionCall)
    {s s' : TraceConverter × List SymInfo} {es : List JsonEvent},
      writeCalls w t s calls = some (s', es) → ∀ e ∈ es, e.thread = (t.pid, t.tid)
  | [], _, _, _, h => by
    cases h
    exact List.forall_mem_nil _
  | call :: calls, s, s', es, h => by
    simp only [writeCalls, Option.bind_eq_bind, Option.pure_def, Option.bind_eq_some_iff,
      Option.some.injEq, Prod.mk.injEq] at h
    obtain ⟨⟨s₁, es₁⟩, h₁, ⟨s₂, es₂⟩, h₂, -, rfl⟩ := h
    exact List.forall_mem_append.2 ⟨thread_writeFunctionCallEvent h₁, thread_writeCalls calls h₂⟩

theorem thread_writeThreads : ∀ (ts : List (ThreadTrace × List FunctionCall))
    {s s' : TraceConverter × List SymInfo} {ess : List (List JsonEvent)},
      writeThreads w s ts = some (s', ess) →
        List.Forall₂ (fun p es => ∀ e ∈ es, e.thread = (p.1.threadId.pid, p.1.threadId.tid)) ts ess
  | [], _, _, _, h => by
    cases h
    exact .nil
  | p :: ts, s, s', ess, h => by
    unfold writeThreads at h
    split_ifs at h
    · simp only [Option.bind_eq_bind, Option.pure_def, Option.bind_eq_some_iff, Option.some.injEq,
        Prod.mk.injEq] at h
      obtain ⟨⟨s₁, es⟩, h₁, -, -, ⟨s₂, ess₂⟩, h₂, -, rfl⟩ := h
      exact .cons (thread_writeCalls _ h₁) (thread_writeThreads ts h₂)
    · simp only [Option.bind_eq_bind, Option.pure_def, Option.bind_eq_some_iff, Option.some.injEq,
        Prod.mk.injEq] at h
      obtain ⟨⟨s₂, ess₂⟩, h₂, -, rfl⟩ := h
      exact .cons (List.forall_mem_nil _) (thread_writeThreads ts h₂)

/-! ## A sample -/

variable {c : TraceConverter} {sampleEntries : List ThreadTrace} {ftraceEvents : List FtraceEvent}
  {F : Forest FunTraceEntry}

/-- The JSON file has events for each thread, with its id. -/
theorem thread_writeSampleToJson {c' : TraceConverter} {ftraceText : String} {json : SampleJson}
    (h : c.writeSampleToJson w sampleEntries ftraceText = some (c', some json)) :
    List.Forall₂ (fun t es => ∀ e ∈ es, e.thread = (t.threadId.pid, t.threadId.tid)) sampleEntries
      json.events := by
  obtain ⟨raw, shifted, funcset, events, -, -, -, hwrite, hjson⟩ := exists_of_writeSampleToJson h
  split_ifs at hjson
  cases hjson
  have hthreads := thread_writeThreads _ hwrite
  have hzip : (sampleEntries.zip (c.sampleCalls w sampleEntries raw)).map Prod.fst = sampleEntries :=
    List.map_fst_zip (length_decodeThreads w _ _ _ _).ge
  rw [← hzip, List.forall₂_map_left_iff]
  exact hthreads

/-- A thread that is a window of a forest without thunks resolves, if the caches are right. -/
theorem Ready.isForestWindow (h : c.Ready w) (hargs : c.args = Cli.default) (hfreq : c.cpuFreq ≠ 0)
    (hF : Recorded (c.symbols w) F) (hthunk : ∀ e ∈ F.log, ¬ isThunk (nameOf (c.symbols w) e))
    {i : Fin sampleEntries.length} (hwin : (sampleEntries.get i).trace <:+: F.log) :
    c.IsForestWindow w sampleEntries ftraceEvents i (c.symbols w) F where
  noOption := hargs
  freq := hfreq
  recorded := hF
  window := hwin
  resolves := by
    have hsorted := hF.sorted.sublist hwin.sublist
    refine ⟨fun e he => ?_, fun e he => Bool.eq_false_iff.2 (hthunk e (hwin.subset he))⟩
    refine h.faithful_sampleLookup.sym_eq ?_
    have hold : c.oldestEvent sampleEntries ftraceEvents ≤ e.cycle :=
      UInt64.le_trans (oldest_le_head hargs (List.get_mem _ _)) (ThreadTrace.head_le hsorted he)
    exact decodeThreads_isSome _ (selects_default hargs _) he hold _ _ (List.get_mem _ _)

end TraceConverter

/-- Entries of a window with different cycles are no more than it has. -/
theorem length_le_of_cycles {α : Type} {l : List α} {entry : α → FunTraceEntry}
    (hl : l.Pairwise fun u v => (entry u).cycle ≠ (entry v).cycle) {win : List FunTraceEntry}
    (hwin : ∀ v ∈ l, entry v ∈ win) : l.length ≤ win.length := by
  have hnodup : (l.map entry).Nodup :=
    List.pairwise_map.2 (hl.imp fun hne heq => hne (congrArg FunTraceEntry.cycle heq))
  have hsubset : l.map entry ⊆ win := fun e he => by
    obtain ⟨v, hv, rfl⟩ := List.mem_map.1 he
    exact hwin v hv
  have hle := (hnodup.subperm hsubset).length_le
  rwa [List.length_map] at hle

/-- The invocations that only return in a window are no more than its entries, nor are those that
    are only called there. -/
theorem length_orphans_opened_le {sym : UInt64 → SymInfo} {F : Forest FunTraceEntry}
    (hF : Recorded sym F) {t : ThreadTrace} (hwin : t.trace <:+: F.log) :
    (F.orphans t.trace).length ≤ t.trace.length ∧ (F.opened t.trace).length ≤ t.trace.length := by
  have horphans : (F.orphans t.trace).Pairwise fun u v => u.2.cycle < v.2.cycle :=
    (Forest.invs_sorted hF.sorted).sublist List.filter_sublist
  constructor
  · refine length_le_of_cycles (horphans.imp UInt64.ne_of_lt) fun v hv => ?_
    simp only [Forest.orphans, List.mem_filter, decide_eq_true_eq] at hv
    exact hv.2.2
  · refine length_le_of_cycles ((opened_sorted hF hwin).imp fun hlt => (UInt64.ne_of_lt hlt).symm)
      fun v hv => ?_
    simp only [Forest.opened, List.mem_filter, decide_eq_true_eq] at hv
    exact hv.2.1

namespace ProgramSnapshot
variable {w : World} {snap : ProgramSnapshot}

/-- The threads that are read, with their windows. -/
theorem readsWindows {call : SnapshotCall} : ∀ {ts : List ProgramThread} {bs : List EventBuffer},
    bs.map (fun b => SnapshotBuffer.mk b.id b.buf) =
      (ts.map ProgramThread.buffer).map (fun t => ⟨t.id, call.copy t⟩) →
    (∀ t ∈ ts, nonzeroEntries (call.copy t.buffer) = t.window call) →
    List.Forall₂ (fun t t' => t'.threadId = t.paused.id ∧ t'.trace = t.window call)
      (ts.filter fun t => t.window call ≠ []) (bs.filterMap EventBuffer.trace)
  | [], [], _, _ => .nil
  | t :: ts, b :: bs, h, hwindow => by
    simp only [List.map_cons, List.cons.injEq, SnapshotBuffer.mk.injEq] at h
    obtain ⟨⟨hid, hbuf⟩, h⟩ := h
    obtain ⟨hfirst, hwindow⟩ := List.forall_mem_cons.1 hwindow
    have ih := readsWindows h hwindow
    rw [← hbuf] at hfirst
    by_cases hne : t.window call = []
    · have hnone : b.trace = none := dif_neg (not_not.2 (hfirst.trans hne))
      rw [List.filter_cons_of_neg (by simpa using hne), List.filterMap_cons, hnone]
      exact ih
    · have hsome : b.trace = some ⟨b.id, nonzeroEntries b.buf, hfirst ▸ hne⟩ := dif_pos (hfirst ▸ hne)
      rw [List.filter_cons_of_pos (by simpa using hne), List.filterMap_cons, hsome]
      exact .cons ⟨hid, hfirst⟩ ih

/-- A thread whose events are those of its invocations. -/
theorem showsThread (hview : snap.Viewable w) {t : ProgramThread} (ht : t ∈ snap.threads)
    {t' : ThreadTrace} (hid : t'.threadId = t.paused.id) (hwindow : t'.trace = t.window snap.call)
    {events : List JsonEvent} (hthread : ∀ e ∈ events, e.thread = (t'.threadId.pid, t'.threadId.tid))
    {cpuFreq timeBase : UInt64} (hfreq : cpuFreq ≠ 0)
    (hbase : timeBase ≤ (t'.trace.head t'.nonempty).cycle)
    (hspans : events.filterMap JsonEvent.span = (t.forest.invocations t'.trace).map fun v =>
      (jsonName false (symOf (snap.symbols w) v.1), t.forest.span t' cpuFreq timeBase v)) :
    snap.ShowsThread w cpuFreq timeBase t events := by
  have hF := hview.recorded t ht
  have hinfix : t'.trace <:+: t.forest.log := hwindow ▸ ProgramThread.window_isInfix hF
  obtain ⟨id, trace, hne⟩ := t'
  subst hid hwindow
  refine ⟨hthread, hne, fun e he => ?_, hspans, fun u hu v hv => ?_⟩
  · exact UInt64.le_trans hbase (ThreadTrace.head_le (hF.sorted.sublist hinfix.sublist) he)
  · exact span_nests hF hinfix hfreq hbase hu hv

/-- **The JSON of a sample** of the snapshot. -/
theorem showsThreads (hview : snap.Viewable w) {c c' : TraceConverter} {ftraceText : String}
    {json : SampleJson} (hready : c.Ready w) (hargs : c.args = Cli.default)
    (hfreq : c.cpuFreq = snap.file.file.cpuFreq) (hmaps : c.procaddr2sym.maps = snap.maps w)
    (hwrite : c.writeSampleToJson w snap.file.file.sampleEntries ftraceText = some (c', some json)) :
    ∃ timeBase, List.Forall₂ (snap.ShowsThread w snap.file.file.cpuFreq timeBase)
      (snap.threads.filter fun t => t.window snap.call ≠ []) json.events := by
  have hsym : c.symbols w = snap.symbols w := by
    funext a
    rw [TraceConverter.symbols, hmaps, symbols]
  have hne : c.cpuFreq ≠ 0 := hfreq ▸ snap.file.cpuFreq_ne
  have hthreads : List.Forall₂ (fun t t' => t'.threadId = t.paused.id ∧ t'.trace = t.window snap.call)
      (snap.threads.filter fun t => t.window snap.call ≠ []) snap.file.file.sampleEntries :=
    readsWindows (snap.threadTraces_eq.trans (snap.call.threadTraces_get _ _ _)) fun t ht =>
      ProgramThread.window_eq (hview.recorded t ht) (hview.takes t ht)
  obtain ⟨-, -, -, -, raw, hraw, -⟩ := TraceConverter.writeSampleToJson_spec hwrite
  have hspans := TraceConverter.spans_writeSampleToJson hraw hwrite
  obtain ⟨hlen, hread⟩ := List.forall₂_iff_get.1 hthreads
  obtain ⟨hlen', hids⟩ := List.forall₂_iff_get.1 (TraceConverter.thread_writeSampleToJson hwrite)
  refine ⟨(c.thresholds snap.file.file.sampleEntries raw).2, List.forall₂_iff_get.2
    ⟨hlen.trans hlen', fun i hi hi' => ?_⟩⟩
  have hentry : i < snap.file.file.sampleEntries.length := hlen ▸ hi
  obtain ⟨hid, hwindow⟩ := hread i hi hentry
  have ht := List.mem_of_mem_filter (List.get_mem (snap.threads.filter fun t => t.window snap.call ≠ [])
    ⟨i, hi⟩)
  have hF := hview.recorded _ ht
  have hthunk := hview.noThunk _ ht
  have hinfix := @ProgramThread.window_isInfix _ _ snap.call hF
  rw [← hsym] at hF hthunk
  rw [← hwindow] at hinfix
  have hforest := @TraceConverter.Ready.isForestWindow w c _ raw _ hready hargs hne hF hthunk ⟨i, hentry⟩
    hinfix
  refine showsThread hview ht hid hwindow (hids i hentry hi') snap.file.cpuFreq_ne
    (UInt64.le_trans (c.timeBase_le_oldest _ _) hforest.oldest_le) ?_
  have hbound : ((snap.file.file.sampleEntries.get ⟨i, hentry⟩).trace).length < 2 ^ 31 := by
    rw [hwindow]
    exact (ProgramThread.length_window_le.trans (TracedThread.numSlots_le _)).trans_lt (by decide)
  obtain ⟨horphans, hopened⟩ := length_orphans_opened_le hF hinfix
  have hemitted := hforest.emitted_iff.2 ⟨horphans.trans_lt hbound, hopened.trans_lt hbound⟩
  have hplace := congrArg (·[i]?) hspans
  simp only [List.getElem?_map, List.getElem?_eq_getElem hi', Option.map_some] at hplace
  cases hcalls : (c.emitted w snap.file.file.sampleEntries raw)[i]? with
  | none =>
    rw [hcalls] at hplace
    cases hplace
  | some calls =>
    rw [hcalls, Option.map_some, Option.some.injEq] at hplace
    rw [List.getD_eq_getElem?_getD, hcalls, Option.getD_some] at hemitted
    refine hplace.trans ?_
    rw [hemitted, List.map_map, hargs, hsym, hfreq]
    rfl

end ProgramSnapshot

/-! ## A file -/

/-- The decoder between two snapshots. -/
structure Between (w : World) (s : ParseState) : Prop where
  args : s.converter.args = Cli.default
  pending : s.pending = false
  sources : s.converter.SourcesRead w
  intact : s.converter.Intact w

section
variable {w : World} {snap : ProgramSnapshot} {s s₁ : ParseState} {pos : ℕ}

/-- After the header of a snapshot the caches are empty. -/
theorem ready_withSnapshot (hview : snap.Viewable w) (hs : Between w s)
    (h : s.withSnapshot w snap.file.file = some s₁) :
    s₁.converter.Ready w ∧ s₁.converter.procaddr2sym.maps = snap.maps w := by
  simp only [ParseState.withSnapshot, ParseState.withHeader, Option.bind_eq_bind, Option.pure_def,
    Option.bind_eq_some_iff, Option.some.injEq] at h
  obtain ⟨_, ⟨procaddr2sym, hset, _, -, rfl⟩, _, -, rfl⟩ := h
  obtain ⟨maps, hmaps⟩ := Option.isSome_iff_exists.1 hview.maps
  have hsorted : procaddr2sym.maps = snap.maps w := by
    have hset' := setProcMaps_eq s.converter.procaddr2sym hmaps
    rw [hset, Option.some.injEq] at hset'
    rw [hset', ProgramSnapshot.maps, hmaps]
    rfl
  refine ⟨⟨hs.intact.current.setProcMaps hset, ?_, fun a sym ha => by cases ha⟩, hsorted⟩
  have hstarts := hview.starts
  rw [← hsorted] at hstarts
  exact hstarts

/-- Without options all entries are looked up, and the files of their maps can be parsed. -/
theorem execsConvert (hview : snap.Viewable w) (hs : Between w s) : ExecsConvert w s snap.file := by
  intro s' raw hs' _
  have hhas := hasSnapshot hs'
  have hentries : s'.sampleEntries = snap.file.file.sampleEntries := by
    rw [hhas.sampleEntries, (fresh_of_pending hs.pending).1, List.nil_append]
  rw [hentries]
  exact (hhas.execsRead_iff (hhas.follows.args.trans hs.args) raw).2 hview.execs

/-- **A snapshot** is read, and its JSON shows it. -/
theorem shows_snapshot (hsources : ∀ file, (w.sourceText file).isSome) (hview : snap.Viewable w)
    (hs : Between w s) : ∃ s' samples, readChunks w pos s snap.file.file.chunks = .ok s' ∧
      Between w s' ∧ s'.written = s.written ++ samples ∧
      List.Forall₂ (ProgramSnapshot.Shows w) ([snap].filter ProgramSnapshot.hasSample) samples := by
  have hsamples : s.converter.args.samples = [] := by rw [hs.args]; rfl
  have hconverts : Converts w s snap.file :=
    ⟨hview.noWideBlank, execsConvert hview hs, Or.inr fun _ _ _ _ _ _ call _ => hsources call.sym.file⟩
  obtain ⟨s', hread⟩ :=
    (@step_iff w s snap.file pos hsamples hs.sources hs.intact hview.maps hs.pending).2 hconverts
  obtain ⟨s₁, hs₁, hfollows, hwritten, -, hpending, hfreq, -, hentries, hreads⟩ :=
    exists_withSnapshot hview.maps hs.pending
  obtain ⟨hready, hmaps⟩ := ready_withSnapshot hview hs hs₁
  have hargs : s₁.converter.args = Cli.default := hfollows.args.trans hs.args
  have hafter := follows_of_readChunks hread
  have hend : s₁.endTrace w = .ok s' := by
    obtain ⟨s₂, hs₂, hend⟩ := withSnapshot_of_readChunks hs.pending hread
    rw [hs₁, Option.some.injEq] at hs₂
    rw [hs₂]
    exact hend
  have hbetween : Between w s' := ⟨hafter.args.trans hs.args, pending_of_endTrace hend,
    hafter.sourcesRead hs.sources, hafter.intact hs.intact⟩
  by_cases hsample : snap.hasSample
  · have hselected : s₁.selected := by
      rw [ParseState.selected, hargs]
      rfl
    rw [ParseState.endTrace, hpending, if_pos (show snap.file.hasSample from hsample), if_pos hselected] at hend
    cases hwrite : s₁.converter.writeSampleToJson w s₁.sampleEntries s₁.ftraceText with
    | none =>
      simp only [ParseState.writeSample, hwrite] at hend
      cases hend
    | some r =>
      obtain ⟨c', json⟩ := r
      simp only [ParseState.writeSample, hwrite] at hend
      cases hend
      obtain ⟨json, rfl⟩ : ∃ js, json = some js := by
        have hdry : s₁.converter.args.dry = false := by rw [hargs]; rfl
        have hsome := (@json_isSome w s₁ hdry).2 (by rw [hwrite]; rfl)
        rw [ParseState.json, hwrite, Option.isSome_map] at hsome
        exact Option.isSome_iff_exists.1 hsome
      rw [hentries] at hwrite
      obtain ⟨timeBase, hshows⟩ :=
        ProgramSnapshot.showsThreads hview hready hargs hfreq hmaps hwrite
      refine ⟨_, _, hread, hbetween, congrArg (· ++ _) hwritten, ?_⟩
      rw [List.filter_cons_of_pos hsample]
      exact .cons ⟨hreads _ _, json, timeBase, rfl, hshows⟩ .nil
  · rw [ParseState.endTrace, hpending, if_neg (show ¬ snap.file.hasSample from hsample)] at hend
    cases hend
    refine ⟨s', [], hread, hbetween, by rw [hwritten, List.append_nil], ?_⟩
    rw [List.filter_cons_of_neg hsample]
    exact .nil

end

/-- The snapshots that follow each other in a file. -/
theorem shows_readChunks {w : World} (hsources : ∀ file, (w.sourceText file).isSome) :
    ∀ (snaps : List ProgramSnapshot), (∀ snap ∈ snaps, snap.Viewable w) → ∀ {s : ParseState} {pos : ℕ},
      Between w s → ∃ s' samples,
        readChunks w pos s (textChunks (snaps.map ProgramSnapshot.file)) = .ok s' ∧
        s'.written = s.written ++ samples ∧
        List.Forall₂ (ProgramSnapshot.Shows w) (snaps.filter ProgramSnapshot.hasSample) samples
  | [], _, s, _, _ => ⟨s, [], rfl, (List.append_nil _).symm, .nil⟩
  | snap :: snaps, hview, s, pos, hs => by
    obtain ⟨hfirst, hview⟩ := List.forall_mem_cons.1 hview
    obtain ⟨s₁, samples₁, hread₁, hs₁, hwritten₁, hshows₁⟩ := @shows_snapshot w snap s pos hsources hfirst hs
    obtain ⟨s₂, samples₂, hread₂, hwritten₂, hshows₂⟩ :=
      @shows_readChunks w hsources snaps hview s₁ (pos + (chunkBytes snap.file.file.chunks).length) hs₁
    refine ⟨s₂, samples₁ ++ samples₂, ?_, ?_, ?_⟩
    · rw [List.map_cons, textChunks, List.map_cons, List.flatMap_cons, readChunks_append, hread₁]
      exact hread₂
    · rw [hwritten₂, hwritten₁, List.append_assoc]
    · rw [← List.singleton_append, List.filter_append]
      exact List.rel_append hshows₁ hshows₂

theorem between_new {w : World} : Between w (ParseState.new Cli.default) :=
  ⟨rfl, rfl, (fun _ h => by cases h), TraceConverter.intact_new _⟩

/-- **What the viewer shows** of a program with well-nested calls: for each snapshot in its file, and
    each thread of which the snapshot has something, the invocations in the window that was left. -/
theorem shows_snapshots {w : World} (hsources : ∀ file, (w.sourceText file).isSome)
    {snaps : List ProgramSnapshot} (hview : ∀ snap ∈ snaps, snap.Viewable w) :
    ∃ s, Parses w Cli.default (textBytes (snaps.map ProgramSnapshot.file)) (.done, s) ∧
      List.Forall₂ (ProgramSnapshot.Shows w) (snaps.filter ProgramSnapshot.hasSample) s.written := by
  obtain ⟨s, samples, hread, hwritten, hshows⟩ := @shows_readChunks w hsources snaps hview _ 0 between_new
  have hwritten : s.written = samples := hwritten
  exact ⟨s, parses_of_readChunks hread, hwritten ▸ hshows⟩

/-! ### A program with one thread

`f` calls `g`, and returns while the buffer of two slots is being copied. -/

/-- The events before the pause. -/
def demoEvents : List FunTraceEntry := [⟨0x1100, 10⟩, ⟨0x1200, 20⟩, .traced 0x1200 returnFlag 30]

/-- What happens before the buffer is copied. -/
def demoLater : List FunTraceEntry := [.traced 0x1100 returnFlag 50]

/-- The calls that record these entries. -/
def demoCalls (es : List FunTraceEntry) : List TraceAction :=
  es.flatMap fun e => [.enter (.trace e.address 0 e.cycle), .store, .store, .store]

/-- The tracer with a fresh buffer. -/
def demoStart : Tracer :=
  Tracer.fresh (staleThread.before.allocate 20 (fun _ _ => some 64) 5 fun _ => 0)

/-- The tracer after these entries. -/
def demoTracer (es : List FunTraceEntry) : Tracer :=
  (runFrom Tracer.step demoStart (demoCalls es)).getD demoStart

theorem hasTraced_demo : HasTraced demoStart (demoCalls demoEvents) demoEvents (demoTracer demoEvents) ∧
    HasTraced demoStart (demoCalls demoEvents ++ demoCalls demoLater) (demoEvents ++ demoLater)
      (demoTracer (demoEvents ++ demoLater)) := by
  have htraced {es : List FunTraceEntry} (hsome : (runFrom Tracer.step demoStart (demoCalls es)).isSome)
      (hidle : (demoTracer es).pending.isNone)
      (htraced : (runFrom Recorder.step Recorder.init (demoCalls es)).map Recorder.traced = some es) :
      HasTraced demoStart (demoCalls es) es (demoTracer es) := by
    obtain ⟨s, hs⟩ := Option.isSome_iff_exists.1 hsome
    exact ⟨by rw [demoTracer, hs]; rfl, Option.isNone_iff_eq_none.1 hidle, htraced⟩
  have happend : demoCalls demoEvents ++ demoCalls demoLater = demoCalls (demoEvents ++ demoLater) :=
    List.flatMap_append.symm
  rw [happend]
  exact ⟨htraced (by decide +kernel) (by decide +kernel) (by decide +kernel),
    htraced (by decide +kernel) (by decide +kernel) (by decide +kernel)⟩

/-- `f` calls `g`. -/
def demoForest : Forest FunTraceEntry :=
  .call ⟨0x1100, 10⟩ (.call ⟨0x1200, 20⟩ .nil (.traced 0x1200 returnFlag 30) .nil)
    (.traced 0x1100 returnFlag 50) .nil

theorem log_demoForest : demoForest.log = demoEvents ++ demoLater := rfl

/-- The thread at the pause, and what it does later. -/
def demoProgram : ProgramThread where
  paused :=
    { staleThread with
      memory := fun _ => 0
      acts := demoCalls demoEvents
      events := demoEvents
      tracer := demoTracer demoEvents
      hasTraced := hasTraced_demo.1 }
  laterActs := demoCalls demoLater
  laterEvents := demoLater
  tracer := demoTracer (demoEvents ++ demoLater)
  hasTraced := hasTraced_demo.2
  forest := demoForest
  log := log_demoForest ▸ List.prefix_rfl

theorem length_copy_demo (call : SnapshotCall) : 16 * (call.copy demoProgram.buffer).length < 2 ^ 63 := by
  have hbuf : demoProgram.buffer.buf.length = 2 := by decide +kernel
  have hle := call.length_copy_le demoProgram.buffer
  omega

theorem nameStr_demo : (demoProgram.paused.id.nameStr).isSome := by decide +kernel

theorem names_demo (call : SnapshotCall) :
    ∀ t ∈ [(⟨demoProgram.paused.id, call.copy demoProgram.buffer, length_copy_demo call⟩ : EventBuffer)],
      t.id.nameStr.isSome :=
  List.forall_mem_singleton.2 nameStr_demo

/-- The snapshot that is written. -/
def demoFile (call : SnapshotCall) : TextSnapshot where
  file :=
    { demoSnapshot demoName with
      threadTraces := [⟨demoProgram.paused.id, call.copy demoProgram.buffer, length_copy_demo call⟩] }
  cmdline := "prog"
  ftraceLines := []
  cpuFreq_ne := plainSnapshot.cpuFreq_ne
  cmdline_eq := plainSnapshot.cmdline_eq
  names := names_demo call
  ftraceEvents_eq := plainSnapshot.ftraceEvents_eq

/-- What has been written, with no event of ftrace. -/
def demoWritten (call : SnapshotCall)
    (hftrace : (call.get [demoProgram.buffer] (.init 1 Nat.one_pos) []).ftraceEvents = []) :
    ProgramSnapshot where
  call := call
  threads := [demoProgram]
  ftraceHandler := .init 1 Nat.one_pos
  file := demoFile call
  threadTraces_eq := (call.threadTraces_get [demoProgram.buffer] _ _).symm
  ftraceEvents_eq := hftrace.symm

theorem recorded_demo :
    let sym := symInfoAt demoWorld (sortMaps [⟨0x1000, 0x2000, 0, some "prog"⟩])
    Recorded sym demoForest ∧ ∀ e ∈ demoForest.log, ¬ isThunk (nameOf sym e) :=
  ⟨⟨by decide +kernel, by decide +kernel, by decide +kernel⟩, by decide +kernel⟩

theorem viewable_demo {call : SnapshotCall}
    (hftrace : (call.get [demoProgram.buffer] (.init 1 Nat.one_pos) []).ftraceEvents = [])
    (htakes : demoProgram.Takes call) : (demoWritten call hftrace).Viewable demoWorld where
  maps := rfl
  starts := ownStarts_sortMaps ownStarts_demo
  takes := List.forall_mem_singleton.2 htakes
  recorded := List.forall_mem_singleton.2 recorded_demo.1
  noThunk := List.forall_mem_singleton.2 recorded_demo.2
  execs := fun maps _ _ _ e _ => unreadableAt_demoWorld (sortMaps maps) e.addr
  noWideBlank := (converts_plainSnapshot (ParseState.new Cli.default)).1

/-- A whole snapshot, and one that starts with the call of `g`. -/
theorem shows_snapshots_demo :
    let snaps := [demoWritten .whole (by decide +kernel), demoWritten (.startingAt 40 20) (by decide +kernel)]
    ∃ s, Parses demoWorld Cli.default (textBytes (snaps.map ProgramSnapshot.file)) (.done, s) ∧
      List.Forall₂ (ProgramSnapshot.Shows demoWorld) (snaps.filter ProgramSnapshot.hasSample)
        s.written := by
  intro snaps
  refine shows_snapshots (fun _ => rfl) (List.forall_mem_cons.2 ⟨viewable_demo _ ?_,
    List.forall_mem_singleton.2 (viewable_demo _ ?_)⟩)
  · intro i _ _
    exact ⟨rfl, fun _ => rfl⟩
  · exact ⟨by decide, by decide, by decide⟩

end Funtrace
