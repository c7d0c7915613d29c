/-
  From a running process to the picture in the viewer.

  Each buffer that a snapshot copies is that of a thread on its own (`Alone.programThread`), so
  what the viewer shows of threads that trace on their own it shows of the threads of every
  process (`shows_processes`), whatever they do at the same time.
-/
import Funtrace.Proof.Consistent
import Funtrace.Proof.Viewer

namespace Funtrace
open FileBefore ProcAddr2Sym

/-! ## Snapshots of a process -/

/-- A snapshot that a process takes and writes to its file.  It reads the position of a buffer
    after the pause and copies the buffer after that, one buffer after the other. -/
structure ProcessSnapshot where
  call : SnapshotCall
  paused : History
  read : TraceRef → History
  copied : TraceRef → History
  ftraceHandler : FtraceHandler
  file : TextSnapshot
  /-- the calls that a thread makes -/
  forest : TraceRef → Forest FunTraceEntry

namespace ProcessSnapshot
variable (w : World) (snap : ProcessSnapshot)

/-- The list that the snapshot goes through. -/
def threadTraces : List TraceRef := snap.paused.process.threadTraces

/-- What it reads of an element of the list. -/
def buffer (r : TraceRef) : ThreadBuffer :=
  ⟨(snap.paused.process.data r).id, ((snap.copied r).process.data r).slots (snap.copied r).process.mem,
    ((snap.read r).process.data r).posIndex⟩

/-- The maps that the decoder reads. -/
def maps : List MemoryMap := sortMaps ((w.memoryMaps snap.file.file.procmaps).getD [])

/-- The function at an address. -/
def symbols : UInt64 → SymInfo := symInfoAt w (snap.maps w)

/-- Does the snapshot have anything to show? -/
def hasSample : Bool := snap.file.hasSample

/-- The snapshot is one of a run of a process in which the threads have buffers, and are in no call
    when their positions are read. -/
structure Taken : Prop where
  run : ∃ (pid : UInt64) (gcMaxAgeMs : ℤ) (defaultLogBufSize : ℕ) (mem : Memory)
    (before : List Process.Action) (names : TraceRef → Vector UInt8 16),
    (defaultLogBufSize = 0 ∨ 5 ≤ defaultLogBufSize) ∧
    runFrom History.step (.init pid gcMaxAgeMs defaultLogBufSize mem)
      (before ++ [.beginSnapshot names]) = some snap.paused ∧
    ∀ r ∈ snap.threadTraces, ∃ mid later, .endSnapshot ∉ mid ∧ .endSnapshot ∉ later ∧
      Along Process.step History.Allowed (.init pid gcMaxAgeMs defaultLogBufSize mem)
        (before ++ .beginSnapshot names :: (mid ++ later)) ∧
      runFrom History.step snap.paused mid = some (snap.read r) ∧
      runFrom History.step (snap.read r) later = some (snap.copied r)
  buffer : ∀ r ∈ snap.threadTraces, ((snap.read r).process.data r).buf ≠ 0
  idle : ∀ r ∈ snap.threadTraces, ((snap.read r).process.tracerAt r).pending = none
  threadTraces_eq : snap.file.file.saved = (snap.call.get (snap.threadTraces.map snap.buffer)
    snap.ftraceHandler snap.file.file.procmaps).threadTraces
  ftraceEvents_eq : snap.file.file.ftraceEvents = (snap.call.get (snap.threadTraces.map snap.buffer)
    snap.ftraceHandler snap.file.file.procmaps).ftraceEvents

/-- What the snapshot relies on: that nothing lay in the slots that were not written, or that the
    clock had passed all events when it was read. -/
def Takes (r : TraceRef) (es : List FunTraceEntry) : SnapshotCall → Prop
  | .whole => ∀ e ∈ (((snap.read r).started r).data.slots ((snap.read r).started r).mem).drop es.length,
    e.isEmpty
  | .startingAt pauseTime time => time ≤ pauseTime ∧ ∀ e ∈ es, e.cycle ≤ pauseTime

/-- What the conversion relies on: the calls of each thread are well nested, and were traced in
    order. -/
structure Viewable : Prop where
  maps : (w.memoryMaps snap.file.file.procmaps).isSome
  starts : OwnStarts (snap.maps w)
  log : ∀ r ∈ snap.threadTraces, ∀ es, (snap.read r).traced r = some es →
    es <+: (snap.forest r).log ∧ snap.Takes r es snap.call
  recorded : ∀ r ∈ snap.threadTraces, Recorded (snap.symbols w) (snap.forest r)
  noThunk : ∀ r ∈ snap.threadTraces, ∀ e ∈ (snap.forest r).log, ¬ isThunk (nameOf (snap.symbols w) e)
  execs : snap.file.file.ExecsOk w
  noWideBlank : ∀ line ∈ linesOf snap.file.ftraceText.toList, ¬ WideBlank line

/-- The thread that `r` is of: it makes the calls of the forest, and has traced what was traced to
    the buffer of `r`. -/
structure IsThread (r : TraceRef) (t : ProgramThread) : Prop where
  id : t.paused.id = (snap.paused.process.data r).id
  forest : t.forest = snap.forest r
  traced : (snap.read r).traced r = some t.copied.events
  numSlots : t.copied.numSlots = ((snap.read r).process.data r).numSlots
  buffer : t.buffer = snap.buffer r

/-- What is shown: the JSON file of a snapshot has the calls of its threads. -/
def Shows (sample : WrittenSample) : Prop :=
  ∃ program : ProgramSnapshot, program.call = snap.call ∧ program.file = snap.file ∧
    List.Forall₂ snap.IsThread snap.threadTraces program.threads ∧ program.Shows w sample

end ProcessSnapshot

/-- What holds of each element for some other, holds of a list for some other list. -/
theorem exists_forall₂ {α β : Type} {R : α → β → Prop} :
    ∀ {as : List α}, (∀ a ∈ as, ∃ b, R a b) → ∃ bs, List.Forall₂ R as bs
  | [], _ => ⟨[], .nil⟩
  | a :: as, h => by
    obtain ⟨⟨b, hb⟩, h⟩ := List.forall_mem_cons.1 h
    obtain ⟨bs, hbs⟩ := exists_forall₂ h
    exact ⟨b :: bs, .cons hb hbs⟩

theorem forall₂_comp {α β γ : Type} {R : α → β → Prop} {S : β → γ → Prop} {as : List α} {bs : List β}
    {cs : List γ} (h : List.Forall₂ R as bs) (h' : List.Forall₂ S bs cs) :
    List.Forall₂ (fun a c => ∃ b, R a b ∧ S b c) as cs := by
  induction h generalizing cs with
  | nil =>
    cases h'
    exact .nil
  | cons hab _ ih =>
    cases h' with
    | cons hbc h' => exact .cons ⟨_, hab, hbc⟩ (ih h')

/-! ## The threads of a snapshot -/

namespace ProcessSnapshot
variable {w : World} {snap : ProcessSnapshot} {r : TraceRef}

theorem Taken.sound (ht : snap.Taken) (hr : r ∈ snap.threadTraces) :
    (snap.read r).Sound ∧ (snap.read r).process.Halted ∧ r ∈ (snap.read r).process.threadTraces ∧
      Process.Frozen snap.paused.process (snap.read r).process r ∧
      Process.Frozen (snap.read r).process (snap.copied r).process r := by
  obtain ⟨pid, gcMaxAgeMs, defaultLogBufSize, mem, before, names, hdefault, hpaused, hruns⟩ := ht.run
  obtain ⟨mid, later, hmid, hlater, hok, hread, hcopied⟩ := hruns r hr
  have hsplit (acts : List Process.Action) : before ++ .beginSnapshot names :: acts =
      (before ++ [.beginSnapshot names]) ++ acts := by simp
  have hall : runFrom History.step (.init pid gcMaxAgeMs defaultLogBufSize mem)
      (before ++ .beginSnapshot names :: mid) = some (snap.read r) := by
    rw [hsplit, runFrom_append, hpaused]
    exact hread
  have hokMid : Along Process.step History.Allowed (.init pid gcMaxAgeMs defaultLogBufSize mem)
      (before ++ .beginSnapshot names :: ([] ++ mid)) := by
    rw [hsplit, ← List.append_assoc, along_append] at hok
    rw [List.nil_append, hsplit]
    exact hok.1
  obtain ⟨-, -, -, hlist, hfrozen⟩ := snapshot_run hdefault hokMid (by simp) hmid hpaused hread
  have hr₁ : r ∈ (snap.read r).process.threadTraces := hlist.symm ▸ hr
  obtain ⟨hsound, hhalted, -, -, hfrozen₁⟩ := snapshot_run hdefault hok hmid hlater hall hcopied
  exact ⟨hsound, hhalted, hr₁, hfrozen r hr, hfrozen₁ r hr₁⟩

/-- A buffer of a thread that takes its steps alone is that of a thread of a program. -/
theorem programThread (ht : snap.Taken) (hr : r ∈ snap.threadTraces)
    (hlog : ∀ es, (snap.read r).traced r = some es → es <+: (snap.forest r).log ∧ snap.Takes r es snap.call) :
    ∃ t, snap.IsThread r t ∧ t.Takes snap.call := by
  obtain ⟨hsound, hhalted, hmem, hid, hfrozen⟩ := ht.sound hr
  have hbuf := ht.buffer r hr
  have hidle := ht.idle r hr
  have halone := hsound.kept.alone r (Or.inl hmem) hbuf
  have hslots := halone.slots_eq hfrozen hbuf hidle (hhalted.masks r hmem)
  obtain ⟨es, hne, htraced, hinit, hlength, hring, hpos⟩ := halone.ring hidle
  obtain ⟨hlog, htakes⟩ := hlog es htraced
  obtain ⟨L, block, before, n, mem, h5, h30, halloc, hstarted⟩ := halone.fresh
  obtain ⟨tr, hrun, hsame⟩ := halone.run
  have hpending : tr.pending = none := hsame.pending.symm.trans hidle
  have hhas : HasTraced (Tracer.fresh (before.allocate n (fun _ _ => some block) L mem))
      ((snap.read r).acts r) es tr := ⟨hstarted ▸ hrun, hpending, htraced⟩
  obtain ⟨hne', hinit', hholds⟩ := holds_allocate halloc h5 h30 before n mem
  have hends := hhas.holds hholds
  simp only [← hstarted] at hends
  let paused : TracedThread :=
    { id := (snap.paused.process.data r).id, logBufSize := L, five_le := h5, le_thirty := h30
      posixMemalign := fun _ _ => some block, block, allocates := halloc, memory := mem, before
      defaultLogBufSize := n, acts := (snap.read r).acts r, events := es, tracer := tr, hasTraced := hhas }
  have hlater : HasTraced paused.start (paused.acts ++ []) (paused.events ++ []) tr := by
    rw [List.append_nil, List.append_nil]
    exact hhas
  let t : ProgramThread :=
    { paused, laterActs := [], laterEvents := [], tracer := tr, hasTraced := hlater
      forest := snap.forest r, log := by rw [List.append_nil]; exact hlog }
  have hevents : t.copied.events = es := List.append_nil es
  have hnum : t.copied.numSlots = ((snap.read r).process.data r).numSlots := by
    rw [← hlength, hstarted]
    exact t.copied.length_start_slots.symm
  refine ⟨t, ⟨rfl, rfl, by rw [hevents, htraced], hnum, ?_⟩, ?_⟩
  · rw [ProgramThread.buffer, buffer, hslots, hring, hpos]
    congr 1
    · exact hends.1
    · exact hends.2
  · cases hcall : snap.call with
    | whole =>
      rw [hcall] at htakes
      refine t.copied.restZero_iff.2 ?_
      rw [hevents]
      have hstart : t.copied.start = (snap.read r).started r := hstarted.symm
      rw [hstart]
      exact htakes
    | startingAt pauseTime time =>
      rw [hcall] at htakes
      exact ⟨htakes.1, htakes.2, by simp [t]⟩

/-- What a snapshot of a process has is what a snapshot has of threads on their own. -/
structure IsProgram (w : World) (snap : ProcessSnapshot) (program : ProgramSnapshot) : Prop where
  call : program.call = snap.call
  file : program.file = snap.file
  threads : List.Forall₂ snap.IsThread snap.threadTraces program.threads
  viewable : program.Viewable w

theorem exists_isProgram (ht : snap.Taken) (hv : snap.Viewable w) :
    ∃ program, snap.IsProgram w program := by
  have hthreads : ∀ r ∈ snap.threadTraces, ∃ t, r ∈ snap.threadTraces ∧ snap.IsThread r t ∧ t.Takes snap.call :=
    fun r hr => by
      obtain ⟨t, his, htakes⟩ := programThread ht hr (hv.log r hr)
      exact ⟨t, hr, his, htakes⟩
  obtain ⟨threads, hthreads⟩ := exists_forall₂ hthreads
  have hbuffers : snap.threadTraces.map snap.buffer = threads.map ProgramThread.buffer := by
    rw [← List.forall₂_eq_eq_eq, List.forall₂_map_left_iff, List.forall₂_map_right_iff]
    exact hthreads.imp fun r t h => h.2.1.buffer.symm
  have hof : ∀ t ∈ threads, ∃ r ∈ snap.threadTraces, snap.IsThread r t ∧ t.Takes snap.call := by
    intro t hmem
    obtain ⟨i, hi, rfl⟩ := List.getElem_of_mem hmem
    have hget := hthreads.get (hthreads.length_eq.symm ▸ hi) hi
    exact ⟨_, hget.1, hget.2⟩
  refine ⟨⟨snap.call, threads, snap.ftraceHandler, snap.file, ?_, ?_⟩, rfl, rfl,
    hthreads.imp fun _ _ h => h.2.1, hv.maps, hv.starts, ?_, ?_, ?_, hv.execs, hv.noWideBlank⟩
  · rw [← hbuffers]
    exact ht.threadTraces_eq
  · rw [← hbuffers]
    exact ht.ftraceEvents_eq
  · intro t hmem
    obtain ⟨r, -, -, htakes⟩ := hof t hmem
    exact htakes
  · intro t hmem
    obtain ⟨r, hr, his, -⟩ := hof t hmem
    rw [his.forest]
    exact hv.recorded r hr
  · intro t hmem
    obtain ⟨r, hr, his, -⟩ := hof t hmem
    rw [his.forest]
    exact hv.noThunk r hr

end ProcessSnapshot

/-- **What the viewer shows of processes** whose threads' calls are well nested: for each snapshot in
    the file, and each thread of which it has something, the invocations in the window that was
    left, whatever other threads did. -/
theorem shows_processes {w : World} (hsources : ∀ file, (w.sourceText file).isSome)
    {snaps : List ProcessSnapshot} (hview : ∀ snap ∈ snaps, snap.Taken ∧ snap.Viewable w) :
    ∃ s, Parses w Cli.default (textBytes (snaps.map ProcessSnapshot.file)) (.done, s) ∧
      List.Forall₂ (ProcessSnapshot.Shows w) (snaps.filter ProcessSnapshot.hasSample) s.written := by
  obtain ⟨programs, hprograms⟩ := exists_forall₂ fun snap hsnap =>
    (ProcessSnapshot.exists_isProgram (hview snap hsnap).1 (hview snap hsnap).2)
  have hfiles : programs.map ProgramSnapshot.file = snaps.map ProcessSnapshot.file := by
    rw [eq_comm, ← List.forall₂_eq_eq_eq, List.forall₂_map_left_iff, List.forall₂_map_right_iff]
    exact hprograms.imp fun _ _ h => h.file.symm
  have hviewable : ∀ program ∈ programs, program.Viewable w := by
    intro program hmem
    obtain ⟨i, hi, rfl⟩ := List.getElem_of_mem hmem
    exact (hprograms.get (hprograms.length_eq.symm ▸ hi) hi).viewable
  obtain ⟨s, samples, hread, hwritten, hshows⟩ :=
    @shows_readChunks w hsources programs hviewable _ 0 between_new
  have hwritten : s.written = samples := hwritten
  have hsame : List.Forall₂ (ProcessSnapshot.IsProgram w) (snaps.filter ProcessSnapshot.hasSample)
      (programs.filter ProgramSnapshot.hasSample) := by
    refine List.rel_filter (fun snap program h => ?_) hprograms
    simp only [ProcessSnapshot.hasSample, ProgramSnapshot.hasSample, h.file]
  refine ⟨s, hfiles ▸ parses_of_readChunks hread, hwritten ▸ (forall₂_comp hsame hshows).imp ?_⟩
  rintro snap sample ⟨program, h, hshown⟩
  exact ⟨program, h.call, h.file, h.threads, hshown⟩

/-! ### A process with one thread

`f` calls `g`, and the process takes a snapshot before `f` returns. -/

/-- A thread registers and calls `f` and `g`, and `g` returns. -/
def demoProcess : List Process.Action :=
  [.createThread 1, .allocate 1 (some 0x10000), .link 1 2 2] ++
    demoEvents.flatMap fun e => [.trace 1 (.trace e.address 0 e.cycle), .store 1, .store 1, .store 1]

/-- The process at the pause of a snapshot. -/
def demoPaused : History :=
  (runFrom History.step (.init 1 300 5 fun _ => 7) (demoProcess ++ [.beginSnapshot fun _ => demoName])).getD
    (.init 1 300 5 fun _ => 7)

theorem runFrom_demoPaused : runFrom History.step (.init 1 300 5 fun _ => 7)
    (demoProcess ++ [.beginSnapshot fun _ => demoName]) = some demoPaused := by
  have hsome : (runFrom History.step (.init 1 300 5 fun _ => 7)
      (demoProcess ++ [.beginSnapshot fun _ => demoName])).isSome := by decide +kernel
  obtain ⟨h, hh⟩ := Option.isSome_iff_exists.1 hsome
  rw [demoPaused, hh]
  rfl

theorem threadTraces_demoPaused : demoPaused.process.threadTraces = [.tls 1] := by decide +kernel

/-- The buffer of the thread then. -/
def demoBuffer : ThreadBuffer :=
  ⟨(demoPaused.process.data (.tls 1)).id, (demoPaused.process.data (.tls 1)).slots demoPaused.process.mem,
    (demoPaused.process.data (.tls 1)).posIndex⟩

theorem length_copy_demoBuffer (call : SnapshotCall) : 16 * (call.copy demoBuffer).length < 2 ^ 63 := by
  have hbuf : demoBuffer.buf.length = 2 := by decide +kernel
  have hle := call.length_copy_le demoBuffer
  omega

theorem nameStr_demoBuffer : demoBuffer.id.nameStr.isSome := by decide +kernel

theorem names_demoBuffer (call : SnapshotCall) :
    ∀ t ∈ [(⟨demoBuffer.id, call.copy demoBuffer, length_copy_demoBuffer call⟩ : EventBuffer)],
      t.id.nameStr.isSome :=
  List.forall_mem_singleton.2 nameStr_demoBuffer

/-- The snapshot. -/
def demoTaken (call : SnapshotCall) : ProcessSnapshot where
  call := call
  paused := demoPaused
  read _ := demoPaused
  copied _ := demoPaused
  ftraceHandler := .init 1 Nat.one_pos
  file :=
    { file :=
        { demoSnapshot demoName with
          threadTraces := [⟨demoBuffer.id, call.copy demoBuffer, length_copy_demoBuffer call⟩] }
      cmdline := "prog"
      ftraceLines := []
      cpuFreq_ne := plainSnapshot.cpuFreq_ne
      cmdline_eq := plainSnapshot.cmdline_eq
      names := names_demoBuffer call
      ftraceEvents_eq := plainSnapshot.ftraceEvents_eq }
  forest _ := demoForest

theorem taken_demo {call : SnapshotCall}
    (hftrace : (call.get [demoBuffer] (.init 1 Nat.one_pos) []).ftraceEvents = []) :
    (demoTaken call).Taken := by
  have hlist : (demoTaken call).threadTraces = [.tls 1] := threadTraces_demoPaused
  have hbuf : (demoPaused.process.data (.tls 1)).buf ≠ 0 := by decide +kernel
  have hidle : (demoPaused.process.tracerAt (.tls 1)).pending.isNone := by decide +kernel
  refine ⟨⟨1, 300, 5, fun _ => 7, demoProcess, fun _ => demoName, Or.inr le_rfl, runFrom_demoPaused,
    fun r _ => ⟨[], [], by simp, by simp, by decide +kernel, rfl, rfl⟩⟩, ?_, ?_, ?_, ?_⟩
  · rw [hlist]
    exact List.forall_mem_singleton.2 hbuf
  · rw [hlist]
    exact List.forall_mem_singleton.2 (Option.isNone_iff_eq_none.1 hidle)
  · rw [hlist]
    exact (call.threadTraces_get [demoBuffer] _ _).symm
  · rw [hlist]
    exact hftrace.symm

theorem viewable_demoTaken {call : SnapshotCall}
    (htakes : (demoTaken call).Takes (.tls 1) demoEvents call) : (demoTaken call).Viewable demoWorld := by
  have hlist : (demoTaken call).threadTraces = [.tls 1] := threadTraces_demoPaused
  have htraced : demoPaused.traced (.tls 1) = some demoEvents := by decide +kernel
  refine ⟨rfl, ownStarts_sortMaps ownStarts_demo, ?_, ?_, ?_,
    fun maps _ _ _ e _ => unreadableAt_demoWorld (sortMaps maps) e.addr,
    (converts_plainSnapshot (ParseState.new Cli.default)).1⟩ <;> rw [hlist]
  · refine List.forall_mem_singleton.2 fun es hes => ?_
    obtain rfl := Option.some.inj (htraced.symm.trans hes)
    exact ⟨log_demoForest ▸ List.prefix_append _ _, htakes⟩
  · exact List.forall_mem_singleton.2 recorded_demo.1
  · exact List.forall_mem_singleton.2 recorded_demo.2

/-- A whole snapshot, and one that starts with the call of `g`. -/
theorem shows_processes_demo :
    let snaps := [demoTaken .whole, demoTaken (.startingAt 40 20)]
    ∃ s, Parses demoWorld Cli.default (textBytes (snaps.map ProcessSnapshot.file)) (.done, s) ∧
      List.Forall₂ (ProcessSnapshot.Shows demoWorld) (snaps.filter ProcessSnapshot.hasSample)
        s.written := by
  intro snaps
  refine shows_processes (fun _ => rfl) (List.forall_mem_cons.2
    ⟨⟨taken_demo (by decide +kernel), viewable_demoTaken ?_⟩, List.forall_mem_singleton.2
      ⟨taken_demo (by decide +kernel), viewable_demoTaken ?_⟩⟩)
  · have hlength : ((demoPaused.started (.tls 1)).data.slots (demoPaused.started (.tls 1)).mem).length = 2 := by
      decide +kernel
    have hall : ((demoPaused.started (.tls 1)).data.slots (demoPaused.started (.tls 1)).mem).drop 3 = [] :=
      List.drop_of_length_le (by omega)
    intro e he
    have he : e ∈ ((demoPaused.started (.tls 1)).data.slots (demoPaused.started (.tls 1)).mem).drop 3 := he
    rw [hall] at he
    cases he
  · exact ⟨by decide, by decide⟩

end Funtrace
