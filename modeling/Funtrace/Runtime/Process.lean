/-
  The threads of a traced process and their trace buffers (`trace_global_state`,
  `pthread_entry_point` and the API functions of `funtrace.cpp`).

  Each thread has a `trace_data` in its thread-local storage; `thread_traces` points
  to those of registered threads, and to copies on the heap of those of finished
  threads, which garbage collection frees.  A thread's number stands for its storage
  too, so what a thread that has ended leaves on the list is a dangling pointer
  (`Process.EndsUnregistered` excludes it).

  A process is a machine whose steps are the parts of the API functions that others
  cannot see in between: what is done under the mutex is a step, allocating a buffer
  is one, and a traced call has the steps of `Tracer`.  A snapshot has two, since
  threads run while it is taken.  `none` is a step that is not enabled.
-/
import Mathlib.Algebra.Group.Int.Defs
import Mathlib.Algebra.Group.Nat.Defs
import Mathlib.Data.Int.Notation
import Funtrace.Lib.Heap
import Funtrace.Lib.Run
import Funtrace.Runtime.TraceData

namespace Funtrace

/-! ## The state -/

/-- What an element of `thread_traces` points to: `g_thread_trace` of a thread, or a copy of one.
    Each thread has a number of its own.  The storage of a thread that has ended is given back, and
    another thread may get it: an element `.tls t` of an ended thread is not to be followed. -/
inductive TraceRef where
  | tls (thread : ℕ)
  | copy (number : ℕ)
deriving DecidableEq

/-- How far a thread is.  It is `finishing` when it has left `pthread_entry_point`, or never will: the
    destructors of its thread-local objects still run. -/
inductive Phase where
  | unborn
  | running
  | finishing
  | ended
deriving DecidableEq

/-- Where a thread is in `register_this_thread`. -/
inductive Registration where
  | idle
  | allocating (logBufSize : ℕ)
  | linking
deriving DecidableEq

/-- The state of a process.  The main thread has number 0. -/
structure Process where
  threadTraces : List TraceRef
  pid : UInt64
  gcMaxAgeMs : ℤ
  defaultLogBufSize : ℕ
  exiting : Bool
  tracingPaused : Bool
  /-- a snapshot holds the mutex -/
  locked : Bool
  mainConstructed : Bool
  data : TraceRef → TraceData
  numCopies : ℕ
  copies : Heap ℕ Unit
  /-- trace buffers and their sizes -/
  buffers : Heap UInt64 UInt64
  mem : Memory
  phase : ℕ → Phase
  registration : ℕ → Registration
  pending : ℕ → Option PendingTrace

/-- `rdtsc`, and what `cpu_cycles_per_second` gives at the same time. -/
structure ClockReading where
  tsc : UInt64
  cyclesPerSecond : UInt64

/-- `current_time_ms`; `none` is a division by zero. -/
def ClockReading.currentTimeMs (c : ClockReading) : Option UInt64 :=
  let cyclesPerMs := c.cyclesPerSecond / 1000
  if cyclesPerMs = 0 then none else some (c.tsc / cyclesPerMs)

/-- What `posix_memalign` promises of a block: it is aligned and lies apart from the others. -/
def FreshBlock (buffers : Heap UInt64 UInt64) (alignment size block : UInt64) : Prop :=
  block ≠ 0 ∧ block % alignment = 0 ∧ block.toNat + size.toNat ≤ 2 ^ 64 ∧
    ∀ b ∈ buffers.blocks, b.1 ≠ block ∧
      (b.1.toNat + b.2.toNat ≤ block.toNat ∨ block.toNat + size.toNat ≤ b.1.toNat)

-- The pairs of words are also a finite type, whose elements must not be tried one by one.
instance (buffers : Heap UInt64 UInt64) (alignment size block : UInt64) :
    Decidable (FreshBlock buffers alignment size block) := by
  unfold FreshBlock
  refine @instDecidableAnd _ _ _ (@instDecidableAnd _ _ _ (@instDecidableAnd _ _ _ ?_))
  exact List.decidableBAll _ _

/-- `g_thread_trace` before anything is written to it. -/
def TraceData.zero : TraceData := ⟨0, 0, 0, 0, 0, ⟨0, 0, Vector.replicate 16 0⟩, 0⟩

/-- `update_name`, where the thread has this name. -/
def TraceData.updateName (name : Vector UInt8 16) (d : TraceData) : TraceData :=
  if d.thread ≠ 0 then { d with id := { d.id with name } } else d

namespace Process

/-- A process in which only the main thread runs. -/
def init (pid : UInt64) (gcMaxAgeMs : ℤ) (defaultLogBufSize : ℕ) (mem : Memory) : Process where
  threadTraces := []
  pid := pid
  gcMaxAgeMs := gcMaxAgeMs
  defaultLogBufSize := defaultLogBufSize
  exiting := false
  tracingPaused := false
  locked := false
  mainConstructed := false
  data _ := TraceData.zero
  numCopies := 0
  copies := Heap.empty
  buffers := Heap.empty
  mem := mem
  phase t := if t = 0 then .running else .unborn
  registration _ := .idle
  pending _ := none

variable (s : Process)

/-- Writes to a `trace_data`. -/
def write (r : TraceRef) (d : TraceData) : Process := { s with data := Function.update s.data r d }

/-- Writes to all that `thread_traces` points to. -/
def onAll (f : TraceRef → TraceData → TraceData) : Process :=
  { s with data := fun r => if r ∈ s.threadTraces then f r (s.data r) else s.data r }

/-- `trace_data::free`, of which `::free` leaves a null pointer alone. -/
def freeBuffer (r : TraceRef) : Process :=
  let buf := (s.data r).buf
  { s.write r (s.data r).free with buffers := if buf = 0 then s.buffers else s.buffers.free buf }

/-! ## Registration -/

/-- The size of the block that `allocate` asks for. -/
def blockSize (logBufSize : ℕ) : UInt64 :=
  1 <<< UInt64.ofNat (if logBufSize = 0 then s.defaultLogBufSize else logBufSize)

/-- The first half of `register_this_thread`: `allocate`, which is not under the mutex. -/
def allocateTrace (t logBufSize : ℕ) (block : Option UInt64) : Process :=
  let r := (s.data (.tls t)).allocate s.defaultLogBufSize (fun _ _ => block) logBufSize s.mem
  let buffers := if r.1.buf = 0 then s.buffers else s.buffers.alloc r.1.buf r.1.bufSize
  { s.write (.tls t) r.1 with
    mem := r.2, buffers, registration := Function.update s.registration t .linking }

/-- The second half of `register_this_thread`. -/
def linkTrace (t : ℕ) (self tid : UInt64) : Process :=
  let d := s.data (.tls t)
  let d := if s.tracingPaused then d.pauseTracing else d
  { s.write (.tls t) { d with id := { d.id with pid := s.pid, tid }, thread := self } with
    threadTraces := s.threadTraces ++ [.tls t]
    registration := Function.update s.registration t .idle }

/-- `unregister_this_thread`, which frees the buffer now or leaves it to garbage collection;
    `i` is the place of the thread in `thread_traces`. -/
def unregisterAt (t i : ℕ) (deferFree : Bool) (name : Vector UInt8 16) (clock : ClockReading) :
    Option Process :=
  if s.gcMaxAgeMs = 0 ∨ !deferFree ∨ s.exiting then
    some { s.freeBuffer (.tls t) with threadTraces := swapRemove s.threadTraces i }
  else clock.currentTimeMs.map fun now =>
    let d := (s.data (.tls t)).updateName name
    { s.write (.copy s.numCopies) { d with thread := 0, timeOfDeathMs := now } with
      threadTraces := s.threadTraces.set i (.copy s.numCopies)
      numCopies := s.numCopies + 1
      copies := s.copies.alloc s.numCopies () }

/-- `unregister_this_thread`, which does nothing for a thread that is not registered. -/
def unregisterThisThread (t : ℕ) (deferFree : Bool) (name : Vector UInt8 16)
    (clock : ClockReading) : Option Process :=
  match s.threadTraces.findIdx? (· = .tls t) with
  | none => some s
  | some i => s.unregisterAt t i deferFree name clock

/-! ## Garbage collection -/

/-- A trace of a finished thread that is old enough. -/
def collectable (now : UInt64) (r : TraceRef) : Bool :=
  (s.data r).thread = 0 ∧
    (s.exiting ∨ ¬ (s.data r).timeOfDeathMs + UInt64.ofInt s.gcMaxAgeMs > now)

/-- The end of the loop body: frees the trace `r` at place `i`.  Deleting what is no copy on the
    heap is an error. -/
def collectAt (i : ℕ) (r : TraceRef) : Process :=
  { s.freeBuffer r with
    threadTraces := swapRemove s.threadTraces i
    copies := match r with
      | .copy n => s.copies.free n
      | .tls _ => { s.copies with badFrees := s.copies.badFrees + 1 } }

/-- The loop of `collect_garbage`. -/
def collectLoop (now : UInt64) : ℕ → ℕ → Process → Process
  | 0, _, s => s
  | fuel + 1, i, s =>
    match s.threadTraces[i]? with
    | none => s
    | some r =>
      if s.collectable now r then collectLoop now fuel i (s.collectAt i r)
      else collectLoop now fuel (i + 1) s

/-- `collect_garbage`. -/
def collectGarbage (exitingProgram : Bool) (clock : ClockReading) : Option Process :=
  if s.gcMaxAgeMs = 0 then some s
  else
    let s := { s with exiting := s.exiting || exitingProgram }
    clock.currentTimeMs.map fun now => collectLoop now s.threadTraces.length 0 s

/-! ## Pausing -/

/-- `pause_tracing`: the mask of each element of `thread_traces` becomes zero. -/
def pauseTracing : Process :=
  { s.onAll fun _ d => d.pauseTracing with tracingPaused := true }

/-- `resume_tracing`. -/
def resumeTracing : Process :=
  { s.onAll fun _ d => d.resumeTracing with tracingPaused := false }

/-! ## Steps -/

/-- The steps that the threads of a process take. -/
inductive Action where
  /-- `g_funtrace_register_main_thread` is constructed -/
  | constructMain
  /-- a thread starts in `pthread_entry_point` -/
  | createThread (t : ℕ)
  | allocate (t : ℕ) (block : Option UInt64)
  | link (t : ℕ) (self tid : UInt64)
  /-- `funtrace_ignore_this_thread`; also what `~register_main_thread` does -/
  | ignoreThisThread (t : ℕ)
  | setThreadLogBufSize (t : ℕ) (logBufSize : ℤ)
  /-- the start routine returns, and `pthread_entry_point` with it -/
  | returnFromStart (t : ℕ) (name : Vector UInt8 16) (clock : ClockReading)
  /-- `pthread_exit`, or cancellation -/
  | exitThread (t : ℕ)
  /-- the destructors have run, and the thread's storage is given back -/
  | endThread (t : ℕ)
  | collectGarbage (exitingProgram : Bool) (clock : ClockReading)
  | disableTracing
  | enableTracing
  /-- a snapshot of any kind, or a dump upon `SIGTRAP`, up to the end of the pause -/
  | beginSnapshot (names : TraceRef → Vector UInt8 16)
  | endSnapshot
  | trace (t : ℕ) (call : TraceCall)
  | store (t : ℕ)

/-- A thread that may call a function. -/
def mayCall (t : ℕ) : Bool :=
  (s.phase t = .running ∨ s.phase t = .finishing) ∧ s.registration t = .idle ∧
    (s.pending t).isNone

/-- The thread as a machine that traces. -/
def tracer (t : ℕ) : Tracer := ⟨s.data (.tls t), s.mem, s.pending t⟩

/-- The process after a step of the machine that traces. -/
def withTracer (t : ℕ) (tr : Tracer) : Process :=
  { s.write (.tls t) tr.data with mem := tr.mem, pending := Function.update s.pending t tr.pending }

/-- A thread gets to another phase. -/
def setPhase (t : ℕ) (p : Phase) : Process := { s with phase := Function.update s.phase t p }

/-- A thread begins to register. -/
def setRegistration (t : ℕ) (r : Registration) : Process :=
  { s with registration := Function.update s.registration t r }

/-- `funtrace_ignore_this_thread`.  The clock and the name are not read when the buffer is freed at
    once. -/
def ignoreThisThread (t : ℕ) : Option Process :=
  s.unregisterThisThread t false (Vector.replicate 16 0) ⟨0, 0⟩

/-- What an action does; `none` if it is not enabled. -/
def step : Action → Option Process
  | .constructMain =>
    if s.mayCall 0 ∧ !s.mainConstructed then
      some { s.setRegistration 0 (.allocating 0) with mainConstructed := true }
    else none
  | .createThread t =>
    if s.phase t = .unborn then some ((s.setPhase t .running).setRegistration t (.allocating 0))
    else none
  | .allocate t block =>
    match s.registration t with
    | .allocating logBufSize =>
      let size := s.blockSize logBufSize
      if block.all fun b => FreshBlock s.buffers (size * 2) size b then
        some (s.allocateTrace t logBufSize block)
      else none
    | _ => none
  | .link t self tid =>
    if s.registration t = .linking ∧ !s.locked ∧ self ≠ 0 then some (s.linkTrace t self tid)
    else none
  | .ignoreThisThread t =>
    if s.mayCall t ∧ !s.locked then s.ignoreThisThread t else none
  | .setThreadLogBufSize t logBufSize =>
    if s.mayCall t ∧ !s.locked then
      (s.ignoreThisThread t).map fun s =>
        if 5 ≤ logBufSize then s.setRegistration t (.allocating logBufSize.toNat) else s
    else none
  | .returnFromStart t name clock =>
    if s.mayCall t ∧ s.phase t = .running ∧ t ≠ 0 ∧ !s.locked then
      (s.unregisterThisThread t true name clock).map (setPhase · t .finishing)
    else none
  | .exitThread t =>
    if s.mayCall t ∧ s.phase t = .running then some (s.setPhase t .finishing) else none
  | .endThread t =>
    if s.mayCall t ∧ s.phase t = .finishing then some (s.setPhase t .ended) else none
  | .collectGarbage exitingProgram clock =>
    if s.locked then none else s.collectGarbage exitingProgram clock
  | .disableTracing => if s.locked then none else some s.pauseTracing
  | .enableTracing => if s.locked then none else some s.resumeTracing
  | .beginSnapshot names =>
    if s.locked then none
    else some { s.pauseTracing.onAll fun r d => d.updateName (names r) with locked := true }
  | .endSnapshot =>
    if s.locked then some { s.resumeTracing with locked := false } else none
  | .trace t call =>
    if s.mayCall t then (Tracer.step (s.tracer t) (.enter call)).map (s.withTracer t) else none
  | .store t => (Tracer.step (s.tracer t) .store).map (s.withTracer t)

/-! ## What a step is -/

/-- What each action requires, and what it does. -/
inductive Stepped : Action → Process → Prop where
  | constructMain (hcall : s.mayCall 0) (honce : s.mainConstructed = false) :
      Stepped .constructMain { s.setRegistration 0 (.allocating 0) with mainConstructed := true }
  | createThread (t : ℕ) (hunborn : s.phase t = .unborn) :
      Stepped (.createThread t) ((s.setPhase t .running).setRegistration t (.allocating 0))
  | allocate (t n : ℕ) (block : Option UInt64) (hasked : s.registration t = .allocating n)
      (hblock : ∀ b, block = some b →
        FreshBlock s.buffers (s.blockSize n * 2) (s.blockSize n) b) :
      Stepped (.allocate t block) (s.allocateTrace t n block)
  | link (t : ℕ) (self tid : UInt64) (hlinking : s.registration t = .linking)
      (hfree : s.locked = false) (hself : self ≠ 0) :
      Stepped (.link t self tid) (s.linkTrace t self tid)
  | ignoreThisThread (t : ℕ) (s' : Process) (hcall : s.mayCall t) (hfree : s.locked = false)
      (h : s.ignoreThisThread t = some s') : Stepped (.ignoreThisThread t) s'
  | setThreadLogBufSize (t : ℕ) (n : ℤ) (s' : Process) (hcall : s.mayCall t)
      (hfree : s.locked = false) (h : s.ignoreThisThread t = some s') (hsize : 5 ≤ n) :
      Stepped (.setThreadLogBufSize t n) (s'.setRegistration t (.allocating n.toNat))
  | unsetThreadLogBufSize (t : ℕ) (n : ℤ) (s' : Process) (hcall : s.mayCall t)
      (hfree : s.locked = false) (h : s.ignoreThisThread t = some s') (hsize : ¬ 5 ≤ n) :
      Stepped (.setThreadLogBufSize t n) s'
  | returnFromStart (t : ℕ) (name : Vector UInt8 16) (clock : ClockReading) (s' : Process)
      (hcall : s.mayCall t) (hphase : s.phase t = .running) (ht : t ≠ 0) (hfree : s.locked = false)
      (h : s.unregisterThisThread t true name clock = some s') :
      Stepped (.returnFromStart t name clock) (s'.setPhase t .finishing)
  | exitThread (t : ℕ) (hcall : s.mayCall t) (hphase : s.phase t = .running) :
      Stepped (.exitThread t) (s.setPhase t .finishing)
  | endThread (t : ℕ) (hcall : s.mayCall t) (hphase : s.phase t = .finishing) :
      Stepped (.endThread t) (s.setPhase t .ended)
  | collectGarbage (exitingProgram : Bool) (clock : ClockReading) (s' : Process)
      (hfree : s.locked = false) (h : s.collectGarbage exitingProgram clock = some s') :
      Stepped (.collectGarbage exitingProgram clock) s'
  | disableTracing (hfree : s.locked = false) : Stepped .disableTracing s.pauseTracing
  | enableTracing (hfree : s.locked = false) : Stepped .enableTracing s.resumeTracing
  | beginSnapshot (names : TraceRef → Vector UInt8 16) (hfree : s.locked = false) :
      Stepped (.beginSnapshot names)
        { s.pauseTracing.onAll fun r d => d.updateName (names r) with locked := true }
  | endSnapshot (hlocked : s.locked = true) :
      Stepped .endSnapshot { s.resumeTracing with locked := false }
  | trace (t : ℕ) (call : TraceCall) (hcall : s.mayCall t) :
      Stepped (.trace t call) (s.withTracer t ((s.tracer t).enter call))
  | store (t : ℕ) (slot : UInt64) (entry : FunTraceEntry) (st : TraceStore) (rest : List TraceStore)
      (hpending : s.pending t = some ⟨slot, entry, st :: rest⟩) :
      Stepped (.store t) (s.withTracer t ((s.tracer t).store slot entry st rest))

variable {s}

theorem mayCall_iff {t : ℕ} : s.mayCall t ↔ (s.phase t = .running ∨ s.phase t = .finishing) ∧
    s.registration t = .idle ∧ s.pending t = none := by
  simp [mayCall]

/-- **The steps of a process** are those that `Stepped` lists. -/
theorem stepped_of_step {a : Action} {s' : Process} (h : s.step a = some s') : s.Stepped a s' := by
  cases a with
  | constructMain =>
    simp only [step] at h
    split_ifs at h with hc
    obtain rfl := Option.some.inj h
    exact .constructMain hc.1 (by simpa using hc.2)
  | createThread t =>
    simp only [step] at h
    split_ifs at h with hc
    obtain rfl := Option.some.inj h
    exact .createThread t hc
  | allocate t block =>
    simp only [step] at h
    split at h
    · next n hn =>
      split_ifs at h with hblock
      obtain rfl := Option.some.inj h
      refine .allocate t n block hn fun b hb => ?_
      subst hb
      exact of_decide_eq_true hblock
    · cases h
  | link t self tid =>
    simp only [step] at h
    split_ifs at h with hc
    obtain rfl := Option.some.inj h
    exact .link t self tid hc.1 (by simpa using hc.2.1) hc.2.2
  | ignoreThisThread t =>
    simp only [step] at h
    split_ifs at h with hc
    exact .ignoreThisThread t s' hc.1 (by simpa using hc.2) h
  | setThreadLogBufSize t n =>
    simp only [step] at h
    split_ifs at h with hc hsize
    all_goals obtain ⟨s₁, hs₁, rfl⟩ := Option.map_eq_some_iff.1 h
    · exact .setThreadLogBufSize t n s₁ hc.1 (by simpa using hc.2) hs₁ hsize
    · exact .unsetThreadLogBufSize t n s₁ hc.1 (by simpa using hc.2) hs₁ hsize
  | returnFromStart t name clock =>
    simp only [step] at h
    split_ifs at h with hc
    obtain ⟨s₁, hs₁, rfl⟩ := Option.map_eq_some_iff.1 h
    exact .returnFromStart t name clock s₁ hc.1 hc.2.1 hc.2.2.1 (by simpa using hc.2.2.2) hs₁
  | exitThread t =>
    simp only [step] at h
    split_ifs at h with hc
    obtain rfl := Option.some.inj h
    exact .exitThread t hc.1 hc.2
  | endThread t =>
    simp only [step] at h
    split_ifs at h with hc
    obtain rfl := Option.some.inj h
    exact .endThread t hc.1 hc.2
  | collectGarbage exitingProgram clock =>
    simp only [step] at h
    split_ifs at h with hlocked
    exact .collectGarbage exitingProgram clock s' (by simpa using hlocked) h
  | disableTracing =>
    simp only [step] at h
    split_ifs at h with hlocked
    obtain rfl := Option.some.inj h
    exact .disableTracing (by simpa using hlocked)
  | enableTracing =>
    simp only [step] at h
    split_ifs at h with hlocked
    obtain rfl := Option.some.inj h
    exact .enableTracing (by simpa using hlocked)
  | beginSnapshot names =>
    simp only [step] at h
    split_ifs at h with hlocked
    obtain rfl := Option.some.inj h
    exact .beginSnapshot names (by simpa using hlocked)
  | endSnapshot =>
    simp only [step] at h
    split_ifs at h with hlocked
    obtain rfl := Option.some.inj h
    exact .endSnapshot hlocked
  | trace t call =>
    simp only [step] at h
    split_ifs at h with hc
    obtain ⟨tr, htr, rfl⟩ := Option.map_eq_some_iff.1 h
    rw [Tracer.step_enter (show (s.tracer t).pending = none from (mayCall_iff.1 hc).2.2)] at htr
    obtain rfl := Option.some.inj htr
    exact .trace t call hc
  | store t =>
    simp only [step] at h
    obtain ⟨tr, htr, rfl⟩ := Option.map_eq_some_iff.1 h
    obtain ⟨slot, entry, st, rest, hpending, rfl⟩ := Tracer.exists_of_store htr
    exact .store t slot entry st rest hpending

end Process

end Funtrace
