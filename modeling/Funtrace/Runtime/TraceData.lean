/-
  The trace buffer of a thread (`trace_data` in `funtrace.cpp`, and its copies
  `__fentry__` and `__return__` in `funtrace_pg.S`).

  Buffers lie in a memory of 64-bit words.  A call of `trace` loads the position
  and the mask once and then makes three stores; other threads may write the mask
  in between.  So a thread that traces is a machine (`Tracer`) with a step for each
  of these, and a step for `pause_tracing` and `resume_tracing`.
-/
import Mathlib.Logic.Function.Basic
import Funtrace.Entry

namespace Funtrace

/-- 64-bit words by their addresses. -/
abbrev Memory := UInt64 → UInt64

/-- `sizeof(trace_entry)`. -/
def sizeofTraceEntry : UInt64 := 16

/-- The entry at an address. -/
def Memory.entry (mem : Memory) (p : UInt64) : FunTraceEntry := ⟨mem p, mem (p + 8)⟩

theorem Memory.entry_update {mem : Memory} {p a v : UInt64} (h : p ≠ a) (h' : p + 8 ≠ a) :
    Memory.entry (Function.update mem a v) p = mem.entry p := by
  rw [entry, entry, Function.update_of_ne h, Function.update_of_ne h']

/-- `thread` is zero for a finished thread. -/
structure TraceData where
  pos : UInt64
  wraparoundMask : UInt64
  buf : UInt64
  bufSize : UInt64
  thread : UInt64
  id : ThreadID
  timeOfDeathMs : UInt64

namespace TraceData
variable (d : TraceData)

/-- `pause_tracing`. -/
def pauseTracing : TraceData := { d with wraparoundMask := 0 }

/-- `resume_tracing`. -/
def resumeTracing : TraceData := { d with wraparoundMask := ~~~d.bufSize }

/-- `allocate`, where `posixMemalign` gives the block for an alignment and a size, or `none` if
    it fails.  (`1<<log_buf_size` is an `int`, which is good for a log up to 30.) -/
def allocate (defaultLogBufSize : ℕ) (posixMemalign : UInt64 → UInt64 → Option UInt64)
    (logBufSize : ℕ) (mem : Memory) : TraceData × Memory :=
  let logBufSize := if logBufSize = 0 then defaultLogBufSize else logBufSize
  if logBufSize = 0 then
    ({ d with bufSize := 0, wraparoundMask := 0, buf := 0, pos := 0 }, mem)
  else
    let bufSize : UInt64 := 1 <<< UInt64.ofNat logBufSize
    match posixMemalign (bufSize * 2) bufSize with
    | none => ({ d with buf := 0, pos := 0, bufSize := 0, wraparoundMask := 0 }, mem)
    | some entries =>
      -- the last entry's cycle tells whether the buffer was ever filled
      let last := entries + (bufSize / sizeofTraceEntry - 1) * sizeofTraceEntry
      ({ d with buf := entries, pos := entries, bufSize, wraparoundMask := ~~~bufSize },
        Function.update mem (last + 8) 0)

/-- Without the call of `::free`. -/
def free : TraceData := { d with bufSize := 0, wraparoundMask := 0, buf := 0, pos := 0 }

/-- The address of a slot. -/
def slotAddr (i : ℕ) : UInt64 := d.buf + sizeofTraceEntry * UInt64.ofNat i

/-- The place of the position in the buffer. -/
def posIndex : ℕ := ((d.pos - d.buf) / sizeofTraceEntry).toNat

/-- How many entries there is room for. -/
def numSlots : ℕ := d.bufSize.toNat / 16

/-- The entries in the buffer. -/
def slots (mem : Memory) : List FunTraceEntry :=
  (List.range d.numSlots).map fun i => mem.entry (d.slotAddr i)

variable {d}

@[simp] theorem length_slots {mem : Memory} : (d.slots mem).length = d.numSlots := by simp [slots]

theorem getElem?_slots {mem : Memory} {i : ℕ} (hi : i < d.numSlots) :
    (d.slots mem)[i]? = some (mem.entry (d.slotAddr i)) := by
  simp [slots, hi]

end TraceData

/-! ## Tracing -/

/-- A traced call, with the value that `rdtsc` gives. -/
inductive TraceCall where
  | trace (ptr flags cycle : UInt64)
  | fentry (returnAddress cycle : UInt64)
  | fexit (clang : Bool) (returnAddress cycle : UInt64)

/-- The stores of a traced call. -/
inductive TraceStore where
  | func
  | cycle
  | pos
deriving DecidableEq

namespace TraceCall

/-- The entry that is stored. -/
def entry : TraceCall → FunTraceEntry
  | trace ptr flags cycle => .traced ptr flags cycle
  | fentry returnAddress cycle => ⟨returnAddress, cycle⟩
  | fexit clang returnAddress cycle =>
    .traced returnAddress (if clang then returnWithCallerAddressFlag else returnFlag) cycle

/-- The stores in their order. -/
def stores : TraceCall → List TraceStore
  | trace .. => [.func, .cycle, .pos]
  | fentry .. => [.func, .cycle, .pos]
  | fexit .. => [.cycle, .func, .pos]

end TraceCall

/-- A call of `trace` that was not left early: the entry and where it goes, and the stores that
    are left to do. -/
structure PendingTrace where
  slot : UInt64
  entry : FunTraceEntry
  stores : List TraceStore

/-- A thread with its buffer. -/
structure Tracer where
  data : TraceData
  mem : Memory
  pending : Option PendingTrace

/-- The steps of a thread that traces, and of those that pause it. -/
inductive TraceAction where
  | enter (call : TraceCall)
  | store
  | pause
  | resume

namespace Tracer

/-- A thread that has just allocated its buffer. -/
def fresh (allocated : TraceData × Memory) : Tracer := ⟨allocated.1, allocated.2, none⟩

/-- Loads `pos` and the mask, and returns if tracing is off. -/
def enter (s : Tracer) (call : TraceCall) : Tracer :=
  let slot := s.data.pos &&& s.data.wraparoundMask
  if slot = 0 then s else { s with pending := some ⟨slot, call.entry, call.stores⟩ }

/-- One store; the last one ends the call. -/
def store (s : Tracer) (slot : UInt64) (entry : FunTraceEntry) (st : TraceStore)
    (rest : List TraceStore) : Tracer :=
  let s := { s with pending := if rest = [] then none else some ⟨slot, entry, rest⟩ }
  match st with
  | .func => { s with mem := Function.update s.mem slot entry.address }
  | .cycle => { s with mem := Function.update s.mem (slot + 8) entry.cycle }
  | .pos => { s with data := { s.data with pos := slot + sizeofTraceEntry } }

/-- What an action does; `none` if it is not enabled. -/
def step (s : Tracer) : TraceAction → Option Tracer
  | .enter call =>
    match s.pending with
    | none => some (s.enter call)
    | some _ => none
  | .store =>
    match s.pending with
    | some ⟨slot, entry, st :: rest⟩ => some (s.store slot entry st rest)
    | _ => none
  | .pause => some { s with data := s.data.pauseTracing }
  | .resume => some { s with data := s.data.resumeTracing }

variable {s s' : Tracer} {call : TraceCall}

theorem step_enter (h : s.pending = none) : s.step (.enter call) = some (s.enter call) := by
  simp only [step, h]

theorem step_store {slot : UInt64} {entry : FunTraceEntry} {st : TraceStore} {rest : List TraceStore}
    (h : s.pending = some ⟨slot, entry, st :: rest⟩) :
    s.step .store = some (s.store slot entry st rest) := by
  simp only [step, h]

/-- A store is the next one of a call. -/
theorem exists_of_store (h : s.step .store = some s') : ∃ slot entry st rest,
    s.pending = some ⟨slot, entry, st :: rest⟩ ∧ s' = s.store slot entry st rest := by
  simp only [step] at h
  split at h
  · next slot entry st rest hpending =>
    exact ⟨slot, entry, st, rest, hpending, (Option.some.inj h).symm⟩
  · cases h

/-! What a call writes besides the buffer. -/

@[simp] theorem data_enter : (s.enter call).data = s.data := by
  unfold enter
  dsimp only
  split_ifs <;> rfl

@[simp] theorem mem_enter : (s.enter call).mem = s.mem := by
  unfold enter
  dsimp only
  split_ifs <;> rfl

section
variable (slot : UInt64) (entry : FunTraceEntry) (st : TraceStore) (rest : List TraceStore)

theorem data_store : (s.store slot entry st rest).data = s.data ∨
    (s.store slot entry st rest).data = { s.data with pos := slot + sizeofTraceEntry } := by
  cases st
  exacts [Or.inl rfl, Or.inl rfl, Or.inr rfl]

@[simp] theorem pending_store : (s.store slot entry st rest).pending =
    if rest = [] then none else some ⟨slot, entry, rest⟩ := by
  cases st <;> rfl

end

end Tracer

end Funtrace
