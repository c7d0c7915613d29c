/-
  The addresses that the runtime touches through `pos`, `buf` and `end`
  (`allocate`, `trace` and `funtrace_pause_and_get_snapshot_starting_at_time` in
  `funtrace.cpp`).

  A snapshot that starts at a time loads the pointers of each element of
  `thread_traces` while it holds the mutex, and so while threads that were in a traced
  call finish it.
-/
import Funtrace.Runtime.Process

namespace Funtrace

namespace TraceData
variable (d : TraceData)

/-- The bytes from an address up to another. -/
abbrev Range := UInt64 × UInt64

/-- `buf + buf_size/sizeof(trace_entry)`. -/
def endAddr : UInt64 := d.buf + d.bufSize / sizeofTraceEntry * sizeofTraceEntry

/-- `buf[buf_size/sizeof(trace_entry)-1].cycle`, which `allocate` writes. -/
def lastCycle : Range :=
  let cycle := d.buf + (d.bufSize / sizeofTraceEntry - 1) * sizeofTraceEntry + 8
  (cycle, cycle + 8)

/-- What is read of a buffer: `end[-1].cycle` always, and parts of what is to the right and to the
    left of `pos`. -/
def snapshotRanges : List Range :=
  [(d.endAddr - 8, d.endAddr), (d.pos, d.endAddr), (d.buf, d.pos)]

end TraceData

/-- What a traced call writes, up to the end of the call. -/
def PendingTrace.range (p : PendingTrace) : TraceData.Range := (p.slot, p.slot + sizeofTraceEntry)

/-- A process, and whether the snapshot that holds the mutex starts at a time. -/
structure Snapshotting where
  process : Process
  atTime : Bool

namespace Snapshotting

/-- `beginSnapshot` comes with the kind of the snapshot. -/
def step (s : Snapshotting) (a : Process.Action × Bool) : Option Snapshotting :=
  (s.process.step a.1).map fun process =>
    let atTime := match a.1 with
      | .beginSnapshot _ => a.2
      | .endSnapshot => false
      | _ => s.atTime
    { process, atTime }

/-- A process without a snapshot. -/
def init (pid : UInt64) (gcMaxAgeMs : ℤ) (defaultLogBufSize : ℕ) (mem : Memory) : Snapshotting :=
  ⟨Process.init pid gcMaxAgeMs defaultLogBufSize mem, false⟩

end Snapshotting

end Funtrace
