/-
  What a snapshot copies from a trace buffer (`funtrace_pause_and_get_snapshot` and
  `funtrace_pause_and_get_snapshot_starting_at_time` in `funtrace.cpp`).

  A buffer is the list of its entries; pointers into it are places in this list, and
  ranges are parts of it.
-/
import Funtrace.Entry
import Funtrace.Lib.LowerBound
import Funtrace.Runtime.FtraceHandler

namespace Funtrace

/-- The comparison of `find_earliest_event_after`: events after the pause come first. -/
def eventBefore (pauseTime : UInt64) (e1 e2 : FunTraceEntry) : Bool :=
  if e1.cycle > pauseTime ∧ e2.cycle ≤ pauseTime then true
  else if e2.cycle > pauseTime ∧ e1.cycle ≤ pauseTime then false
  else e1.cycle < e2.cycle

/-- `find_earliest_event_after`; `none` is its `nullptr`. -/
def findEarliestEventAfter (range : List FunTraceEntry) (timeThreshold pauseTime : UInt64) :
    Option ℕ :=
  let e : FunTraceEntry := ⟨0, timeThreshold⟩
  let p := lowerBound (fun e1 => eventBefore pauseTime e1 e) range
  if p = range.length then none else some p

/-- `std::copy` from a found event to the end of its range. -/
def copyFrom (range : List FunTraceEntry) : Option ℕ → List FunTraceEntry
  | none => []
  | some p => range.drop p

/-- The entries that a snapshot starting at a time takes from a buffer. -/
def copyStartingAtTime (buf : List FunTraceEntry) (pos : ℕ) (time pauseTime : UInt64) :
    List FunTraceEntry :=
  let earliestRight :=
    if buf.getLast?.any (·.cycle ≠ 0) then findEarliestEventAfter (buf.drop pos) time pauseTime
    else none
  let earliestLeft := findEarliestEventAfter (buf.take pos) time pauseTime
  copyFrom (buf.drop pos) earliestRight ++ copyFrom (buf.take pos) earliestLeft

/-! ## The functions of the API -/

/-- A `trace_data`, as a snapshot reads it. -/
structure ThreadBuffer where
  id : ThreadID
  buf : List FunTraceEntry
  pos : ℕ

/-- An `event_buffer` in memory. -/
structure SnapshotBuffer where
  id : ThreadID
  entries : List FunTraceEntry
deriving DecidableEq

/-- `funtrace_snapshot`. -/
structure FuntraceSnapshot where
  threadTraces : List SnapshotBuffer
  ftraceEvents : List (List UInt8)
  procmaps : List UInt8
deriving DecidableEq

/-- `funtrace_pause_and_get_snapshot`, which copies whole buffers. -/
def pauseAndGetSnapshot (threadTraces : List ThreadBuffer) (ftraceHandler : FtraceHandler)
    (procmaps : List UInt8) : FuntraceSnapshot where
  threadTraces := threadTraces.map fun t => ⟨t.id, t.buf⟩
  ftraceEvents := ftraceHandler.eventsSnapshot 1
  procmaps := procmaps

/-- The `traces` of `funtrace_pause_and_write_current_snapshot`, which are not copied. -/
def currentTraces (threadTraces : List ThreadBuffer) : List SnapshotBuffer :=
  threadTraces.map fun t => ⟨t.id, t.buf⟩

/-- `funtrace_pause_and_get_snapshot_starting_at_time`, which reads `pauseTime`. -/
def snapshotStartingAtTime (threadTraces : List ThreadBuffer) (ftraceHandler : FtraceHandler)
    (procmaps : List UInt8) (pauseTime time : UInt64) : FuntraceSnapshot where
  threadTraces := threadTraces.map fun t => ⟨t.id, copyStartingAtTime t.buf t.pos time pauseTime⟩
  ftraceEvents := ftraceHandler.eventsSnapshot time
  procmaps := procmaps

/-- `funtrace_pause_and_get_snapshot_up_to_age`, which first reads `now`. -/
def snapshotUpToAge (threadTraces : List ThreadBuffer) (ftraceHandler : FtraceHandler)
    (procmaps : List UInt8) (now pauseTime maxEventAge : UInt64) : FuntraceSnapshot :=
  snapshotStartingAtTime threadTraces ftraceHandler procmaps pauseTime (now - maxEventAge)

end Funtrace
