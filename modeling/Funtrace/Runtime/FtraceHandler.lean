/-
  The collection of ftrace events (`ftrace_handler` in `funtrace.cpp`, and what
  `write_ftrace` of `funtrace_gdb.py` reads of it in a core dump).

  A thread reads lines from `trace_pipe` and keeps the events among them in a cyclic
  buffer; a snapshot takes those from a time on.  Lines are bytes.
-/
import Funtrace.Lib.LowerBound
import Funtrace.Lib.Utf8

namespace Funtrace

/-- `ftrace_event`. -/
structure FtraceHandler.Event where
  timestamp : UInt64
  line : List UInt8
deriving DecidableEq

/-- The cyclic buffer `events`; `pos` is the slot that is written next. -/
structure FtraceHandler where
  events : List FtraceHandler.Event
  pos : ℕ
  pos_lt : pos < events.length

namespace FtraceHandler

/-- `events.resize`: no event has a timestamp. -/
def init (eventsInBuf : ℕ) (h : 0 < eventsInBuf) : FtraceHandler where
  events := List.replicate eventsInBuf ⟨0, []⟩
  pos := 0
  pos_lt := by simpa using h

/-! ## Timestamps -/

/-- The bytes before the first `": "`, if there is one. -/
def beforeColon : List UInt8 → Option (List UInt8)
  | [] => none
  | [_] => none
  | b :: b' :: bs => if b = 0x3a ∧ b' = 0x20 then some [] else (beforeColon (b' :: bs)).map (b :: ·)

/-- The loop of `parse_timestamp` over the bytes before `q`, the last one first. -/
def timestampLoop : List UInt8 → UInt64 → UInt64 → UInt64
  | [], _, _ => 0
  | b :: bs, time, mult =>
    if b = 0x20 then time
    else if b < 0x30 ∨ 0x39 < b then 0
    else timestampLoop bs (time + (b - 0x30).toUInt64 * mult) (mult * 10)

/-- `parse_timestamp`, of the C string in a line; zero if the line is no event. -/
def parseTimestamp (line : List UInt8) : UInt64 :=
  match beforeColon (line.takeWhile (· ≠ 0)) with
  | none => 0
  | some bytes => timestampLoop bytes.reverse 0 1

/-! ## The buffer -/

/-- The body of the loop of `thread_func`. -/
def readLine (h : FtraceHandler) (line : List UInt8) : FtraceHandler :=
  let timestamp := parseTimestamp line
  if timestamp ≠ 0 then
    { events := h.events.set h.pos ⟨timestamp, line⟩
      pos := (h.pos + 1) % h.events.length
      pos_lt := by
        rw [List.length_set]
        exact Nat.mod_lt _ (Nat.lt_of_le_of_lt (Nat.zero_le _) h.pos_lt) }
  else h

/-- `thread_func`. -/
def threadFunc (h : FtraceHandler) (lines : List (List UInt8)) : FtraceHandler := lines.foldl readLine h

/-- `find_earliest_event_after`; `none` is its `nullptr`. -/
def findEarliestEventAfter (range : List Event) (earliestTimestamp : UInt64) : Option ℕ :=
  let p := lowerBound (fun e => e.timestamp < earliestTimestamp) range
  if p = range.length then none else some p

/-- `copy` from a found event to the end of its range. -/
def copyLines (range : List Event) : Option ℕ → List (List UInt8)
  | none => []
  | some p => (range.drop p).map (·.line)

/-- `events_snapshot`: the lines since a time, the older ones first. -/
def eventsSnapshot (h : FtraceHandler) (earliestTimestamp : UInt64) : List (List UInt8) :=
  let right := h.events.drop h.pos
  let left := h.events.take h.pos
  copyLines right (findEarliestEventAfter right earliestTimestamp) ++
    copyLines left (findEarliestEventAfter left earliestTimestamp)

/-! ## Core dumps -/

/-- `get_string`, which raises an exception if the bytes are not UTF-8. -/
def getString (bytes : List UInt8) : Option String := decodeUtf8 bytes

/-- `collect_lines`, the events in a range that have a timestamp. -/
def collectLines (range : List Event) : Option (List String) :=
  (range.filter (·.timestamp ≠ 0)).mapM fun e => getString e.line

/-- The `lines` of `write_ftrace`. -/
def gdbLines (h : FtraceHandler) : Option (List String) := do
  let older ← collectLines (h.events.drop h.pos)
  let newer ← collectLines (h.events.take h.pos)
  return older ++ newer

end FtraceHandler
end Funtrace
