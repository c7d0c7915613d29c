/-
  The garbage-collecting thread (`funtrace_gc` in `funtrace.cpp`) and its settings.

  The thread waits for a condition variable with a time limit, and collects each time
  it wakes up.  `~funtrace_gc` makes it quit.
-/
import Funtrace.Runtime.Process

namespace Funtrace

/-! ## Settings -/

/-- `isspace`. -/
def isSpace (c : Char) : Bool := c = ' ' ∨ (9 ≤ c.toNat ∧ c.toNat ≤ 13)

/-- `atoi`: blanks, a sign and digits; the `int` part of what fits into a `long`. -/
def atoi (s : String) : ℤ :=
  let cs := s.toList.dropWhile isSpace
  let (negative, cs) := match cs with
    | '-' :: cs => (true, cs)
    | '+' :: cs => (false, cs)
    | cs => (false, cs)
  let n : ℤ := (cs.takeWhile (·.isDigit)).foldl (fun n d => n * 10 + (d.toNat - '0'.toNat)) 0
  (max (-2 ^ 63) (min (2 ^ 63 - 1) (if negative then -n else n))).bmod (2 ^ 32)

/-- `env_int`: the value of an environment variable, or the default. -/
def envInt (val : Option String) (defaultValue : ℤ) : ℤ := (val.map atoi).getD defaultValue

/-- The macros `FUNTRACE_GC_MAX_AGE_MS` and `FUNTRACE_GC_PERIOD_MS`, and the environment variables
    of the same names. -/
structure GcSettings where
  maxAgeMacro : ℤ
  periodMacro : ℤ
  maxAgeEnv : Option String
  periodEnv : Option String

namespace GcSettings
variable (c : GcSettings)

/-- `gc_max_age_ms` of `trace_global_state`. -/
def gcMaxAgeMs : ℤ := envInt c.maxAgeEnv c.maxAgeMacro

/-- `gc_period_ms` of `funtrace_gc`. -/
def gcPeriodMs : ℤ := envInt c.periodEnv c.periodMacro

/-- Is there a `g_funtrace_gc`, and does it start a thread? -/
def startsCollector : Bool := 0 < c.maxAgeMacro ∧ c.gcPeriodMs ≠ 0

end GcSettings

/-! ## The thread -/

/-- A process with a collecting thread.  `now` is the time-stamp counter, and `finished` the
    clock that was read when a copy was made. -/
structure Collector where
  process : Process
  quit : Bool
  done : Bool
  now : UInt64
  finished : ℕ → ClockReading

/-- What the collecting thread does, and the other threads. -/
inductive CollectorAction where
  /-- a step of another thread -/
  | other (a : Process.Action)
  /-- `~funtrace_gc` begins -/
  | quit
  /-- `wait_for` returns, with `cv_status::timeout` or without -/
  | wake (timeout : Bool) (clock : ClockReading)

namespace Collector

/-- The process begins, with the thread waiting. -/
def init (s : Process) : Collector := ⟨s, false, false, 0, fun _ => ⟨0, 0⟩⟩

/-- The loop body of `thread_func`. -/
def wake (c : Collector) (timeout : Bool) (clock : ClockReading) : Option Collector :=
  let exiting := !timeout || c.quit
  (c.process.step (.collectGarbage exiting clock)).map fun s =>
    { c with process := s, done := exiting, now := clock.tsc }

/-- A step of the thread or of another one; time does not go back. -/
def step (c : Collector) : CollectorAction → Option Collector
  | .other (.collectGarbage _ _) => none
  | .other (.returnFromStart t name clock) =>
    if clock.tsc < c.now then none
    else (c.process.step (.returnFromStart t name clock)).map fun s =>
      { c with
        process := s
        now := clock.tsc
        finished := Function.update c.finished c.process.numCopies clock }
  | .other a => (c.process.step a).map fun s => { c with process := s }
  | .quit => some { c with quit := true }
  | .wake timeout clock => if c.done ∨ clock.tsc < c.now then none else c.wake timeout clock

end Collector

end Funtrace
