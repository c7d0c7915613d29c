/-
  The hooks of `-pg` and XRay (`funtrace_pg.S`).

  A traced function calls `__fentry__` first and `__return__` before it returns; XRay has
  handlers of its own for this, which are other names of the same code.  `g_thread_trace`
  lies at a fixed distance from `fs`; of its fields the hooks access the first two.

  * `Hook.code` is the code of a hook;
  * `Thread` is a thread of an instrumented program.  Its own code may do what it likes
    (`program`), but for entering a hook, which goes from instruction to instruction.  Other
    threads may pause and resume its tracing at any time.
-/
import Funtrace.Lib.X86
import Funtrace.Runtime.TraceData

namespace Funtrace
open X86

/-! ## Code -/

/-- `__return__` is compiled for XRay by clang and for `-pg` by gcc. -/
inductive Hook where
  | fentry
  | fexit (clang : Bool)
deriving DecidableEq

/-- `FUNTRACE_RETURN_BIT` of the assembly, with clang or gcc. -/
def funtraceReturnBit : Bool → UInt64
  | true => returnWithCallerAddressBit
  | false => returnBit

section
variable (tpoff : UInt64)

/-- `__fentry__`, `__xray_FunctionEntry` and `exe_xray_FunctionEntry`. -/
def fentryCode : List Instr :=
  [.load (.fs tpoff) .r11,
    .andLoad (.fs (8 + tpoff)) .r11,
    .je 13,
    .load (.base 0 .rsp) .r10,
    .push .rdx,
    .rdtsc,
    .sal 32 .rdx,
    .or .rdx .rax,
    .store .r10 (.base 0 .r11),
    .add 16 .r11,
    .store .rax (.base (-8) .r11),
    .store .r11 (.fs tpoff),
    .pop .rdx,
    .ret]

/-- `__return__`, and the handlers of XRay for exits and tail exits. -/
def returnCode (clang : Bool) : List Instr :=
  [.load (.fs tpoff) .r11,
    .andLoad (.fs (8 + tpoff)) .r11,
    .je 16,
    .load (.base 0 .rsp) .r10,
    .push .rdx,
    .push .rax,
    .rdtsc,
    .sal 32 .rdx,
    .or .rdx .rax,
    .bts (funtraceReturnBit clang) .r10,
    .store .rax (.base 8 .r11),
    .add 16 .r11,
    .store .r10 (.base (-16) .r11),
    .store .r11 (.fs tpoff),
    .pop .rax,
    .pop .rdx,
    .ret]

/-- The code of a hook. -/
def Hook.code : Hook → List Instr
  | .fentry => fentryCode tpoff
  | .fexit clang => returnCode tpoff clang

/-- No hook calls other code, so it does not matter where it lies. -/
def Hook.program (hook : Hook) : Program := ⟨hook.code tpoff, fun _ => 0⟩

/-! ## Threads -/

namespace X86.State
variable (s : State)

/-- The fields of `g_thread_trace`. -/
def posAddr : UInt64 := s.fs + tpoff

/-- The address of `wraparound_mask`. -/
def maskAddr : UInt64 := s.fs + (8 + tpoff)

/-- The address of `buf_size`. -/
def bufSizeAddr : UInt64 := s.fs + (24 + tpoff)

end X86.State

end

/-- The call of `trace` that a hook stands for. -/
def Hook.call (returnAddress cycle : UInt64) : Hook → TraceCall
  | .fentry => .fentry returnAddress cycle
  | .fexit clang => .fexit clang returnAddress cycle

/-- A thread is in a hook or in the program.  The log has a call for each `rdtsc` of a hook. -/
structure Thread where
  state : State
  hook : Option Hook
  log : List TraceCall

/-- What a thread does, and what others do to it. -/
inductive ThreadAction where
  | program (s : State)
  | enter (hook : Hook)
  | exec (time : UInt64)
  | pause
  | resume

namespace ThreadAction

/-- Is it an instruction of a hook? -/
def isExec : ThreadAction → Bool
  | exec _ => true
  | program _ | enter _ | pause | resume => false

/-- What happens in a hook. -/
def inHook : ThreadAction → Bool
  | exec _ | pause | resume => true
  | program _ | enter _ => false

end ThreadAction

namespace Thread
variable (tpoff : UInt64)

/-- An instruction of a hook; the last one leaves it. -/
def execHook (t : Thread) (hook : Hook) (time : UInt64) : Option Thread :=
  (X86.step (hook.program tpoff) t.state (.exec time)).map fun s =>
    { state := s
      hook :=
        match s.place with
        | .returned _ => none
        | .inside _ | .called .. => some hook
      log :=
        match t.state.place with
        | .inside i =>
          if (hook.code tpoff)[i]? = some .rdtsc then t.log ++ [hook.call (t.state.regs .r10) time]
          else t.log
        | .returned _ | .called .. => t.log }

/-- What an action does; `none` if it is not enabled. -/
def step (t : Thread) : ThreadAction → Option Thread
  | .program s =>
    match t.hook with
    | none => some { t with state := s }
    | some _ => none
  | .enter hook =>
    match t.hook with
    | none => some { t with state := t.state.goto (.inside 0), hook := some hook }
    | some _ => none
  | .exec time =>
    match t.hook with
    | none => none
    | some hook => t.execHook tpoff hook time
  | .pause => some { t with state := t.state.setMem (t.state.maskAddr tpoff) 0 }
  | .resume =>
    some { t with state :=
      t.state.setMem (t.state.maskAddr tpoff) (~~~t.state.mem (t.state.bufSizeAddr tpoff)) }

end Thread

end Funtrace
