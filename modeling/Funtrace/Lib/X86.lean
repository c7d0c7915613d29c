/-
  A fragment of x86-64.

  * operands and instructions are written in the order of the AT&T syntax, the destination
    last, and have a size of 64 bits;
  * memory consists of words at their addresses.  Words that are accessed are taken not to
    overlap, as aligned ones do not;
  * of the flags there is the zero flag only;
  * `exec` is what an instruction does; `step` takes a program one instruction further, or
    lets another thread write a word.

  A word that a program does not access may be written by others at any time: the program
  does what it does without that (`exec_setMem`, `step_straight`).
-/
import Mathlib.Logic.Function.Basic
import Funtrace.Lib.Run

namespace Funtrace.X86

/-! ## Instructions -/

/-- The general registers. -/
inductive Reg where
  | rax | rbx | rcx | rdx | rsi | rdi | rbp | rsp | r8 | r9 | r10 | r11 | r12 | r13 | r14 | r15
deriving DecidableEq

/-- An address: a displacement from a register, or from the base of `fs`. -/
inductive Operand where
  | base (disp : UInt64) (r : Reg)
  | fs (disp : UInt64)
deriving DecidableEq

/-- Jumps are to the place of an instruction in the program, calls are to other code. -/
inductive Instr where
  | load (src : Operand) (dst : Reg)
  | store (src : Reg) (dst : Operand)
  | andLoad (src : Operand) (dst : Reg)
  | je (target : ℕ)
  | push (src : Reg)
  | pop (dst : Reg)
  | rdtsc
  | sal (n : UInt64) (dst : Reg)
  | or (src dst : Reg)
  | add (n : UInt64) (dst : Reg)
  | sub (n : UInt64) (dst : Reg)
  | bts (bit : UInt64) (dst : Reg)
  | call (name : String)
  | ret
deriving DecidableEq

/-- Where a processor is: before an instruction of the program, in code that was called, with the
    instruction that follows the call, or back where the program was called from. -/
inductive Place where
  | inside (i : ℕ)
  | called (name : String) (i : ℕ)
  | returned (address : UInt64)
deriving DecidableEq

/-- The state of a thread: registers, zero flag, memory, base of the thread-local storage, and
    where it is. -/
structure State where
  regs : Reg → UInt64
  zf : Bool
  mem : UInt64 → UInt64
  fs : UInt64
  place : Place

namespace Operand

/-- The address of an operand in memory. -/
def addr (s : State) : Operand → UInt64
  | base disp r => s.regs r + disp
  | fs disp => s.fs + disp

end Operand

namespace State
variable (s : State)

/-- A register is written. -/
def setReg (r : Reg) (v : UInt64) : State := { s with regs := Function.update s.regs r v }

/-- A word of the memory is written. -/
def setMem (a v : UInt64) : State := { s with mem := Function.update s.mem a v }

/-- The result of an operation that sets the flags. -/
def setResult (r : Reg) (v : UInt64) : State := { s.setReg r v with zf := v == 0 }

/-- Execution goes on at another place. -/
def goto (place : Place) : State := { s with place }

variable {s}

theorem mem_setMem_of_ne {a b : UInt64} (h : b ≠ a) (v : UInt64) : (s.setMem a v).mem b = s.mem b := by
  rw [setMem]
  exact Function.update_of_ne h v s.mem

theorem setMem_setMem (a v v' : UInt64) : (s.setMem a v).setMem a v' = s.setMem a v' := by
  simp only [setMem, Function.update_idem]

end State

/-- What an instruction does at the place `i`.  The time is what `rdtsc` gives, and `next` is the
    address of the instruction that follows. -/
def exec (time next : UInt64) (i : ℕ) (s : State) : Instr → State
  | .load src dst => (s.setReg dst (s.mem (src.addr s))).goto (.inside (i + 1))
  | .store src dst => (s.setMem (dst.addr s) (s.regs src)).goto (.inside (i + 1))
  | .andLoad src dst =>
    (s.setResult dst (s.regs dst &&& s.mem (src.addr s))).goto (.inside (i + 1))
  | .je target => s.goto (.inside (if s.zf then target else i + 1))
  | .push src =>
    ((s.setMem (s.regs .rsp - 8) (s.regs src)).setReg .rsp (s.regs .rsp - 8)).goto (.inside (i + 1))
  | .pop dst =>
    ((s.setReg .rsp (s.regs .rsp + 8)).setReg dst (s.mem (s.regs .rsp))).goto (.inside (i + 1))
  | .rdtsc => ((s.setReg .rax (time &&& 0xffffffff)).setReg .rdx (time >>> 32)).goto (.inside (i + 1))
  | .sal n dst => (s.setResult dst (s.regs dst <<< n)).goto (.inside (i + 1))
  | .or src dst => (s.setResult dst (s.regs dst ||| s.regs src)).goto (.inside (i + 1))
  | .add n dst => (s.setResult dst (s.regs dst + n)).goto (.inside (i + 1))
  | .sub n dst => (s.setResult dst (s.regs dst - n)).goto (.inside (i + 1))
  | .bts bit dst => (s.setReg dst (s.regs dst ||| 1 <<< bit)).goto (.inside (i + 1))
  | .call name =>
    ((s.setMem (s.regs .rsp - 8) next).setReg .rsp (s.regs .rsp - 8)).goto (.called name (i + 1))
  | .ret => (s.setReg .rsp (s.regs .rsp + 8)).goto (.returned (s.mem (s.regs .rsp)))

theorem addr_base (s : State) (disp : UInt64) (r : Reg) : (Operand.base disp r).addr s = s.regs r + disp :=
  rfl

theorem mem_exec_store (time next : UInt64) (i : ℕ) (s : State) (src : Reg) (dst : Operand) :
    (exec time next i s (.store src dst)).mem = Function.update s.mem (dst.addr s) (s.regs src) := rfl

theorem regs_exec_pop (time next : UInt64) (i : ℕ) (s : State) (dst : Reg) :
    (exec time next i s (.pop dst)).regs =
      Function.update (Function.update s.regs .rsp (s.regs .rsp + 8)) dst (s.mem (s.regs .rsp)) := rfl

theorem mem_exec_pop (time next : UInt64) (i : ℕ) (s : State) (dst : Reg) :
    (exec time next i s (.pop dst)).mem = s.mem := rfl

/-! ## Programs -/

/-- Instructions and the addresses at which they lie. -/
structure Program where
  code : List Instr
  addr : ℕ → UInt64

/-- An instruction of the program, or a write of another thread. -/
inductive Action where
  | exec (time : UInt64)
  | write (a v : UInt64)

/-- One instruction of the thread, or a write of another one. -/
def step (p : Program) (s : State) : Action → Option State
  | .exec time =>
    match s.place with
    | .inside i => (p.code[i]?).map fun instr => exec time (p.addr (i + 1)) i s instr
    | .called .. => none
    | .returned _ => none
  | .write a v => some (s.setMem a v)

/-! ## Words that a program does not access -/

/-- The word of memory that an instruction reads or writes. -/
def Instr.accesses (s : State) : Instr → Option UInt64
  | .load src _ => some (src.addr s)
  | .store _ dst => some (dst.addr s)
  | .andLoad src _ => some (src.addr s)
  | .push _ => some (s.regs .rsp - 8)
  | .pop _ => some (s.regs .rsp)
  | .call _ => some (s.regs .rsp - 8)
  | .ret => some (s.regs .rsp)
  | .je _ | .rdtsc | .sal .. | .or .. | .add .. | .sub .. | .bts .. => none

section
variable {s : State} {instr : Instr} {a : UInt64}

/-- **A write of another thread** to a word that an instruction does not access may come before the
    instruction or after it. -/
theorem exec_setMem (h : instr.accesses s ≠ some a) (v time next : UInt64) (i : ℕ) :
    exec time next i (s.setMem a v) instr = (exec time next i s instr).setMem a v := by
  have hread {b : UInt64} (hb : b ≠ a) : (s.setMem a v).mem b = s.mem b := State.mem_setMem_of_ne hb v
  have haddr (o : Operand) : o.addr (s.setMem a v) = o.addr s := by
    cases o <;> rfl
  have hwrite {b : UInt64} (hb : b ≠ a) (u : UInt64) :
      (s.setMem a v).setMem b u = (s.setMem b u).setMem a v := by
    simp only [State.setMem, Function.update_comm hb.symm]
  cases instr with
  | load src dst =>
    have hne : src.addr s ≠ a := fun heq => h (congrArg some heq)
    rw [exec, haddr, hread hne]
    rfl
  | store src dst =>
    have hne : dst.addr s ≠ a := fun heq => h (congrArg some heq)
    rw [exec, haddr, hwrite hne]
    rfl
  | andLoad src dst =>
    have hne : src.addr s ≠ a := fun heq => h (congrArg some heq)
    rw [exec, haddr, hread hne]
    rfl
  | push src =>
    have hne : s.regs .rsp - 8 ≠ a := fun heq => h (congrArg some heq)
    have hswap := hwrite hne (s.regs src)
    exact congrArg (fun s' : State => (s'.setReg .rsp (s.regs .rsp - 8)).goto (.inside (i + 1))) hswap
  | pop dst =>
    have hne : s.regs .rsp ≠ a := fun heq => h (congrArg some heq)
    have hsame := hread hne
    simp only [exec, State.setReg, State.goto, State.setMem] at hsame ⊢
    rw [hsame]
  | call name =>
    have hne : s.regs .rsp - 8 ≠ a := fun heq => h (congrArg some heq)
    have hswap := hwrite hne next
    exact congrArg
      (fun s' : State => (s'.setReg .rsp (s.regs .rsp - 8)).goto (.called name (i + 1))) hswap
  | ret =>
    have hne : s.regs .rsp ≠ a := fun heq => h (congrArg some heq)
    have hsame := hread hne
    simp only [exec, State.setReg, State.goto, State.setMem] at hsame ⊢
    rw [hsame]
  | je target => rfl
  | rdtsc => rfl
  | sal n dst => rfl
  | or src dst => rfl
  | add n dst => rfl
  | sub n dst => rfl
  | bts bit dst => rfl

/-- The time matters to `rdtsc` only. -/
theorem exec_time (h : instr ≠ .rdtsc) (time time' next : UInt64) (i : ℕ) :
    exec time next i s instr = exec time' next i s instr := by
  cases instr with
  | rdtsc => exact absurd rfl h
  | load src dst => rfl
  | store src dst => rfl
  | andLoad src dst => rfl
  | je target => rfl
  | push src => rfl
  | pop dst => rfl
  | sal n dst => rfl
  | or src dst => rfl
  | add n dst => rfl
  | sub n dst => rfl
  | bts bit dst => rfl
  | call name => rfl
  | ret => rfl

end

theorem fs_exec (time next : UInt64) (i : ℕ) (s : State) (instr : Instr) :
    (exec time next i s instr).fs = s.fs := by
  cases instr <;> rfl

/-! ## Instructions in a row -/

/-- The state after the first `k` instructions, if none of them jumps. -/
def straight (p : Program) (time : UInt64) : ℕ → State → State
  | 0, s => s
  | k + 1, s =>
    let s' := straight p time k s
    match p.code[k]? with
    | some instr => exec time (p.addr (k + 1)) k s' instr
    | none => s'

section
variable {p : Program} {time : UInt64} {k : ℕ} {s : State} {instr : Instr} {a v : UInt64}

variable (p time s) in
theorem straight_succ (h : p.code[k]? = some instr) :
    straight p time (k + 1) s = exec time (p.addr (k + 1)) k (straight p time k s) instr := by
  simp only [straight, h]

theorem fs_straight (k : ℕ) : (straight p time k s).fs = s.fs := by
  induction k with
  | zero => rfl
  | succ k ih =>
    cases h : p.code[k]? with
    | none => simpa only [straight, h] using ih
    | some instr => rw [straight_succ p time s h, fs_exec, ih]

theorem step_straight_self (hplace : (straight p time k s).place = .inside k) (h : p.code[k]? = some instr) :
    step p (straight p time k s) (.exec time) = some (straight p time (k + 1) s) := by
  simp only [step, hplace, h, Option.map_some, straight_succ p time s h]

theorem step_time (hplace : s.place = .inside k) (h : p.code[k]? = some instr) (hne : instr ≠ .rdtsc)
    (time time' : UInt64) : step p s (.exec time) = step p s (.exec time') := by
  simp only [step, hplace, h, Option.map_some, exec_time hne time time']

/-- **The next instruction**, where another thread has written to a word that it does not access. -/
theorem step_straight (hplace : (straight p time k s).place = .inside k) (h : p.code[k]? = some instr)
    (ha : instr.accesses (straight p time k s) ≠ some a) :
    step p ((straight p time k s).setMem a v) (.exec time) =
      some ((straight p time (k + 1) s).setMem a v) := by
  have hplace' : ((straight p time k s).setMem a v).place = .inside k := hplace
  simp only [step, hplace', h, Option.map_some, straight_succ p time s h, exec_setMem ha]

end

end Funtrace.X86
