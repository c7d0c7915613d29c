/-
  Decoding the entries of one thread (`write_sample_to_json` in
  `funtrace2viz/src/main.rs`, the loop over `entries`).

  The decoder keeps a stack of call entries and turns returns and catches into
  calls of `write_function_call_event`.  A return pops its call; a return with
  an empty stack is an orphan; a return that does not match the stack pops until
  it does (`popUntil`); a catch pops the frames that the exception unwound
  (`unwind`); what is left at the end gets a fake return (`fakeReturns`).

  * `FunctionCall` is one call of `write_function_call_event`;
  * `handle` is the body of the loop once the symbols are known and ignored
    addresses are out of the way, `runEntries` its iteration;
  * `threadStep` is the whole body, with the symbol cache and the set of ignored
    addresses, and `decodeThread` the loop over the entries of a thread.

  Stacks are lists with the top first.
-/
import Funtrace.Entry
import Funtrace.Viz.ProcAddr2Sym

namespace Funtrace

/-- The arguments of a call of `write_function_call_event`.  `extraNs` shifts the
    return if positive, the call if negative; it counts without bound here and is
    reduced to an `i32` where it is used (`FunctionCall.extraNs32`). -/
structure FunctionCall where
  sym : SymInfo
  callCycle : UInt64
  returnCycle : UInt64
  extraNs : ℤ
deriving DecidableEq

/-- The entries of a thread; `parse_chunks` keeps no thread without entries. -/
structure ThreadTrace where
  threadId : ThreadID
  trace : List FunTraceEntry
  nonempty : trace ≠ []
deriving DecidableEq

/-- What the loop carries from entry to entry. -/
structure Dec where
  stack : List FunTraceEntry
  numOrphanReturns : ℤ
  expectingToReturnIntoSym : SymInfo
deriving DecidableEq

/-- Before the first entry of a thread. -/
def Dec.init : Dec := ⟨[], 0, ProcAddr2Sym.unknownSymbol⟩

section
variable (sym : UInt64 → SymInfo)

/-- The symbol of an entry. -/
def symOf (e : FunTraceEntry) : SymInfo := sym e.addr

/-- The name by which frames are compared: demangled, without a clone suffix. -/
def nameOf (e : FunTraceEntry) : String := (symOf sym e).demangledFunc

/-! ## Catches -/

/-- The `while !stack.is_empty()` loop of a catch: pops frames up to one that would
    have logged its return, or one with the name of the catcher. -/
def unwind (catcher : String) (cycle : UInt64) :
    List FunTraceEntry → ℤ → List FunctionCall × List FunTraceEntry
  | [], _ => ([], [])
  | last :: rest, unwound =>
    if last.returnsUponThrow then ([], last :: rest)
    else if catcher = nameOf sym last then ([], last :: rest)
    else
      let r := unwind catcher cycle rest (unwound + 1)
      (⟨symOf sym last, last.cycle, cycle, unwound + 1⟩ :: r.1, r.2)

/-! ## Returns -/

/-- The state of the `while !found` loops: the popped entry that is written next,
    the stack under it, and the number of `returns`. -/
structure Popped where
  call : FunTraceEntry
  stack : List FunTraceEntry
  returns : ℤ

/-- The `while !found` loops of a mismatched return.  Each turn writes the popped
    entry `call`, leaves the loop if the stack is empty, and pops the next entry;
    `found` sees that entry and the stack under it. -/
def popUntil (found : FunTraceEntry → List FunTraceEntry → Bool) (cycle : UInt64) :
    FunTraceEntry → List FunTraceEntry → ℤ → List FunctionCall × Popped
  | call, [], returns => ([⟨symOf sym call, call.cycle, cycle, returns⟩], ⟨call, [], returns⟩)
  | call, last :: rest, returns =>
    let r := if found last rest then ([], ⟨last, rest, returns + 1⟩)
      else popUntil found cycle last rest (returns + 1)
    (⟨symOf sym call, call.cycle, cycle, returns⟩ :: r.1, r.2)

/-- The recovery of a return with the callee's address: pop until the function that
    is returning. -/
def popUntilReturning (ret : String) (cycle : UInt64) (call : FunTraceEntry)
    (stack : List FunTraceEntry) : List FunctionCall × Popped :=
  if ret ≠ nameOf sym call then
    popUntil sym (fun last _ => ret = nameOf sym last) cycle call stack 0
  else ([], ⟨call, stack, 0⟩)

/-- The recovery of a return with the caller's address: pop until the caller is on
    top, if it is on the stack at all. -/
def popUntilCaller (ret : String) (cycle : UInt64) (call : FunTraceEntry)
    (stack : List FunTraceEntry) : List FunctionCall × Popped :=
  match stack with
  | [] => ([], ⟨call, [], 0⟩)
  | caller :: _ =>
    if ret ≠ nameOf sym caller ∧ stack.any (fun e => nameOf sym e = ret) then
      popUntil sym (fun _ rest => rest.head?.any fun e => ret = nameOf sym e) cycle call stack 0
    else ([], ⟨call, stack, 0⟩)

/-- A return entry with an empty stack. -/
def orphanReturn (earliest : UInt64) (d : Dec) (entry : FunTraceEntry) :
    Dec × List FunctionCall :=
  let n := d.numOrphanReturns + 1
  let retSym := symOf sym entry
  if entry.isRetWithCallerAddr then
    (⟨d.stack, n, retSym⟩, [⟨d.expectingToReturnIntoSym, earliest, entry.cycle, -n⟩])
  else
    (⟨d.stack, n, d.expectingToReturnIntoSym⟩, [⟨retSym, earliest, entry.cycle, -n⟩])

/-- A return entry with `call` on top of the stack. -/
def popReturn (d : Dec) (entry call : FunTraceEntry) (stack : List FunTraceEntry) :
    Dec × List FunctionCall :=
  let ret := nameOf sym entry
  let r := if entry.isRetWithCallerAddr then popUntilCaller sym ret entry.cycle call stack
    else popUntilReturning sym ret entry.cycle call stack
  let expecting := if entry.isRetWithCallerAddr then symOf sym entry
    else d.expectingToReturnIntoSym
  -- the write after the `if`s; after a failed recovery it repeats the loop's last one
  (⟨r.2.stack, d.numOrphanReturns, expecting⟩,
    r.1 ++ [⟨symOf sym r.2.call, r.2.call.cycle, entry.cycle, r.2.returns⟩])

/-! ## The loop -/

/-- The loop body for an entry that is neither too old nor ignored. -/
def handle (earliest : UInt64) (d : Dec) (entry : FunTraceEntry) : Dec × List FunctionCall :=
  if entry.isCatch then
    let r := unwind sym (nameOf sym entry) entry.cycle d.stack 0
    ({ d with stack := r.2 }, r.1)
  else if entry.isRet then
    match d.stack with
    | [] => orphanReturn sym earliest d entry
    | call :: stack => popReturn sym d entry call stack
  else ({ d with stack := entry :: d.stack }, [])

/-- The loop over reported entries: the state it ends in and the calls it makes. -/
def runEntries (earliest : UInt64) : Dec → List FunTraceEntry → Dec × List FunctionCall
  | d, [] => (d, [])
  | d, entry :: entries =>
    let r := handle sym earliest d entry
    let r' := runEntries earliest r.1 entries
    (r'.1, r.2 ++ r'.2)

/-- The loop after the entries: fake returns for what is on the stack, from its
    bottom, the deepest frame ending last. -/
def fakeReturns (latest : UInt64) (stack : List FunTraceEntry) : List FunctionCall :=
  stack.reverse.mapIdx fun i e =>
    ⟨symOf sym e, e.cycle, latest, (stack.length : ℤ) - i⟩

end

/-! ## The symbol cache and ignored addresses -/

/-- The maps that the loop reads and fills. -/
structure Lookup where
  procaddr2sym : ProcAddr2Sym
  symCache : UInt64 → Option SymInfo
  ignoreAddrs : List UInt64

namespace Lookup

/-- The lookups, unless one of them has panicked. -/
def completed (l : Lookup) : Option Lookup := if l.procaddr2sym.panicked then none else some l

theorem completed_eq_some {l l' : Lookup} :
    l.completed = some l' ↔ l.procaddr2sym.panicked = false ∧ l = l' := by
  unfold completed
  split_ifs with hpanic <;> simp [hpanic]

/-- `self.sym_cache.get(&addr).unwrap()`. -/
def sym (l : Lookup) (addr : UInt64) : SymInfo :=
  (l.symCache addr).getD ProcAddr2Sym.unknownSymbol

/-- Looks `addr` up, unless it is cached; only then a thunk becomes ignored. -/
def resolve (w : World) (l : Lookup) (addr : UInt64) : Lookup :=
  match l.symCache addr with
  | some _ => l
  | none =>
    let r := l.procaddr2sym.procAddr2Sym w addr
    { procaddr2sym := r.2
      symCache := Function.update l.symCache addr (some r.1)
      ignoreAddrs := if containsStr r.1.demangledFunc "virtual override thunk" then
          addr :: l.ignoreAddrs
        else l.ignoreAddrs }

end Lookup

/-- The whole loop body. -/
def threadStep (w : World) (oldest earliest : UInt64) (s : Lookup × Dec)
    (entry : FunTraceEntry) : (Lookup × Dec) × List FunctionCall :=
  if oldest > entry.cycle then (s, [])
  else
    let l := s.1.resolve w entry.addr
    if entry.addr ∈ l.ignoreAddrs then ((l, s.2), [])
    else
      let r := handle l.sym earliest s.2 entry
      ((l, r.1), r.2)

/-- The loop over the entries of a thread. -/
def threadLoop (w : World) (oldest earliest : UInt64) :
    Lookup × Dec → List FunTraceEntry → (Lookup × Dec) × List FunctionCall
  | s, [] => (s, [])
  | s, entry :: entries =>
    let r := threadStep w oldest earliest s entry
    let r' := threadLoop w oldest earliest r.1 entries
    (r'.1, r.2 ++ r'.2)

/-- The decoding of a thread's entries: the lookups it leaves behind and its calls of
    `write_function_call_event`, in order. -/
def decodeThread (w : World) (oldest : UInt64) (l : Lookup) (t : ThreadTrace) :
    Lookup × List FunctionCall :=
  let earliest := max (t.trace.head t.nonempty).cycle oldest
  let latest := (t.trace.getLast t.nonempty).cycle
  let r := threadLoop w oldest earliest (l, Dec.init) t.trace
  (r.1.1, r.2 ++ fakeReturns r.1.1.sym latest r.1.2.stack)

end Funtrace
