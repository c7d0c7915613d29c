/-
  Conservation of calls: what the decoder writes for a thread.

  Every reported call entry is on the stack or written, and every return that
  finds the stack empty is written (`written_handle`, the step, and
  `written_runEntries`, the run).  The only further writes are those of unmatched
  returns: a return with the callee's address that matches no frame empties the
  stack and then writes the bottom frame a second time.  So each reported call is
  written exactly once iff no return is unmatched (`conserved_iff`).
-/
import Mathlib.Algebra.Order.Group.Multiset
import Funtrace.Viz.Sample

namespace Funtrace

section
variable (sym : UInt64 → SymInfo) (earliest : UInt64)

/-- The symbol under which an orphan return is written. -/
def orphanSym (d : Dec) (e : FunTraceEntry) : SymInfo :=
  if e.isRetWithCallerAddr then d.expectingToReturnIntoSym else symOf sym e

/-- What a step has to have written for it: a call entry its own symbol and cycle, a
    return that finds the stack empty its symbol and the start of the trace. -/
def dueKey (s : Dec × FunTraceEntry) : Option (SymInfo × UInt64) :=
  if s.2.isCall then some (symOf sym s.2, s.2.cycle)
  else if s.2.isRet ∧ s.1.stack = [] then some (orphanSym sym s.1 s.2, earliest)
  else none

end

/-- The symbol and the call cycle of a call of `write_function_call_event`. -/
def FunctionCall.key (c : FunctionCall) : SymInfo × UInt64 := (c.sym, c.callCycle)

/-- The keys of some calls. -/
def callKeys (calls : List FunctionCall) : Multiset (SymInfo × UInt64) :=
  ((calls.map FunctionCall.key : List _) : Multiset _)

@[simp] theorem callKeys_nil : callKeys [] = 0 := rfl

@[simp] theorem callKeys_append (cs cs' : List FunctionCall) :
    callKeys (cs ++ cs') = callKeys cs + callKeys cs' := by
  simp [callKeys]

section
variable (sym : UInt64 → SymInfo) (earliest : UInt64)

/-- The keys of frames, which are due when the frames are popped. -/
def frameKeys (fs : List FunTraceEntry) : Multiset (SymInfo × UInt64) :=
  ((fs.map fun f => (symOf sym f, f.cycle) : List _) : Multiset _)

theorem key_popCalls (cycle : UInt64) (fs : List FunTraceEntry) : ∀ n,
    (popCalls sym cycle n fs).map FunctionCall.key = fs.map fun f => (symOf sym f, f.cycle) := by
  induction fs with
  | nil => intro n; rfl
  | cons f fs ih =>
    intro n
    rw [popCalls, List.map_cons, ih, List.map_cons]
    rfl

theorem callKeys_popCalls (cycle : UInt64) (fs : List FunTraceEntry) (n : ℤ) :
    callKeys (popCalls sym cycle n fs) = frameKeys sym fs := by
  rw [callKeys, key_popCalls, frameKeys]

theorem callKeys_fakeReturns (latest : UInt64) (stack : List FunTraceEntry) :
    callKeys (fakeReturns sym latest stack) = frameKeys sym stack := by
  rw [fakeReturns_eq, callKeys, List.map_reverse, Multiset.coe_reverse]
  exact callKeys_popCalls sym latest stack 1

/-- **What one entry writes**: together with what stays on the stack, the stack before,
    the key due for the entry, and the repeated write. -/
theorem written_handle (d : Dec) (e : FunTraceEntry) :
    callKeys (handle sym earliest d e).2 + frameKeys sym (handle sym earliest d e).1.stack =
      frameKeys sym d.stack + ((dueKey sym earliest (d, e)).toList : Multiset _) +
        callKeys (repeated sym d.stack e) := by
  cases hcall : e.isCall with
  | true =>
    have hu : repeated sym d.stack e = [] := repeated_eq_nil.2 fun hu => by
      have hret := hu.1
      simp [FunTraceEntry.isRet_of_isCall hcall] at hret
    rw [handle_call _ _ hcall, hu]
    simp only [dueKey, hcall, if_true, frameKeys, List.map_cons, Option.toList_some, callKeys_nil,
      zero_add, add_zero, Multiset.coe_singleton]
    rw [← Multiset.cons_coe, ← Multiset.singleton_add, add_comm]
  | false =>
    by_cases hd : e.isRet ∧ d.stack = []
    · have hu : repeated sym d.stack e = [] := repeated_eq_nil.2 fun hu => hu.2.2.1 hd.2
      rw [handle_orphan _ hd.1 hd.2, hu]
      cases hw : e.isRetWithCallerAddr <;>
        simp [orphanReturn, dueKey, hcall, hd, hw, orphanSym, frameKeys, FunctionCall.key, callKeys]
    · obtain ⟨hstack, -, hcalls⟩ := @handle_pop sym earliest d e hcall fun hr h => hd ⟨hr, h⟩
      have hdue : dueKey sym earliest (d, e) = none := by simp [dueKey, hcall, hd]
      have hsplit : frameKeys sym (d.stack.take (popCount sym d.stack e)) +
          frameKeys sym (d.stack.drop (popCount sym d.stack e)) = frameKeys sym d.stack := by
        rw [frameKeys, frameKeys, Multiset.coe_add, ← List.map_append, List.take_append_drop,
          frameKeys]
      rw [hstack, hcalls, hdue, callKeys_append, callKeys_popCalls, ← hsplit]
      simp only [Option.toList_none, Multiset.coe_nil, add_zero]
      exact add_right_comm _ _ _

/-- **What a run writes.** -/
theorem written_runEntries (es : List FunTraceEntry) :
    ∀ d : Dec, callKeys (runEntries sym earliest d es).2 +
        frameKeys sym (runEntries sym earliest d es).1.stack =
      frameKeys sym d.stack +
        (((runSteps sym earliest d es).filterMap (dueKey sym earliest) : List _) : Multiset _) +
        callKeys ((runSteps sym earliest d es).flatMap fun s => repeated sym s.1.stack s.2) := by
  induction es with
  | nil => intro d; simp [runEntries, runSteps]
  | cons e es ih =>
    intro d
    have hdue : ((runSteps sym earliest d (e :: es)).filterMap (dueKey sym earliest)) =
        (dueKey sym earliest (d, e)).toList ++
          (runSteps sym earliest (handle sym earliest d e).1 es).filterMap (dueKey sym earliest) := by
      rw [runSteps, List.filterMap_cons]
      cases dueKey sym earliest (d, e) <;> rfl
    rw [hdue, runSteps, List.flatMap_cons, runEntries, callKeys_append, callKeys_append,
      ← Multiset.coe_add]
    set d' := (handle sym earliest d e).1
    set due := (((runSteps sym earliest d' es).filterMap (dueKey sym earliest) : List _) :
      Multiset (SymInfo × UInt64))
    set rep := callKeys ((runSteps sym earliest d' es).flatMap fun s => repeated sym s.1.stack s.2)
    calc callKeys (handle sym earliest d e).2 + callKeys (runEntries sym earliest d' es).2 +
          frameKeys sym (runEntries sym earliest d' es).1.stack
        = callKeys (handle sym earliest d e).2 + (frameKeys sym d'.stack + due + rep) := by
          rw [add_assoc, ih d']
      _ = callKeys (handle sym earliest d e).2 + frameKeys sym d'.stack + (due + rep) := by
          rw [add_assoc (frameKeys sym d'.stack), ← add_assoc]
      _ = _ := by
          rw [written_handle, add_add_add_comm, add_assoc (frameKeys sym d.stack)]

/-- Where no return is an orphan, the calls are due. -/
theorem dueKeys_eq : ∀ {es : List FunTraceEntry} {d : Dec},
    (∀ s ∈ runSteps sym earliest d es, s.2.isRet → s.1.stack ≠ []) →
      (runSteps sym earliest d es).filterMap (dueKey sym earliest) =
        (es.filter FunTraceEntry.isCall).map fun f => (symOf sym f, f.cycle)
  | [], _, _ => rfl
  | e :: es, d, h => by
    have ih : (runSteps sym earliest (handle sym earliest d e).1 es).filterMap (dueKey sym earliest) =
        (es.filter FunTraceEntry.isCall).map fun f => (symOf sym f, f.cycle) :=
      dueKeys_eq fun s hs => h s (List.mem_cons_of_mem _ hs)
    have hhead := h (d, e) List.mem_cons_self
    rw [runSteps, List.filterMap_cons, ih]
    cases hcall : e.isCall with
    | true => simp [dueKey, hcall]
    | false =>
      have hdue : dueKey sym earliest (d, e) = none := by
        unfold dueKey
        rw [if_neg (by simp [hcall]), if_neg fun hand => hhead hand.1 hand.2]
      simp [hdue, hcall]

/-- The calls written for a list of reported entries: each key that is due, and the
    repeated writes. -/
theorem written_decodeReported (latest : UInt64) (es : List FunTraceEntry) :
    callKeys (decodeReported sym earliest latest es) =
      (((runSteps sym earliest Dec.init es).filterMap (dueKey sym earliest) : List _) : Multiset _) +
        callKeys ((runSteps sym earliest Dec.init es).flatMap
          fun s => repeated sym s.1.stack s.2) := by
  rw [decodeReported, callKeys_append, callKeys_fakeReturns, written_runEntries]
  simp [Dec.init, frameKeys]

/-- Nothing is lost or written twice iff no return is unmatched. -/
theorem conserved_decodeReported (latest : UInt64) (es : List FunTraceEntry) :
    ((decodeReported sym earliest latest es).map FunctionCall.key).Perm
        ((runSteps sym earliest Dec.init es).filterMap (dueKey sym earliest)) ↔
      ∀ s ∈ runSteps sym earliest Dec.init es, ¬ Unmatched sym s.1.stack s.2 := by
  have hw := written_decodeReported sym earliest latest es
  rw [← Multiset.coe_eq_coe]
  change callKeys _ = _ ↔ _
  rw [hw, add_eq_left, callKeys, Multiset.coe_eq_zero, List.map_eq_nil_iff,
    List.flatMap_eq_nil_iff]
  exact forall₂_congr fun s _ => repeated_eq_nil

end

/-! ## Samples -/

namespace TraceConverter
variable (w : World) (c : TraceConverter) (sampleEntries : List ThreadTrace)
  (ftraceEvents : List FtraceEvent)

/-- The reported entries of a thread, each with the state in which the decoder finds it. -/
def reportedSteps (t : ThreadTrace) : List (Dec × FunTraceEntry) :=
  let l := c.sampleLookup w sampleEntries ftraceEvents
  let oldest := c.oldestEvent sampleEntries ftraceEvents
  if c.selects t then
    runSteps l.sym (max (t.trace.head t.nonempty).cycle oldest) Dec.init
      (t.trace.filter (l.reports oldest))
  else []

/-- Each reported call of a thread is written once, each orphan return too, and nothing else. -/
def Conserves (t : ThreadTrace) (calls : List FunctionCall) : Prop :=
  let l := c.sampleLookup w sampleEntries ftraceEvents
  let oldest := c.oldestEvent sampleEntries ftraceEvents
  (calls.map FunctionCall.key).Perm
    ((c.reportedSteps w sampleEntries ftraceEvents t).filterMap
      (dueKey l.sym (max (t.trace.head t.nonempty).cycle oldest)))

/-- **Decoder conservation.**  The calls of `write_function_call_event` for a thread are
    one for each reported call entry, with its own symbol and cycle, and one for each
    reported return that finds the stack empty, iff no reported return with the callee's
    address finds a stack without a frame of its name. -/
theorem conserved_iff (i : Fin sampleEntries.length) :
    c.Conserves w sampleEntries ftraceEvents (sampleEntries.get i)
        ((c.sampleCalls w sampleEntries ftraceEvents).getD i []) ↔
      ∀ s ∈ c.reportedSteps w sampleEntries ftraceEvents (sampleEntries.get i),
        ¬ Unmatched (c.sampleLookup w sampleEntries ftraceEvents).sym s.1.stack s.2 := by
  have hcalls : (c.sampleCalls w sampleEntries ftraceEvents).getD i [] =
      c.threadCalls (c.sampleLookup w sampleEntries ftraceEvents)
        (c.oldestEvent sampleEntries ftraceEvents) (sampleEntries.get i) := by
    rw [sampleCalls_eq]; simp
  rw [hcalls, Conserves, reportedSteps, threadCalls]
  split_ifs with hsel
  · exact conserved_decodeReported _ _ _ _
  · simp

instance (t : ThreadTrace) (calls : List FunctionCall) :
    Decidable (c.Conserves w sampleEntries ftraceEvents t calls) := by
  unfold Conserves; infer_instance

/-- A call of `f` and a return of `g`: `f` is written twice. -/
theorem not_conserved_unmatched :
    let sample := [demoThread ⟨0x1100, 1⟩ [.traced 0x1200 returnFlag 2]]
    ¬ demoConverter.Conserves demoWorld sample [] sample[0]
      ((demoConverter.sampleCalls demoWorld sample []).getD 0 []) := by
  decide +kernel

end TraceConverter

end Funtrace
