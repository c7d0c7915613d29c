/-
  The samples of one run, logged by the two methods.

  Both have the same threads and times, so nothing but the entries differs.  They give
  the same events if and only if every return that is logged has both its function and
  its caller in a thunk, or none of them (`agree_iff`).
-/
import Funtrace.Proof.Methods

namespace Funtrace

/-- A thread that runs from where no traced function is open. -/
structure MixedRun {F : Type} (traced : F → Bool) (sym : UInt64 → SymInfo) (name : F → String) where
  threadId : ThreadID
  start : List F
  events : List (MixedEvent F)
  untraced : ∀ f ∈ start, traced f = false
  legal : LegalMixed traced sym name events start
  nonempty : ∀ m, mixedLog traced m events start ≠ []

namespace MixedRun
variable {F : Type} {traced : F → Bool} {sym : UInt64 → SymInfo} {name : F → String}

/-- What the decoder gets of a thread. -/
def thread (m : Method) (r : MixedRun traced sym name) : ThreadTrace :=
  ⟨r.threadId, mixedLog traced m r.events r.start, r.nonempty m⟩

variable (r : MixedRun traced sym name) (m : Method)

/-- The time of the first entry. -/
def earliest : UInt64 := ((r.thread .callee).trace.head (r.thread .callee).nonempty).cycle

/-- The last cycle of the window. -/
def latest : UInt64 := ((r.thread .callee).trace.getLast (r.thread .callee).nonempty).cycle

/-- What is written for a thread. -/
def calls : List FunctionCall :=
  decodeMixed traced sym r.earliest r.latest m Dec.init r.events r.start

theorem head_cycle : ((r.thread m).trace.head (r.thread m).nonempty).cycle = r.earliest := by
  have hhead := congrArg List.head? (mixedLog_cycles m r.legal)
  rw [List.head?_map, List.head?_map, List.head?_eq_some_head (r.nonempty m),
    List.head?_eq_some_head (r.nonempty .callee)] at hhead
  exact Option.some.inj hhead

theorem last_cycle : ((r.thread m).trace.getLast (r.thread m).nonempty).cycle = r.latest := by
  have hlast := congrArg List.getLast? (mixedLog_cycles m r.legal)
  rw [List.getLast?_map, List.getLast?_map, List.getLast?_eq_some_getLast (r.nonempty m),
    List.getLast?_eq_some_getLast (r.nonempty .callee)] at hlast
  exact Option.some.inj hlast

theorem shows_start : Shows traced sym name [] r.start := by
  have hnone : r.start.filter (shown traced name) = [] :=
    List.filter_eq_nil_iff.2 fun f hf => by simp [shown, r.untraced f hf]
  rw [Shows, hnone]
  rfl

/-- Strictly increasing times, none of them zero. -/
structure Strict : Prop where
  sorted : (r.thread .callee).trace.Pairwise (·.cycle < ·.cycle)
  nonzero : ∀ e ∈ (r.thread .callee).trace, e.cycle ≠ 0

variable {r}

theorem Strict.timed (h : r.Strict) :
    Timed r.earliest r.latest (mixedLog traced .callee r.events r.start) where
  sorted := h.sorted
  nonzero := h.nonzero
  bounds _ he := ⟨(r.thread .callee).head_le h.sorted he, (r.thread .callee).le_last h.sorted he⟩

theorem calls_consistent (hname : Function.Injective name)
    (h : Consistent traced name r.events r.start) : r.calls .callee = r.calls .caller := by
  obtain ⟨stack, calls, hagree⟩ := agree_run r.earliest hname r.shows_start r.legal h
  obtain ⟨hstack, hcalls⟩ := hagree .callee Dec.init rfl
  obtain ⟨hstack', hcalls'⟩ := hagree .caller Dec.init rfl
  unfold MixedRun.calls decodeMixed
  dsimp only at hcalls hcalls' ⊢
  rw [hstack, hcalls, hstack', hcalls']

end MixedRun

namespace TraceConverter

/-- The events of some calls. -/
def eventsOf (cpuFreq timeBase : UInt64) (calls : List FunctionCall) : List (SymInfo × ℚ × ℚ) :=
  (calls.filter FunctionCall.isComplete).map fun call => (call.sym, call.interval cpuFreq timeBase)

theorem mem_eventsOf {cpuFreq timeBase : UInt64} {calls : List FunctionCall} {x : SymInfo × ℚ × ℚ} :
    x ∈ eventsOf cpuFreq timeBase calls ↔
      ∃ call ∈ calls, call.isComplete ∧ (call.sym, call.interval cpuFreq timeBase) = x := by
  simp only [eventsOf, List.mem_map, List.mem_filter, and_assoc]

section
variable {w : World} {c : TraceConverter} {F : Type} {traced : F → Bool} {name : F → String}
  {runs : List (MixedRun traced (c.symbols w) name)} {ftraceEvents : List FtraceEvent}

theorem oldestEvent_thread (m : Method) : c.oldestEvent (runs.map (·.thread m)) ftraceEvents =
    c.oldestEvent (runs.map (·.thread .callee)) ftraceEvents := by
  have hselects : (fun r : MixedRun traced (c.symbols w) name => c.selects (r.thread m)) =
      fun r => c.selects (r.thread .callee) := rfl
  simp only [oldestEvent, List.filter_map, List.foldl_map, Function.comp_def, hselects,
    MixedRun.head_cycle, MixedRun.last_cycle]

variable (w c runs ftraceEvents) in
/-- The converter before the sample of either method: no thunk is cached, and nothing is too old. -/
structure Unaged : Prop where
  ready : c.Ready w
  fresh : ∀ a, isThunk (c.symbols w a).demangledFunc → c.symCache a = none
  recent : ∀ r ∈ runs, c.selects (r.thread .callee) → ∀ e ∈ (r.thread .callee).trace,
    c.oldestEvent (runs.map (·.thread .callee)) ftraceEvents ≤ e.cycle

/-- **The calls of either sample**, thread by thread. -/
theorem Unaged.sampleCalls_eq (h : c.Unaged w runs ftraceEvents) (m : Method) :
    c.sampleCalls w (runs.map (·.thread m)) ftraceEvents =
      runs.map fun r => if c.selects (r.thread .callee) then r.calls m else [] := by
  rw [h.ready.sampleCalls_eq, List.map_map]
  refine List.map_congr_left fun r hr => ?_
  dsimp only [Function.comp_apply]
  rw [show c.selects (r.thread m) = c.selects (r.thread .callee) from rfl]
  split_ifs with hsel
  · have hrecent := h.recent r hr hsel
    have hfilter : (r.thread m).trace.filter
        (c.heeds w (c.oldestEvent (runs.map (·.thread m)) ftraceEvents)) =
          (mixedLog traced m r.events r.start).filter (heeded (c.symbols w)) := by
      refine List.filter_congr fun e he => ?_
      obtain ⟨e', he', hcycle⟩ := mem_mixedLog_cycle r.legal he
      have hold := hrecent e' he'
      rw [hcycle, ← oldestEvent_thread m] at hold
      unfold heeds heeded
      rw [decide_eq_true hold, Bool.true_and]
      cases hthunk : isThunk (nameOf (c.symbols w) e) with
      | false => rfl
      | true =>
        rw [h.fresh _ hthunk]
        rfl
    have hhead : max r.earliest (c.oldestEvent (runs.map (·.thread .callee)) ftraceEvents) = r.earliest :=
      max_eq_of_le (hrecent _ (List.head_mem (r.thread .callee).nonempty))
    rw [hfilter, r.head_cycle m, r.last_cycle m, oldestEvent_thread m, hhead]
    rfl
  · rfl

theorem Unaged.emitted_eq (h : c.Unaged w runs ftraceEvents) (m : Method) :
    c.emitted w (runs.map (·.thread m)) ftraceEvents = runs.map fun r =>
      eventsOf c.cpuFreq (c.thresholds (runs.map (·.thread .callee)) ftraceEvents).2
        (if c.selects (r.thread .callee) then r.calls m else []) := by
  have hbase : (c.thresholds (runs.map (·.thread m)) ftraceEvents).2 =
      (c.thresholds (runs.map (·.thread .callee)) ftraceEvents).2 := by
    simp only [thresholds, oldestEvent_thread m]
  rw [emitted, h.sampleCalls_eq, hbase, List.map_map]
  rfl

/-- The same events in every thread. -/
def SameEvents (events events' : List (List (SymInfo × ℚ × ℚ))) : Prop :=
  List.Forall₂ (fun l l' => ∀ x, x ∈ l ↔ x ∈ l') events events'

/-- **An inconsistent run** gives an event by one method only. -/
theorem Unaged.consistent_of_sameEvents (h : c.Unaged w runs ftraceEvents)
    (hname : Function.Injective name) (hfreq : c.cpuFreq ≠ 0)
    (hsame : SameEvents (c.emitted w (runs.map (·.thread .callee)) ftraceEvents)
      (c.emitted w (runs.map (·.thread .caller)) ftraceEvents))
    {r : MixedRun traced (c.symbols w) name} (hr : r ∈ runs) (hsel : c.selects (r.thread .callee))
    (hstrict : r.Strict) : Consistent traced name r.events r.start := by
  by_contra hcons
  have hhead : (r.thread .callee).trace.head (r.thread .callee).nonempty ∈ (r.thread .callee).trace :=
    List.head_mem _
  have hle : (c.thresholds (runs.map (·.thread .callee)) ftraceEvents).2 ≤ r.earliest :=
    UInt64.le_trans (c.timeBase_le_oldest _ _) (h.recent r hr hsel _ hhead)
  obtain ⟨m, m', e, interval, hne, -, honly⟩ := differ_run hname hfreq hle
    (hstrict.nonzero _ hhead) r.shows_start r.legal hcons hstrict.timed
  obtain ⟨call, hcall, hcomplete, hinterval⟩ := honly.mem Dec.init rfl rfl
  have hsame' : ∀ m x,
      x ∈ eventsOf c.cpuFreq (c.thresholds (runs.map (·.thread .callee)) ftraceEvents).2 (r.calls m) ↔
      x ∈ eventsOf c.cpuFreq (c.thresholds (runs.map (·.thread .callee)) ftraceEvents).2
        (r.calls .callee) := by
    rw [SameEvents, h.emitted_eq, h.emitted_eq, List.forall₂_map_left_iff, List.forall₂_map_right_iff,
      List.forall₂_same] at hsame
    have hthread := hsame r hr
    rw [if_pos hsel, if_pos hsel] at hthread
    rintro (_ | _) x
    · exact Iff.rfl
    · exact (hthread x).symm
  have hevent : (call.sym, interval) ∈
      eventsOf c.cpuFreq (c.thresholds (runs.map (·.thread .callee)) ftraceEvents).2 (r.calls m) :=
    mem_eventsOf.2 ⟨call, hcall, hcomplete, by rw [hinterval]⟩
  obtain ⟨call', hcall', -, heq⟩ := mem_eventsOf.1 ((hsame' m' _).2 ((hsame' m _).1 hevent))
  exact honly.other Dec.init rfl call' hcall' (congrArg Prod.snd heq)

/-- **The two methods agree** if no function returns with just one of itself and its caller in a
    thunk.  At strictly increasing times they agree only then. -/
theorem agree_iff (h : c.Unaged w runs ftraceEvents) (hname : Function.Injective name) :
    ((∀ r ∈ runs, c.selects (r.thread .callee) → Consistent traced name r.events r.start) →
      c.emitted w (runs.map (·.thread .callee)) ftraceEvents =
        c.emitted w (runs.map (·.thread .caller)) ftraceEvents) ∧
    (c.cpuFreq ≠ 0 → (∀ r ∈ runs, c.selects (r.thread .callee) → r.Strict) →
      (SameEvents (c.emitted w (runs.map (·.thread .callee)) ftraceEvents)
          (c.emitted w (runs.map (·.thread .caller)) ftraceEvents) ↔
        ∀ r ∈ runs, c.selects (r.thread .callee) → Consistent traced name r.events r.start)) := by
  have hagree : (∀ r ∈ runs, c.selects (r.thread .callee) → Consistent traced name r.events r.start) →
      c.emitted w (runs.map (·.thread .callee)) ftraceEvents =
        c.emitted w (runs.map (·.thread .caller)) ftraceEvents := by
    intro hcons
    rw [h.emitted_eq, h.emitted_eq]
    refine List.map_congr_left fun r hr => ?_
    split_ifs with hsel
    · rw [MixedRun.calls_consistent hname (hcons r hr hsel)]
    · rfl
  refine ⟨hagree, fun hfreq hstrict => ⟨fun hsame r hr hsel => ?_, fun hcons => ?_⟩⟩
  · exact h.consistent_of_sameEvents hname hfreq hsame hr hsel (hstrict r hr hsel)
  · rw [hagree hcons]
    exact List.forall₂_same.2 fun l _ x => Iff.rfl

end

/-! ## Two runs of the small program -/

/-- The functions of the small program. -/
inductive DemoFunction where
  | f
  | g
  | h
  | thunk
deriving DecidableEq

namespace DemoFunction

/-- Their names in the symbol table. -/
def name : DemoFunction → String
  | f => "f()"
  | g => "g()"
  | h => "h()"
  | thunk => "virtual override thunk to g()"

/-- Only `f` and `g` are traced. -/
def traced : DemoFunction → Bool
  | f => true
  | g => true
  | h => false
  | thunk => false

/-- Their addresses in the process. -/
def address : DemoFunction → UInt64
  | f => 0x1100
  | g => 0x1200
  | h => 0x1300
  | thunk => 0x1400

theorem name_injective : Function.Injective name := by
  intro a b hab
  cases a <;> cases b <;> first | rfl | (revert hab; decide)

/-- A call of one of them. -/
def call (a : DemoFunction) (cycle : UInt64) : MixedEvent DemoFunction := .call a ⟨a.address, cycle⟩

/-- A return from `a` to `b`. -/
def ret (a b : DemoFunction) (cycle : UInt64) : MixedEvent DemoFunction :=
  .ret (.traced a.address returnFlag cycle) (.traced b.address returnWithCallerAddressFlag cycle)

theorem call_address (a : DemoFunction) : FunTraceEntry.isCall ⟨a.address, 0⟩ ∧
    nameOf (demoConverter.symbols demoWorld) ⟨a.address, 0⟩ = a.name := by
  cases a <;> decide +kernel

theorem ret_address (a : DemoFunction) :
    ((FunTraceEntry.traced a.address returnFlag 0).isRet ∧
      (FunTraceEntry.traced a.address returnFlag 0).isRetWithCallerAddr = false ∧
      nameOf (demoConverter.symbols demoWorld) (.traced a.address returnFlag 0) = a.name) ∧
    (FunTraceEntry.traced a.address returnWithCallerAddressFlag 0).isRet ∧
      (FunTraceEntry.traced a.address returnWithCallerAddressFlag 0).isRetWithCallerAddr = true ∧
      nameOf (demoConverter.symbols demoWorld) (.traced a.address returnWithCallerAddressFlag 0) =
        a.name := by
  cases a <;> decide +kernel

theorem legal_call (a : DemoFunction) (cycle : UInt64) (S : List DemoFunction) :
    (call a cycle).Legal traced (demoConverter.symbols demoWorld) name S :=
  fun _ => call_address a

theorem legal_ret (a b : DemoFunction) (cycle : UInt64) (S : List DemoFunction) :
    (ret a b cycle).Legal traced (demoConverter.symbols demoWorld) name (a :: b :: S) :=
  ⟨a, b, S, rfl, fun _ => ⟨(ret_address a).1, (ret_address b).2, rfl⟩⟩

/-- `h` calls `f`, which calls `g` through a function that is not traced. -/
def run (through : DemoFunction) : List (MixedEvent DemoFunction) :=
  [call f 10, call through 15, call g 20, ret g through 30, ret through f 35, ret f h 40]

theorem legal_run (through : DemoFunction) :
    LegalMixed traced (demoConverter.symbols demoWorld) name (run through) [h] :=
  ⟨legal_call _ _ _, legal_call _ _ _, legal_call _ _ _, legal_ret _ _ _ _, legal_ret _ _ _ _,
    legal_ret _ _ _ _, trivial⟩

/-- A run in which `g` is called through this function. -/
def mixedRun (through : DemoFunction) :
    MixedRun traced (demoConverter.symbols demoWorld) name where
  threadId := ⟨1, 1, Vector.replicate 16 0⟩
  start := [h]
  events := run through
  untraced := by decide
  legal := legal_run through
  nonempty m := by simp [run, call, mixedLog, MixedEvent.logged, traced]

end DemoFunction

open DemoFunction in
theorem unaged_demo (through : DemoFunction) (h : through.traced = false) :
    demoConverter.Unaged demoWorld [mixedRun through] [] where
  ready := by
    refine ⟨⟨?_, ?_, ?_, ?_⟩, ?_, ?_⟩
    · exact List.pairwise_singleton _ _
    · intro path elf hcache
      cases hcache
    · intro path hmissing
      cases hmissing
    · intro start off hoff
      cases hoff
    · intro m hm n hn _
      exact (List.mem_singleton.1 hm).trans (List.mem_singleton.1 hn).symm
    · intro a s hs
      cases hs
  fresh _ _ := rfl
  recent := by
    intro r hr _
    obtain rfl := List.mem_singleton.1 hr
    cases through with
    | f => cases h
    | g => cases h
    | h => decide +kernel
    | thunk => decide +kernel

open DemoFunction in
theorem strict_demo {through : DemoFunction} (h : through.traced = false) : (mixedRun through).Strict := by
  cases through with
  | f => cases h
  | g => cases h
  | h => exact ⟨by decide +kernel, by decide +kernel⟩
  | thunk => exact ⟨by decide +kernel, by decide +kernel⟩

open DemoFunction in
/-- Through an ordinary function. -/
theorem agree_iff_demo : demoConverter.emitted demoWorld [(mixedRun h).thread .callee] [] =
    demoConverter.emitted demoWorld [(mixedRun h).thread .caller] [] := by
  refine (agree_iff (unaged_demo h rfl) name_injective).1 fun r hr _ => ?_
  obtain rfl := List.mem_singleton.1 hr
  refine ⟨trivial, trivial, trivial, ?_, ?_, ?_, trivial⟩
  · rintro f' g' S ⟨⟩ -
    decide
  · rintro f' g' S ⟨⟩ hf
    cases hf
  · rintro f' g' S ⟨⟩ -
    decide

open DemoFunction in
/-- Through a thunk: the return to it is ignored if it has the caller's address. -/
theorem not_agree : Function.Injective name ∧ (mixedRun thunk).Strict ∧
    (∀ e ∈ ((mixedRun thunk).thread .callee).trace,
      demoConverter.oldestEvent [(mixedRun thunk).thread .callee] [] ≤ e.cycle) ∧
    ¬ SameEvents (demoConverter.emitted demoWorld [(mixedRun thunk).thread .callee] [])
      (demoConverter.emitted demoWorld [(mixedRun thunk).thread .caller] []) := by
  have hunaged := unaged_demo thunk rfl
  have hmem : mixedRun thunk ∈ [mixedRun thunk] := List.mem_singleton_self _
  refine ⟨name_injective, strict_demo rfl, hunaged.recent _ hmem rfl, fun hsame => ?_⟩
  have hcons := hunaged.consistent_of_sameEvents name_injective (by decide) hsame hmem rfl (strict_demo rfl)
  obtain ⟨-, -, -, hfair, -⟩ := hcons
  exact absurd (hfair _ _ _ rfl rfl) (by decide)

end TraceConverter

end Funtrace
