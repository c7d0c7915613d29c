/-
  The differences of timestamps that the decoder computes.

  `sampleSubtractions` has the operands of every subtraction of timestamps that is
  made for a sample.  None of them wraps around just if the maximal age is no larger
  than some timestamp, and no ftrace line is too old (`timesInOrder_iff`): these are
  shifted by the time base before they are dropped.
-/
import Funtrace.Proof.FtraceLines
import Funtrace.Viz.Events

namespace Funtrace

/-! ## Subtractions -/

/-- The operands of a subtraction. -/
abbrev Subtraction := UInt64 × UInt64

/-- The subtractions of `write_function_call_event`. -/
def FunctionCall.subtractions (timeBase : UInt64) (call : FunctionCall) : List Subtraction :=
  if call.isComplete then [(call.callCycle, timeBase), (call.returnCycle, call.callCycle)] else []

namespace TraceConverter
variable (w : World) (c : TraceConverter) (sampleEntries : List ThreadTrace)
  (ftraceEvents : List FtraceEvent)

/-- `youngest` in `oldest_event`. -/
def youngestEvent : UInt64 :=
  let ts := sampleEntries.filter c.selects
  let youngest := ts.foldl (fun y t => max (t.trace.getLast t.nonempty).cycle y) 0
  (ftraceEvents.getLast?.map fun e => max e.timestamp youngest).getD youngest

/-- The subtraction of `oldest_event`. -/
def ageSubtractions : List Subtraction :=
  match c.args.maxEventAge with
  | some maxAge => [(c.youngestEvent sampleEntries ftraceEvents, maxAge)]
  | none => []

/-- The subtractions of the second pass over the ftrace lines. -/
def shiftSubtractions (timeBase : UInt64) : List Subtraction :=
  if 0 < timeBase then ftraceEvents.map fun e => (e.timestamp, timeBase) else []

/-- The subtractions made for a thread: those of its calls, and those of what is printed last. -/
def threadSubtractions (oldest timeBase : UInt64) (t : ThreadTrace) (calls : List FunctionCall) :
    List Subtraction :=
  let earliest := max (t.trace.head t.nonempty).cycle oldest
  let latest := (t.trace.getLast t.nonempty).cycle
  if c.selects t then
    (if c.args.dry then [] else calls.flatMap (FunctionCall.subtractions timeBase)) ++
      if earliest ≤ latest then [(latest, earliest), (earliest, timeBase), (latest, timeBase)] else []
  else []

/-- The subtractions of what is printed about ftrace events. -/
def printSubtractions (timeBase : UInt64) (reported : List FtraceEvent) : List Subtraction :=
  match reported.head?, reported.getLast? with
  | some oldest, some newest => [(newest.timestamp, oldest.timestamp),
      (oldest.timestamp, timeBase), (newest.timestamp, timeBase)]
  | _, _ => []

/-- All subtractions of timestamps that `write_sample_to_json` makes. -/
def sampleSubtractions (ftraceText : String) : Option (List Subtraction) := do
  let raw ← c.rawFtrace ftraceText
  let (oldest, timeBase) := c.thresholds sampleEntries raw
  let shifted ← { c with timeBase }.shiftedFtrace ftraceText raw
  let calls := c.sampleCalls w sampleEntries raw
  return c.ageSubtractions sampleEntries raw ++ shiftSubtractions raw timeBase ++
    (sampleEntries.zip calls).flatMap (fun p => c.threadSubtractions oldest timeBase p.1 p.2) ++
    if c.args.dry then []
    else printSubtractions timeBase (shifted.filter fun e => oldest ≤ e.timestamp)

/-! ## The youngest event -/

/-- The times of the events that are looked at. -/
def eventTimes : List UInt64 :=
  (sampleEntries.filter c.selects).flatMap (fun t => t.trace.map (·.cycle)) ++
    ftraceEvents.map (·.timestamp)

end TraceConverter

theorem toNat_max_le {a b : UInt64} {B : ℕ} : (max a b).toNat ≤ B ↔ a.toNat ≤ B ∧ b.toNat ≤ B := by
  rcases max_cases a b with ⟨hm, hle⟩ | ⟨hm, hle⟩ <;> rw [hm] <;>
    have hnat := UInt64.le_iff_toNat_le.1 hle
  · exact ⟨fun h => ⟨h, by omega⟩, And.left⟩
  · exact ⟨fun h => ⟨by omega, h⟩, And.right⟩

theorem toNat_foldl_max_le {α : Type} (f : α → UInt64) {B : ℕ} : ∀ (l : List α) (x : UInt64),
    (l.foldl (fun y a => max (f a) y) x).toNat ≤ B ↔ x.toNat ≤ B ∧ ∀ a ∈ l, (f a).toNat ≤ B
  | [], x => by simp
  | a :: l, x => by
    rw [List.foldl_cons, toNat_foldl_max_le f l, toNat_max_le, List.forall_mem_cons]
    exact ⟨fun ⟨⟨ha, hx⟩, hl⟩ => ⟨hx, ha, hl⟩, fun ⟨hx, ha, hl⟩ => ⟨⟨ha, hx⟩, hl⟩⟩

/-- The last of a sorted list bounds it. -/
theorem getLast_le_iff {α : Type} {f : α → UInt64} {l : List α} (hl : l.Pairwise (f · ≤ f ·))
    (hne : l ≠ []) {B : ℕ} : (f (l.getLast hne)).toNat ≤ B ↔ ∀ a ∈ l, (f a).toNat ≤ B := by
  constructor
  · intro h a ha
    have hsplit := List.dropLast_append_getLast hne
    rw [← hsplit] at ha hl
    rcases List.mem_append.1 ha with ha | ha
    · have hle := (List.pairwise_append.1 hl).2.2 a ha _ (List.mem_singleton_self _)
      exact Nat.le_trans (UInt64.le_iff_toNat_le.1 hle) h
    · rw [List.mem_singleton.1 ha]
      exact h
  · exact fun h => h _ (List.getLast_mem hne)

/-- Threads and ftrace lines are in the order of their times. -/
structure SampleSorted (sampleEntries : List ThreadTrace) (ftraceEvents : List FtraceEvent) :
    Prop where
  threads : ∀ t ∈ sampleEntries, t.trace.Pairwise (·.cycle ≤ ·.cycle)
  ftrace : ftraceEvents.Pairwise (·.timestamp ≤ ·.timestamp)

namespace TraceConverter
variable {w : World} {c : TraceConverter} {sampleEntries : List ThreadTrace}
  {ftraceEvents : List FtraceEvent}

/-- **The youngest event** is as young as any. -/
theorem youngestEvent_le_iff (h : SampleSorted sampleEntries ftraceEvents) {B : ℕ} :
    (c.youngestEvent sampleEntries ftraceEvents).toNat ≤ B ↔
      ∀ time ∈ c.eventTimes sampleEntries ftraceEvents, time.toNat ≤ B := by
  have hthreads : ((sampleEntries.filter c.selects).foldl
      (fun (y : UInt64) (t : ThreadTrace) => max (t.trace.getLast t.nonempty).cycle y) 0).toNat ≤ B ↔
      ∀ t ∈ sampleEntries.filter c.selects, ∀ e ∈ t.trace, e.cycle.toNat ≤ B := by
    rw [toNat_foldl_max_le fun t : ThreadTrace => (t.trace.getLast t.nonempty).cycle]
    refine (and_iff_right (Nat.zero_le _)).trans (forall₂_congr fun t ht => ?_)
    exact getLast_le_iff (f := FunTraceEntry.cycle) (h.threads t (List.mem_of_mem_filter ht)) t.nonempty
  have htimes : (∀ time ∈ c.eventTimes sampleEntries ftraceEvents, time.toNat ≤ B) ↔
      (∀ t ∈ sampleEntries.filter c.selects, ∀ e ∈ t.trace, e.cycle.toNat ≤ B) ∧
        ∀ e ∈ ftraceEvents, e.timestamp.toNat ≤ B := by
    simp only [eventTimes, List.mem_append, List.mem_flatMap, List.mem_map]
    constructor
    · intro h
      exact ⟨fun t ht e he => h _ (Or.inl ⟨t, ht, e, he, rfl⟩), fun e he => h _ (Or.inr ⟨e, he, rfl⟩)⟩
    · rintro ⟨hts, hes⟩ time (⟨t, ht, e, he, rfl⟩ | ⟨e, he, rfl⟩)
      exacts [hts t ht e he, hes e he]
  rw [htimes, ← hthreads, youngestEvent]
  by_cases hne : ftraceEvents = []
  · simp [hne]
  · rw [List.getLast?_eq_getLast_of_ne_nil hne, Option.map_some, Option.getD_some, toNat_max_le,
      getLast_le_iff (f := FtraceEvent.timestamp) h.ftrace, and_comm]

theorem oldestEvent_of_maxAge {maxAge : UInt64} (h : c.args.maxEventAge = some maxAge) :
    c.oldestEvent sampleEntries ftraceEvents =
      c.youngestEvent sampleEntries ftraceEvents - maxAge := by
  simp only [oldestEvent, h, youngestEvent]

theorem oldestEvent_of_oldestTime {time : UInt64} (h : c.args.maxEventAge = none)
    (htime : c.args.oldestEventTime = some time) :
    c.oldestEvent sampleEntries ftraceEvents = time := by
  simp only [oldestEvent, h, htime]

/-- Without options no ftrace event is too old. -/
theorem oldestEvent_le_timestamp (hsorted : SampleSorted sampleEntries ftraceEvents)
    (h : c.args.maxEventAge = none) (htime : c.args.oldestEventTime = none) {e : FtraceEvent}
    (he : e ∈ ftraceEvents) : c.oldestEvent sampleEntries ftraceEvents ≤ e.timestamp := by
  have hne := List.ne_nil_of_mem he
  simp only [oldestEvent, h, htime, List.head?_eq_some_head hne, Option.map_some, Option.getD_some]
  exact UInt64.le_trans (min_le_left _ _)
    (head_le_of_sorted (f := FtraceEvent.timestamp) hsorted.ftrace hne he)

end TraceConverter

/-! ## The calls of a thread -/

section
variable {sym : UInt64 → SymInfo} {lo earliest latest cycle : UInt64}

/-- A call that begins at a time or later, and does not end before it begins. -/
def FunctionCall.Forward (lo : UInt64) (c : FunctionCall) : Prop :=
  lo ≤ c.callCycle ∧ c.callCycle ≤ c.returnCycle

theorem forward_popCalls {fs : List FunTraceEntry} :
    ∀ {n : ℤ}, (∀ f ∈ fs, lo ≤ f.cycle ∧ f.cycle ≤ cycle) →
      ∀ c ∈ popCalls sym cycle n fs, c.Forward lo := by
  induction fs with
  | nil => simp [popCalls]
  | cons f fs ih =>
    intro n hfs c hc
    rw [popCalls] at hc
    rcases List.mem_cons.1 hc with rfl | hc
    · exact hfs f List.mem_cons_self
    · exact ih (fun f hf => hfs f (List.mem_cons_of_mem _ hf)) c hc

/-- The calls made for an entry that is no older than the frames. -/
theorem forward_handle {d : Dec} {e : FunTraceEntry}
    (hstack : ∀ f ∈ d.stack, lo ≤ f.cycle ∧ f.cycle ≤ e.cycle) (hlo : lo ≤ earliest)
    (he : earliest ≤ e.cycle) : ∀ c ∈ (handle sym earliest d e).2, c.Forward lo := by
  intro c hc
  cases hcall : e.isCall with
  | true =>
    rw [handle_call _ _ hcall] at hc
    cases hc
  | false =>
    by_cases hd : e.isRet ∧ d.stack = []
    · obtain ⟨s, hcalls⟩ := handle_orphan_calls sym earliest hd.1 hd.2
      rw [hcalls] at hc
      rw [List.mem_singleton.1 hc]
      exact ⟨hlo, he⟩
    · rw [(handle_pop earliest hcall fun hr h => hd ⟨hr, h⟩).2.2] at hc
      have hpop := (List.mem_append.1 hc).elim id mem_popCalls_of_repeated
      exact forward_popCalls (fun f hf => hstack f (List.mem_of_mem_take hf)) c hpop

theorem forward_decodeReported {es : List FunTraceEntry} (hes : es.Pairwise (·.cycle ≤ ·.cycle))
    (hlo : lo ≤ earliest) (hrange : ∀ e ∈ es, earliest ≤ e.cycle ∧ e.cycle ≤ latest) :
    ∀ c ∈ decodeReported sym earliest latest es, c.Forward lo := by
  intro c hc
  have hle : ∀ e ∈ es, lo ≤ e.cycle := fun e he => UInt64.le_trans hlo (hrange e he).1
  rw [decodeReported, fakeReturns_eq] at hc
  rcases List.mem_append.1 hc with hc | hc
  · rw [runEntries_calls] at hc
    obtain ⟨s, hs, hstep⟩ := List.mem_flatMap.1 hc
    obtain ⟨pre, post, rfl, hstate⟩ := mem_runSteps.1 hs
    refine forward_handle (fun f hf => ?_) hlo (hrange s.2 (by simp)).1 c hstep
    rw [hstate] at hf
    have hf := mem_of_mem_stack hf
    exact ⟨hle f (by simp [hf]), (List.pairwise_append.1 hes).2.2 f hf s.2 List.mem_cons_self⟩
  · have hframes : ∀ f ∈ (runEntries sym earliest Dec.init es).1.stack,
        lo ≤ f.cycle ∧ f.cycle ≤ latest := by
      intro f hf
      have hf := mem_of_mem_stack hf
      exact ⟨hle f hf, (hrange f hf).2⟩
    exact forward_popCalls hframes c (List.mem_reverse.1 hc)

end

/-! ## No subtraction wraps around -/

namespace TraceConverter

/-- Which options and times go together: the maximal age is no larger than some time, and no
    ftrace event is too old, unless timestamps are not shifted. -/
structure AgesInRange (c : TraceConverter) (sampleEntries : List ThreadTrace)
    (ftraceEvents : List FtraceEvent) : Prop where
  age : ∀ maxAge, c.args.maxEventAge = some maxAge →
    (∃ time ∈ c.eventTimes sampleEntries ftraceEvents, maxAge ≤ time) ∧
      (c.args.rawTimestamps = true ∨ ∀ e ∈ ftraceEvents,
        ∀ time ∈ c.eventTimes sampleEntries ftraceEvents,
          time.toNat ≤ e.timestamp.toNat + maxAge.toNat)
  since : ∀ oldest, c.args.maxEventAge = none → c.args.oldestEventTime = some oldest →
    c.args.rawTimestamps = true ∨ ∀ e ∈ ftraceEvents, oldest ≤ e.timestamp

/-- Minuends are at least subtrahends, and a maximal age is heeded: an event is reported if it is
    no more than this older than any other. -/
structure TimesInOrder (w : World) (c : TraceConverter) (sampleEntries : List ThreadTrace)
    (ftraceText : String) (ftraceEvents : List FtraceEvent) : Prop where
  subtractions : ∃ l, c.sampleSubtractions w sampleEntries ftraceText = some l ∧
    ∀ s ∈ l, s.2 ≤ s.1
  entries : ∀ maxAge, c.args.maxEventAge = some maxAge →
    ∀ t ∈ sampleEntries, c.selects t → ∀ e ∈ t.trace,
      e.addr ∉ (c.sampleLookup w sampleEntries ftraceEvents).ignoreAddrs →
      ((c.sampleLookup w sampleEntries ftraceEvents).reports
          (c.oldestEvent sampleEntries ftraceEvents) e = true ↔
        ∀ time ∈ c.eventTimes sampleEntries ftraceEvents, time.toNat ≤ e.cycle.toNat + maxAge.toNat)
  ftrace : ∀ maxAge, c.args.maxEventAge = some maxAge → ∀ e ∈ ftraceEvents,
    (c.oldestEvent sampleEntries ftraceEvents ≤ e.timestamp ↔
      ∀ time ∈ c.eventTimes sampleEntries ftraceEvents,
        time.toNat ≤ e.timestamp.toNat + maxAge.toNat)

variable {w : World} {c : TraceConverter} {sampleEntries : List ThreadTrace}
  {ftraceEvents : List FtraceEvent} {ftraceText : String}

/-- The maximal age is no larger than some time if it is no larger than the youngest. -/
theorem exists_maxAge_le (h : SampleSorted sampleEntries ftraceEvents)
    (hleft : c.eventTimes sampleEntries ftraceEvents ≠ []) {maxAge : UInt64} :
    (∃ time ∈ c.eventTimes sampleEntries ftraceEvents, maxAge ≤ time) ↔
      maxAge ≤ c.youngestEvent sampleEntries ftraceEvents := by
  have hyoungest := fun B : ℕ => youngestEvent_le_iff (c := c) h (B := B)
  constructor
  · rintro ⟨time, htime, hle⟩
    have htop := (hyoungest _).1 (Nat.le_refl _) time htime
    exact UInt64.le_trans hle (UInt64.le_iff_toNat_le.2 htop)
  · intro hle
    by_contra hnone
    have hbelow : ∀ time ∈ c.eventTimes sampleEntries ftraceEvents, time.toNat < maxAge.toNat := by
      intro time htime
      by_contra hge
      exact hnone ⟨time, htime, UInt64.le_iff_toNat_le.2 (Nat.le_of_not_lt hge)⟩
    obtain ⟨time, htime⟩ := List.exists_mem_of_ne_nil _ hleft
    have hpos := hbelow time htime
    have htop := (hyoungest (maxAge.toNat - 1)).2 fun time htime => by
      have := hbelow time htime
      omega
    have := UInt64.le_iff_toNat_le.1 hle
    omega

/-- An event is not too old if it is in the maximal age of every other. -/
theorem oldestEvent_le_iff (h : SampleSorted sampleEntries ftraceEvents) {maxAge time : UInt64}
    (hage : c.args.maxEventAge = some maxAge)
    (hle : maxAge ≤ c.youngestEvent sampleEntries ftraceEvents) :
    c.oldestEvent sampleEntries ftraceEvents ≤ time ↔
      ∀ time' ∈ c.eventTimes sampleEntries ftraceEvents,
        time'.toNat ≤ time.toNat + maxAge.toNat := by
  have hnat := UInt64.le_iff_toNat_le.1 hle
  rw [oldestEvent_of_maxAge hage, ← youngestEvent_le_iff h, UInt64.le_iff_toNat_le,
    UInt64.toNat_sub_of_le _ _ hle]
  omega

/-- **No ftrace event is too old** to be shifted, under the condition. -/
theorem AgesInRange.timeBase_le (h : c.AgesInRange sampleEntries ftraceEvents)
    (hsorted : SampleSorted sampleEntries ftraceEvents)
    (hleft : c.eventTimes sampleEntries ftraceEvents ≠ []) {e : FtraceEvent}
    (he : e ∈ ftraceEvents) : (c.thresholds sampleEntries ftraceEvents).2 ≤ e.timestamp := by
  simp only [thresholds]
  split_ifs with hrawTs
  · exact UInt64.zero_le
  cases hage : c.args.maxEventAge with
  | some maxAge =>
    obtain ⟨hsome, hold⟩ := h.age maxAge hage
    refine (oldestEvent_le_iff hsorted hage ((exists_maxAge_le hsorted hleft).1 hsome)).2 ?_
    exact hold.resolve_left hrawTs e he
  | none =>
    cases htime : c.args.oldestEventTime with
    | some oldest =>
      rw [oldestEvent_of_oldestTime hage htime]
      exact (h.since oldest hage htime).resolve_left hrawTs e he
    | none => exact oldestEvent_le_timestamp hsorted hage htime he

/-- The subtractions made for a thread. -/
theorem threadSubtractions_le {t : ThreadTrace} (ht : t.trace.Pairwise (·.cycle ≤ ·.cycle))
    {l : Lookup} {oldest timeBase : UInt64} (hbase : timeBase ≤ oldest) :
    ∀ s ∈ c.threadSubtractions oldest timeBase t (c.threadCalls l oldest t), s.2 ≤ s.1 := by
  intro s hs
  by_cases hsel : c.selects t
  swap
  · simp [threadSubtractions, hsel] at hs
  have hearliest := UInt64.le_trans hbase (right_le_max (t.trace.head t.nonempty).cycle oldest)
  simp only [threadSubtractions, if_pos hsel] at hs
  rcases List.mem_append.1 hs with hs | hs
  · -- the calls that are written
    split_ifs at hs with hdry
    · cases hs
    obtain ⟨call, hcall, hs⟩ := List.mem_flatMap.1 hs
    rw [threadCalls, if_pos hsel] at hcall
    have hforward : call.Forward timeBase := by
      refine forward_decodeReported (ht.sublist List.filter_sublist) hearliest (fun e he => ?_) call hcall
      obtain ⟨he, hrep⟩ := List.mem_filter.1 he
      have hold : oldest ≤ e.cycle := by
        simp only [Lookup.reports, Bool.and_eq_true, Bool.not_eq_true', decide_eq_false_iff_not,
          gt_iff_lt, UInt64.not_lt] at hrep
        exact hrep.1
      have hhead := head_le_of_sorted (f := FunTraceEntry.cycle) ht t.nonempty he
      refine ⟨max_le_of_le hhead hold, UInt64.le_iff_toNat_le.2 ?_⟩
      exact (getLast_le_iff (f := FunTraceEntry.cycle) ht t.nonempty).1 (Nat.le_refl _) e he
    unfold FunctionCall.subtractions at hs
    split_ifs at hs
    · simp only [List.mem_cons, List.not_mem_nil, or_false] at hs
      rcases hs with rfl | rfl
      exacts [hforward.1, hforward.2]
    · cases hs
  · split_ifs at hs with hle
    · simp only [List.mem_cons, List.not_mem_nil, or_false] at hs
      rcases hs with rfl | rfl | rfl
      exacts [hle, hearliest, UInt64.le_trans hearliest hle]
    · cases hs

theorem printSubtractions_le {timeBase : UInt64} {reported : List FtraceEvent}
    (h : reported.Pairwise (·.timestamp ≤ ·.timestamp))
    (hbase : ∀ e ∈ reported, timeBase ≤ e.timestamp) :
    ∀ s ∈ printSubtractions timeBase reported, s.2 ≤ s.1 := by
  by_cases hne : reported = []
  · simp [printSubtractions, hne]
  · intro s hs
    simp only [printSubtractions, List.head?_eq_some_head hne, List.getLast?_eq_getLast_of_ne_nil hne,
      List.mem_cons, List.not_mem_nil, or_false] at hs
    rcases hs with rfl | rfl | rfl
    · exact head_le_of_sorted (f := FtraceEvent.timestamp) h hne (List.getLast_mem hne)
    · exact hbase _ (List.head_mem hne)
    · exact hbase _ (List.getLast_mem hne)

theorem zip_sampleCalls : sampleEntries.zip (c.sampleCalls w sampleEntries ftraceEvents) =
    sampleEntries.map fun t => (t, c.threadCalls (c.sampleLookup w sampleEntries ftraceEvents)
      (c.oldestEvent sampleEntries ftraceEvents) t) := by
  rw [sampleCalls_eq, List.zip_eq_zipWith, List.zipWith_map_right, List.zipWith_self]

variable (w sampleEntries) in
/-- The subtractions of a sample whose ftrace lines have been parsed. -/
theorem sampleSubtractions_eq (hraw : c.rawFtrace ftraceText = some ftraceEvents) :
    ∃ shifted : List FtraceEvent,
      shifted.map FtraceEvent.timestamp = ftraceEvents.map FtraceEvent.timestamp ∧
      c.sampleSubtractions w sampleEntries ftraceText = some
        (c.ageSubtractions sampleEntries ftraceEvents ++
          shiftSubtractions ftraceEvents (c.thresholds sampleEntries ftraceEvents).2 ++
          (sampleEntries.zip (c.sampleCalls w sampleEntries ftraceEvents)).flatMap (fun p =>
            c.threadSubtractions (c.oldestEvent sampleEntries ftraceEvents)
              (c.thresholds sampleEntries ftraceEvents).2 p.1 p.2) ++
          if c.args.dry then []
          else printSubtractions (c.thresholds sampleEntries ftraceEvents).2
            (shifted.filter fun e => c.oldestEvent sampleEntries ftraceEvents ≤ e.timestamp)) := by
  obtain ⟨shifted, hshifted, htimes⟩ := timestamps_shiftedFtrace
    (c := { c with timeBase := (c.thresholds sampleEntries ftraceEvents).2 }) hraw
  refine ⟨shifted, htimes, ?_⟩
  rw [sampleSubtractions, hraw]
  exact congrArg (Option.bind · _) hshifted

theorem AgesInRange.subtractions (h : c.AgesInRange sampleEntries ftraceEvents)
    (hsorted : SampleSorted sampleEntries ftraceEvents)
    (hraw : c.rawFtrace ftraceText = some ftraceEvents)
    (hleft : c.eventTimes sampleEntries ftraceEvents ≠ []) :
    ∃ l, c.sampleSubtractions w sampleEntries ftraceText = some l ∧ ∀ s ∈ l, s.2 ≤ s.1 := by
  have hbase := timeBase_le_oldest c sampleEntries ftraceEvents
  obtain ⟨shifted, htimes, hall⟩ :=
    sampleSubtractions_eq w sampleEntries hraw
  refine ⟨_, hall, fun s hs => ?_⟩
  rcases List.mem_append.1 hs with hs | hs
  · rcases List.mem_append.1 hs with hs | hs
    · rcases List.mem_append.1 hs with hs | hs
      · unfold ageSubtractions at hs
        split at hs
        · next maxAge hage =>
          rw [List.mem_singleton.1 hs]
          exact (exists_maxAge_le hsorted hleft).1 (h.age maxAge hage).1
        · cases hs
      · unfold shiftSubtractions at hs
        split_ifs at hs
        · obtain ⟨e, he, rfl⟩ := List.mem_map.1 hs
          exact h.timeBase_le hsorted hleft he
        · cases hs
    · rw [zip_sampleCalls] at hs
      obtain ⟨p, hp, hs⟩ := List.mem_flatMap.1 hs
      obtain ⟨t, ht, rfl⟩ := List.mem_map.1 hp
      exact threadSubtractions_le (hsorted.threads t ht) hbase s hs
  · split_ifs at hs
    · cases hs
    · have hpairwise := List.pairwise_map.2 hsorted.ftrace
      rw [← htimes] at hpairwise
      refine printSubtractions_le ((List.pairwise_map.1 hpairwise).sublist List.filter_sublist)
        (fun e he => UInt64.le_trans hbase ?_) s hs
      simpa using (List.mem_filter.1 he).2

/-- **Times do not wrap around** under the condition, and only under it. -/
theorem timesInOrder_iff (hsorted : SampleSorted sampleEntries ftraceEvents)
    (hraw : c.rawFtrace ftraceText = some ftraceEvents)
    (hleft : c.eventTimes sampleEntries ftraceEvents ≠ []) :
    c.TimesInOrder w sampleEntries ftraceText ftraceEvents ↔
      c.AgesInRange sampleEntries ftraceEvents := by
  constructor
  · intro h
    obtain ⟨l, hl, hle⟩ := h.subtractions
    obtain ⟨shifted, -, hall⟩ :=
      sampleSubtractions_eq w sampleEntries hraw
    obtain rfl := Option.some.inj (hl.symm.trans hall)
    have hage : ∀ s ∈ c.ageSubtractions sampleEntries ftraceEvents, s.2 ≤ s.1 := fun s hs =>
      hle s (by simp [hs])
    have hshift : ∀ s ∈ shiftSubtractions ftraceEvents (c.thresholds sampleEntries ftraceEvents).2,
        s.2 ≤ s.1 := fun s hs => hle s (by simp [hs])
    -- what is shifted is not older than the threshold
    have hold : c.args.rawTimestamps = true ∨ ∀ e ∈ ftraceEvents,
        c.oldestEvent sampleEntries ftraceEvents ≤ e.timestamp := by
      refine or_iff_not_imp_left.2 fun hrawTs e he => ?_
      have hbase : (c.thresholds sampleEntries ftraceEvents).2 =
          c.oldestEvent sampleEntries ftraceEvents := if_neg hrawTs
      rw [hbase, shiftSubtractions] at hshift
      split_ifs at hshift with hpos
      · exact hshift _ (List.mem_map_of_mem he)
      · exact UInt64.le_trans (UInt64.not_lt.1 hpos) UInt64.zero_le
    refine ⟨fun maxAge hmax => ?_, fun oldest hmax htime => ?_⟩
    · have hyoungest : maxAge ≤ c.youngestEvent sampleEntries ftraceEvents :=
        hage (c.youngestEvent sampleEntries ftraceEvents, maxAge) (by simp [ageSubtractions, hmax])
      refine ⟨(exists_maxAge_le hsorted hleft).2 hyoungest, hold.imp_right fun hold e he => ?_⟩
      exact (oldestEvent_le_iff hsorted hmax hyoungest).1 (hold e he)
    · rw [oldestEvent_of_oldestTime hmax htime] at hold
      exact hold
  · intro h
    have hyoungest := fun maxAge hmax => (exists_maxAge_le hsorted hleft).1 (h.age maxAge hmax).1
    refine ⟨h.subtractions hsorted hraw hleft, fun maxAge hmax t _ _ e _ hthunk => ?_,
      fun maxAge hmax e _ => oldestEvent_le_iff hsorted hmax (hyoungest maxAge hmax)⟩
    rw [← oldestEvent_le_iff hsorted hmax (hyoungest maxAge hmax)]
    simp [Lookup.reports, hthunk, UInt64.not_lt]

/-- The converter of `demoConverter` with a maximal age. -/
def agedConverter (maxAge : UInt64) : TraceConverter :=
  { demoConverter with args := { Cli.default with maxEventAge := some maxAge } }

/-- A call of `f()` from 100 to 120. -/
def agedThread : ThreadTrace := demoThread ⟨0x1100, 100⟩ [.traced 0x1100 returnFlag 120]

theorem rawFtrace_aged (maxAge : UInt64) : (agedConverter maxAge).rawFtrace "" = some [] := by
  have hlines : linesOf "".toList = [] := by decide +kernel
  rw [rawFtrace, parseFtraceLines, hlines]
  rfl

theorem sampleSorted_aged : SampleSorted [agedThread] [] where
  threads t ht := by
    rw [List.mem_singleton.1 ht]
    decide +kernel
  ftrace := List.Pairwise.nil

/-- A line of ftrace at 115. -/
def wakeLine : String := " f-1 [000] 115: wake"

/-- The event of the line. -/
def wakeEvents : List FtraceEvent := ((agedConverter 10).rawFtrace wakeLine).getD []

/-- By a maximal age of 10 the call at 100 is too old, and the event at 115 is not. -/
theorem timesInOrder_iff_demo : wakeEvents.map (·.timestamp) = [115] ∧
    (agedConverter 10).TimesInOrder demoWorld [agedThread] wakeLine wakeEvents := by
  have hraw : (agedConverter 10).rawFtrace wakeLine = some wakeEvents := by
    have hsome : ((agedConverter 10).rawFtrace wakeLine).isSome := by decide +kernel
    exact (Option.getD_of_ne_none (Option.ne_none_iff_isSome.2 hsome) []).symm
  have hsorted : SampleSorted [agedThread] wakeEvents :=
    ⟨sampleSorted_aged.threads, by decide +kernel⟩
  refine ⟨by decide +kernel, (timesInOrder_iff hsorted hraw (by decide +kernel)).2 ⟨?_, ?_⟩⟩
  · intro maxAge hmax
    obtain rfl : 10 = maxAge := Option.some.inj hmax
    have hyoung : (wakeEvents.all fun e =>
        ((agedConverter 10).eventTimes [agedThread] wakeEvents).all fun time =>
          decide (time.toNat ≤ e.timestamp.toNat + (10 : UInt64).toNat)) = true := by decide +kernel
    refine ⟨⟨115, by decide +kernel, by decide⟩, Or.inr fun e he time htime => ?_⟩
    exact of_decide_eq_true (List.all_eq_true.1 (List.all_eq_true.1 hyoung e he) time htime)
  · intro oldest hmax
    cases hmax

/-- All events are younger than the maximal age, and none is reported. -/
theorem not_timesInOrder : ¬ ∀ (c : TraceConverter) (sampleEntries : List ThreadTrace)
    (ftraceText : String) (ftraceEvents : List FtraceEvent),
    SampleSorted sampleEntries ftraceEvents → c.rawFtrace ftraceText = some ftraceEvents →
      c.eventTimes sampleEntries ftraceEvents ≠ [] →
        c.TimesInOrder demoWorld sampleEntries ftraceText ftraceEvents := by
  intro h
  obtain ⟨l, hl, hle⟩ := (h (agedConverter 200) [agedThread] "" [] sampleSorted_aged
    (rawFtrace_aged 200) (by decide +kernel)).subtractions
  have hwrap : ∀ l ∈ (agedConverter 200).sampleSubtractions demoWorld [agedThread] "",
      (l.all fun s => s.2 ≤ s.1) = false := by decide +kernel
  have hall : (l.all fun s => s.2 ≤ s.1) = true := List.all_eq_true.2 fun s hs => by simpa using hle s hs
  exact Bool.false_ne_true ((hwrap l hl).symm.trans hall)

end TraceConverter

end Funtrace
