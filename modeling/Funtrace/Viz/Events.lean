/-
  The events that a call of `write_function_call_event` stands for.

  * `place` puts a cycle on the time line of the JSON; the interval of a call goes
    from the place of its call cycle to that of its return cycle, but for the extra
    nanoseconds (`interval_eq`);
  * `TraceConverter.emitted` lists the complete events of a sample, and
    `writeSampleToJson_events` says that the JSON file has just these.
-/
import Mathlib.Tactic.Ring
import Mathlib.Tactic.Linarith
import Mathlib.Tactic.FieldSimp
import Funtrace.Viz.Sample

namespace Funtrace

/-! ## Times -/

/-- Where a cycle lies on the time line, in microseconds. -/
def place (cpuFreq timeBase cycle : UInt64) : ℚ :=
  (cycle - timeBase).toNat / FunctionCall.cyclesPerUs cpuFreq

section
variable {cpuFreq timeBase : UInt64}

theorem cyclesPerUs_pos (h : cpuFreq ≠ 0) : 0 < FunctionCall.cyclesPerUs cpuFreq := by
  have : 0 < cpuFreq.toNat := Nat.pos_of_ne_zero fun h' => h (UInt64.toNat_inj.1 h')
  exact div_pos (Nat.cast_pos.2 this) (by norm_num)

theorem place_eq {cycle : UInt64} (h : timeBase ≤ cycle) : place cpuFreq timeBase cycle =
    ((cycle.toNat : ℚ) - timeBase.toNat) / FunctionCall.cyclesPerUs cpuFreq := by
  rw [place, UInt64.toNat_sub_of_le _ _ h, Nat.cast_sub (UInt64.le_iff_toNat_le.1 h)]

theorem place_lt_iff (hfreq : cpuFreq ≠ 0) {c c' : UInt64} (h : timeBase ≤ c) (h' : timeBase ≤ c') :
    place cpuFreq timeBase c < place cpuFreq timeBase c' ↔ c < c' := by
  rw [place_eq h, place_eq h', div_lt_div_iff_of_pos_right (cyclesPerUs_pos hfreq),
    sub_lt_sub_iff_right, Nat.cast_lt, UInt64.lt_iff_toNat_lt]

theorem place_le_iff (hfreq : cpuFreq ≠ 0) {c c' : UInt64} (h : timeBase ≤ c) (h' : timeBase ≤ c') :
    place cpuFreq timeBase c ≤ place cpuFreq timeBase c' ↔ c ≤ c' := by
  rw [← not_lt, place_lt_iff hfreq h' h, UInt64.not_lt]

/-- The distance of two places. -/
theorem place_sub {c c' : UInt64} (h : timeBase ≤ c) (h' : c ≤ c') :
    place cpuFreq timeBase c' - place cpuFreq timeBase c =
      (c' - c).toNat / FunctionCall.cyclesPerUs cpuFreq := by
  rw [place_eq h, place_eq (UInt64.le_trans h h'), UInt64.toNat_sub_of_le _ _ h',
    Nat.cast_sub (UInt64.le_iff_toNat_le.1 h'), ← sub_div]
  congr 1
  ring

namespace FunctionCall

/-- **The interval of a call**: from its call to its return, but for the extra time. -/
theorem interval_eq {c : FunctionCall} (h : timeBase ≤ c.callCycle)
    (h' : c.callCycle ≤ c.returnCycle) : c.interval cpuFreq timeBase =
      (place cpuFreq timeBase c.callCycle - c.extraCall,
        place cpuFreq timeBase c.returnCycle + c.extraRet) := by
  have hsub := @place_sub cpuFreq timeBase _ _ h h'
  simp only [interval, ts, dur, ← hsub, Prod.mk.injEq]
  constructor
  · rfl
  · rw [← place]; ring

theorem toI32_of_lt {n : ℤ} (h : -2 ^ 31 ≤ n) (h' : n < 2 ^ 31) : toI32 n = n :=
  Int.bmod_eq_of_le (by omega) (by omega)

theorem i32AsU64_natCast (n : ℕ) (h : n < 2 ^ 31) : i32AsU64 n = n := by
  unfold i32AsU64; omega

/-- A nonnegative count of extra nanoseconds shifts the return. -/
theorem extra_of_nonneg {c : FunctionCall} {n : ℕ} (hn : c.extraNs = n) (h : n < 2 ^ 31) :
    c.extraCall = 0 ∧ c.extraRet = (n : ℚ) / 1000 := by
  have h32 : c.extraNs32 = n := by rw [extraNs32, hn]; exact toI32_of_lt (by omega) (by omega)
  rcases Nat.eq_zero_or_pos n with rfl | hpos
  · simp [extraCall, extraRet, h32, toI32, i32AsU64]
  · have hlt : (0 : ℤ) < n := by omega
    simp only [extraCall, extraRet, h32, if_pos hlt, i32AsU64_natCast n h, and_self]

/-- A negative one shifts the call. -/
theorem extra_of_neg {c : FunctionCall} {n : ℕ} (hn : c.extraNs = -(n : ℤ)) (h : n < 2 ^ 31) :
    c.extraCall = (n : ℚ) / 1000 ∧ c.extraRet = 0 := by
  have h32 : c.extraNs32 = -(n : ℤ) := by
    rw [extraNs32, hn]; exact toI32_of_lt (by omega) (by omega)
  have hneg : ¬ (0 : ℤ) < -(n : ℤ) := by omega
  have hback : toI32 (- -(n : ℤ)) = n := by rw [neg_neg]; exact toI32_of_lt (by omega) (by omega)
  simp only [extraCall, extraRet, h32, hneg, if_false, hback, i32AsU64_natCast n h, and_self]

/-- At `2 ^ 31` the counter wraps around and shifts the call by centuries. -/
theorem extra_of_wrapped {c : FunctionCall} (hn : c.extraNs = 2 ^ 31 ∨ c.extraNs = -2 ^ 31) :
    c.extraCall = (2 ^ 64 - 2 ^ 31) / 1000 ∧ c.extraRet = 0 := by
  have h32 : c.extraNs32 = -2 ^ 31 := by
    rcases hn with h | h <;> rw [extraNs32, h] <;> decide
  have hback : i32AsU64 (toI32 (- -2 ^ 31)) = 2 ^ 64 - 2 ^ 31 := by decide
  have hneg : ¬ (0 : ℤ) < -2 ^ 31 := by decide
  rw [extraCall, extraRet, h32, if_neg hneg, if_neg hneg, hback]
  norm_num

/-- One further down, the call's shift comes out as a shift of the return. -/
theorem extra_of_wrapped_neg {c : FunctionCall} (hn : c.extraNs = -(2 ^ 31 + 1)) :
    c.extraCall = 0 ∧ c.extraRet = (2 ^ 31 - 1) / 1000 := by
  have h32 : c.extraNs32 = 2 ^ 31 - 1 := by rw [extraNs32, hn]; decide
  have hpos : (0 : ℤ) < 2 ^ 31 - 1 := by decide
  have hcast : i32AsU64 (2 ^ 31 - 1) = 2 ^ 31 - 1 := by decide
  rw [extraCall, extraRet, h32, if_pos hpos, if_pos hpos, hcast]
  norm_num

end FunctionCall

variable (cpuFreq) in
/-- The interval of a popped frame. -/
theorem interval_pop {s : SymInfo} {f cycle : UInt64} {n : ℕ} (hf : timeBase ≤ f)
    (hcycle : f ≤ cycle) (hn : n < 2 ^ 31) :
    (⟨s, f, cycle, n⟩ : FunctionCall).interval cpuFreq timeBase =
      (place cpuFreq timeBase f, place cpuFreq timeBase cycle + n / 1000) := by
  obtain ⟨hcall, hret⟩ := @FunctionCall.extra_of_nonneg ⟨s, f, cycle, n⟩ n rfl hn
  rw [FunctionCall.interval_eq hf hcycle, hcall, hret, sub_zero]

end

/-- In a sorted thread the entries lie between the first and the last. -/
theorem ThreadTrace.head_le {t : ThreadTrace} (h : t.trace.Pairwise (·.cycle < ·.cycle))
    {e : FunTraceEntry} (he : e ∈ t.trace) : (t.trace.head t.nonempty).cycle ≤ e.cycle := by
  obtain ⟨e₀, es, hes⟩ := List.exists_cons_of_ne_nil t.nonempty
  simp only [hes, List.head_cons, List.pairwise_cons, List.mem_cons] at h he ⊢
  rcases he with rfl | he
  exacts [UInt64.le_refl _, UInt64.le_of_lt (h.1 e he)]

theorem ThreadTrace.eq_last_or_lt {R : FunTraceEntry → FunTraceEntry → Prop} {t : ThreadTrace}
    (h : t.trace.Pairwise R) {e : FunTraceEntry} (he : e ∈ t.trace) :
    e = t.trace.getLast t.nonempty ∨ R e (t.trace.getLast t.nonempty) := by
  have hsplit := List.dropLast_append_getLast t.nonempty
  rw [← hsplit] at he h
  rcases List.mem_append.1 he with he | he
  exacts [Or.inr ((List.pairwise_append.1 h).2.2 e he _ (List.mem_singleton_self _)),
    Or.inl (List.mem_singleton.1 he)]

theorem ThreadTrace.le_last {t : ThreadTrace} (h : t.trace.Pairwise (·.cycle < ·.cycle))
    {e : FunTraceEntry} (he : e ∈ t.trace) : e.cycle ≤ (t.trace.getLast t.nonempty).cycle := by
  rcases t.eq_last_or_lt h he with rfl | hlt
  exacts [UInt64.le_refl _, UInt64.le_of_lt hlt]

/-! ## Events -/

/-- The name and the interval of a complete event. -/
def JsonEvent.span : JsonEvent → Option (String × ℚ × ℚ)
  | .complete _ ts dur name _ => some (name, ts, ts + dur)
  | .threadName .. => none
  | .processName .. => none

namespace TraceConverter

/-- The complete events of a sample: for each thread, in order, symbols and intervals. -/
def emitted (w : World) (c : TraceConverter) (sampleEntries : List ThreadTrace)
    (ftraceEvents : List FtraceEvent) : List (List (SymInfo × ℚ × ℚ)) :=
  (c.sampleCalls w sampleEntries ftraceEvents).map fun calls =>
    (calls.filter FunctionCall.isComplete).map fun call =>
      (call.sym, call.interval c.cpuFreq (c.thresholds sampleEntries ftraceEvents).2)

theorem timeBase_le_oldest (c : TraceConverter) (sampleEntries : List ThreadTrace)
    (ftraceEvents : List FtraceEvent) :
    (c.thresholds sampleEntries ftraceEvents).2 ≤ c.oldestEvent sampleEntries ftraceEvents := by
  simp only [thresholds]
  split_ifs
  exacts [UInt64.zero_le, UInt64.le_refl _]

/-- What writing an event leaves as it is. -/
def SameSample (c c' : TraceConverter) : Prop :=
  c'.cpuFreq = c.cpuFreq ∧ c'.timeBase = c.timeBase ∧ c'.args = c.args

/-- The spans of the complete events among some calls. -/
def spans (c : TraceConverter) (calls : List FunctionCall) : List (String × ℚ × ℚ) :=
  (calls.filter FunctionCall.isComplete).map fun call =>
    (jsonName c.args.executableFileInfo call.sym, call.interval c.cpuFreq c.timeBase)

theorem spans_congr {c c' : TraceConverter} (h : c.SameSample c') : c'.spans = c.spans := by
  obtain ⟨hfreq, hbase, hargs⟩ := h
  unfold spans
  rw [hfreq, hbase, hargs]

theorem SameSample.trans {c c' c'' : TraceConverter} (h : c.SameSample c')
    (h' : c'.SameSample c'') : c.SameSample c'' :=
  ⟨h'.1.trans h.1, h'.2.1.trans h.2.1, h'.2.2.trans h.2.2⟩

theorem sameSample_cacheSource {w : World} {c c' : TraceConverter} {file : String}
    (h : c.cacheSource w file = some c') : c.SameSample c' := by
  unfold cacheSource at h
  split at h
  · cases h; exact ⟨rfl, rfl, rfl⟩
  · simp only [Option.bind_eq_bind, Option.pure_def, Option.bind_eq_some_iff, Option.some.injEq] at h
    obtain ⟨_, _, rfl⟩ := h
    exact ⟨rfl, rfl, rfl⟩

theorem spans_startThread {c c' : TraceConverter} {t : ThreadID} {es : List JsonEvent}
    (h : c.startThread t = some (c', es)) :
    c.SameSample c' ∧ es.filterMap JsonEvent.span = [] := by
  unfold startThread at h
  split_ifs at h
  · simp only [threadMetadata, Option.bind_eq_bind, Option.pure_def, Option.bind_eq_some_iff,
      Option.some.injEq, Prod.mk.injEq] at h
    obtain ⟨_, ⟨_, -, rfl⟩, rfl, rfl⟩ := h
    refine ⟨⟨rfl, rfl, rfl⟩, ?_⟩
    split_ifs <;> rfl
  · cases h; exact ⟨⟨rfl, rfl, rfl⟩, rfl⟩

theorem span_completeEvent {c : TraceConverter} {t : ThreadID} {call : FunctionCall}
    {es : List JsonEvent} (h : c.completeEvent t call = some es) :
    es.filterMap JsonEvent.span = c.spans [call] := by
  unfold completeEvent at h
  split_ifs at h with hcomplete <;> cases h <;>
    simp [spans, hcomplete, JsonEvent.span, FunctionCall.interval]

/-- One call gives one complete event, or none if one of its cycles is zero. -/
theorem spans_writeFunctionCallEvent {w : World} {t : ThreadID} {call : FunctionCall}
    {s s' : TraceConverter × List SymInfo} {es : List JsonEvent}
    (h : writeFunctionCallEvent w t s call = some (s', es)) (hdry : s.1.args.dry = false) :
    s.1.SameSample s'.1 ∧ es.filterMap JsonEvent.span = s.1.spans [call] := by
  simp only [writeFunctionCallEvent, hdry, Bool.false_eq_true, if_false, Option.bind_eq_bind,
    Option.pure_def, Option.bind_eq_some_iff, Option.some.injEq, Prod.mk.injEq] at h
  obtain ⟨⟨c₁, metadata⟩, hstart, event, hevent, c₂, hsource, rfl, rfl⟩ := h
  obtain ⟨hsame, hmeta⟩ := spans_startThread hstart
  have hsame : s.1.SameSample c₁ := hsame
  refine ⟨hsame.trans (sameSample_cacheSource hsource), ?_⟩
  rw [List.filterMap_append, hmeta, span_completeEvent hevent, List.nil_append, spans_congr hsame]

theorem spans_writeCalls {w : World} {t : ThreadID} (calls : List FunctionCall) :
    ∀ {s s' : TraceConverter × List SymInfo} {es : List JsonEvent},
      writeCalls w t s calls = some (s', es) → s.1.args.dry = false →
      s.1.SameSample s'.1 ∧ es.filterMap JsonEvent.span = s.1.spans calls := by
  induction calls with
  | nil =>
    rintro s s' es ⟨⟩ -
    exact ⟨⟨rfl, rfl, rfl⟩, rfl⟩
  | cons call calls ih =>
    intro s s' es h hdry
    simp only [writeCalls, Option.bind_eq_bind, Option.pure_def, Option.bind_eq_some_iff,
      Option.some.injEq, Prod.mk.injEq] at h
    obtain ⟨⟨s₁, es₁⟩, h₁, ⟨s₂, es₂⟩, h₂, rfl, rfl⟩ := h
    obtain ⟨hsame₁, hspans₁⟩ := spans_writeFunctionCallEvent h₁ hdry
    obtain ⟨hsame₂, hspans₂⟩ := ih h₂ (by rw [hsame₁.2.2]; exact hdry)
    refine ⟨hsame₁.trans hsame₂, ?_⟩
    rw [List.filterMap_append, hspans₁, hspans₂, spans_congr hsame₁]
    simp only [spans, ← List.map_append, ← List.filter_append, List.singleton_append]

theorem spans_writeThreads {w : World} (ts : List (ThreadTrace × List FunctionCall)) :
    ∀ {s s' : TraceConverter × List SymInfo} {ess : List (List JsonEvent)},
      writeThreads w s ts = some (s', ess) → s.1.args.dry = false →
      (∀ p ∈ ts, s.1.selects p.1 = false → p.2 = []) →
      ess.map (List.filterMap JsonEvent.span) = ts.map fun p => s.1.spans p.2 := by
  induction ts with
  | nil => rintro s s' ess ⟨⟩ - -; rfl
  | cons p ts ih =>
    obtain ⟨t, calls⟩ := p
    intro s s' ess h hdry hsel
    have hrest : ∀ {s₁ : TraceConverter}, s.1.SameSample s₁ →
        ∀ p ∈ ts, s₁.selects p.1 = false → p.2 = [] := fun hsame p hp hs =>
      hsel p (List.mem_cons_of_mem _ hp) (by rw [← hs, selects, selects, hsame.2.2])
    unfold writeThreads at h
    split_ifs at h with hs
    · simp only [Option.bind_eq_bind, Option.pure_def, Option.bind_eq_some_iff, Option.some.injEq,
        Prod.mk.injEq] at h
      obtain ⟨⟨s₁, es⟩, h₁, -, -, ⟨s₂, ess₂⟩, h₂, rfl, rfl⟩ := h
      obtain ⟨hsame, hspans⟩ := spans_writeCalls calls h₁ hdry
      have hsame : s.1.SameSample s₁.1 := hsame
      have htail := ih h₂ (by rw [hsame.2.2]; exact hdry) (hrest hsame)
      rw [List.map_cons, List.map_cons, hspans, htail, spans_congr hsame]
      rfl
    · simp only [Option.bind_eq_bind, Option.pure_def, Option.bind_eq_some_iff, Option.some.injEq,
        Prod.mk.injEq] at h
      obtain ⟨⟨s₂, ess₂⟩, h₂, rfl, rfl⟩ := h
      have htail := ih h₂ hdry (hrest ⟨rfl, rfl, rfl⟩)
      rw [List.map_cons, List.map_cons, htail, hsel _ List.mem_cons_self (by simpa using hs)]
      rfl

theorem decodeThreads_congr (w : World) {c d : TraceConverter} (h : d.args = c.args)
    (oldest : UInt64) : ∀ (ts : List ThreadTrace) (l : Lookup),
      d.decodeThreads w oldest l ts = c.decodeThreads w oldest l ts
  | [], _ => rfl
  | t :: ts, l => by
    have hsel : d.selects t = c.selects t := by rw [selects, selects, h]
    simp only [decodeThreads, hsel, decodeThreads_congr w h oldest ts]

theorem length_decodeThreads (w : World) (c : TraceConverter) (oldest : UInt64) :
    ∀ (ts : List ThreadTrace) (l : Lookup), (c.decodeThreads w oldest l ts).2.length = ts.length
  | [], _ => rfl
  | t :: ts, l => by
    simp only [decodeThreads, List.length_cons, length_decodeThreads w c oldest ts]

/-- A thread that is not selected makes no calls. -/
theorem zip_decodeThreads (w : World) (c : TraceConverter) (oldest : UInt64) :
    ∀ (ts : List ThreadTrace) (l : Lookup), ∀ p ∈ ts.zip (c.decodeThreads w oldest l ts).2,
      c.selects p.1 = false → p.2 = []
  | t :: ts, l, p, hp, hsel => by
    simp only [decodeThreads, List.zip_cons_cons, List.mem_cons] at hp
    rcases hp with rfl | hp
    · simp only at hsel
      simp [hsel]
    · exact zip_decodeThreads w c oldest ts _ p hp hsel

theorem spans_zip (c : TraceConverter) {ts : List ThreadTrace} {calls : List (List FunctionCall)}
    (h : calls.length = ts.length) :
    (ts.zip calls).map (fun p => c.spans p.2) = calls.map c.spans := by
  have hsnd : (ts.zip calls).map Prod.snd = calls := List.map_snd_zip (by omega)
  conv_rhs => rw [← hsnd, List.map_map]
  rfl

/-- The converter after the first pass over the ftrace events. -/
def started (c : TraceConverter) (sampleEntries : List ThreadTrace) (raw : List FtraceEvent) :
    TraceConverter :=
  { c with firstEventInJson := true, timeBase := (c.thresholds sampleEntries raw).2 }

/-- The converter after decoding. -/
def decoded (w : World) (c : TraceConverter) (sampleEntries : List ThreadTrace)
    (raw : List FtraceEvent) : TraceConverter :=
  { c.started sampleEntries raw with
    procaddr2sym := (c.sampleLookup w sampleEntries raw).procaddr2sym
    symCache := (c.sampleLookup w sampleEntries raw).symCache }

/-- What follows the two passes over the ftrace events. -/
def written (w : World) (c : TraceConverter) (sampleEntries : List ThreadTrace)
    (raw shifted : List FtraceEvent) : Option (TraceConverter × Option SampleJson) :=
  if (c.sampleLookup w sampleEntries raw).procaddr2sym.panicked then none
  else (writeThreads w (c.decoded w sampleEntries raw, [])
      (sampleEntries.zip (c.sampleCalls w sampleEntries raw))).bind fun s => some (s.1.1,
    if c.args.dry then none else some (s.1.1.finishJson s.1.2
      (shifted.filter fun e => (c.thresholds sampleEntries raw).1 ≤ e.timestamp) s.2))

/-- Writing a sample, step by step. -/
theorem writeSampleToJson_steps (w : World) (c : TraceConverter) (sampleEntries : List ThreadTrace)
    (ftraceText : String) : c.writeSampleToJson w sampleEntries ftraceText =
    (c.rawFtrace ftraceText).bind fun raw =>
      ((c.started sampleEntries raw).shiftedFtrace ftraceText raw).bind fun shifted =>
        c.written w sampleEntries raw shifted := by
  unfold writeSampleToJson
  refine congrArg (Option.bind _) (funext fun raw => ?_)
  refine congrArg (Option.bind _) (funext fun shifted => ?_)
  have hdecode : (c.started sampleEntries raw).decodeThreads w (c.thresholds sampleEntries raw).1
      (c.started sampleEntries raw).lookup sampleEntries =
        (c.sampleLookup w sampleEntries raw, c.sampleCalls w sampleEntries raw) :=
    decodeThreads_congr w (c := c) (d := c.started sampleEntries raw) rfl _ _ _
  -- what is done with the lookups and calls that the decoder gives
  change (fun r : Lookup × List (List FunctionCall) => r.1.completed.bind fun l =>
    (writeThreads w ({ c.started sampleEntries raw with
      procaddr2sym := l.procaddr2sym, symCache := l.symCache }, []) (sampleEntries.zip r.2)).bind
      fun s => some (s.1.1, if c.args.dry then none else some (s.1.1.finishJson s.1.2
        (shifted.filter fun e => (c.thresholds sampleEntries raw).1 ≤ e.timestamp) s.2)))
    ((c.started sampleEntries raw).decodeThreads w (c.thresholds sampleEntries raw).1
      (c.started sampleEntries raw).lookup sampleEntries) = _
  rw [hdecode, written]
  dsimp only
  rw [Lookup.completed]
  by_cases hpanic : (c.sampleLookup w sampleEntries raw).procaddr2sym.panicked
  · rw [if_pos hpanic, if_pos hpanic]
    rfl
  · rw [if_neg hpanic, if_neg hpanic]
    rfl

theorem written_of_panicked {w : World} {c : TraceConverter} {sampleEntries : List ThreadTrace}
    {raw shifted : List FtraceEvent}
    (h : (c.sampleLookup w sampleEntries raw).procaddr2sym.panicked = true) :
    c.written w sampleEntries raw shifted = none := if_pos h

theorem written_of_completed {w : World} {c : TraceConverter} {sampleEntries : List ThreadTrace}
    {raw shifted : List FtraceEvent}
    (h : (c.sampleLookup w sampleEntries raw).procaddr2sym.panicked = false) :
    c.written w sampleEntries raw shifted = (writeThreads w (c.decoded w sampleEntries raw, [])
      (sampleEntries.zip (c.sampleCalls w sampleEntries raw))).bind fun s => some (s.1.1,
        if c.args.dry then none else some (s.1.1.finishJson s.1.2
          (shifted.filter fun e => (c.thresholds sampleEntries raw).1 ≤ e.timestamp) s.2)) :=
  if_neg (by rw [h]; exact Bool.false_ne_true)

/-- **What has been done** when a sample is written. -/
theorem exists_of_writeSampleToJson {w : World} {c c' : TraceConverter} {ftraceText : String}
    {sampleEntries : List ThreadTrace} {json : Option SampleJson}
    (h : c.writeSampleToJson w sampleEntries ftraceText = some (c', json)) :
    ∃ raw shifted funcset events, c.rawFtrace ftraceText = some raw ∧
      (c.started sampleEntries raw).shiftedFtrace ftraceText raw = some shifted ∧
      (c.sampleLookup w sampleEntries raw).procaddr2sym.panicked = false ∧
      writeThreads w (c.decoded w sampleEntries raw, [])
        (sampleEntries.zip (c.sampleCalls w sampleEntries raw)) = some ((c', funcset), events) ∧
      json = if c.args.dry then none else some (c'.finishJson funcset
        (shifted.filter fun e => (c.thresholds sampleEntries raw).1 ≤ e.timestamp) events) := by
  rw [writeSampleToJson_steps] at h
  obtain ⟨raw, hraw, h⟩ := Option.bind_eq_some_iff.1 h
  obtain ⟨shifted, hshifted, h⟩ := Option.bind_eq_some_iff.1 h
  cases hpanic : (c.sampleLookup w sampleEntries raw).procaddr2sym.panicked with
  | true =>
    rw [written_of_panicked hpanic] at h
    cases h
  | false =>
    rw [written_of_completed hpanic] at h
    obtain ⟨⟨⟨c₁, funcset⟩, events⟩, hwrite, h⟩ := Option.bind_eq_some_iff.1 h
    simp only [Option.some.injEq, Prod.mk.injEq] at h
    obtain ⟨rfl, rfl⟩ := h
    exact ⟨raw, shifted, funcset, events, hraw, hshifted, hpanic, hwrite, rfl⟩

/-- **The complete events of the JSON file** are the emitted ones, thread by thread. -/
theorem spans_writeSampleToJson {w : World} {c c' : TraceConverter} {ftraceText : String}
    {sampleEntries : List ThreadTrace} {ftraceEvents : List FtraceEvent} {json : SampleJson}
    (hraw : c.rawFtrace ftraceText = some ftraceEvents)
    (h : c.writeSampleToJson w sampleEntries ftraceText = some (c', some json)) :
    json.events.map (List.filterMap JsonEvent.span) =
      (c.emitted w sampleEntries ftraceEvents).map
        (List.map fun e => (jsonName c.args.executableFileInfo e.1, e.2)) := by
  obtain ⟨raw, shifted, funcset, events, hraw', -, -, hwrite, hjson⟩ := exists_of_writeSampleToJson h
  obtain rfl := Option.some.inj (hraw.symm.trans hraw')
  split_ifs at hjson with hdry
  cases hjson
  have hdry' : (c.decoded w sampleEntries ftraceEvents).args.dry = false := by
    simpa [decoded, started] using hdry
  have hspans := spans_writeThreads _ hwrite hdry' (zip_decodeThreads w c _ _ _)
  rw [sampleCalls, spans_zip _ (length_decodeThreads w _ _ _ _)] at hspans
  refine hspans.trans ?_
  simp only [emitted, sampleCalls, List.map_map]
  refine List.map_congr_left fun calls _ => ?_
  simp only [spans, Function.comp_apply, List.map_map]
  rfl

end TraceConverter

end Funtrace
