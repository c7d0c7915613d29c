/-
  The text of the JSON files.
-/
import Funtrace.Proof.Panics
import Funtrace.Viz.JsonText

namespace Funtrace

open Written

namespace Printer
variable (p : Printer)

theorem events_append (es es' : List JsonEvent) : ∀ first : Bool,
    p.events first (es ++ es') = p.events first es ++ p.events (first && es.isEmpty) es' := by
  induction es with
  | nil => intro first; simp [events]
  | cons e es ih =>
    intro first
    rw [List.cons_append, events, ih, events]
    simp [String.append_assoc]

end Printer

namespace TraceConverter

/-! ## What is written -/

/-- The flags of a converter: nothing is the first of a thread after another event. -/
def FlagsOk (c : TraceConverter) : Prop := c.firstEventInThread = false → c.firstEventInJson = false

/-- A computation `x` writes the events that `y` lists; if it stops, some of them. -/
structure Prints (p : Printer) (first : Bool) (x : Written (TraceConverter × List SymInfo))
    (y : Option ((TraceConverter × List SymInfo) × List JsonEvent)) : Prop where
  result : x.result = y.map Prod.fst
  text : ∃ es, x.text = p.events first es ∧ ∀ r, y = some r → r.2 = es
  first : ∀ r, y = some r → r.1.1.firstEventInJson = (first && r.2.isEmpty)

variable {p : Printer} {w : World}

theorem Prints.pure {s : TraceConverter × List SymInfo} {first : Bool}
    (hfirst : s.1.firstEventInJson = first) : Prints p first (pure s) (some (s, [])) where
  result := rfl
  text := ⟨[], rfl, by rintro r ⟨⟩; rfl⟩
  first := by
    rintro r ⟨⟩
    simpa using hfirst

/-- A computation that goes on after another one. -/
theorem Prints.bind {first : Bool} {x : Written (TraceConverter × List SymInfo)}
    {y : Option ((TraceConverter × List SymInfo) × List JsonEvent)}
    {f : TraceConverter × List SymInfo → Written (TraceConverter × List SymInfo)}
    {g : TraceConverter × List SymInfo → Option ((TraceConverter × List SymInfo) × List JsonEvent)}
    (h : Prints p first x y)
    (hf : ∀ r, y = some r → Prints p r.1.1.firstEventInJson (f r.1) (g r.1)) :
    Prints p first (x >>= f) (y.bind fun r => (g r.1).map fun r' => (r'.1, r.2 ++ r'.2)) := by
  obtain ⟨es, htext, hes⟩ := h.text
  cases hy : y with
  | none =>
    have hresult : x.result = none := by rw [h.result, hy]; rfl
    refine ⟨?_, ⟨es, (text_bind_none hresult).trans htext, by rintro r ⟨⟩⟩, by rintro r ⟨⟩⟩
    rw [result_bind, hresult]
    rfl
  | some r =>
    have hresult : x.result = some r.1 := by rw [h.result, hy]; rfl
    have hfirst := h.first r hy
    obtain ⟨es', htext', hes'⟩ := (hf r hy).text
    have hf' := hf r hy
    rw [hes r hy] at hfirst
    refine ⟨?_, ⟨es ++ es', ?_, ?_⟩, ?_⟩
    · rw [result_bind, hresult, Option.bind_some, hf'.result, Option.bind_some, Option.map_map]
      rfl
    · rw [text_bind_some hresult, htext, htext', hfirst, p.events_append]
    · intro r' hr'
      obtain ⟨r'', hr'', rfl⟩ := Option.map_eq_some_iff.1 hr'
      rw [hes r hy, hes' r'' hr'']
    · intro r' hr'
      obtain ⟨r'', hr'', rfl⟩ := Option.map_eq_some_iff.1 hr'
      rw [hf'.first r'' hr'', hfirst, hes r hy, Bool.and_assoc]
      cases es <;> simp

/-- After the metadata of a thread nothing is the first event of the file any more. -/
theorem startThread_flags {c c' : TraceConverter} {t : ThreadID} {metadata : List JsonEvent}
    (hflags : c.FlagsOk) (h : c.startThread t = some (c', metadata)) :
    (c.firstEventInJson && metadata.isEmpty) = false ∧ c'.firstEventInJson = false := by
  unfold startThread at h
  split_ifs at h with hfirst
  · simp only [threadMetadata, Option.bind_eq_bind, Option.pure_def, Option.bind_eq_some_iff,
      Option.some.injEq, Prod.mk.injEq] at h
    obtain ⟨_, ⟨_, -, rfl⟩, rfl, rfl⟩ := h
    simp
  · cases h
    have hfalse : c.firstEventInJson = false := hflags (by simpa using hfirst)
    simp [hfalse]

theorem cacheSource_flags {c c' : TraceConverter} {file : String}
    (h : c.cacheSource w file = some c') : c'.firstEventInJson = c.firstEventInJson := by
  unfold cacheSource at h
  split at h
  · cases h
    rfl
  · simp only [Option.bind_eq_bind, Option.pure_def, Option.bind_eq_some_iff, Option.some.injEq] at h
    obtain ⟨_, -, rfl⟩ := h
    rfl

/-- **One call**: the comma before its first event depends on what has been written before. -/
theorem prints_writeFunctionCallEvent {t : ThreadID} {s : TraceConverter × List SymInfo}
    {call : FunctionCall} (hflags : s.1.FlagsOk) :
    Prints p s.1.firstEventInJson (printFunctionCallEvent p w t s call)
      (writeFunctionCallEvent w t s call) := by
  unfold printFunctionCallEvent writeFunctionCallEvent
  dsimp only
  split_ifs with hdry
  · exact .pure rfl
  obtain ⟨c, hc⟩ : ∃ c, { s.1 with numEvents := s.1.numEvents + 1 } = c := ⟨_, rfl⟩
  have hjson : c.firstEventInJson = s.1.firstEventInJson := by rw [← hc]
  have hflags : c.FlagsOk := by rw [← hc]; exact hflags
  rw [hc, ← hjson]
  cases hstart : c.startThread t with
  | none =>
    rw [unwrap_none_bind]
    exact ⟨rfl, ⟨[], rfl, by rintro r ⟨⟩⟩, by rintro r ⟨⟩⟩
  | some m =>
    obtain ⟨c', metadata⟩ := m
    obtain ⟨hcomma, hfirst⟩ := startThread_flags hflags hstart
    rw [unwrap_some_bind, write_bind, Option.bind_eq_bind, Option.bind_some]
    dsimp only
    cases hevent : c'.completeEvent t call with
    | none =>
      rw [unwrap_none_bind, Option.bind_eq_bind, Option.bind_none]
      exact ⟨rfl, ⟨metadata, String.append_empty, by rintro r ⟨⟩⟩, by rintro r ⟨⟩⟩
    | some event =>
      have hevents : p.events c.firstEventInJson (metadata ++ event) =
          p.events c.firstEventInJson metadata ++ p.events false event := by
        rw [p.events_append, hcomma]
      rw [unwrap_some_bind, write_bind, Option.bind_eq_bind, Option.bind_some]
      cases hsource : c'.cacheSource w call.sym.file with
      | none =>
        rw [unwrap_none_bind, Option.bind_eq_bind, Option.bind_none]
        refine ⟨rfl, ⟨metadata ++ event, ?_, by rintro r ⟨⟩⟩, by rintro r ⟨⟩⟩
        rw [hevents, String.append_empty]
      | some c'' =>
        have hfirst'' : c''.firstEventInJson = false := (cacheSource_flags hsource).trans hfirst
        rw [unwrap_some_bind, Option.bind_eq_bind, Option.bind_some]
        refine ⟨rfl, ⟨metadata ++ event, ?_, ?_⟩, ?_⟩
        · rw [hevents, text_pure, String.append_empty]
        · rintro r ⟨⟩
          rfl
        · rintro r ⟨⟩
          rw [hfirst'']
          cases metadata <;> simp_all

theorem writeFunctionCallEvent_flags {t : ThreadID} {s s' : TraceConverter × List SymInfo}
    {call : FunctionCall} {es : List JsonEvent} (hflags : s.1.FlagsOk)
    (h : writeFunctionCallEvent w t s call = some (s', es)) : s'.1.FlagsOk := by
  simp only [writeFunctionCallEvent] at h
  split_ifs at h with hdry
  · cases h
    exact hflags
  · simp only [Option.bind_eq_bind, Option.pure_def, Option.bind_eq_some_iff, Option.some.injEq,
      Prod.mk.injEq] at h
    obtain ⟨⟨c₁, metadata⟩, hstart, event, -, c₂, hsource, rfl, -⟩ := h
    exact fun _ => (cacheSource_flags hsource).trans
      (startThread_flags (c := { s.1 with numEvents := s.1.numEvents + 1 }) hflags hstart).2

theorem prints_writeCalls {t : ThreadID} : ∀ (calls : List FunctionCall)
    {s : TraceConverter × List SymInfo}, s.1.FlagsOk →
      Prints p s.1.firstEventInJson (printCalls p w t s calls) (writeCalls w t s calls)
  | [], s, _ => .pure rfl
  | call :: calls, s, hflags => by
    have hcall := @prints_writeFunctionCallEvent p w t s call hflags
    have hall := hcall.bind (f := fun s => printCalls p w t s calls)
      (g := fun s => writeCalls w t s calls) fun r hr =>
        prints_writeCalls calls (writeFunctionCallEvent_flags hflags hr)
    have hwrite : writeCalls w t s (call :: calls) = (writeFunctionCallEvent w t s call).bind fun r =>
        (writeCalls w t r.1 calls).map fun r' => (r'.1, r.2 ++ r'.2) := by
      rw [writeCalls]
      simp only [Option.bind_eq_bind, Option.pure_def, Option.map_eq_bind]
      rfl
    rw [hwrite]
    exact hall

/-- The events of all threads, in a row. -/
def flatten (r : (TraceConverter × List SymInfo) × List (List JsonEvent)) :
    (TraceConverter × List SymInfo) × List JsonEvent := (r.1, r.2.flatten)

theorem prints_writeThreads : ∀ (ts : List (ThreadTrace × List FunctionCall))
    {s : TraceConverter × List SymInfo},
      Prints p s.1.firstEventInJson (printThreads p w s ts) ((writeThreads w s ts).map flatten)
  | [], s => .pure rfl
  | (t, calls) :: ts, s => by
    unfold printThreads writeThreads
    split_ifs with hsel
    · obtain ⟨s₀, hs₀⟩ : ∃ s₀ : TraceConverter × List SymInfo,
          ({ s.1 with numEvents := 0, firstEventInThread := true }, s.2) = s₀ := ⟨_, rfl⟩
      have hcalls := @prints_writeCalls p w t.threadId calls s₀ (by rw [← hs₀]; rintro ⟨⟩)
      have hfirst : s₀.1.firstEventInJson = s.1.firstEventInJson := by rw [← hs₀]
      rw [hfirst] at hcalls
      rw [hs₀]
      have hall := hcalls.bind
        (f := fun s => unwrap t.threadId.nameStr >>= fun _ => printThreads p w s ts)
        (g := fun s => t.threadId.nameStr.bind fun _ => (writeThreads w s ts).map flatten) fun r _ => by
          cases hname : t.threadId.nameStr with
          | none =>
            rw [unwrap_none_bind, Option.bind_none]
            exact ⟨rfl, ⟨[], rfl, by rintro r ⟨⟩⟩, by rintro r ⟨⟩⟩
          | some name =>
            rw [unwrap_some_bind, Option.bind_some]
            exact prints_writeThreads ts
      refine Eq.mp (congrArg _ ?_) hall
      simp only [Option.bind_eq_bind, Option.pure_def]
      cases writeCalls w t.threadId s₀ calls with
      | none => rfl
      | some r =>
        cases t.threadId.nameStr with
        | none => rfl
        | some name =>
          simp only [Option.bind_some]
          cases writeThreads w r.1 ts <;> rfl
    · refine Eq.mp (congrArg _ ?_) (prints_writeThreads ts)
      simp only [Option.bind_eq_bind, Option.pure_def]
      cases writeThreads w s ts <;> rfl

end TraceConverter

/-! ## Events and their threads -/

/-- The complete events among some events belong to a thread. -/
def AllOf (t : ThreadID) (es : List JsonEvent) : Prop :=
  ∀ tid ts dur name pid, JsonEvent.complete tid ts dur name pid ∈ es → tid = t.tid ∧ pid = t.pid

/-- Before a complete event stands the name of its thread. -/
def Named (es : List JsonEvent) : Prop :=
  ∀ before tid ts dur name pid after,
    es = before ++ JsonEvent.complete tid ts dur name pid :: after →
      ∃ threadName, JsonEvent.threadName pid tid threadName ∈ before

theorem named_nil : Named [] := by
  intro before tid ts dur name pid after h
  exact absurd h (by simp)

theorem Named.append {es es' : List JsonEvent} (h : Named es) (h' : Named es') : Named (es ++ es') := by
  intro before tid ts dur name pid after heq
  rcases List.append_eq_append_iff.1 heq with ⟨mid, rfl, hmid⟩ | ⟨mid, hmid, hrest⟩
  · -- the event is one of `es'`
    obtain ⟨threadName, hmem⟩ := h' mid tid ts dur name pid after hmid
    exact ⟨threadName, List.mem_append_right es hmem⟩
  · cases mid with
    | nil =>
      rw [List.nil_append] at hrest
      obtain ⟨threadName, hmem⟩ := h' [] tid ts dur name pid after hrest.symm
      cases hmem
    | cons e mid =>
      rw [List.cons_append, List.cons.injEq] at hrest
      obtain ⟨rfl, -⟩ := hrest
      exact h before tid ts dur name pid mid hmid

theorem named_thread {t : ThreadID} {name : String} {es : List JsonEvent} (h : AllOf t es) :
    Named (.threadName t.pid t.tid name :: es) := by
  intro before tid ts dur eventName pid after heq
  cases before with
  | nil => cases (List.cons.inj heq).1
  | cons e before =>
    rw [List.cons_append, List.cons.injEq] at heq
    obtain ⟨rfl, heq⟩ := heq
    obtain ⟨rfl, rfl⟩ := h tid ts dur eventName pid (by rw [heq]; simp)
    exact ⟨name, List.mem_cons_self⟩

/-- The functions of the events are listed, and their source files are cached. -/
structure Listed (s : TraceConverter × List SymInfo) (es : List JsonEvent) : Prop where
  names : ∀ tid ts dur name pid, JsonEvent.complete tid ts dur name pid ∈ es →
    ∃ sym ∈ s.2, jsonName s.1.args.executableFileInfo sym = name
  cached : ∀ sym ∈ s.2, (s.1.sourceCache sym.file).isSome

namespace TraceConverter
variable {w : World}

theorem cacheSource_isSome_of_mem {c c' : TraceConverter} {file : String}
    (h : c.cacheSource w file = some c') : (c'.sourceCache file).isSome ∧
      ∀ file', (c.sourceCache file').isSome → (c'.sourceCache file').isSome := by
  unfold cacheSource at h
  split at h
  · next code hcode =>
    cases h
    exact ⟨by rw [hcode]; rfl, fun _ h => h⟩
  · simp only [Option.bind_eq_bind, Option.pure_def, Option.bind_eq_some_iff, Option.some.injEq] at h
    obtain ⟨text, -, rfl⟩ := h
    dsimp only
    refine ⟨by rw [Function.update_self]; rfl, fun file' hfile' => ?_⟩
    rcases eq_or_ne file' file with rfl | hne
    · rw [Function.update_self]
      rfl
    · rw [Function.update_of_ne hne]
      exact hfile'

theorem startThread_events {c c' : TraceConverter} {t : ThreadID} {metadata : List JsonEvent}
    (h : c.startThread t = some (c', metadata)) :
    (∀ tid ts dur name pid, JsonEvent.complete tid ts dur name pid ∉ metadata) ∧
      c'.sourceCache = c.sourceCache ∧
      (c.firstEventInThread → ∃ name es, metadata = .threadName t.pid t.tid name :: es) := by
  unfold startThread at h
  split_ifs at h with hfirst
  · simp only [threadMetadata, Option.bind_eq_bind, Option.pure_def, Option.bind_eq_some_iff,
      Option.some.injEq, Prod.mk.injEq] at h
    obtain ⟨_, ⟨name, -, rfl⟩, rfl, rfl⟩ := h
    refine ⟨fun tid ts dur eventName pid hmem => ?_, rfl, fun _ => ⟨name, _, rfl⟩⟩
    split_ifs at hmem <;> simp at hmem
  · cases h
    refine ⟨fun tid ts dur eventName pid hmem => ?_, rfl, fun h => absurd h hfirst⟩
    cases hmem

/-- **One call**: its event belongs to the thread and its function is listed. -/
theorem writeFunctionCallEvent_events {t : ThreadID} {s s' : TraceConverter × List SymInfo}
    {call : FunctionCall} {es : List JsonEvent} {old : List JsonEvent}
    (h : writeFunctionCallEvent w t s call = some (s', es)) (hdry : s.1.args.dry = false)
    (hlisted : Listed s old) : AllOf t es ∧ Listed s' (old ++ es) ∧
      (s.1.firstEventInThread → ∃ name es', es = .threadName t.pid t.tid name :: es') := by
  obtain ⟨hleaves, -, -⟩ := writeFunctionCallEvent_spec h
  simp only [writeFunctionCallEvent, hdry, Bool.false_eq_true, if_false, Option.bind_eq_bind,
    Option.pure_def, Option.bind_eq_some_iff, Option.some.injEq, Prod.mk.injEq] at h
  obtain ⟨⟨c₁, metadata⟩, hstart, event, hevent, c₂, hsource, rfl, rfl⟩ := h
  obtain ⟨hmetadata, hcache, hname⟩ := startThread_events hstart
  obtain ⟨hfile, hkeep⟩ := cacheSource_isSome_of_mem hsource
  obtain ⟨hleaves₁, -, -⟩ := startThread_spec (w := w) hstart
  have hargs₁ : c₁.args = s.1.args := hleaves₁.args
  have hmem : ∀ tid ts dur name pid, JsonEvent.complete tid ts dur name pid ∈ event →
      tid = t.tid ∧ pid = t.pid ∧ name = jsonName s.1.args.executableFileInfo call.sym := by
    intro tid ts dur name pid hmem
    unfold completeEvent at hevent
    split_ifs at hevent
    · obtain rfl := Option.some.inj hevent
      rw [List.mem_singleton, JsonEvent.complete.injEq] at hmem
      obtain ⟨rfl, -, -, rfl, rfl⟩ := hmem
      rw [hargs₁]
      exact ⟨rfl, rfl, rfl⟩
    · obtain rfl := Option.some.inj hevent
      cases hmem
  have hargs : c₂.args = s.1.args := hleaves.args
  refine ⟨?_, ⟨?_, ?_⟩, fun hfirst => ?_⟩
  · intro tid ts dur name pid h
    rcases List.mem_append.1 h with h | h
    · exact absurd h (hmetadata tid ts dur name pid)
    · obtain ⟨htid, hpid, -⟩ := hmem tid ts dur name pid h
      exact ⟨htid, hpid⟩
  · intro tid ts dur name pid h
    rw [hargs]
    rcases List.mem_append.1 h with h | h
    · obtain ⟨sym, hsym, hname⟩ := hlisted.names tid ts dur name pid h
      exact ⟨sym, List.mem_insert_of_mem hsym, hname⟩
    · rcases List.mem_append.1 h with h | h
      · exact absurd h (hmetadata tid ts dur name pid)
      · exact ⟨call.sym, List.mem_insert_self, (hmem tid ts dur name pid h).2.2.symm⟩
  · intro sym hsym
    rcases List.mem_insert_iff.1 hsym with rfl | hsym
    · exact hfile
    · exact hkeep _ (by rw [hcache]; exact hlisted.cached sym hsym)
  · obtain ⟨name, es', rfl⟩ := hname hfirst
    exact ⟨name, es' ++ event, rfl⟩

theorem writeCalls_events {t : ThreadID} : ∀ (calls : List FunctionCall)
    {s s' : TraceConverter × List SymInfo} {es old : List JsonEvent},
    writeCalls w t s calls = some (s', es) → s.1.args.dry = false → Listed s old →
      AllOf t es ∧ Listed s' (old ++ es) ∧ s'.1.args = s.1.args ∧
        (s.1.firstEventInThread → Named es)
  | [], s, s', es, old, h, _, hlisted => by
    cases h
    rw [List.append_nil]
    refine ⟨?_, hlisted, rfl, fun _ => named_nil⟩
    intro tid ts dur name pid hmem
    cases hmem
  | call :: calls, s, s', es, old, h, hdry, hlisted => by
    simp only [writeCalls, Option.bind_eq_bind, Option.pure_def, Option.bind_eq_some_iff,
      Option.some.injEq, Prod.mk.injEq] at h
    obtain ⟨⟨s₁, es₁⟩, h₁, ⟨s₂, es₂⟩, h₂, rfl, rfl⟩ := h
    obtain ⟨hown₁, hlisted₁, hname⟩ := writeFunctionCallEvent_events h₁ hdry hlisted
    obtain ⟨hleaves, -, -⟩ := writeFunctionCallEvent_spec h₁
    obtain ⟨hown₂, hlisted₂, hargs, -⟩ :=
      writeCalls_events calls h₂ (by rw [hleaves.args]; exact hdry) hlisted₁
    rw [List.append_assoc] at hlisted₂
    have hown : AllOf t (es₁ ++ es₂) := by
      intro tid ts dur name pid hmem
      exact (List.mem_append.1 hmem).elim (hown₁ tid ts dur name pid) (hown₂ tid ts dur name pid)
    refine ⟨hown, hlisted₂, hargs.trans hleaves.args, fun hfirst => ?_⟩
    obtain ⟨name, es', rfl⟩ := hname hfirst
    rw [List.cons_append] at hown ⊢
    exact named_thread fun tid ts dur eventName pid hmem =>
      hown tid ts dur eventName pid (List.mem_cons_of_mem _ hmem)

/-- **All threads**: every complete event is preceded by the name of its thread. -/
theorem writeThreads_events : ∀ (ts : List (ThreadTrace × List FunctionCall))
    {s s' : TraceConverter × List SymInfo} {ess : List (List JsonEvent)} {old : List JsonEvent},
    writeThreads w s ts = some (s', ess) → s.1.args.dry = false → Listed s old →
      Named ess.flatten ∧ Listed s' (old ++ ess.flatten) ∧ s'.1.args = s.1.args
  | [], s, s', ess, old, h, _, hlisted => by
    cases h
    rw [List.flatten_nil, List.append_nil]
    exact ⟨named_nil, hlisted, rfl⟩
  | (t, calls) :: ts, s, s', ess, old, h, hdry, hlisted => by
    unfold writeThreads at h
    split_ifs at h
    · simp only [Option.bind_eq_bind, Option.pure_def, Option.bind_eq_some_iff, Option.some.injEq,
        Prod.mk.injEq] at h
      obtain ⟨⟨s₁, es₁⟩, h₁, -, -, ⟨s₂, ess₂⟩, h₂, rfl, rfl⟩ := h
      obtain ⟨-, hlisted₁, hargs₁, hnamed⟩ :=
        @writeCalls_events w t.threadId calls _ _ _ old h₁ hdry ⟨hlisted.names, hlisted.cached⟩
      obtain ⟨hnamed₂, hlisted₂, hargs₂⟩ := writeThreads_events ts h₂ (by rw [hargs₁]; exact hdry) hlisted₁
      rw [List.append_assoc] at hlisted₂
      exact ⟨(hnamed rfl).append hnamed₂, hlisted₂, hargs₂.trans hargs₁⟩
    · simp only [Option.bind_eq_bind, Option.pure_def, Option.bind_eq_some_iff, Option.some.injEq,
        Prod.mk.injEq] at h
      obtain ⟨⟨s₂, ess₂⟩, h₂, rfl, rfl⟩ := h
      obtain ⟨hnamed₂, hlisted₂, hargs₂⟩ := writeThreads_events ts h₂ hdry hlisted
      exact ⟨hnamed₂, hlisted₂, hargs₂⟩

end TraceConverter

end Funtrace
