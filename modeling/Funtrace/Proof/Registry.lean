/-
  The steps of a process keep its trace buffers in order.

  `effect_step` says once what each step does to the owners of buffers; that every
  reachable state is `Owned`, and `Accounted` as long as the main thread does not
  register itself twice, follows from it.  As long as no thread ends while it is
  registered, `thread_traces` points to live objects (`EndedGone`).
-/
import Mathlib.Data.List.Infix
import Funtrace.Proof.Owners

namespace Funtrace

/-- A traced call leaves the buffer where it is. -/
theorem Tracer.step_owner {tr tr' : Tracer} {a : TraceAction} (h : Tracer.step tr a = some tr') :
    tr'.data.buf = tr.data.buf ∧ tr'.data.bufSize = tr.data.bufSize ∧
      tr'.data.thread = tr.data.thread := by
  cases a with
  | enter call =>
    simp only [Tracer.step] at h
    split at h
    · obtain rfl := Option.some.inj h
      rw [Tracer.data_enter]
      exact ⟨rfl, rfl, rfl⟩
    · cases h
  | store =>
    obtain ⟨slot, entry, st, rest, -, rfl⟩ := Tracer.exists_of_store h
    rcases tr.data_store slot entry st rest with hdata | hdata <;> rw [hdata] <;>
      exact ⟨rfl, rfl, rfl⟩
  | pause =>
    obtain rfl := Option.some.inj h
    exact ⟨rfl, rfl, rfl⟩
  | resume =>
    obtain rfl := Option.some.inj h
    exact ⟨rfl, rfl, rfl⟩

/-- `allocate` leaves a null pointer, or takes the block that it is given. -/
theorem TraceData.allocate_cases (d : TraceData) (n₀ : ℕ) (block : Option UInt64) (n : ℕ)
    (mem : Memory) :
    let size := 1 <<< UInt64.ofNat (if n = 0 then n₀ else n)
    let r := d.allocate n₀ (fun _ _ => block) n mem
    (r.1 = { d with bufSize := 0, wraparoundMask := 0, buf := 0, pos := 0 } ∧ r.2 = mem) ∨
      ∃ b, block = some b ∧ (if n = 0 then n₀ else n) ≠ 0 ∧
        r.1 = { d with buf := b, pos := b, bufSize := size, wraparoundMask := ~~~size } := by
  intro size r
  by_cases hlog : (if n = 0 then n₀ else n) = 0
  · exact Or.inl (by simp [r, allocate, hlog])
  · cases block with
    | none => exact Or.inl (by simp [r, allocate, hlog])
    | some b => exact Or.inr ⟨b, rfl, hlog, by simp [r, size, allocate, hlog]⟩

namespace Process
variable {s s' : Process}

/-! ## The steps -/

section
variable {t : ℕ}

/-- What neither `unregister_this_thread` nor garbage collection touches. -/
structure SameRest (s s' : Process) : Prop where
  gcMaxAgeMs : s'.gcMaxAgeMs = s.gcMaxAgeMs
  defaultLogBufSize : s'.defaultLogBufSize = s.defaultLogBufSize
  tracingPaused : s'.tracingPaused = s.tracingPaused
  mem : s'.mem = s.mem
  phase : s'.phase = s.phase
  registration : s'.registration = s.registration
  pending : s'.pending = s.pending

theorem SameRest.trans {s'' : Process} (h : SameRest s s') (h' : SameRest s' s'') : SameRest s s'' :=
  ⟨h'.gcMaxAgeMs.trans h.gcMaxAgeMs, h'.defaultLogBufSize.trans h.defaultLogBufSize,
    h'.tracingPaused.trans h.tracingPaused, h'.mem.trans h.mem, h'.phase.trans h.phase,
    h'.registration.trans h.registration, h'.pending.trans h.pending⟩

theorem sameRest_unregisterThisThread {deferFree : Bool} {name : Vector UInt8 16}
    {clock : ClockReading} (h : s.unregisterThisThread t deferFree name clock = some s') :
    SameRest s s' ∧ s'.exiting = s.exiting := by
  unfold unregisterThisThread unregisterAt at h
  split at h
  · obtain rfl := Option.some.inj h
    exact ⟨⟨rfl, rfl, rfl, rfl, rfl, rfl, rfl⟩, rfl⟩
  · split_ifs at h
    · obtain rfl := Option.some.inj h
      exact ⟨⟨rfl, rfl, rfl, rfl, rfl, rfl, rfl⟩, rfl⟩
    · obtain ⟨now, -, rfl⟩ := Option.map_eq_some_iff.1 h
      exact ⟨⟨rfl, rfl, rfl, rfl, rfl, rfl, rfl⟩, rfl⟩

/-- `unregister_this_thread` does nothing, frees the buffer or hands it over. -/
theorem unregisterThisThread_cases {deferFree : Bool} {name : Vector UInt8 16}
    {clock : ClockReading} (h : s.unregisterThisThread t deferFree name clock = some s') :
    (.tls t ∉ s.threadTraces ∧ s' = s) ∨
      ((s.gcMaxAgeMs = 0 ∨ deferFree = false ∨ s.exiting = true) ∧ Released s s' (.tls t)) ∨
      (deferFree = true ∧ s.gcMaxAgeMs ≠ 0 ∧ s.exiting = false ∧
        ∃ now, clock.currentTimeMs = some now ∧ HandedOver s s' t
          { (s.data (.tls t)).updateName name with thread := 0, timeOfDeathMs := now }) := by
  unfold unregisterThisThread at h
  split at h
  · next hnone =>
    rw [List.findIdx?_eq_none_iff] at hnone
    refine Or.inl ⟨fun hmem => ?_, by simpa using h.symm⟩
    simpa using hnone _ hmem
  · next i hi =>
    refine Or.inr ?_
    obtain ⟨hlt, hget, -⟩ := List.findIdx?_eq_some_iff_getElem.1 hi
    have hget : s.threadTraces[i]? = some (.tls t) := by
      rw [List.getElem?_eq_getElem hlt]
      simpa using hget
    unfold unregisterAt at h
    split_ifs at h with hnow
    · refine Or.inl ⟨by simpa using hnow, ?_⟩
      obtain rfl := Option.some.inj h
      exact ⟨swapRemove_perm hget, rfl, rfl, Or.inl ⟨by simp, rfl⟩, rfl, rfl, rfl⟩
    · simp only [not_or, Bool.not_eq_true', Bool.not_eq_false, Bool.not_eq_true] at hnow
      obtain ⟨now, hclock, rfl⟩ := Option.map_eq_some_iff.1 h
      refine Or.inr ⟨hnow.2.1, hnow.1, hnow.2.2, _, hclock,
        ⟨set_perm hget, rfl, ?_, ?_, rfl, rfl, rfl, rfl, rfl, rfl⟩⟩
      · unfold TraceData.updateName
        dsimp only
        split_ifs <;> rfl
      · unfold TraceData.updateName
        dsimp only
        split_ifs <;> rfl

/-- After `unregister_this_thread` a thread that was registered once is not registered. -/
theorem effect_unregisterThisThread {ok : Prop} (ho : s.Owned) (hidle : s.registration t = .idle)
    {deferFree : Bool} (ht : deferFree = true → t ≠ 0) {name : Vector UInt8 16}
    {clock : ClockReading} (h : s.unregisterThisThread t deferFree name clock = some s') :
    Effect ok s s' ∧ (t ≠ 0 ∨ s.threadTraces.Nodup → .tls t ∉ s'.threadTraces) ∧
      s'.phase = s.phase ∧ s'.registration = s.registration := by
  rcases unregisterThisThread_cases h with ⟨hmem, rfl⟩ | ⟨-, hrel⟩ | ⟨hdefer, -, -, d, -, hhand⟩
  · exact ⟨.same ⟨rfl, rfl, rfl, rfl, rfl, fun _ h => h, fun _ => ⟨rfl, rfl, rfl⟩⟩, fun _ => hmem,
      rfl, rfl⟩
  · refine ⟨.released hrel, ?_, hrel.phase, hrel.registration⟩
    rintro (ht | hnodup)
    · exact ho.not_mem_of_perm hrel.threadTraces (by simpa using ht)
    · exact (List.nodup_cons.1 (hrel.threadTraces.nodup_iff.2 hnodup)).1
  · exact ⟨.handedOver (ht hdefer) hidle hhand, fun _ => hhand.not_mem_tls ho (ht hdefer),
      hhand.phase, hhand.registration⟩

/-- What every step of garbage collection keeps holds at its end. -/
theorem collectLoop_rule {P : Process → Prop} {now : UInt64}
    (hP : ∀ s i r, P s → s.threadTraces[i]? = some r → s.collectable now r → P (s.collectAt i r)) :
    ∀ (fuel i : ℕ) (s : Process), P s → P (collectLoop now fuel i s)
  | 0, _, _, hs => hs
  | fuel + 1, i, s, hs => by
    unfold collectLoop
    split
    · exact hs
    · next r hr =>
      split_ifs with hc
      · exact collectLoop_rule hP fuel i _ (hP s i r hs hr hc)
      · exact collectLoop_rule hP fuel (i + 1) s hs

/-- Only copies are collected. -/
theorem released_collectAt (ho : s.Owned) {i : ℕ} {r : TraceRef} {now : UInt64}
    (hr : s.threadTraces[i]? = some r) (hc : s.collectable now r) :
    Released s (s.collectAt i r) r := by
  have hmem := List.mem_of_getElem? hr
  cases r with
  | copy n => exact ⟨swapRemove_perm hr, rfl, rfl, Or.inr ⟨n, rfl, rfl⟩, rfl, rfl, rfl⟩
  | tls t =>
    have hdead : (s.data (.tls t)).thread = 0 := by
      simp only [collectable, decide_eq_true_eq] at hc
      exact hc.1
    exact absurd hdead (ho.tlsAlive t hmem)

theorem SameOwners.refl (s : Process) : SameOwners s s :=
  ⟨rfl, rfl, rfl, rfl, rfl, fun _ h => h, fun _ => ⟨rfl, rfl, rfl⟩⟩

theorem sameRest_collectGarbage {exitingProgram : Bool} {clock : ClockReading}
    (h : s.collectGarbage exitingProgram clock = some s') : SameRest s s' := by
  unfold collectGarbage at h
  split_ifs at h
  · obtain rfl := Option.some.inj h
    exact ⟨rfl, rfl, rfl, rfl, rfl, rfl, rfl⟩
  · obtain ⟨now, -, rfl⟩ := Option.map_eq_some_iff.1 h
    refine collectLoop_rule (P := SameRest s) (fun s₁ i r hs₁ _ _ => ?_) _ 0 _
      ⟨rfl, rfl, rfl, rfl, rfl, rfl, rfl⟩
    exact hs₁.trans ⟨rfl, rfl, rfl, rfl, rfl, rfl, rfl⟩

theorem effect_collectGarbage {ok : Prop} (ho : s.Owned) {exitingProgram : Bool}
    {clock : ClockReading} (h : s.collectGarbage exitingProgram clock = some s') :
    Effect ok s s' := by
  unfold collectGarbage at h
  split_ifs at h
  · obtain rfl := Option.some.inj h
    exact .same (SameOwners.refl s)
  · obtain ⟨now, -, rfl⟩ := Option.map_eq_some_iff.1 h
    have hstart : SameOwners s { s with exiting := s.exiting || exitingProgram } :=
      ⟨rfl, rfl, rfl, rfl, rfl, fun _ h => h, fun _ => ⟨rfl, rfl, rfl⟩⟩
    refine (collectLoop_rule (P := fun s' => s'.Owned ∧ Effect ok s s') ?_ _ 0 _
      ⟨hstart.owned ho, .same hstart⟩).2
    intro s₁ i r hs₁ hr hc
    have hrel := released_collectAt hs₁.1 hr hc
    exact ⟨hrel.owned hs₁.1, hs₁.2.trans (.released hrel)⟩

theorem sameOwners_setPhase {p : Phase} (hp : p ≠ .unborn) : SameOwners s (s.setPhase t p) where
  threadTraces := rfl
  copies := rfl
  numCopies := rfl
  buffers := rfl
  registration := rfl
  unborn u hu := by
    by_cases hut : u = t
    · subst hut
      exact absurd (by simpa [setPhase] using hu) hp
    · simpa [setPhase, hut] using hu
  data _ := ⟨rfl, rfl, rfl⟩

theorem sameOwners_pauseTracing : SameOwners s s.pauseTracing :=
  (sameOwners_onAll (f := fun _ d => d.pauseTracing) fun _ _ => ⟨rfl, rfl, rfl⟩).trans
    ⟨rfl, rfl, rfl, rfl, rfl, fun _ h => h, fun _ => ⟨rfl, rfl, rfl⟩⟩

theorem sameOwners_resumeTracing : SameOwners s s.resumeTracing :=
  (sameOwners_onAll (f := fun _ d => d.resumeTracing) fun _ _ => ⟨rfl, rfl, rfl⟩).trans
    ⟨rfl, rfl, rfl, rfl, rfl, fun _ h => h, fun _ => ⟨rfl, rfl, rfl⟩⟩

theorem sameOwners_withTracer {tr : Tracer} (hbuf : tr.data.buf = (s.data (.tls t)).buf)
    (hsize : tr.data.bufSize = (s.data (.tls t)).bufSize)
    (hthread : tr.data.thread = (s.data (.tls t)).thread) : SameOwners s (s.withTracer t tr) where
  threadTraces := rfl
  copies := rfl
  numCopies := rfl
  buffers := rfl
  registration := rfl
  unborn _ h := h
  data r := by
    by_cases hr : r = .tls t
    · subst hr
      simp [withTracer, write, hbuf, hsize, hthread]
    · simp [withTracer, write, hr]

theorem allocated_allocateTrace {n : ℕ} {block : Option UInt64}
    (hblock : ∀ b, block = some b →
      FreshBlock s.buffers (s.blockSize n * 2) (s.blockSize n) b) :
    ∃ d, Allocated s (s.allocateTrace t n block) t d := by
  refine ⟨_, ⟨rfl, rfl, ?_, ?_, rfl, rfl, rfl, rfl, rfl⟩⟩ <;>
    rcases TraceData.allocate_cases (s.data (.tls t)) s.defaultLogBufSize block n s.mem with
      ⟨hr, -⟩ | ⟨b, hb, -, hr⟩ <;> rw [hr]
  · exact Or.inl rfl
  · exact Or.inr (hblock b hb).2.2.2

/-- **What a step does to the owners.** -/
theorem effect_step {a : Action} (ho : s.Owned) (h : s.step a = some s') :
    Effect (s.MainUnregistered a ∧ s.threadTraces.Nodup) s s' := by
  have hcall : ∀ {t}, s.mayCall t → s.phase t ≠ .unborn ∧ s.registration t = .idle := by
    intro t ht
    obtain ⟨hphase, hidle, -⟩ := mayCall_iff.1 ht
    exact ⟨by rcases hphase with hp | hp <;> simp [hp], hidle⟩
  cases stepped_of_step h with
  | constructMain hmay honce =>
    refine (Effect.registers (fun hmain => ?_) (hcall hmay).1 (hcall hmay).2).trans
      (.same ⟨rfl, rfl, rfl, rfl, rfl, fun _ h => h, fun _ => ⟨rfl, rfl, rfl⟩⟩)
    exact (hmain.resolve_left fun hne => hne rfl).1
  | createThread t hunborn =>
    refine (Effect.same (sameOwners_setPhase (by simp))).trans
      (.registers ?_ ?_ (ho.unborn t hunborn).2)
    · exact fun _ => (ho.unborn t hunborn).1
    · simp [setPhase]
  | allocate t n block hasked hblock =>
    obtain ⟨d, hd⟩ := @allocated_allocateTrace s t n block hblock
    exact .allocated hasked hd
  | link t self tid hlinking hfree hself =>
    refine .linked (t := t) ⟨rfl, rfl, ?_, ?_, hself, rfl, rfl, rfl, hlinking, rfl, rfl⟩
    · dsimp only
      split_ifs <;> rfl
    · dsimp only
      split_ifs <;> rfl
  | ignoreThisThread t _ hmay hfree hs =>
    exact (effect_unregisterThisThread ho (hcall hmay).2 (by simp) hs).1
  | setThreadLogBufSize t n s₁ hmay hfree hs₁ hsize =>
    obtain ⟨heff, hgone, hphase, hreg⟩ :=
      effect_unregisterThisThread ho (hcall hmay).2 (by simp) hs₁
    refine heff.trans (.registers (fun ht => hgone (ht.imp_right And.right)) ?_ ?_)
    · rw [hphase]
      exact (hcall hmay).1
    · rw [hreg]
      exact (hcall hmay).2
  | unsetThreadLogBufSize t n _ hmay hfree hs hsize =>
    exact (effect_unregisterThisThread ho (hcall hmay).2 (by simp) hs).1
  | returnFromStart t name clock s₁ hmay hrunning ht hfree hs₁ =>
    obtain ⟨heff, -⟩ := effect_unregisterThisThread ho (hcall hmay).2 (fun _ => ht) hs₁
    exact heff.trans (.same (sameOwners_setPhase (by simp)))
  | exitThread t hmay hrunning => exact .same (sameOwners_setPhase (by simp))
  | endThread t hmay hfinishing => exact .same (sameOwners_setPhase (by simp))
  | collectGarbage exitingProgram clock _ hfree hs => exact effect_collectGarbage ho hs
  | disableTracing hfree => exact .same sameOwners_pauseTracing
  | enableTracing hfree => exact .same sameOwners_resumeTracing
  | beginSnapshot names hfree =>
    refine .same (sameOwners_pauseTracing.trans ((sameOwners_onAll fun r d => ?_).trans
      ⟨rfl, rfl, rfl, rfl, rfl, fun _ h => h, fun _ => ⟨rfl, rfl, rfl⟩⟩))
    unfold TraceData.updateName
    split_ifs <;> exact ⟨rfl, rfl, rfl⟩
  | endSnapshot hlocked =>
    exact .same (sameOwners_resumeTracing.trans
      ⟨rfl, rfl, rfl, rfl, rfl, fun _ h => h, fun _ => ⟨rfl, rfl, rfl⟩⟩)
  | trace t call hmay =>
    obtain ⟨hbuf, hsize, hthread⟩ := Tracer.step_owner
      (Tracer.step_enter (show (s.tracer t).pending = none from (mayCall_iff.1 hmay).2.2))
    exact .same (sameOwners_withTracer hbuf hsize hthread)
  | store t slot entry st rest hpending =>
    obtain ⟨hbuf, hsize, hthread⟩ := Tracer.step_owner (Tracer.step_store
      (show (s.tracer t).pending = some ⟨slot, entry, st :: rest⟩ from hpending))
    exact .same (sameOwners_withTracer hbuf hsize hthread)

end

/-! ## What a step leaves alone -/

/-- The thread that takes a step. -/
def Action.thread : Action → Option ℕ
  | .constructMain => some 0
  | .createThread t | .allocate t _ | .link t _ _ | .ignoreThisThread t
  | .setThreadLogBufSize t _ | .returnFromStart t _ _ | .exitThread t | .endThread t
  | .trace t _ | .store t => some t
  | .collectGarbage _ _ | .disableTracing | .enableTracing | .beginSnapshot _ | .endSnapshot => none

/-- A step that resumes tracing. -/
def Action.resumes : Action → Prop
  | .enableTracing | .endSnapshot => True
  | _ => False

/-- Nothing has happened to a thread but that its mask may have been written. -/
structure Untouched (resumed : Prop) (s s' : Process) (t : ℕ) : Prop where
  registration : s'.registration t = s.registration t
  phase : s'.phase t = s.phase t
  pending : s'.pending t = s.pending t
  count : s'.threadTraces.count (.tls t) = s.threadTraces.count (.tls t)
  pos : (s'.data (.tls t)).pos = (s.data (.tls t)).pos
  buf : (s'.data (.tls t)).buf = (s.data (.tls t)).buf
  bufSize : (s'.data (.tls t)).bufSize = (s.data (.tls t)).bufSize
  mask : (s'.data (.tls t)).wraparoundMask = (s.data (.tls t)).wraparoundMask ∨
    (s'.data (.tls t)).wraparoundMask = 0 ∨
    (resumed ∧ (s'.data (.tls t)).wraparoundMask = ~~~(s.data (.tls t)).bufSize)

section
variable {resumed : Prop} {t u : ℕ}

theorem Untouched.refl (s : Process) (t : ℕ) : Untouched resumed s s t :=
  ⟨rfl, rfl, rfl, rfl, rfl, rfl, rfl, Or.inl rfl⟩

theorem Untouched.trans {s'' : Process} (h : Untouched resumed s s' t)
    (h' : Untouched resumed s' s'' t) : Untouched resumed s s'' t where
  registration := h'.registration.trans h.registration
  phase := h'.phase.trans h.phase
  pending := h'.pending.trans h.pending
  count := h'.count.trans h.count
  pos := h'.pos.trans h.pos
  buf := h'.buf.trans h.buf
  bufSize := h'.bufSize.trans h.bufSize
  mask := by
    rcases h'.mask with hm | hm | ⟨hres, hm⟩
    · rw [hm]
      exact h.mask
    · exact Or.inr (Or.inl hm)
    · exact Or.inr (Or.inr ⟨hres, hm.trans (by rw [h.bufSize])⟩)

theorem Untouched.mono {p : Prop} (h : Untouched resumed s s' t) (hp : resumed → p) :
    Untouched p s s' t :=
  { h with mask := h.mask.imp_right (Or.imp_right (And.imp_left hp)) }

theorem Untouched.mem (h : Untouched resumed s s' t) :
    .tls t ∈ s'.threadTraces ↔ .tls t ∈ s.threadTraces := by
  rw [← List.count_pos_iff, ← List.count_pos_iff, h.count]

/-- A state that differs in the data of others only. -/
theorem untouched_of_data {s s' : Process} (hreg : s'.registration t = s.registration t)
    (hphase : s'.phase t = s.phase t) (hpending : s'.pending t = s.pending t)
    (hcount : s'.threadTraces.count (.tls t) = s.threadTraces.count (.tls t))
    (hdata : s'.data (.tls t) = s.data (.tls t)) : Untouched resumed s s' t :=
  ⟨hreg, hphase, hpending, hcount, by rw [hdata], by rw [hdata], by rw [hdata], by rw [hdata]; exact Or.inl rfl⟩

theorem untouched_unregisterThisThread {deferFree : Bool} {name : Vector UInt8 16}
    {clock : ClockReading} (htu : t ≠ u)
    (h : s.unregisterThisThread u deferFree name clock = some s') : Untouched resumed s s' t := by
  have hne : TraceRef.tls t ≠ .tls u := by simpa using htu
  have hpending := congrFun (sameRest_unregisterThisThread h).1.pending t
  rcases unregisterThisThread_cases h with ⟨-, rfl⟩ | ⟨-, hrel⟩ | ⟨-, -, -, d, -, hhand⟩
  · exact Untouched.refl _ _
  · refine untouched_of_data (congrFun hrel.registration t) (congrFun hrel.phase t) hpending ?_
      (hrel.data_of_ne hne)
    have hcount := hrel.threadTraces.count_eq (.tls t)
    rwa [List.count_cons_of_ne (Ne.symm hne)] at hcount
  · refine untouched_of_data (congrFun hhand.registration t) (congrFun hhand.phase t) hpending ?_
      (hhand.data_of_ne (by simp))
    have hcount := hhand.threadTraces.count_eq (.tls t)
    rwa [List.count_cons_of_ne (Ne.symm hne), List.count_cons_of_ne (by simp)] at hcount

theorem untouched_collectGarbage (ho : s.Owned) {exitingProgram : Bool} {clock : ClockReading}
    (h : s.collectGarbage exitingProgram clock = some s') : Untouched resumed s s' t := by
  unfold collectGarbage at h
  split_ifs at h
  · obtain rfl := Option.some.inj h
    exact Untouched.refl _ _
  · obtain ⟨now, -, rfl⟩ := Option.map_eq_some_iff.1 h
    have hstart : SameOwners s { s with exiting := s.exiting || exitingProgram } :=
      ⟨rfl, rfl, rfl, rfl, rfl, fun _ h => h, fun _ => ⟨rfl, rfl, rfl⟩⟩
    refine (collectLoop_rule (P := fun s' => s'.Owned ∧ Untouched resumed s s' t) ?_ _ 0 _
      ⟨hstart.owned ho, untouched_of_data rfl rfl rfl rfl rfl⟩).2
    rintro s₁ i r ⟨ho₁, hs₁⟩ hr hc
    have hrel := released_collectAt ho₁ hr hc
    obtain ⟨n, rfl⟩ : ∃ n, r = .copy n := by
      rcases hrel.copies with ⟨hno, heq⟩ | ⟨n, hn, -⟩
      · cases r with
        | copy n => exact absurd rfl (hno n)
        | tls u =>
          have hdead : (s₁.data (.tls u)).thread = 0 := by
            simp only [collectable, decide_eq_true_eq] at hc
            exact hc.1
          exact absurd hdead (ho₁.tlsAlive u (List.mem_of_getElem? hr))
      · exact ⟨n, hn⟩
    refine ⟨hrel.owned ho₁, hs₁.trans ?_⟩
    refine untouched_of_data (congrFun hrel.registration t) (congrFun hrel.phase t) rfl ?_
      (hrel.data_of_ne (by simp))
    have hcount := hrel.threadTraces.count_eq (.tls t)
    rwa [List.count_cons_of_ne (by simp)] at hcount

theorem untouched_onAll {f : TraceRef → TraceData → TraceData}
    (hf : ∀ r d, (f r d).pos = d.pos ∧ (f r d).buf = d.buf ∧ (f r d).bufSize = d.bufSize ∧
      ((f r d).wraparoundMask = d.wraparoundMask ∨ (f r d).wraparoundMask = 0 ∨
        (resumed ∧ (f r d).wraparoundMask = ~~~d.bufSize))) : Untouched resumed s (s.onAll f) t := by
  by_cases hmem : .tls t ∈ s.threadTraces
  · have hdata : (s.onAll f).data (.tls t) = f (.tls t) (s.data (.tls t)) := if_pos hmem
    obtain ⟨hpos, hbuf, hsize, hmask⟩ := hf (.tls t) (s.data (.tls t))
    exact ⟨rfl, rfl, rfl, rfl, by rw [hdata, hpos], by rw [hdata, hbuf], by rw [hdata, hsize],
      by rw [hdata]; exact hmask⟩
  · exact untouched_of_data rfl rfl rfl rfl (if_neg hmem)

theorem untouched_pauseTracing : Untouched resumed s s.pauseTracing t :=
  (untouched_onAll (f := fun _ d => d.pauseTracing) fun _ _ =>
    ⟨rfl, rfl, rfl, Or.inr (Or.inl rfl)⟩).trans (untouched_of_data rfl rfl rfl rfl rfl)

theorem untouched_resumeTracing (hres : resumed) : Untouched resumed s s.resumeTracing t :=
  (untouched_onAll (f := fun _ d => d.resumeTracing) fun _ _ =>
    ⟨rfl, rfl, rfl, Or.inr (Or.inr ⟨hres, rfl⟩)⟩).trans (untouched_of_data rfl rfl rfl rfl rfl)

/-- **A step leaves other threads alone.** -/
theorem untouched_step {a : Action} (ho : s.Owned) (h : s.step a = some s')
    (ha : a.thread ≠ some t) : Untouched a.resumes s s' t := by
  have hother : ∀ {u}, a.thread = some u → t ≠ u ∧ TraceRef.tls t ≠ .tls u := by
    intro u hu
    have hne : t ≠ u := fun heq => ha (hu.trans (by rw [heq]))
    exact ⟨hne, by simpa using hne⟩
  cases stepped_of_step h with
  | constructMain hmay honce =>
    obtain ⟨hne, -⟩ := hother rfl
    exact untouched_of_data (Function.update_of_ne hne _ _) rfl rfl rfl rfl
  | createThread u hunborn =>
    obtain ⟨hne, -⟩ := hother rfl
    exact untouched_of_data (Function.update_of_ne hne _ _) (Function.update_of_ne hne _ _) rfl rfl rfl
  | allocate u n block hasked hblock =>
    obtain ⟨hne, href⟩ := hother rfl
    exact untouched_of_data (Function.update_of_ne hne _ _) rfl rfl rfl
      (Function.update_of_ne href _ _)
  | link u self tid hlinking hfree hself =>
    obtain ⟨hne, href⟩ := hother rfl
    refine untouched_of_data (Function.update_of_ne hne _ _) rfl rfl ?_
      (Function.update_of_ne href _ _)
    simp only [linkTrace]
    rw [List.count_append, List.count_singleton, if_neg (by simpa using Ne.symm hne), Nat.add_zero]
  | ignoreThisThread u _ hmay hfree hs => exact untouched_unregisterThisThread (hother rfl).1 hs
  | setThreadLogBufSize u n s₁ hmay hfree hs₁ hsize =>
    obtain ⟨hne, -⟩ := hother rfl
    exact (untouched_unregisterThisThread hne hs₁).trans
      (untouched_of_data (Function.update_of_ne hne _ _) rfl rfl rfl rfl)
  | unsetThreadLogBufSize u n _ hmay hfree hs hsize =>
    exact untouched_unregisterThisThread (hother rfl).1 hs
  | returnFromStart u name clock s₁ hmay hrunning hu hfree hs₁ =>
    obtain ⟨hne, -⟩ := hother rfl
    exact (untouched_unregisterThisThread hne hs₁).trans
      (untouched_of_data rfl (Function.update_of_ne hne _ _) rfl rfl rfl)
  | exitThread u hmay hrunning =>
    exact untouched_of_data rfl (Function.update_of_ne (hother rfl).1 _ _) rfl rfl rfl
  | endThread u hmay hfinishing =>
    exact untouched_of_data rfl (Function.update_of_ne (hother rfl).1 _ _) rfl rfl rfl
  | collectGarbage exitingProgram clock _ hfree hs => exact untouched_collectGarbage ho hs
  | disableTracing hfree => exact untouched_pauseTracing
  | enableTracing hfree => exact untouched_resumeTracing trivial
  | beginSnapshot names hfree =>
    refine untouched_pauseTracing.trans
      ((untouched_onAll (f := fun r d => d.updateName (names r)) fun r d => ?_).trans
        (untouched_of_data rfl rfl rfl rfl rfl))
    unfold TraceData.updateName
    split_ifs <;> exact ⟨rfl, rfl, rfl, Or.inl rfl⟩
  | endSnapshot hlocked =>
    exact (untouched_resumeTracing trivial).trans (untouched_of_data rfl rfl rfl rfl rfl)
  | trace u call hmay =>
    obtain ⟨hne, href⟩ := hother rfl
    exact untouched_of_data rfl rfl (Function.update_of_ne hne _ _) rfl (Function.update_of_ne href _ _)
  | store u slot entry st rest hpending =>
    obtain ⟨hne, href⟩ := hother rfl
    exact untouched_of_data rfl rfl (Function.update_of_ne hne _ _) rfl (Function.update_of_ne href _ _)

end

/-! ## Runs -/

theorem untouched_run {t : ℕ} : ∀ {acts : List Action} {s : Process}, s.Owned →
    (∀ a ∈ acts, a.thread ≠ some t) → runFrom step s acts = some s' → Untouched True s s' t
  | [], s, _, _, h => by
    obtain rfl := Option.some.inj h
    exact Untouched.refl _ _
  | a :: acts, s, ho, ha, h => by
    obtain ⟨s₁, hs₁, h⟩ := runFrom_cons h
    have hun := untouched_step ho hs₁ (ha a List.mem_cons_self)
    exact (hun.mono fun _ => trivial).trans (untouched_run ((effect_step ho hs₁).owned ho)
      (fun b hb => ha b (List.mem_cons_of_mem a hb)) h)

theorem owned_init {pid : UInt64} {gcMaxAgeMs : ℤ} {defaultLogBufSize : ℕ} {mem : Memory} :
    (init pid gcMaxAgeMs defaultLogBufSize mem).Owned := by
  constructor <;> simp [init, Holder, Heap.empty, Heap.Live]

theorem accounted_init {pid : UInt64} {gcMaxAgeMs : ℤ} {defaultLogBufSize : ℕ} {mem : Memory} :
    (init pid gcMaxAgeMs defaultLogBufSize mem).Accounted := by
  constructor <;> simp [init, Holder, Heap.empty, Heap.Live]

theorem owned_run {acts : List Action} (hs : s.Owned) (h : runFrom step s acts = some s') :
    s'.Owned :=
  run_invariant (P := fun _ => True) (fun _ _ _ hs _ hstep => (effect_step hs hstep).owned hs) hs
    (fun _ _ => trivial) h

/-- Threads that take no step never begin to register. -/
theorem registration_of_small {pid : UInt64} {gcMaxAgeMs : ℤ} {defaultLogBufSize : ℕ} {mem : Memory}
    {acts : List Action} (hrun : runFrom step (init pid gcMaxAgeMs defaultLogBufSize mem) acts = some s)
    {n : ℕ} (hn : ∀ a ∈ acts, a.thread.all (· < n)) (hsmall : ∀ t < n, s.registration t ≠ .linking)
    (t : ℕ) : s.registration t ≠ .linking := by
  by_cases ht : t < n
  · exact hsmall t ht
  · have hun := untouched_run (t := t) owned_init (fun a ha heq => ht (by
      have hall := hn a ha
      rw [heq] at hall
      simpa using hall)) hrun
    rw [hun.registration]
    simp [init]

theorem accounted_run {acts : List Action} (ho : s.Owned) (hs : s.Accounted)
    (hmain : Along step MainUnregistered s acts) (h : runFrom step s acts = some s') :
    s'.Accounted := by
  have hstep : ∀ (s : Process) (a : Action) (s' : Process), s.Owned ∧ s.Accounted →
      s.MainUnregistered a → s.step a = some s' → s'.Owned ∧ s'.Accounted := by
    rintro s a s' ⟨ho, hs⟩ ha h
    have heff := effect_step ho h
    exact ⟨heff.owned ho, heff.accounted ⟨ha, hs.nodup⟩ ho hs⟩
  exact (run_invariant_along hstep ⟨ho, hs⟩ hmain h).2

/-! ## Threads that end -/

/-- A thread that has ended is in the middle of nothing. -/
def EndedIdle (s : Process) : Prop :=
  ∀ t, s.phase t = .ended → s.registration t = .idle ∧ s.pending t = none

theorem mayCall_ne_ended {t : ℕ} (h : s.mayCall t) : s.phase t ≠ .ended := by
  rcases (mayCall_iff.1 h).1 with hp | hp <;> rw [hp] <;> simp

/-- A thread ends by its own last step, and takes none after it. -/
theorem ended_step {t : ℕ} {a : Action} (ho : s.Owned) (hidle : s.EndedIdle)
    (h : s.step a = some s') (hend : s'.phase t = .ended) :
    (a = .endThread t ∧ s.mayCall t) ∨ (s.phase t = .ended ∧ a.thread ≠ some t) := by
  by_cases ha : a.thread = some t
  · refine Or.inl ?_
    have hcall {u : ℕ} (hmay : s.mayCall u) (hu : u = t) : s.phase t ≠ .ended :=
      hu ▸ mayCall_ne_ended hmay
    cases stepped_of_step h with
    | constructMain hmay honce => exact absurd hend (hcall hmay (by simpa [Action.thread] using ha))
    | createThread u hunborn =>
      obtain rfl : u = t := by simpa [Action.thread] using ha
      simp [setPhase, setRegistration] at hend
    | allocate u n block hasked hblock =>
      obtain rfl : u = t := by simpa [Action.thread] using ha
      have := (hidle u hend).1
      rw [hasked] at this
      cases this
    | link u self tid hlinking hfree hself =>
      obtain rfl : u = t := by simpa [Action.thread] using ha
      have := (hidle u hend).1
      rw [hlinking] at this
      cases this
    | ignoreThisThread u _ hmay hfree hs | unsetThreadLogBufSize u n _ hmay hfree hs hsize =>
      rw [(sameRest_unregisterThisThread hs).1.phase] at hend
      exact absurd hend (hcall hmay (by simpa [Action.thread] using ha))
    | setThreadLogBufSize u n s₁ hmay hfree hs₁ hsize =>
      have hend : s₁.phase t = .ended := hend
      rw [(sameRest_unregisterThisThread hs₁).1.phase] at hend
      exact absurd hend (hcall hmay (by simpa [Action.thread] using ha))
    | returnFromStart u =>
      obtain rfl : u = t := by simpa [Action.thread] using ha
      simp [setPhase] at hend
    | exitThread u =>
      obtain rfl : u = t := by simpa [Action.thread] using ha
      simp [setPhase] at hend
    | endThread u hmay hfinishing =>
      obtain rfl : u = t := by simpa [Action.thread] using ha
      exact ⟨rfl, hmay⟩
    | collectGarbage | disableTracing | enableTracing | beginSnapshot | endSnapshot => cases ha
    | trace u call hmay => exact absurd hend (hcall hmay (by simpa [Action.thread] using ha))
    | store u slot entry st rest hpending =>
      obtain rfl : u = t := by simpa [Action.thread] using ha
      have := (hidle u hend).2
      rw [hpending] at this
      cases this
  · rw [(untouched_step ho h ha).phase] at hend
    exact Or.inr ⟨hend, ha⟩

theorem endedIdle_step {a : Action} (ho : s.Owned) (hidle : s.EndedIdle) (h : s.step a = some s') :
    s'.EndedIdle := by
  intro t hend
  rcases ended_step ho hidle h hend with ⟨rfl, hc⟩ | ⟨hend', ha⟩
  · obtain ⟨-, hreg, hpending⟩ := mayCall_iff.1 hc
    cases stepped_of_step h
    exact ⟨hreg, hpending⟩
  · have hun := untouched_step ho h ha
    rw [hun.registration, hun.pending]
    exact hidle t hend'

/-- The object that an element points to exists. -/
def Alive (s : Process) : TraceRef → Prop
  | .tls t => s.phase t = .running ∨ s.phase t = .finishing
  | .copy n => s.copies.Live n

theorem Owned.forall_alive (ho : s.Owned) : (∀ r ∈ s.threadTraces, s.Alive r) ↔
    ∀ t, s.phase t = .ended → .tls t ∉ s.threadTraces := by
  constructor
  · intro h t hend hmem
    have halive := h _ hmem
    rw [Alive, hend] at halive
    simp at halive
  · rintro h (t | n) hmem
    · have hborn : s.phase t ≠ .unborn := fun hp => (ho.unborn t hp).1 hmem
      have hlive : s.phase t ≠ .ended := fun hp => h t hp hmem
      cases hp : s.phase t with
      | unborn => exact absurd hp hborn
      | running => exact Or.inl hp
      | finishing => exact Or.inr hp
      | ended => exact absurd hp hlive
    · exact ho.copyLive n hmem

/-- No thread ends while it is registered, as it does if it leaves by `pthread_exit`, or registers
    again in a destructor after its start routine has returned. -/
def EndsUnregistered (s : Process) : Action → Prop
  | .endThread t => .tls t ∉ s.threadTraces
  | _ => True

instance (s : Process) : ∀ a, Decidable (s.EndsUnregistered a)
  | .endThread t => inferInstanceAs (Decidable (.tls t ∉ s.threadTraces))
  | .constructMain | .createThread _ | .allocate _ _ | .link _ _ _ | .ignoreThisThread _
  | .setThreadLogBufSize _ _ | .returnFromStart _ _ _ | .exitThread _ | .collectGarbage _ _
  | .disableTracing | .enableTracing | .beginSnapshot _ | .endSnapshot | .trace _ _
  | .store _ => isTrue trivial

/-- Threads that have ended have left nothing behind. -/
structure EndedGone (s : Process) : Prop where
  idle : s.EndedIdle
  gone : ∀ t, s.phase t = .ended → .tls t ∉ s.threadTraces

theorem EndedGone.step {a : Action} (hg : s.EndedGone) (ho : s.Owned) (hok : s.EndsUnregistered a)
    (h : s.step a = some s') : s'.EndedGone where
  idle := endedIdle_step ho hg.idle h
  gone t hend := by
    rcases ended_step ho hg.idle h hend with ⟨rfl, -⟩ | ⟨hend', ha⟩
    · cases stepped_of_step h
      exact hok
    · rw [(untouched_step ho h ha).mem]
      exact hg.gone t hend'

section
variable {pid : UInt64} {gcMaxAgeMs : ℤ} {defaultLogBufSize : ℕ} {mem : Memory}

theorem endedIdle_init : (init pid gcMaxAgeMs defaultLogBufSize mem).EndedIdle := by
  intro t _
  exact ⟨rfl, rfl⟩

theorem endedGone_init : (init pid gcMaxAgeMs defaultLogBufSize mem).EndedGone :=
  ⟨endedIdle_init, fun _ _ => by simp [init]⟩

end

theorem endedIdle_run {acts : List Action} (ho : s.Owned) (hidle : s.EndedIdle)
    (h : runFrom step s acts = some s') : s'.EndedIdle :=
  (run_invariant (I := fun s => s.Owned ∧ s.EndedIdle) (P := fun _ => True)
    (fun _ _ _ hs _ hstep => ⟨(effect_step hs.1 hstep).owned hs.1, endedIdle_step hs.1 hs.2 hstep⟩)
    ⟨ho, hidle⟩ (fun _ _ => trivial) h).2

theorem endedGone_run {acts : List Action} (ho : s.Owned) (hg : s.EndedGone)
    (hends : Along step EndsUnregistered s acts) (h : runFrom step s acts = some s') : s'.EndedGone :=
  (run_invariant_along (I := fun s => s.Owned ∧ s.EndedGone)
    (fun _ _ _ hs hok hstep => ⟨(effect_step hs.1 hstep).owned hs.1, hs.2.step hs.1 hok hstep⟩)
    ⟨ho, hg⟩ hends h).2

/-! ## The registry -/

/-- What `thread_traces` and the buffers are like when no thread is half registered. -/
structure InOrder (s : Process) : Prop where
  distinct : s.threadTraces.Nodup
  once : ∀ t, s.threadTraces.count (.tls t) ≤ 1
  owner : ∀ b, s.buffers.Live b → ∃! r, r ∈ s.threadTraces ∧ (s.data r).buf = b
  live : ∀ r ∈ s.threadTraces, (s.data r).buf ≠ 0 → s.buffers.Live (s.data r).buf
  buffersFreed : s.buffers.badFrees = 0
  copiesFreed : s.copies.badFrees = 0

theorem Owned.inOrder (ho : s.Owned) (hs : s.Accounted) (hreg : ∀ t, s.registration t ≠ .linking) :
    s.InOrder where
  distinct := hs.nodup
  once t := List.nodup_iff_count.1 hs.nodup _
  owner b hb := by
    obtain ⟨r, hr, rfl⟩ := hs.noLeak b hb
    have hmem : r ∈ s.threadTraces := hr.resolve_right fun ⟨t, _, ht⟩ => hreg t ht
    refine ⟨r, ⟨hmem, rfl⟩, ?_⟩
    rintro r' ⟨hmem', heq⟩
    refine ho.bufInj r' r (Or.inl hmem') hr heq fun hnull => ?_
    rw [← heq, hnull] at hb
    exact hs.notNull hb
  live r hr hne := ⟨_, ho.bufLive r (Or.inl hr) hne⟩
  buffersFreed := ho.buffersFreed
  copiesFreed := ho.copiesFreed

/-- The main thread is not registered yet when it registers itself, and no thread ends while it is
    registered. -/
def Orderly (s : Process) (a : Action) : Prop := s.MainUnregistered a ∧ s.EndsUnregistered a

instance (s : Process) (a : Action) : Decidable (s.Orderly a) :=
  inferInstanceAs (Decidable (s.MainUnregistered a ∧ s.EndsUnregistered a))

/-- **Every buffer has one owner.**  Whatever threads, snapshots and garbage collection do, the
    registry is in order whenever no thread is half registered, and points to what exists, if the
    main thread was not registered already when it registered itself and no thread ends while it
    is registered. -/
theorem inOrder_run {pid : UInt64} {gcMaxAgeMs : ℤ} {defaultLogBufSize : ℕ} {mem : Memory}
    {acts : List Action}
    (horderly : Along step Orderly (init pid gcMaxAgeMs defaultLogBufSize mem) acts)
    (hrun : runFrom step (init pid gcMaxAgeMs defaultLogBufSize mem) acts = some s)
    (hreg : ∀ t, s.registration t ≠ .linking) :
    s.InOrder ∧ ∀ r ∈ s.threadTraces, s.Alive r := by
  have ho := owned_run owned_init hrun
  have hmain := horderly.mono fun _ _ h => h.1
  have hends := horderly.mono fun _ _ h => h.2
  exact ⟨ho.inOrder (accounted_run owned_init accounted_init hmain hrun) hreg,
    ho.forall_alive.2 (endedGone_run owned_init endedGone_init hends hrun).gone⟩

/-- A thread is created, asks for a larger buffer, which it does not get, and returns; its buffer
    is collected. -/
def demoActions : List Action :=
  [.constructMain, .allocate 0 (some 0x10000), .link 0 1 1,
    .createThread 1, .allocate 1 (some 0x20000), .link 1 2 2,
    .setThreadLogBufSize 1 6, .allocate 1 none, .link 1 2 2,
    .createThread 2, .allocate 2 (some 0x20000), .link 2 3 3,
    .returnFromStart 2 (Vector.replicate 16 0) ⟨5000, 1000000⟩, .endThread 2,
    .collectGarbage false ⟨400000, 1000000⟩]

theorem inOrder_run_demo : ∃ s, runFrom step (init 1 300 5 fun _ => 0) demoActions = some s ∧
    s.InOrder ∧ ∀ r ∈ s.threadTraces, s.Alive r := by
  have hsome : (runFrom step (init 1 300 5 fun _ => 0) demoActions).isSome := by decide +kernel
  obtain ⟨s, hs⟩ := Option.isSome_iff_exists.1 hsome
  have hidle : ∀ s ∈ runFrom step (init 1 300 5 fun _ => 0) demoActions,
      ∀ t < 3, s.registration t ≠ .linking := by decide +kernel
  refine ⟨s, hs, inOrder_run (by decide +kernel) hs ?_⟩
  exact registration_of_small hs (by decide) (hidle s hs)

/-- A static constructor that runs earlier sets the size of the main thread's buffer: the main
    thread is registered twice, and its first buffer is lost. -/
theorem not_inOrder : ¬ ∀ (acts : List Action) (s : Process),
    runFrom step (init 1 300 5 fun _ => 0) acts = some s →
      (∀ t, s.registration t ≠ .linking) → s.InOrder := by
  intro h
  let acts : List Action := [.setThreadLogBufSize 0 5, .allocate 0 (some 0x10000), .link 0 1 1,
    .constructMain, .allocate 0 (some 0x20000), .link 0 1 1]
  have hsome : (runFrom step (init 1 300 5 fun _ => 0) acts).isSome := by decide +kernel
  obtain ⟨s, hs⟩ := Option.isSome_iff_exists.1 hsome
  have hidle : ∀ s ∈ runFrom step (init 1 300 5 fun _ => 0) acts,
      (∀ t < 1, s.registration t ≠ .linking) ∧ ¬ s.threadTraces.Nodup := by decide +kernel
  obtain ⟨hsmall, htwice⟩ := hidle s hs
  exact htwice (h acts s hs (registration_of_small hs (by decide) hsmall)).distinct

end Process

end Funtrace
