/-
  Garbage collection: never without a collector, and never early.

  The buffer of a thread that returns is left to garbage collection if `gc_max_age_ms`
  is not zero, and that of a thread that ends in another way is left on the list.  There
  is a collector if the macro of that name is positive and `gc_period_ms` is not zero.
  Without one nothing is left on the list only if no thread leaves anything
  (`noFinished_iff`).

  A collector that wakes up by timeout frees no trace of a thread that has finished
  recently, as long as the estimates of the clock leave the trace young (`young_iff`,
  `kept_wake`).
-/
import Mathlib.Tactic.Linarith
import Funtrace.Proof.ThreadExit
import Funtrace.Runtime.Collector

namespace Funtrace

namespace Process
variable {s s' : Process}

/-! ## Settings -/

/-- What garbage collection apart no step changes. -/
structure SameGc (s s' : Process) : Prop where
  gcMaxAgeMs : s'.gcMaxAgeMs = s.gcMaxAgeMs
  exiting : s'.exiting = s.exiting

theorem sameGc_unregisterThisThread {t : ℕ} {deferFree : Bool} {name : Vector UInt8 16}
    {clock : ClockReading} (h : s.unregisterThisThread t deferFree name clock = some s') : SameGc s s' :=
  ⟨(sameRest_unregisterThisThread h).1.gcMaxAgeMs, (sameRest_unregisterThisThread h).2⟩

/-- **Garbage collection apart**, no step changes `gc_max_age_ms` or `exiting`. -/
theorem gc_step {a : Action} (ha : ∀ b clock, a ≠ .collectGarbage b clock)
    (h : s.step a = some s') : SameGc s s' := by
  cases stepped_of_step h with
  | collectGarbage b clock => exact absurd rfl (ha b clock)
  | constructMain | createThread | allocate | link | exitThread | endThread | disableTracing
  | enableTracing | beginSnapshot | endSnapshot | trace | store => exact ⟨rfl, rfl⟩
  | ignoreThisThread t _ hmay hfree hs | unsetThreadLogBufSize t n _ hmay hfree hs hsize =>
    exact sameGc_unregisterThisThread hs
  | setThreadLogBufSize t n s₁ hmay hfree hs₁ hsize =>
    have hsame := sameGc_unregisterThisThread hs₁
    exact ⟨hsame.gcMaxAgeMs, hsame.exiting⟩
  | returnFromStart t name clock s₁ hmay hrunning ht hfree hs₁ =>
    have hsame := sameGc_unregisterThisThread hs₁
    exact ⟨hsame.gcMaxAgeMs, hsame.exiting⟩

theorem copy_unregisterThisThread {t : ℕ} {deferFree : Bool} {name : Vector UInt8 16}
    {clock : ClockReading} (h : s.unregisterThisThread t deferFree name clock = some s') {n : ℕ}
    (hn : .copy n ∈ s'.threadTraces) :
    (.copy n ∈ s.threadTraces ∧
      (s'.data (.copy n)).timeOfDeathMs = (s.data (.copy n)).timeOfDeathMs) ∨
    deferFree = true ∧ s.gcMaxAgeMs ≠ 0 ∧ .tls t ∈ s.threadTraces ∧ n = s.numCopies ∧
      clock.currentTimeMs = some (s'.data (.copy n)).timeOfDeathMs := by
  rcases unregisterThisThread_cases h with
    ⟨-, rfl⟩ | ⟨-, hrel⟩ | ⟨hdefer, hage, -, now, hclock, hhand⟩
  · exact Or.inl ⟨hn, rfl⟩
  · exact Or.inl ⟨hrel.mem hn, by rw [hrel.data_of_ne (by simp)]⟩
  · by_cases hnew : n = s.numCopies
    · subst hnew
      exact Or.inr ⟨hdefer, hage, hhand.tls_mem, rfl, by rw [hhand.data_new]; exact hclock⟩
    · have hne : TraceRef.copy n ≠ .copy s.numCopies := by simpa using hnew
      exact Or.inl ⟨(hhand.mem hn).resolve_left hne, by rw [hhand.data_of_ne hne]⟩

theorem copy_collectGarbage (ho : s.Owned) {exitingProgram : Bool} {clock : ClockReading}
    (h : s.collectGarbage exitingProgram clock = some s') {n : ℕ} (hn : .copy n ∈ s'.threadTraces) :
    .copy n ∈ s.threadTraces ∧
      (s'.data (.copy n)).timeOfDeathMs = (s.data (.copy n)).timeOfDeathMs := by
  unfold collectGarbage at h
  split_ifs at h
  · obtain rfl := Option.some.inj h
    exact ⟨hn, rfl⟩
  · obtain ⟨now, -, rfl⟩ := Option.map_eq_some_iff.1 h
    have hstart : SameOwners s { s with exiting := s.exiting || exitingProgram } :=
      ⟨rfl, rfl, rfl, rfl, rfl, fun _ h => h, fun _ => ⟨rfl, rfl, rfl⟩⟩
    refine (collectLoop_rule (P := fun s' => s'.Owned ∧ ∀ n, .copy n ∈ s'.threadTraces →
      .copy n ∈ s.threadTraces ∧ (s'.data (.copy n)).timeOfDeathMs =
        (s.data (.copy n)).timeOfDeathMs) ?_ _ 0 _
      ⟨hstart.owned ho, fun n hn => ⟨hn, rfl⟩⟩).2 n hn
    rintro s₁ i r ⟨ho₁, hs₁⟩ hr hc
    have hrel := released_collectAt ho₁ hr hc
    refine ⟨hrel.owned ho₁, fun m hm => ?_⟩
    have hmr : .copy m ≠ r := by
      rintro rfl
      exact ho₁.not_mem_of_perm hrel.threadTraces (by simp) hm
    rw [hrel.data_of_ne hmr]
    exact hs₁ m (hrel.mem hm)

theorem timeOfDeathMs_onAll {f : TraceRef → TraceData → TraceData}
    (hf : ∀ r d, (f r d).timeOfDeathMs = d.timeOfDeathMs) (r : TraceRef) :
    ((s.onAll f).data r).timeOfDeathMs = (s.data r).timeOfDeathMs := by
  unfold onAll
  dsimp only
  split_ifs
  exacts [hf r _, rfl]

theorem timeOfDeathMs_pauseTracing (s : Process) (r : TraceRef) :
    (s.pauseTracing.data r).timeOfDeathMs = (s.data r).timeOfDeathMs :=
  timeOfDeathMs_onAll (f := fun _ d => d.pauseTracing) (fun _ _ => rfl) r

theorem timeOfDeathMs_resumeTracing (s : Process) (r : TraceRef) :
    (s.resumeTracing.data r).timeOfDeathMs = (s.data r).timeOfDeathMs :=
  timeOfDeathMs_onAll (f := fun _ d => d.resumeTracing) (fun _ _ => rfl) r

/-- A copy on the list was there before, or has just been made. -/
theorem copy_step {a : Action} (ho : s.Owned) (h : s.step a = some s') {n : ℕ}
    (hn : .copy n ∈ s'.threadTraces) :
    (.copy n ∈ s.threadTraces ∧
      (s'.data (.copy n)).timeOfDeathMs = (s.data (.copy n)).timeOfDeathMs) ∨
    ∃ t name clock, a = .returnFromStart t name clock ∧ s.gcMaxAgeMs ≠ 0 ∧
      .tls t ∈ s.threadTraces ∧ n = s.numCopies ∧
        clock.currentTimeMs = some (s'.data (.copy n)).timeOfDeathMs := by
  cases stepped_of_step h with
  | constructMain | createThread | exitThread | endThread => exact Or.inl ⟨hn, rfl⟩
  | allocate => exact Or.inl ⟨hn, by simp [allocateTrace, write]⟩
  | link => exact Or.inl ⟨by simpa [linkTrace] using hn, by simp [linkTrace, write]⟩
  | ignoreThisThread u _ hmay hfree hs | unsetThreadLogBufSize u m _ hmay hfree hs hsize =>
    exact Or.inl ((copy_unregisterThisThread hs hn).resolve_right (by simp))
  | setThreadLogBufSize u m s₁ hmay hfree hs₁ hsize =>
    exact Or.inl ((copy_unregisterThisThread hs₁ hn).resolve_right (by simp))
  | returnFromStart u name clock s₁ hmay hrunning hu hfree hs₁ =>
    refine (copy_unregisterThisThread hs₁ hn).imp (fun hold => hold) ?_
    rintro ⟨-, hage, hmem, hnew, hclock⟩
    exact ⟨u, name, clock, rfl, hage, hmem, hnew, hclock⟩
  | collectGarbage exitingProgram clock _ hfree hs => exact Or.inl (copy_collectGarbage ho hs hn)
  | disableTracing => exact Or.inl ⟨hn, timeOfDeathMs_pauseTracing s _⟩
  | enableTracing | endSnapshot => exact Or.inl ⟨hn, timeOfDeathMs_resumeTracing s _⟩
  | beginSnapshot names hfree =>
    refine Or.inl ⟨hn, ?_⟩
    have hname : ∀ (r : TraceRef) (d : TraceData),
        (d.updateName (names r)).timeOfDeathMs = d.timeOfDeathMs := by
      intro r d
      unfold TraceData.updateName
      split_ifs <;> rfl
    exact (timeOfDeathMs_onAll hname _).trans (timeOfDeathMs_pauseTracing s _)
  | trace | store => exact Or.inl ⟨hn, by simp [withTracer, write]⟩

/-- The trace is one of a finished thread: a copy, whose `thread` is null, or that of a thread that
    has ended. -/
def Finished (s : Process) (r : TraceRef) : Prop :=
  (s.data r).thread = 0 ∨ ∃ t, r = .tls t ∧ s.phase t = .ended

/-- No collector, and so no step of one. -/
def Uncollected (acts : List Action) : Prop := ∀ a ∈ acts, ∀ b clock, a ≠ .collectGarbage b clock

theorem Owned.forall_not_finished (ho : s.Owned) : (∀ r ∈ s.threadTraces, ¬ s.Finished r) ↔
    (∀ t, s.phase t = .ended → .tls t ∉ s.threadTraces) ∧ ∀ n, .copy n ∉ s.threadTraces := by
  constructor
  · intro h
    exact ⟨fun t hend hmem => h _ hmem (Or.inr ⟨t, rfl, hend⟩),
      fun n hmem => h _ hmem (Or.inl (ho.copyDead n hmem))⟩
  · rintro ⟨hended, hcopies⟩ (t | n) hmem
    · rintro (hdead | ⟨u, hu, hend⟩)
      · exact ho.tlsAlive t hmem hdead
      · obtain rfl := TraceRef.tls.inj hu
        exact hended t hend hmem
    · exact absurd hmem (hcopies n)

/-- A registered thread that returns leaves a copy if the age is not zero. -/
theorem copy_returnFromStart {t : ℕ} {name : Vector UInt8 16} {clock : ClockReading}
    (h : s.step (.returnFromStart t name clock) = some s') (hage : s.gcMaxAgeMs ≠ 0)
    (hexit : s.exiting = false) (hmem : .tls t ∈ s.threadTraces) :
    .copy s.numCopies ∈ s'.threadTraces := by
  cases stepped_of_step h with
  | returnFromStart _ _ _ s₁ hmay hrunning ht hfree hs₁ =>
    rcases unregisterThisThread_cases hs₁ with
      ⟨hnot, -⟩ | ⟨hfreed, -⟩ | ⟨-, -, -, now, -, hhand⟩
    · exact absurd hmem hnot
    · simp [hage, hexit] at hfreed
    · have hnew := hhand.threadTraces.mem_iff.2 List.mem_cons_self
      exact (List.mem_cons.1 hnew).resolve_left (by simp)

section
variable {pid : UInt64} {gcMaxAgeMs : ℤ} {defaultLogBufSize : ℕ} {mem : Memory}

theorem gc_run {acts : List Action} (hacts : Uncollected acts)
    (hrun : runFrom step (init pid gcMaxAgeMs defaultLogBufSize mem) acts = some s) :
    s.gcMaxAgeMs = gcMaxAgeMs ∧ s.exiting = false := by
  refine run_invariant (I := fun s => s.gcMaxAgeMs = gcMaxAgeMs ∧ s.exiting = false) ?_ ⟨rfl, rfl⟩
    hacts hrun
  rintro s a s' ⟨hage, hexit⟩ ha h
  have hsame := gc_step ha h
  exact ⟨hsame.gcMaxAgeMs.trans hage, hsame.exiting.trans hexit⟩

/-- A copy on the list was left by a registered thread that returned. -/
theorem not_copy_mem {acts : List Action} (hacts : Uncollected acts)
    (hreturns : gcMaxAgeMs = 0 ∨ ∀ t name clock before,
      before ++ [.returnFromStart t name clock] <+: acts → timesRegistered t before = 0)
    (hrun : runFrom step (init pid gcMaxAgeMs defaultLogBufSize mem) acts = some s) (n : ℕ) :
    .copy n ∉ s.threadTraces := by
  induction acts using List.reverseRecOn generalizing s with
  | nil =>
    obtain rfl := Option.some.inj hrun
    simp [init]
  | append_singleton acts a ih =>
    have hacts₁ : Uncollected acts := fun b hb => hacts b (List.mem_append_left _ hb)
    rw [runFrom_append] at hrun
    obtain ⟨s₁, hs₁, hstep⟩ := Option.bind_eq_some_iff.1 hrun
    obtain ⟨s₂, hs₂, hnil⟩ := runFrom_cons hstep
    obtain rfl := Option.some.inj hnil
    have hbefore := ih hacts₁ (hreturns.imp_right fun h t name clock before hpre =>
      h t name clock before (hpre.trans (List.prefix_append _ _))) hs₁
    intro hmem
    rcases copy_step (owned_run owned_init hs₁) hs₂ hmem with
      ⟨hold, -⟩ | ⟨t, name, clock, rfl, hage, hreg, -⟩
    · exact hbefore hold
    · rw [(gc_run hacts₁ hs₁).1] at hage
      have hzero := hreturns.resolve_left hage t name clock acts List.prefix_rfl
      exact List.count_eq_zero.1 ((count_run owned_init hs₁).trans hzero) hreg

/-- Without a collector no copy is ever on the list if and only if there is no age, or no thread
    that returns is registered. -/
theorem copies_iff {acts : List Action} (hacts : Uncollected acts)
    (hrun : runFrom step (init pid gcMaxAgeMs defaultLogBufSize mem) acts = some s) :
    (∀ before s', before <+: acts →
      runFrom step (init pid gcMaxAgeMs defaultLogBufSize mem) before = some s' →
        ∀ n, .copy n ∉ s'.threadTraces) ↔
    (gcMaxAgeMs = 0 ∨ ∀ t name clock before,
      before ++ [.returnFromStart t name clock] <+: acts → timesRegistered t before = 0) := by
  constructor
  · intro h
    by_contra hno
    simp only [not_or, not_forall] at hno
    obtain ⟨hage, t, name, clock, before, ⟨rest, rfl⟩, hregistered⟩ := hno
    rw [runFrom_append] at hrun
    obtain ⟨s₂, hs₂, -⟩ := Option.bind_eq_some_iff.1 hrun
    have hnone := h _ _ (List.prefix_append _ _) hs₂
    rw [runFrom_append] at hs₂
    obtain ⟨s₁, hs₁, hstep⟩ := Option.bind_eq_some_iff.1 hs₂
    obtain ⟨s₃, hs₃, hnil⟩ := runFrom_cons hstep
    obtain rfl := Option.some.inj hnil
    have hgc := gc_run (fun a ha => hacts a (by simp [ha])) hs₁
    refine hnone _ (copy_returnFromStart hs₃ (hgc.1 ▸ hage) hgc.2 ?_)
    rw [← List.count_pos_iff, count_run owned_init hs₁]
    exact Nat.pos_of_ne_zero hregistered
  · intro hreturns before s' hpre hrun'
    refine not_copy_mem (fun a ha => hacts a (hpre.subset ha)) (hreturns.imp_right ?_) hrun'
    intro h t name clock b hb
    exact h t name clock b (hb.trans hpre)

end

/-- **Dead buffers have a collector.**  In a run without a collector `thread_traces` never has a
    trace of a finished thread if and only if each thread that ends has unregistered as often as
    it has registered, and so has each that returns if `gc_max_age_ms` is not zero. -/
theorem noFinished_iff {c : GcSettings} {pid : UInt64} {defaultLogBufSize : ℕ} {mem : Memory}
    {acts : List Action} (hacts : c.startsCollector = false → Uncollected acts)
    (hrun : runFrom step (init pid c.gcMaxAgeMs defaultLogBufSize mem) acts = some s) :
    (c.startsCollector = false → ∀ before s', before <+: acts →
      runFrom step (init pid c.gcMaxAgeMs defaultLogBufSize mem) before = some s' →
        ∀ r ∈ s'.threadTraces, ¬ s'.Finished r) ↔
    c.startsCollector = true ∨
      (∀ t before, before ++ [.endThread t] <+: acts → timesRegistered t before = 0) ∧
      (c.gcMaxAgeMs = 0 ∨ ∀ t name clock before,
        before ++ [.returnFromStart t name clock] <+: acts → timesRegistered t before = 0) := by
  cases hstarts : c.startsCollector with
  | true => simp
  | false =>
    rw [← ended_iff hrun, ← copies_iff (hacts hstarts) hrun]
    simp only [Bool.false_eq_true, false_or, forall_const]
    constructor
    · intro h
      have hboth := fun before s' hpre hrun' =>
        (owned_run owned_init hrun').forall_not_finished.1 (h before s' hpre hrun')
      exact ⟨fun before s' hpre hrun' => (hboth before s' hpre hrun').1,
        fun before s' hpre hrun' => (hboth before s' hpre hrun').2⟩
    · rintro ⟨hended, hcopies⟩ before s' hpre hrun'
      exact (owned_run owned_init hrun').forall_not_finished.2
        ⟨hended before s' hpre hrun', hcopies before s' hpre hrun'⟩

/-- `FUNTRACE_GC_MAX_AGE_MS=0` in the environment: a thread returns, and its buffer is freed. -/
theorem noFinished_iff_demo :
    let c : GcSettings := ⟨300, 300, some "0", some "0"⟩
    let acts : List Action := [.createThread 1, .allocate 1 (some 0x10000), .link 1 2 2,
      .returnFromStart 1 (Vector.replicate 16 0) ⟨0, 1000⟩, .endThread 1]
    c.startsCollector = false ∧ ∃ s, runFrom step (init 1 c.gcMaxAgeMs 5 fun _ => 0) acts = some s ∧
      ∀ r ∈ s.threadTraces, ¬ s.Finished r := by
  intro c acts
  have hstarts : c.startsCollector = false := by decide
  have hsome : (runFrom step (init 1 c.gcMaxAgeMs 5 fun _ => 0) acts).isSome := by decide +kernel
  obtain ⟨s, hs⟩ := Option.isSome_iff_exists.1 hsome
  refine ⟨hstarts, s, hs, (noFinished_iff (fun _ => ?_) hs).2 (Or.inr ⟨?_, Or.inl (by decide)⟩)
    hstarts acts s List.prefix_rfl hs⟩
  · simp [Uncollected, acts]
  · intro t before hpre
    obtain ⟨hget, htake⟩ := getElem?_of_prefix hpre
    have hlt : before.length < 5 := (List.getElem?_eq_some_iff.1 hget).1
    generalize before.length = i at hget htake hlt
    subst htake
    interval_cases i <;> simp only [acts, List.getElem?_cons_zero, List.getElem?_cons_succ,
      Option.some.injEq, reduceCtorEq, Action.endThread.injEq] at hget
    subst hget
    decide

/-- `FUNTRACE_GC_PERIOD_MS=0` in the environment: no collector, but buffers are left to it. -/
theorem not_noFinished : ¬ ∀ (c : GcSettings), c.startsCollector = false →
    ∀ (acts : List Action) (s : Process), Uncollected acts →
      runFrom step (init 1 c.gcMaxAgeMs 5 fun _ => 0) acts = some s →
        ∀ r ∈ s.threadTraces, ¬ s.Finished r := by
  intro h
  let c : GcSettings := ⟨300, 300, none, some "0"⟩
  let acts : List Action := [.createThread 1, .allocate 1 (some 0x10000), .link 1 2 2,
    .returnFromStart 1 (Vector.replicate 16 0) ⟨0, 1000⟩]
  have hsome : (runFrom step (init 1 c.gcMaxAgeMs 5 fun _ => 0) acts).isSome := by decide +kernel
  obtain ⟨s, hs⟩ := Option.isSome_iff_exists.1 hsome
  have hleft : ∀ s ∈ runFrom step (init 1 c.gcMaxAgeMs 5 fun _ => 0) acts,
      .copy 0 ∈ s.threadTraces ∧ (s.data (.copy 0)).thread = 0 := by decide +kernel
  obtain ⟨hmem, hdead⟩ := hleft s hs
  exact h c (by decide) acts s (by simp [Uncollected, acts]) hs _ hmem (Or.inl hdead)

/-! ## What is kept -/

theorem collectGarbage_of_step {exitingProgram : Bool} {clock : ClockReading}
    (h : s.step (.collectGarbage exitingProgram clock) = some s') :
    s.collectGarbage exitingProgram clock = some s' := by
  cases stepped_of_step h with
  | collectGarbage _ _ _ hfree h => exact h

/-- Without an age there is nothing to collect. -/
theorem eq_of_collectGarbage {exitingProgram : Bool} {clock : ClockReading}
    (h : s.step (.collectGarbage exitingProgram clock) = some s') (hage : s.gcMaxAgeMs = 0) :
    s' = s := by
  have h := collectGarbage_of_step h
  rw [collectGarbage, if_pos hage] at h
  exact (Option.some.inj h).symm

theorem exiting_collectGarbage {clock : ClockReading} (hexit : s.exiting = false)
    (h : s.step (.collectGarbage false clock) = some s') : s'.exiting = false := by
  have h := collectGarbage_of_step h
  unfold collectGarbage at h
  split_ifs at h
  · obtain rfl := Option.some.inj h
    exact hexit
  · obtain ⟨now, -, rfl⟩ := Option.map_eq_some_iff.1 h
    refine collectLoop_rule (P := fun s => s.exiting = false) (fun _ _ _ hs _ _ => hs) _ 0 _ ?_
    simp [hexit]

/-- A trace that is not old stays. -/
theorem kept_collectGarbage (ho : s.Owned) {clock : ClockReading} (hexit : s.exiting = false)
    (h : s.step (.collectGarbage false clock) = some s') {n : ℕ} (hn : .copy n ∈ s.threadTraces)
    (hyoung : ∀ now, clock.currentTimeMs = some now →
      (s.data (.copy n)).timeOfDeathMs + UInt64.ofInt s.gcMaxAgeMs > now) :
    .copy n ∈ s'.threadTraces := by
  have h := collectGarbage_of_step h
  unfold collectGarbage at h
  split_ifs at h
  · obtain rfl := Option.some.inj h
    exact hn
  · obtain ⟨now, hnow, rfl⟩ := Option.map_eq_some_iff.1 h
    have hstart : SameOwners s { s with exiting := s.exiting || false } :=
      ⟨rfl, rfl, rfl, rfl, rfl, fun _ h => h, fun _ => ⟨rfl, rfl, rfl⟩⟩
    refine (collectLoop_rule (P := fun s' => s'.Owned ∧ .copy n ∈ s'.threadTraces ∧
      s'.data (.copy n) = s.data (.copy n) ∧ s'.exiting = false ∧ s'.gcMaxAgeMs = s.gcMaxAgeMs) ?_ _ 0 _
      ⟨hstart.owned ho, hn, rfl, by simp [hexit], rfl⟩).2.1
    rintro s₁ i r ⟨ho₁, hn₁, hdata₁, hexit₁, hage₁⟩ hr hc
    have hrel := released_collectAt ho₁ hr hc
    have hnr : .copy n ≠ r := by
      rintro rfl
      simp only [collectable, hexit₁, hdata₁, hage₁, decide_eq_true_eq, Bool.false_eq_true,
        false_or] at hc
      exact hc.2 (hyoung now hnow)
    refine ⟨hrel.owned ho₁, ?_, (hrel.data_of_ne hnr).trans hdata₁, hexit₁, hage₁⟩
    exact (List.mem_cons.1 (hrel.threadTraces.mem_iff.2 hn₁)).resolve_left hnr

end Process

/-! ## The age of a trace -/

/-- Fewer than `age` milliseconds lie between two values of the time-stamp counter, which counts
    `frequency` ticks a second. -/
def Recent (frequency : ℕ) (age : ℤ) (finished now : UInt64) : Prop :=
  ((now.toNat : ℤ) - finished.toNat) * 1000 < age * frequency

/-- How many ticks the estimate takes for a millisecond. -/
def ClockReading.ticksPerMs (c : ClockReading) : ℕ := c.cyclesPerSecond.toNat / 1000

/-- How many whole milliseconds have passed by the estimate. -/
def ClockReading.wholeMs (c : ClockReading) : ℕ := c.tsc.toNat / c.ticksPerMs

/-- Between two readings of the clock lie fewer ticks than `age` milliseconds have by the later
    estimate.  The ticks that the earlier reading drops count as if they lay in between, and a later
    estimate that is the smaller one shortens all the milliseconds before. -/
structure StillYoung (age : ℤ) (finished now : ClockReading) : Prop where
  ticks : ((now.tsc.toNat : ℤ) - finished.tsc.toNat) + finished.tsc.toNat % finished.ticksPerMs <
    age * now.ticksPerMs + ((now.ticksPerMs : ℤ) - finished.ticksPerMs) * finished.wholeMs
  fits : finished.wholeMs + age < 2 ^ 64

theorem ClockReading.toNat_currentTimeMs {c : ClockReading} {ms : UInt64}
    (h : c.currentTimeMs = some ms) : 0 < c.ticksPerMs ∧ ms.toNat = c.wholeMs := by
  unfold currentTimeMs at h
  dsimp only at h
  split_ifs at h with hzero
  obtain rfl := Option.some.inj h
  refine ⟨Nat.pos_of_ne_zero fun hno => hzero ?_, ?_⟩
  · exact UInt64.toNat_inj.1 (by simpa [ticksPerMs] using hno)
  · simp [wholeMs, ticksPerMs]

theorem toNat_add_ofInt {a : UInt64} {age : ℤ} (hpos : 0 ≤ a.toNat + age)
    (hfits : a.toNat + age < 2 ^ 64) : ((a + UInt64.ofInt age).toNat : ℤ) = a.toNat + age := by
  rw [UInt64.toNat_add, UInt64.ofInt, UInt64.toNat_ofNat']
  omega

/-- A reading is its whole milliseconds and some ticks. -/
theorem ClockReading.ticks_add_mod (c : ClockReading) :
    (c.ticksPerMs : ℤ) * c.wholeMs + c.tsc.toNat % c.ticksPerMs = c.tsc.toNat := by
  exact_mod_cast Nat.div_add_mod c.tsc.toNat c.ticksPerMs

/-- **What the comparison of the two times says** of the readings and the estimates. -/
theorem young_iff {age : ℤ} {finished now : ClockReading} {a b : UInt64}
    (ha : finished.currentTimeMs = some a) (hb : now.currentTimeMs = some b)
    (hpos : 0 ≤ finished.wholeMs + age) (hfits : finished.wholeMs + age < 2 ^ 64) :
    a + UInt64.ofInt age > b ↔ StillYoung age finished now := by
  obtain ⟨-, ha⟩ := ClockReading.toNat_currentTimeMs ha
  obtain ⟨hticks, hb⟩ := ClockReading.toNat_currentTimeMs hb
  have hsum : ((a + UInt64.ofInt age).toNat : ℤ) = a.toNat + age :=
    toNat_add_ofInt (by rw [ha]; exact hpos) (by rw [ha]; exact hfits)
  have hfloor : (now.wholeMs : ℤ) < finished.wholeMs + age ↔
      (now.tsc.toNat : ℤ) < (finished.wholeMs + age) * now.ticksPerMs := by
    rw [ClockReading.wholeMs, Int.natCast_ediv]
    exact Int.ediv_lt_iff_lt_mul (by exact_mod_cast hticks)
  have hsplit := finished.ticks_add_mod
  have hlt : a + UInt64.ofInt age > b ↔ (now.wholeMs : ℤ) < finished.wholeMs + age := by
    rw [gt_iff_lt, UInt64.lt_iff_toNat_lt, ← Int.ofNat_lt, hsum, ha, hb]
  rw [hlt, hfloor]
  constructor
  · intro h
    exact ⟨by linarith, hfits⟩
  · intro h
    linarith [h.ticks]

/-- What is still young lies before a time that is not negative. -/
theorem StillYoung.pos {age : ℤ} {finished now : ClockReading} (h : StillYoung age finished now) :
    0 ≤ finished.wholeMs + age := by
  by_contra hneg
  have hle : (finished.wholeMs + age) * (now.ticksPerMs : ℤ) ≤ 0 :=
    mul_nonpos_of_nonpos_of_nonneg (by omega) (Int.natCast_nonneg _)
  have hsplit := finished.ticks_add_mod
  have hnow : (0 : ℤ) ≤ now.tsc.toNat := Int.natCast_nonneg _
  linarith [h.ticks]

namespace Collector
variable {c c' : Collector} {frequency : ℕ}

/-- Before `~funtrace_gc` the collector wakes up by timeout, and the threads that have finished
    recently are still young by the estimates. -/
def Punctual (frequency : ℕ) (c : Collector) : CollectorAction → Prop
  | .wake timeout clock => c.quit = false → c.process.gcMaxAgeMs ≠ 0 → timeout = true ∧
      ∀ n, .copy n ∈ c.process.threadTraces →
        Recent frequency c.process.gcMaxAgeMs (c.finished n).tsc clock.tsc →
          StillYoung c.process.gcMaxAgeMs (c.finished n) clock
  | _ => True

/-- The time of death of each copy is that of the clock that was read for it. -/
structure Timed (c : Collector) : Prop where
  owned : c.process.Owned
  death : ∀ n, .copy n ∈ c.process.threadTraces →
    (c.finished n).currentTimeMs = some (c.process.data (.copy n)).timeOfDeathMs
  exiting : c.quit = false → c.process.exiting = false

theorem timed_init {pid : UInt64} {gcMaxAgeMs : ℤ} {defaultLogBufSize : ℕ} {mem : Memory} :
    (init (Process.init pid gcMaxAgeMs defaultLogBufSize mem)).Timed :=
  ⟨Process.owned_init, by simp [init, Process.init], fun _ => rfl⟩

/-- What a step of another thread does to the collector. -/
theorem step_other {a : Process.Action} (h : c.step (.other a) = some c') :
    (∀ b clock, a ≠ .collectGarbage b clock) ∧ c.process.step a = some c'.process ∧
      c'.quit = c.quit ∧ ((∃ t name clock, a = .returnFromStart t name clock ∧
        c'.finished = Function.update c.finished c.process.numCopies clock) ∨
        (∀ t name clock, a ≠ .returnFromStart t name clock) ∧ c'.finished = c.finished) := by
  cases a with
  | collectGarbage => cases h
  | returnFromStart t name clock =>
    simp only [step] at h
    split_ifs at h
    obtain ⟨s', hs', rfl⟩ := Option.map_eq_some_iff.1 h
    exact ⟨by simp, hs', rfl, Or.inl ⟨t, name, clock, rfl, rfl⟩⟩
  | _ =>
    simp only [step] at h
    obtain ⟨s', hs', rfl⟩ := Option.map_eq_some_iff.1 h
    exact ⟨by simp, hs', rfl, Or.inr ⟨by simp, rfl⟩⟩

theorem step_wake {timeout : Bool} {clock : ClockReading} (h : c.step (.wake timeout clock) = some c') :
    c.process.step (.collectGarbage (!timeout || c.quit) clock) = some c'.process ∧
      c'.quit = c.quit ∧ c'.finished = c.finished := by
  simp only [step] at h
  split_ifs at h
  obtain ⟨s', hs', rfl⟩ := Option.map_eq_some_iff.1 h
  exact ⟨hs', rfl, rfl⟩

theorem timed_step {a : CollectorAction} (hc : c.Timed) (hok : Punctual frequency c a)
    (h : c.step a = some c') : c'.Timed := by
  cases a with
  | other a =>
    obtain ⟨hgc, hs, hquit, hfinished⟩ := step_other h
    refine ⟨(Process.effect_step hc.owned hs).owned hc.owned, fun n hn => ?_, fun hq => ?_⟩
    · rcases Process.copy_step hc.owned hs hn with ⟨hold, hdeath⟩ | ⟨t, name, clock, rfl, -, -, hnew, hclock⟩
      · have hlt := hc.owned.copyLt n (hc.owned.copyLive n hold)
        rw [hdeath, ← hc.death n hold]
        rcases hfinished with ⟨t, name, clock, -, hfin⟩ | ⟨-, hfin⟩ <;> rw [hfin]
        rw [Function.update_of_ne (Nat.ne_of_lt hlt)]
      · rcases hfinished with ⟨t', name', clock', heq, hfin⟩ | ⟨hno, -⟩
        · obtain ⟨-, -, rfl⟩ : t = t' ∧ name = name' ∧ clock = clock' := by simpa using heq
          rw [hfin, hnew, Function.update_self, ← hnew, hclock]
        · exact absurd rfl (hno t name clock)
    · rw [(Process.gc_step hgc hs).exiting]
      exact hc.exiting (hquit ▸ hq)
  | quit =>
    obtain rfl := Option.some.inj h
    exact ⟨hc.owned, hc.death, fun hq => by cases hq⟩
  | wake timeout clock =>
    obtain ⟨hs, hquit, hfinished⟩ := step_wake h
    refine ⟨(Process.effect_step hc.owned hs).owned hc.owned, fun n hn => ?_, fun hq => ?_⟩
    · rcases Process.copy_step hc.owned hs hn with ⟨hold, hdeath⟩ | ⟨t, name, clock', heq, -⟩
      · rw [hfinished, hdeath]
        exact hc.death n hold
      · cases heq
    · rw [hquit] at hq
      by_cases hage : c.process.gcMaxAgeMs = 0
      · rw [Process.eq_of_collectGarbage hs hage]
        exact hc.exiting hq
      · rw [(hok hq hage).1, hq] at hs
        exact Process.exiting_collectGarbage (hc.exiting hq) hs

/-- **Garbage collection is never early.**  As long as the program is not exiting, a collector
    that is punctual does not set `exiting`, and keeps what has finished recently. -/
theorem kept_wake {pid : UInt64} {gcMaxAgeMs : ℤ} {defaultLogBufSize : ℕ} {mem : Memory}
    {acts : List CollectorAction} {timeout : Bool} {clock : ClockReading}
    (hok : Along step (Punctual frequency)
      (init (Process.init pid gcMaxAgeMs defaultLogBufSize mem)) (acts ++ [.wake timeout clock]))
    (hrun : runFrom step (init (Process.init pid gcMaxAgeMs defaultLogBufSize mem)) acts = some c)
    (hquit : c.quit = false) (h : c.step (.wake timeout clock) = some c') :
    c.process.exiting = false ∧ c'.process.exiting = false ∧
      ∀ n, .copy n ∈ c.process.threadTraces →
        Recent frequency c.process.gcMaxAgeMs (c.finished n).tsc clock.tsc →
          .copy n ∈ c'.process.threadTraces := by
  obtain ⟨hacts, hlast⟩ := (along_append acts [.wake timeout clock] _).1 hok
  have hc := run_invariant_along (fun c a c' hc ha h => timed_step hc ha h) timed_init hacts hrun
  have hwake := (hlast c hrun).1
  have hc' := timed_step hc hwake h
  obtain ⟨hs, hquit', -⟩ := step_wake h
  refine ⟨hc.exiting hquit, hc'.exiting (hquit'.trans hquit), fun n hn hrecent => ?_⟩
  by_cases hage : c.process.gcMaxAgeMs = 0
  · rwa [Process.eq_of_collectGarbage hs hage]
  · obtain ⟨htimeout, hyoung⟩ := hwake hquit hage
    have hstill := hyoung n hn hrecent
    rw [htimeout, hquit] at hs
    exact Process.kept_collectGarbage hc.owned (hc.exiting hquit) hs hn fun now hnow =>
      (young_iff (hc.death n hn) hnow hstill.pos hstill.fits).2 hstill

/-- A thread returns, and the collector wakes up by timeout a tenth of a second later. -/
theorem kept_wake_demo :
    let acts : List CollectorAction := [.other (.createThread 1), .other (.allocate 1 (some 0x10000)),
      .other (.link 1 2 2), .other (.returnFromStart 1 (Vector.replicate 16 0) ⟨5000000, 1000000⟩)]
    ∃ c c', runFrom step (init (Process.init 1 300 5 fun _ => 0)) acts = some c ∧
      c.step (.wake true ⟨5100000, 1000000⟩) = some c' ∧
      c'.process.exiting = false ∧ .copy 0 ∈ c'.process.threadTraces := by
  intro acts
  let clock : ClockReading := ⟨5100000, 1000000⟩
  have hsome : (runFrom step (init (Process.init 1 300 5 fun _ => 0)) acts).isSome := by
    decide +kernel
  obtain ⟨c, hc⟩ := Option.isSome_iff_exists.1 hsome
  have hstate : ∀ c ∈ runFrom step (init (Process.init 1 300 5 fun _ => 0)) acts,
      c.process.threadTraces = [.copy 0] ∧ c.quit = false ∧ c.process.gcMaxAgeMs = 300 ∧
        (c.finished 0).tsc = 5000000 ∧ (c.finished 0).cyclesPerSecond = 1000000 ∧
        (c.step (.wake true clock)).isSome := by
    decide +kernel
  obtain ⟨hlist, hquit, hage, htsc, hestimate, hwake⟩ := hstate c hc
  have hfinished : c.finished 0 = ⟨5000000, 1000000⟩ := by
    rw [← htsc, ← hestimate]
  obtain ⟨c', hc'⟩ := Option.isSome_iff_exists.1 hwake
  have hok : Along step (Punctual 1000000) (init (Process.init 1 300 5 fun _ => 0))
      (acts ++ [.wake true clock]) := by
    refine (along_append _ _ _).2 ⟨?_, fun c₁ hc₁ => ?_⟩
    · refine along_of_forall fun c a ha => ?_
      simp only [acts, List.mem_cons, List.not_mem_nil, or_false] at ha
      rcases ha with rfl | rfl | rfl | rfl <;> trivial
    · obtain rfl := Option.some.inj (hc.symm.trans hc₁)
      refine along_singleton.2 fun _ _ => ⟨rfl, fun n hn _ => ?_⟩
      obtain rfl : n = 0 := by simpa [hlist] using hn
      rw [hage, hfinished]
      exact ⟨by decide, by decide⟩
  obtain ⟨-, hexit, hkept⟩ := kept_wake hok hc hquit hc'
  refine ⟨c, c', hc, hc', hexit, hkept 0 (by simp [hlist]) ?_⟩
  rw [hage, hfinished]
  unfold Recent
  decide

/-- A spurious wake-up sets `exiting`. -/
theorem not_kept_wake : ¬ ∀ (acts : List CollectorAction) (timeout : Bool) (clock : ClockReading)
    (c c' : Collector), runFrom step (init (Process.init 1 300 5 fun _ => 0)) acts = some c →
      c.quit = false → c.step (.wake timeout clock) = some c' →
      c'.process.exiting = false ∧ ∀ n, .copy n ∈ c.process.threadTraces →
        Recent 1000000 c.process.gcMaxAgeMs (c.finished n).tsc clock.tsc →
          .copy n ∈ c'.process.threadTraces := by
  intro h
  let acts : List CollectorAction := [.other (.createThread 1),
    .other (.allocate 1 (some 0x10000)), .other (.link 1 2 2),
    .other (.returnFromStart 1 (Vector.replicate 16 0) ⟨5000000, 1000000⟩)]
  let clock : ClockReading := ⟨5100000, 1000000⟩
  have hsome : (runFrom step (init (Process.init 1 300 5 fun _ => 0)) acts).isSome := by
    decide +kernel
  obtain ⟨c, hc⟩ := Option.isSome_iff_exists.1 hsome
  have hbad : ∀ c ∈ runFrom step (init (Process.init 1 300 5 fun _ => 0)) acts,
      c.quit = false ∧ (c.step (.wake false clock)).isSome ∧
        ∀ c' ∈ c.step (.wake false clock), c'.process.exiting = true := by
    decide +kernel
  obtain ⟨hquit, hwake, hexit⟩ := hbad c hc
  obtain ⟨c', hc'⟩ := Option.isSome_iff_exists.1 hwake
  have hkept := (h acts false clock c c' hc hquit hc').1
  rw [hexit c' hc'] at hkept
  cases hkept

end Collector

end Funtrace
