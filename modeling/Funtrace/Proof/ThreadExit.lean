/-
  Threads that end.

  `thread_traces` points into the thread-local storage of live threads only if each
  thread that ends has unregistered as often as it has registered: the interposed
  entry point does so when the start routine returns, but it is never left when the
  thread ends by `pthread_exit` or cancellation (`alive_iff`).
-/
import Mathlib.Tactic.IntervalCases
import Funtrace.Proof.Registry

namespace Funtrace

namespace Process
variable {s s' : Process}

/-! ## How often a thread is registered -/

/-- What an action does to the number of a thread's elements. -/
def registrations (t n : ℕ) : Action → ℕ
  | .link u _ _ => if u = t then n + 1 else n
  | .ignoreThisThread u | .setThreadLogBufSize u _ | .returnFromStart u _ _ =>
    if u = t then n - 1 else n
  | _ => n

/-- How often a thread is registered after some actions. -/
def timesRegistered (t : ℕ) (acts : List Action) : ℕ := acts.foldl (registrations t) 0

theorem count_unregisterThisThread {t : ℕ} (ho : s.Owned) {deferFree : Bool}
    (ht : deferFree = true → t ≠ 0) {name : Vector UInt8 16} {clock : ClockReading}
    (h : s.unregisterThisThread t deferFree name clock = some s') :
    s'.threadTraces.count (.tls t) = s.threadTraces.count (.tls t) - 1 := by
  rcases unregisterThisThread_cases h with ⟨hmem, rfl⟩ | ⟨-, hrel⟩ | ⟨hdefer, -, -, d, -, hhand⟩
  · rw [List.count_eq_zero.2 hmem]
  · have hcount := hrel.threadTraces.count_eq (.tls t)
    rw [List.count_cons_self] at hcount
    omega
  · have hgone := hhand.not_mem_tls ho (ht hdefer)
    rw [List.count_eq_zero.2 hgone, ho.once _ hhand.tls_mem (by simpa using ht hdefer)]

theorem count_step {t : ℕ} {a : Action} (ho : s.Owned) (h : s.step a = some s') :
    s'.threadTraces.count (.tls t) = registrations t (s.threadTraces.count (.tls t)) a := by
  by_cases ha : a.thread = some t
  · cases stepped_of_step h with
    | constructMain | createThread | allocate | exitThread | endThread | trace | store => rfl
    | link u self tid hlinking hfree hself =>
      obtain rfl : u = t := by simpa [Action.thread] using ha
      simp [linkTrace, registrations, List.count_append]
    | ignoreThisThread u _ hmay hfree hs =>
      obtain rfl : u = t := by simpa [Action.thread] using ha
      simpa [registrations] using count_unregisterThisThread ho (by simp) hs
    | setThreadLogBufSize u n s₁ hmay hfree hs₁ hsize =>
      obtain rfl : u = t := by simpa [Action.thread] using ha
      simpa [registrations, setRegistration] using count_unregisterThisThread ho (by simp) hs₁
    | unsetThreadLogBufSize u n _ hmay hfree hs hsize =>
      obtain rfl : u = t := by simpa [Action.thread] using ha
      simpa [registrations] using count_unregisterThisThread ho (by simp) hs
    | returnFromStart u name clock s₁ hmay hrunning hu hfree hs₁ =>
      obtain rfl : u = t := by simpa [Action.thread] using ha
      simpa [registrations, setPhase] using count_unregisterThisThread ho (fun _ => hu) hs₁
    | collectGarbage | disableTracing | enableTracing | beginSnapshot | endSnapshot => cases ha
  · rw [(untouched_step ho h ha).count]
    cases a <;> simp_all [registrations, Action.thread]

theorem count_run {t : ℕ} : ∀ {acts : List Action} {s : Process}, s.Owned →
    runFrom step s acts = some s' → s'.threadTraces.count (.tls t) =
      acts.foldl (registrations t) (s.threadTraces.count (.tls t))
  | [], s, _, h => by
    obtain rfl := Option.some.inj h
    rfl
  | a :: acts, s, ho, h => by
    obtain ⟨s₁, hs₁, h⟩ := runFrom_cons h
    rw [count_run ((effect_step ho hs₁).owned ho) h, count_step ho hs₁]
    rfl

/-- What is at the end of a prefix, and what is before it. -/
theorem getElem?_of_prefix {before acts : List Action} {a : Action} (h : before ++ [a] <+: acts) :
    acts[before.length]? = some a ∧ before = acts.take before.length := by
  obtain ⟨rest, rfl⟩ := h
  simp

/-! ## Live elements -/

section
variable {pid : UInt64} {gcMaxAgeMs : ℤ} {defaultLogBufSize : ℕ} {mem : Memory}

/-- In a run in which each thread unregisters before it ends, no ended thread is registered. -/
theorem not_mem_of_ended {acts : List Action}
    (hends : ∀ t before, before ++ [.endThread t] <+: acts → timesRegistered t before = 0)
    (hrun : runFrom step (init pid gcMaxAgeMs defaultLogBufSize mem) acts = some s) :
    ∀ t, s.phase t = .ended → .tls t ∉ s.threadTraces := by
  induction acts using List.reverseRecOn generalizing s with
  | nil =>
    obtain rfl := Option.some.inj hrun
    exact fun t _ => by simp [init]
  | append_singleton acts a ih =>
    rw [runFrom_append] at hrun
    obtain ⟨s₁, hs₁, hstep⟩ := Option.bind_eq_some_iff.1 hrun
    obtain ⟨s₂, hs₂, hnil⟩ := runFrom_cons hstep
    obtain rfl := Option.some.inj hnil
    have ho := owned_run owned_init hs₁
    have hbefore := ih (fun t before hpre => hends t before (hpre.trans (List.prefix_append _ _))) hs₁
    intro t hend
    rcases ended_step ho (endedIdle_run owned_init endedIdle_init hs₁) hs₂ hend with
      ⟨rfl, -⟩ | ⟨hend', ha⟩
    · rw [← List.count_eq_zero, count_step ho hs₂, count_run owned_init hs₁]
      exact hends t acts List.prefix_rfl
    · rw [(untouched_step ho hs₂ ha).mem]
      exact hbefore t hend'

/-- No thread is registered when it has ended if and only if none was when it ended. -/
theorem ended_iff {acts : List Action}
    (hrun : runFrom step (init pid gcMaxAgeMs defaultLogBufSize mem) acts = some s) :
    (∀ before s', before <+: acts →
      runFrom step (init pid gcMaxAgeMs defaultLogBufSize mem) before = some s' →
        ∀ t, s'.phase t = .ended → .tls t ∉ s'.threadTraces) ↔
    ∀ t before, before ++ [.endThread t] <+: acts → timesRegistered t before = 0 := by
  constructor
  · rintro h t before ⟨rest, rfl⟩
    rw [runFrom_append] at hrun
    obtain ⟨s₂, hs₂, -⟩ := Option.bind_eq_some_iff.1 hrun
    have hgone := h _ _ (List.prefix_append _ _) hs₂ t
    rw [runFrom_append] at hs₂
    obtain ⟨s₁, hs₁, hstep⟩ := Option.bind_eq_some_iff.1 hs₂
    obtain ⟨s₃, hs₃, hnil⟩ := runFrom_cons hstep
    obtain rfl := Option.some.inj hnil
    cases stepped_of_step hs₃
    have hcount := List.count_eq_zero.2 (hgone (by simp [setPhase]))
    exact (count_run owned_init hs₁).symm.trans hcount
  · intro hends before s' hpre hrun'
    exact not_mem_of_ended (fun t b hb => hends t b (hb.trans hpre)) hrun'

/-- **No dangling thread.**  In all states of a run all elements of `thread_traces` point to live
    objects if and only if each thread that ends has unregistered as often as it has registered. -/
theorem alive_iff {acts : List Action}
    (hrun : runFrom step (init pid gcMaxAgeMs defaultLogBufSize mem) acts = some s) :
    (∀ before s', before <+: acts →
      runFrom step (init pid gcMaxAgeMs defaultLogBufSize mem) before = some s' →
        ∀ r ∈ s'.threadTraces, s'.Alive r) ↔
    ∀ t before, before ++ [.endThread t] <+: acts → timesRegistered t before = 0 := by
  rw [← ended_iff hrun]
  constructor
  · intro h before s' hpre hrun'
    exact (owned_run owned_init hrun').forall_alive.1 (h before s' hpre hrun')
  · intro h before s' hpre hrun'
    exact (owned_run owned_init hrun').forall_alive.2 (h before s' hpre hrun')

end

/-- A thread leaves by `pthread_exit`: its trace stays on the list. -/
theorem not_alive : ¬ ∀ (acts : List Action) (s : Process),
    runFrom step (init 1 300 5 fun _ => 0) acts = some s → ∀ r ∈ s.threadTraces, s.Alive r := by
  intro h
  let acts : List Action := [.createThread 1, .allocate 1 (some 0x10000), .link 1 2 2,
    .exitThread 1, .endThread 1]
  have hsome : (runFrom step (init 1 300 5 fun _ => 0) acts).isSome := by decide +kernel
  obtain ⟨s, hs⟩ := Option.isSome_iff_exists.1 hsome
  have hbad : ∀ s ∈ runFrom step (init 1 300 5 fun _ => 0) acts,
      .tls 1 ∈ s.threadTraces ∧ s.phase 1 = .ended := by decide +kernel
  obtain ⟨hmem, hend⟩ := hbad s hs
  exact (owned_run owned_init hs).forall_alive.1 (h acts s hs) 1 hend hmem

/-- Two threads return from their start routines, one of them after it changed its buffer. -/
theorem alive_iff_demo : ∃ s, runFrom step (init 1 300 5 fun _ => 0) demoActions = some s ∧
    ∀ before s', before <+: demoActions →
      runFrom step (init 1 300 5 fun _ => 0) before = some s' →
        ∀ r ∈ s'.threadTraces, s'.Alive r := by
  have hsome : (runFrom step (init 1 300 5 fun _ => 0) demoActions).isSome := by decide +kernel
  obtain ⟨s, hs⟩ := Option.isSome_iff_exists.1 hsome
  refine ⟨s, hs, (alive_iff hs).2 fun t before hpre => ?_⟩
  obtain ⟨hget, htake⟩ := getElem?_of_prefix hpre
  have hlt : before.length < 15 := (List.getElem?_eq_some_iff.1 hget).1
  generalize before.length = i at hget htake hlt
  subst htake
  interval_cases i <;> simp only [demoActions, List.getElem?_cons_zero, List.getElem?_cons_succ,
    Option.some.injEq, reduceCtorEq, Action.endThread.injEq] at hget
  subst hget
  decide

end Process

end Funtrace
