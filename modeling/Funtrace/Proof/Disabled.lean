/-
  `funtrace_disable_tracing` lasts, but for snapshots.

  Disabling pauses all that is registered, and what registers later is paused when it
  is linked (`AllPaused`).  The steps that break this are those that resume tracing: a
  snapshot does so at its end, whether tracing was enabled before it or not.  A thread
  that was taken off the list with its buffer kept is never paused at all.
-/
import Funtrace.Proof.HandOver

namespace Funtrace

namespace Process
variable {s s' : Process} {t : ℕ}

/-! ## Disabled tracing -/

/-- Nobody resumes tracing, and no thread makes a traced call that is off the list but still has
    a buffer that is not paused. -/
def Quiet (s : Process) : Action → Prop
  | .enableTracing | .endSnapshot => False
  | .trace t _ => .tls t ∈ s.threadTraces ∨ (s.data (.tls t)).buf = 0 ∨
      (s.data (.tls t)).wraparoundMask = 0
  | _ => True

instance (s : Process) : ∀ a, Decidable (s.Quiet a)
  | .enableTracing | .endSnapshot => isFalse not_false
  | .trace t _ => inferInstanceAs (Decidable (.tls t ∈ s.threadTraces ∨ (s.data (.tls t)).buf = 0 ∨
      (s.data (.tls t)).wraparoundMask = 0))
  | .constructMain | .createThread _ | .allocate _ _ | .link _ _ _ | .ignoreThisThread _
  | .setThreadLogBufSize _ _ | .returnFromStart _ _ _ | .exitThread _ | .endThread _
  | .collectGarbage _ _ | .disableTracing | .beginSnapshot _ | .store _ => isTrue trivial

/-- All that is registered is paused, and so will be what registers. -/
structure AllPaused (s : Process) : Prop where
  paused : s.tracingPaused = true
  masked : ∀ t, .tls t ∈ s.threadTraces → s.registration t = .idle →
    (s.data (.tls t)).wraparoundMask = 0

theorem paused_step {a : Action} (hok : s.Quiet a) (hp : s.tracingPaused = true)
    (h : s.step a = some s') : s'.tracingPaused = true := by
  cases stepped_of_step h with
  | enableTracing | endSnapshot => exact hok.elim
  | disableTracing | beginSnapshot => rfl
  | constructMain | createThread | allocate | link | exitThread | endThread | trace | store => exact hp
  | ignoreThisThread t _ hmay hfree hs | unsetThreadLogBufSize t n _ hmay hfree hs hsize =>
    exact (sameRest_unregisterThisThread hs).1.tracingPaused.trans hp
  | setThreadLogBufSize t n s₁ hmay hfree hs₁ hsize =>
    exact (sameRest_unregisterThisThread hs₁).1.tracingPaused.trans hp
  | returnFromStart t name clock s₁ hmay hrunning ht hfree hs₁ =>
    exact (sameRest_unregisterThisThread hs₁).1.tracingPaused.trans hp
  | collectGarbage exitingProgram clock _ hfree hs =>
    exact (sameRest_collectGarbage hs).tracingPaused.trans hp

theorem masked_unregisterThisThread (hs : s.AllPaused) (hidle : s.registration t = .idle)
    {deferFree : Bool} {name : Vector UInt8 16} {clock : ClockReading}
    (h : s.unregisterThisThread t deferFree name clock = some s')
    (hmem : .tls t ∈ s'.threadTraces) : (s'.data (.tls t)).wraparoundMask = 0 := by
  rcases unregisterThisThread_cases h with ⟨-, rfl⟩ | ⟨-, hrel⟩ | ⟨-, -, -, now, -, hhand⟩
  · exact hs.masked t hmem hidle
  · rw [hrel.data, Function.update_self]
    rfl
  · rw [hhand.data_of_ne (by simp)]
    exact hs.masked t hhand.tls_mem hidle

/-- What a thread does itself leaves its mask at zero while it is registered. -/
theorem masked_step {a : Action} (hs : s.AllPaused) (ha : a.thread = some t)
    (h : s.step a = some s') (hmem : .tls t ∈ s'.threadTraces) (hidle : s'.registration t = .idle) :
    (s'.data (.tls t)).wraparoundMask = 0 := by
  cases stepped_of_step h with
  | constructMain =>
    obtain rfl : 0 = t := by simpa [Action.thread] using ha
    simp [setRegistration] at hidle
  | createThread u | setThreadLogBufSize u =>
    obtain rfl : u = t := by simpa [Action.thread] using ha
    simp [setRegistration] at hidle
  | allocate u n block hasked hblock =>
    obtain rfl : u = t := by simpa [Action.thread] using ha
    simp [allocateTrace] at hidle
  | link u self tid hlinking hfree hself =>
    obtain rfl : u = t := by simpa [Action.thread] using ha
    simp [linkTrace, write, hs.paused, TraceData.pauseTracing]
  | ignoreThisThread u _ hmay hfree hs₁ | unsetThreadLogBufSize u n _ hmay hfree hs₁ hsize =>
    obtain rfl : u = t := by simpa [Action.thread] using ha
    exact masked_unregisterThisThread hs (mayCall_iff.1 hmay).2.1 hs₁ hmem
  | returnFromStart u name clock s₁ hmay hrunning hu hfree hs₁ =>
    obtain rfl : u = t := by simpa [Action.thread] using ha
    have hmask := masked_unregisterThisThread hs (mayCall_iff.1 hmay).2.1 hs₁ hmem
    exact hmask
  | exitThread | endThread => exact hs.masked t hmem hidle
  | collectGarbage | disableTracing | enableTracing | beginSnapshot | endSnapshot => cases ha
  | trace u call hmay =>
    obtain rfl : u = t := by simpa [Action.thread] using ha
    rw [withTracer, write]
    dsimp only
    rw [Function.update_self, Tracer.data_enter]
    exact hs.masked u hmem hidle
  | store u slot entry st rest hpending =>
    obtain rfl : u = t := by simpa [Action.thread] using ha
    have hsame : ((s.tracer u).store slot entry st rest).data.wraparoundMask =
        (s.data (.tls u)).wraparoundMask := by
      rcases (s.tracer u).data_store slot entry st rest with hdata | hdata <;> rw [hdata] <;> rfl
    rw [withTracer, write]
    dsimp only
    rw [Function.update_self, hsame]
    exact hs.masked u hmem hidle

theorem allPaused_step {a : Action} (ho : s.Owned) (hs : s.AllPaused) (hok : s.Quiet a)
    (h : s.step a = some s') : s'.AllPaused where
  paused := paused_step hok hs.paused h
  masked t hmem hidle := by
    by_cases ha : a.thread = some t
    · exact masked_step hs ha h hmem hidle
    · have hun := untouched_step ho h ha
      rw [hun.registration] at hidle
      have hold := hs.masked t (hun.mem.1 hmem) hidle
      rcases hun.mask with hm | hm | ⟨hres, -⟩
      · rw [hm, hold]
      · exact hm
      · cases a <;> first | exact hok.elim | exact hres.elim

theorem threadLaid_run {acts : List Action} (ho : s.Owned) (h : ThreadLaid False s t)
    (hrun : runFrom step s acts = some s') : ThreadLaid False s' t :=
  (run_invariant (I := fun s => s.Owned ∧ ThreadLaid False s t) (P := fun _ => True)
    (fun _ _ _ hs _ hstep => ⟨(effect_step hs.1 hstep).owned hs.1,
      threadLaid_step hs.1 hs.2 False.elim hstep⟩) ⟨ho, h⟩ (fun _ _ => trivial) hrun).2

/-- A traced call that finds its mask at zero, or no buffer, changes nothing. -/
theorem trace_eq {call : TraceCall}
    (hslot : (s.data (.tls t)).pos &&& (s.data (.tls t)).wraparoundMask = 0)
    (h : s.step (.trace t call) = some s') : s' = s := by
  cases stepped_of_step h
  have hsame : (s.tracer t).enter call = s.tracer t := if_pos hslot
  rw [hsame]
  have hdata : Function.update s.data (.tls t) (s.data (.tls t)) = s.data :=
    Function.update_eq_self _ _
  have hpending : Function.update s.pending t (s.pending t) = s.pending :=
    Function.update_eq_self _ _
  simp only [withTracer, write, tracer, hdata, hpending]

theorem allPaused_disable (h : s.step .disableTracing = some s') : s'.AllPaused := by
  cases stepped_of_step h
  refine ⟨rfl, fun t hmem _ => ?_⟩
  have hdata : (s.pauseTracing.data (.tls t)) = (s.data (.tls t)).pauseTracing := if_pos hmem
  rw [hdata]
  rfl

/-- **Disabling lasts.**  After `funtrace_disable_tracing` a traced call changes nothing, as long
    as no snapshot ends and tracing is not enabled, if no thread traces that was taken off the
    list before and has kept its buffer. -/
theorem trace_disabled {pid : UInt64} {gcMaxAgeMs : ℤ} {defaultLogBufSize : ℕ} {mem : Memory}
    {before acts : List Action} {s₀ s₁ : Process} {call : TraceCall}
    (hbefore : runFrom step (init pid gcMaxAgeMs defaultLogBufSize mem) before = some s₀)
    (hdisable : s₀.step .disableTracing = some s₁)
    (hok : Along step Quiet s₁ (acts ++ [.trace t call]))
    (hrun : runFrom step s₁ acts = some s) (h : s.step (.trace t call) = some s') : s' = s := by
  have ho₀ := owned_run owned_init hbefore
  have ho₁ := (effect_step ho₀ hdisable).owned ho₀
  have hlaid : ThreadLaid False s t := by
    have h₀ := threadLaid_run (t := t) owned_init threadLaid_init hbefore
    exact threadLaid_run ho₁ (threadLaid_step ho₀ h₀ False.elim hdisable) hrun
  obtain ⟨hacts, hlast⟩ := (along_append acts [.trace t call] s₁).1 hok
  have hstep : ∀ (s : Process) (a : Action) (s' : Process), s.Owned ∧ s.AllPaused → s.Quiet a →
      s.step a = some s' → s'.Owned ∧ s'.AllPaused := by
    rintro s a s' ⟨ho, hs⟩ ha h
    exact ⟨(effect_step ho h).owned ho, allPaused_step ho hs ha h⟩
  have hpaused := (run_invariant_along hstep ⟨ho₁, allPaused_disable hdisable⟩ hacts hrun).2
  have hidle : s.registration t = .idle := by
    cases stepped_of_step h with
    | trace _ _ hmay => exact (mayCall_iff.1 hmay).2.1
  refine trace_eq ?_ h
  rcases (hlast s hrun).1 with hmem | hbuf | hmask
  · rw [hpaused.masked t hmem hidle, UInt64.and_zero]
  · rw [(hlaid.null hbuf).1, UInt64.zero_and]
  · rw [hmask, UInt64.and_zero]

/-- A thread is created and one returns while tracing is disabled; then the new one makes a call. -/
theorem trace_disabled_demo :
    let before : List Action := [.createThread 1, .allocate 1 (some 0x10000), .link 1 2 2]
    let acts : List Action := [.createThread 2, .allocate 2 (some 0x20000), .link 2 3 3,
      .returnFromStart 1 (Vector.replicate 16 0) ⟨5000, 1000000⟩]
    ∃ s₀ s₁ s s', runFrom step (init 1 300 5 fun _ => 0) before = some s₀ ∧
      s₀.step .disableTracing = some s₁ ∧ runFrom step s₁ acts = some s ∧
      s.step (.trace 2 (.fentry 0x1100 10)) = some s' ∧ s' = s := by
  intro before acts
  have hsome : (runFrom step (init 1 300 5 fun _ => 0) before).isSome := by decide +kernel
  obtain ⟨s₀, h₀⟩ := Option.isSome_iff_exists.1 hsome
  have hdisable : ∀ s₀ ∈ runFrom step (init 1 300 5 fun _ => 0) before,
      (s₀.step .disableTracing).isSome := by decide +kernel
  obtain ⟨s₁, h₁⟩ := Option.isSome_iff_exists.1 (hdisable s₀ h₀)
  have hacts : ∀ s₀ ∈ runFrom step (init 1 300 5 fun _ => 0) before,
      ∀ s₁ ∈ s₀.step .disableTracing, (runFrom step s₁ acts).isSome ∧
        Along step Quiet s₁ (acts ++ [.trace 2 (.fentry 0x1100 10)]) ∧
        ∀ s ∈ runFrom step s₁ acts, (s.step (.trace 2 (.fentry 0x1100 10))).isSome := by
    decide +kernel
  obtain ⟨hrun, hok, hcall⟩ := hacts s₀ h₀ s₁ h₁
  obtain ⟨s, hs⟩ := Option.isSome_iff_exists.1 hrun
  obtain ⟨s', hs'⟩ := Option.isSome_iff_exists.1 (hcall s hs)
  exact ⟨s₀, s₁, s, s', h₀, h₁, hs, hs', trace_disabled h₀ h₁ hok hs hs'⟩

/-- Taking a snapshot enables tracing. -/
theorem not_trace_disabled : ¬ ∀ (before acts : List Action) (s₀ s₁ s s' : Process) (t : ℕ)
    (call : TraceCall), runFrom step (init 1 300 5 fun _ => 0) before = some s₀ →
      s₀.step .disableTracing = some s₁ → (∀ a ∈ acts, a ≠ .enableTracing) →
      runFrom step s₁ acts = some s → s.step (.trace t call) = some s' → s' = s := by
  intro h
  let before : List Action := [.createThread 1, .allocate 1 (some 0x10000), .link 1 2 2]
  let acts : List Action := [.beginSnapshot fun _ => Vector.replicate 16 0, .endSnapshot]
  have hsome : (runFrom step (init 1 300 5 fun _ => 0) before).isSome := by decide +kernel
  obtain ⟨s₀, h₀⟩ := Option.isSome_iff_exists.1 hsome
  have hdisable : ∀ s₀ ∈ runFrom step (init 1 300 5 fun _ => 0) before,
      (s₀.step .disableTracing).isSome := by decide +kernel
  obtain ⟨s₁, h₁⟩ := Option.isSome_iff_exists.1 (hdisable s₀ h₀)
  have hacts : ∀ s₀ ∈ runFrom step (init 1 300 5 fun _ => 0) before,
      ∀ s₁ ∈ s₀.step .disableTracing, (runFrom step s₁ acts).isSome ∧
        ∀ s ∈ runFrom step s₁ acts, s.pending 1 = none ∧
          ((s.step (.trace 1 (.fentry 0x1100 10))).any fun s' => (s'.pending 1).isSome) := by
    decide +kernel
  obtain ⟨hrun, hcall⟩ := hacts s₀ h₀ s₁ h₁
  obtain ⟨s, hs⟩ := Option.isSome_iff_exists.1 hrun
  obtain ⟨hnone, hany⟩ := hcall s hs
  obtain ⟨s', hs', hpending⟩ := (Option.any_eq_true _ _).1 hany
  rw [h before acts s₀ s₁ s s' 1 _ h₀ h₁ (by simp [acts]) hs hs', hnone] at hpending
  cases hpending

end Process

end Funtrace
