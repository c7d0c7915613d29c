/-
  A snapshot is consistent.

  A snapshot holds the mutex and pauses all threads, which go on running: they finish the
  calls that they are in, and others are created and allocate buffers.  What it reads does not
  change meanwhile (`frozen_step`): the list of buffers stays as it is, none of them is freed,
  and no word of a buffer is written but those of a call in progress.  So what it copies of a
  thread that is in no call is what the thread had traced at the pause (`consistent_run`).
-/
import Funtrace.Proof.Alone
import Funtrace.Proof.Snapshots

namespace Funtrace
namespace Process
variable {s s' s'' : Process} {r : TraceRef}

/-! ## What a snapshot reads -/

/-- What a snapshot reads of an element of `thread_traces` does not change from `s` to `s'`. -/
structure Frozen (s s' : Process) (r : TraceRef) : Prop where
  buf : (s'.data r).buf = (s.data r).buf
  bufSize : (s'.data r).bufSize = (s.data r).bufSize
  id : (s'.data r).id = (s.data r).id
  mask : (s.data r).wraparoundMask = 0 → (s'.data r).wraparoundMask = 0
  pos : (s.tracerAt r).pending = none → (s'.data r).pos = (s.data r).pos
  pending : ∀ p', (s'.tracerAt r).pending = some p' →
    ∃ p, (s.tracerAt r).pending = some p ∧ p'.slot = p.slot ∧ p'.entry = p.entry
  words : (s.data r).buf ≠ 0 → ∀ a, (s.data r).HasWord a →
    (∀ p, (s.tracerAt r).pending = some p → a ≠ p.slot ∧ a ≠ p.slot + 8) → s'.mem a = s.mem a

namespace Frozen

theorem refl (s : Process) (r : TraceRef) : Frozen s s r :=
  ⟨rfl, rfl, rfl, fun h => h, fun _ => rfl, fun p hp => ⟨p, hp, rfl, rfl⟩,
    fun _ _ _ _ => rfl⟩

theorem idle (h : Frozen s s' r) (hidle : (s.tracerAt r).pending = none) :
    (s'.tracerAt r).pending = none := by
  cases hp' : (s'.tracerAt r).pending with
  | none => rfl
  | some p' =>
    obtain ⟨p, hp, -⟩ := h.pending p' hp'
    rw [hidle] at hp
    cases hp

theorem trans (h : Frozen s s' r) (h' : Frozen s' s'' r) : Frozen s s'' r where
  buf := h'.buf.trans h.buf
  bufSize := h'.bufSize.trans h.bufSize
  id := h'.id.trans h.id
  mask := h'.mask ∘ h.mask
  pos hidle := (h'.pos (h.idle hidle)).trans (h.pos hidle)
  pending p'' hp'' := by
    obtain ⟨p', hp', hslot', hentry'⟩ := h'.pending p'' hp''
    obtain ⟨p, hp, hslot, hentry⟩ := h.pending p' hp'
    exact ⟨p, hp, hslot'.trans hslot, hentry'.trans hentry⟩
  words hbuf a ha hfree := by
    have ha' : (s'.data r).HasWord a := by
      rw [TraceData.HasWord, h.buf, h.bufSize]
      exact ha
    refine (h'.words (h.buf.symm ▸ hbuf) a ha' fun p' hp' => ?_).trans (h.words hbuf a ha hfree)
    obtain ⟨p, hp, hslot, -⟩ := h.pending p' hp'
    rw [hslot]
    exact hfree p hp

/-- The thread is in no call: nothing of its buffer changes. -/
theorem sameBuffer (h : Frozen s s' r) (hbuf : (s.data r).buf ≠ 0)
    (hidle : (s.tracerAt r).pending = none) (hmask : (s.data r).wraparoundMask = 0) :
    (s.tracerAt r).SameBuffer (s'.tracerAt r) := by
  have hring : (s.data r).SameRing (s'.data r) :=
    ⟨h.pos hidle, (h.mask hmask).trans hmask.symm, h.buf, h.bufSize⟩
  have hwords : ∀ a, (s.data r).HasWord a → s'.mem a = s.mem a := fun a ha =>
    h.words hbuf a ha fun p hp => by
      rw [hidle] at hp
      cases hp
  have hpending := (h.idle hidle).trans hidle.symm
  cases r with
  | tls t => exact ⟨hring, hpending, hwords⟩
  | copy n => exact ⟨hring, hpending, hwords⟩

end Frozen

/-- Equal data, pending calls and words. -/
theorem frozen_of_eq (hdata : s'.data r = s.data r)
    (hpending : (s'.tracerAt r).pending = (s.tracerAt r).pending)
    (hwords : (s.data r).buf ≠ 0 → ∀ a, (s.data r).HasWord a → s'.mem a = s.mem a) : Frozen s s' r where
  buf := by rw [hdata]
  bufSize := by rw [hdata]
  id := by rw [hdata]
  mask := by rw [hdata]; exact id
  pos _ := by rw [hdata]
  pending p hp := ⟨p, hpending ▸ hp, rfl, rfl⟩
  words hbuf a ha _ := hwords hbuf a ha

theorem tracerAt_withTracer {t : ℕ} {tr : Tracer} : (s.withTracer t tr).tracerAt (.tls t) = tr := by
  simp [tracerAt, tracer, withTracer, write]

theorem pending_withTracer {t : ℕ} {tr : Tracer} (hr : r ≠ .tls t) :
    ((s.withTracer t tr).tracerAt r).pending = (s.tracerAt r).pending := by
  cases r with
  | tls u => exact Function.update_of_ne (fun heq => hr (by rw [heq])) _ _
  | copy n => rfl

/-- A thread whose tracing is paused calls a function. -/
theorem frozen_enter {t : ℕ} {call : TraceCall} (hmask : r = .tls t → (s.data r).wraparoundMask = 0) :
    Frozen s (s.withTracer t ((s.tracer t).enter call)) r := by
  have hmem : ((s.tracer t).enter call).mem = s.mem := Tracer.mem_enter
  by_cases hr : r = .tls t
  · subst hr
    have hsame : (s.tracer t).enter call = s.tracer t := by
      refine if_pos ?_
      change (s.data (.tls t)).pos &&& (s.data (.tls t)).wraparoundMask = 0
      rw [hmask rfl, UInt64.and_zero]
    rw [hsame]
    exact frozen_of_eq (Function.update_self _ _ _) (congrArg Tracer.pending tracerAt_withTracer)
      fun _ _ _ => rfl
  · exact frozen_of_eq (Function.update_of_ne hr _ _) (pending_withTracer hr) fun _ a _ => congrFun hmem a

/-- A thread makes a store. -/
theorem frozen_store {t : ℕ} {tr : Tracer} (htr : (s.tracer t).step .store = some tr)
    (hframe : r ≠ .tls t → (s.data r).buf ≠ 0 → ∀ a, (s.data r).HasWord a → tr.mem a = s.mem a) :
    Frozen s (s.withTracer t tr) r := by
  by_cases hr : r = .tls t
  · subst hr
    have hdata : (s.withTracer t tr).data (.tls t) = tr.data := Function.update_self _ _ _
    have hwords : ∀ a, (∀ p, (s.tracer t).pending = some p → a ≠ p.slot ∧ a ≠ p.slot + 8) →
        tr.mem a = s.mem a := fun a ha => mem_store htr ha
    obtain ⟨slot, entry, st, rest, hp, rfl⟩ := Tracer.exists_of_store htr
    have hstored : ((s.tracer t).store slot entry st rest).data = s.data (.tls t) ∨
        ((s.tracer t).store slot entry st rest).data =
          { s.data (.tls t) with pos := slot + sizeofTraceEntry } := Tracer.data_store ..
    refine ⟨?_, ?_, ?_, ?_, fun hidle => ?_, fun p' hp' => ⟨_, hp, ?_⟩, fun _ a _ ha => hwords a ha⟩
    · rcases hstored with h | h <;> rw [hdata, h]
    · rcases hstored with h | h <;> rw [hdata, h]
    · rcases hstored with h | h <;> rw [hdata, h]
    · rcases hstored with h | h <;> rw [hdata, h] <;> exact id
    · exact absurd (hidle.symm.trans hp) (by simp)
    · rw [tracerAt_withTracer, Tracer.pending_store] at hp'
      split_ifs at hp'
      obtain rfl := Option.some.inj hp'
      exact ⟨rfl, rfl⟩
  · exact frozen_of_eq (Function.update_of_ne hr _ _) (pending_withTracer hr) (hframe hr)

/-! ## One step -/

/-- A snapshot is being taken: it holds the mutex, and has paused all threads on the list. -/
structure Halted (s : Process) : Prop where
  locked : s.locked
  masks : ∀ r ∈ s.threadTraces, (s.data r).wraparoundMask = 0

/-- A thread that registers itself is not on the list. -/
theorem not_mem_of_allocating (ho : s.Owned) (hacc : s.Accounted) {t n : ℕ}
    (hn : s.registration t = .allocating n) : .tls t ∉ s.threadTraces := by
  by_cases ht : t = 0
  · subst ht
    exact hacc.registeringMain (by simp [hn])
  · exact ho.registering t ht (by simp [hn])

/-- **One step** while a snapshot is taken. -/
theorem frozen_step {a : Action} (ho : s.Owned) (hacc : s.Accounted) (hlaid : ∀ t, ThreadLaid True s t)
    (hlogs : s.RingLogs) (hok : s.OwnTrace a) (hhalted : s.Halted) (ha : a ≠ .endSnapshot)
    (hs : s.step a = some s') :
    s'.Halted ∧ s'.threadTraces = s.threadTraces ∧ ∀ r ∈ s.threadTraces, Frozen s s' r := by
  have hlocked := hhalted.locked
  suffices hfrozen : s'.locked ∧ s'.threadTraces = s.threadTraces ∧
      ∀ r ∈ s.threadTraces, Frozen s s' r by
    obtain ⟨hlocked', hlist, hfrozen⟩ := hfrozen
    refine ⟨⟨hlocked', fun r hr => ?_⟩, hlist, hfrozen⟩
    rw [hlist] at hr
    exact (hfrozen r hr).mask (hhalted.masks r hr)
  cases stepped_of_step hs with
  | constructMain | createThread | exitThread | endThread =>
    exact ⟨hlocked, rfl, fun r _ => frozen_of_eq rfl (by cases r <;> rfl) fun _ _ _ => rfl⟩
  | allocate t n block hasked hblock =>
    refine ⟨hlocked, rfl, fun r hr => ?_⟩
    have hrt : r ≠ .tls t := by
      rintro rfl
      exact not_mem_of_allocating ho hacc hasked hr
    refine frozen_of_eq (Function.update_of_ne hrt _ _) (by cases r <;> rfl) fun hbuf a hword => ?_
    exact mem_allocateTrace ho hlogs hasked hok hblock (Or.inl hr) hbuf hword
  | trace t call hmay =>
    exact ⟨hlocked, rfl, fun r hr => frozen_enter fun _ => hhalted.masks r hr⟩
  | store t slot entry st rest hpending =>
    have htr := Tracer.step_store (show (s.tracer t).pending = some ⟨slot, entry, st :: rest⟩ from hpending)
    refine ⟨hlocked, rfl, fun r hr => frozen_store htr fun hrt hbuf a hword => ?_⟩
    exact mem_store htr fun p hp => (hlaid t).ne_slot ho hrt (Or.inl hr) hbuf hp hword
  | endSnapshot => exact absurd rfl ha
  | link _ _ _ _ hfree | ignoreThisThread _ _ _ hfree | setThreadLogBufSize _ _ _ _ hfree
  | unsetThreadLogBufSize _ _ _ _ hfree | returnFromStart _ _ _ _ _ _ _ hfree
  | collectGarbage _ _ _ hfree | disableTracing hfree | enableTracing hfree
  | beginSnapshot _ hfree => exact absurd (hlocked.symm.trans hfree) (by decide)

theorem halted_beginSnapshot {names : TraceRef → Vector UInt8 16}
    (hs : s.step (.beginSnapshot names) = some s') : s'.Halted := by
  cases stepped_of_step hs
  refine ⟨rfl, fun r hr => ?_⟩
  have hr : r ∈ s.threadTraces := hr
  have hpaused : s.pauseTracing.data r = (s.data r).pauseTracing := if_pos hr
  have hdata : (s.pauseTracing.onAll fun r d => d.updateName (names r)).data r =
      (s.pauseTracing.data r).updateName (names r) := if_pos hr
  change ((s.pauseTracing.onAll fun r d => d.updateName (names r)).data r).wraparoundMask = 0
  rw [hdata, (sameRing_updateName _ _).mask, hpaused]
  rfl

end Process

/-! ## Runs -/

namespace History
open Process
variable {h h' : History} {r : TraceRef}

/-- What every run keeps in which the main thread registers itself once and no thread ends while it
    is registered. -/
structure Sound (h : History) : Prop where
  kept : h.Kept
  accounted : h.process.Accounted
  ended : h.process.EndedGone

/-- What a run may rely on: threads trace to buffers of their own, the main thread registers itself
    once, and no thread ends while it is registered. -/
def Allowed (s : Process) (a : Action) : Prop := s.OwnTrace a ∧ s.Orderly a

instance (s : Process) (a : Action) : Decidable (Allowed s a) :=
  inferInstanceAs (Decidable (s.OwnTrace a ∧ s.Orderly a))

theorem Sound.alive (hk : h.Sound) : ∀ r ∈ h.process.threadTraces, h.process.Alive r :=
  hk.kept.owned.forall_alive.2 hk.ended.gone

theorem Sound.step {a : Action} (hk : h.Sound) (hok : Allowed h.process a) (hs : h.step a = some h') :
    h'.Sound := by
  have hkept := hk.kept.step hok.1 hs
  obtain ⟨s', hstep, rfl⟩ := Option.map_eq_some_iff.1 hs
  have heffect := effect_step hk.kept.owned hstep
  exact ⟨hkept, heffect.accounted ⟨hok.2.1, hk.accounted.nodup⟩ hk.kept.owned hk.accounted,
    hk.ended.step hk.kept.owned hok.2.2 hstep⟩

theorem Sound.run {acts : List Action} (hk : h.Sound)
    (hok : Along History.step (fun h a => Allowed h.process a) h acts)
    (hrun : runFrom History.step h acts = some h') : h'.Sound :=
  run_invariant_along (fun _ _ _ hk hok hs => hk.step hok hs) hk hok hrun

/-- **A run** while a snapshot is taken. -/
theorem frozen_run {acts : List Action} (hend : .endSnapshot ∉ acts) (hk : h.Sound)
    (hhalted : h.process.Halted) (hok : Along History.step (fun h a => Allowed h.process a) h acts)
    (hrun : runFrom History.step h acts = some h') :
    h'.Sound ∧ h'.process.Halted ∧ h'.process.threadTraces = h.process.threadTraces ∧
      ∀ r ∈ h.process.threadTraces, Frozen h.process h'.process r := by
  have hstep : ∀ (h₁ : History) (a : Action) (h₂ : History),
      (h₁.Sound ∧ h₁.process.Halted ∧ h₁.process.threadTraces = h.process.threadTraces ∧
        ∀ r ∈ h.process.threadTraces, Frozen h.process h₁.process r) →
      (Allowed h₁.process a ∧ a ≠ .endSnapshot) → h₁.step a = some h₂ →
      h₂.Sound ∧ h₂.process.Halted ∧ h₂.process.threadTraces = h.process.threadTraces ∧
        ∀ r ∈ h.process.threadTraces, Frozen h.process h₂.process r := by
    rintro h₁ a h₂ ⟨hk₁, hhalted₁, hlist₁, hfrozen₁⟩ ⟨hok, ha⟩ hs
    have hk₂ := hk₁.step hok hs
    obtain ⟨s', hstep, rfl⟩ := Option.map_eq_some_iff.1 hs
    obtain ⟨hhalted₂, hlist₂, hfrozen₂⟩ := frozen_step hk₁.kept.owned hk₁.accounted hk₁.kept.laid
      hk₁.kept.logs hok.1 hhalted₁ ha hstep
    refine ⟨hk₂, hhalted₂, hlist₂.trans hlist₁, fun r hr => ?_⟩
    exact (hfrozen₁ r hr).trans (hfrozen₂ r (hlist₁ ▸ hr))
  have hends : Along History.step (fun _ a => a ≠ Action.endSnapshot) h acts :=
    along_of_forall fun _ a ha heq => hend (heq ▸ ha)
  exact run_invariant_along hstep ⟨hk, hhalted, rfl, fun r _ => .refl _ r⟩ (along_and hok hends) hrun

/-- What has been traced to the buffer of `r`. -/
def traced (h : History) (r : TraceRef) : Option (List FunTraceEntry) :=
  (runFrom Recorder.step Recorder.init (h.acts r)).map Recorder.traced

theorem Alone.aligned (ha : h.Alone r) : ∃ L, (h.process.tracerAt r).data.Aligned L := by
  obtain ⟨L, block, before, n, mem, h5, h30, halloc, hstarted⟩ := ha.fresh
  obtain ⟨tr, hrun, hsame⟩ := ha.run
  obtain ⟨hne, hinit, hholds⟩ := holds_allocate halloc h5 h30 before n mem
  rw [hstarted] at hrun
  obtain ⟨rec, -, hholds⟩ := hholds.run hrun
  have haligned := hholds.aligned
  refine ⟨L, h5, h30, hsame.ring.bufSize.trans haligned.size, ?_, ?_⟩
  · rw [hsame.ring.buf]
    exact haligned.align
  · rw [hsame.ring.buf]
    exact haligned.nonzero

/-- The buffer of a thread that is in no call is the ring of what it has traced. -/
theorem Alone.ring (ha : h.Alone r) (hidle : (h.process.tracerAt r).pending = none) :
    ∃ (es : List FunTraceEntry) (hne : (h.started r).data.slots (h.started r).mem ≠ []),
      h.traced r = some es ∧ (((h.started r).data.slots (h.started r).mem).getLast hne).cycle = 0 ∧
      ((h.started r).data.slots (h.started r).mem).length = (h.process.data r).numSlots ∧
      (h.process.data r).slots h.process.mem = (ringOf hne es).slots ∧
      (h.process.data r).posIndex = (ringOf hne es).pos := by
  obtain ⟨L, block, before, n, mem, h5, h30, halloc, hstarted⟩ := ha.fresh
  obtain ⟨tr, hrun, hsame⟩ := ha.run
  obtain ⟨hne, hinit, hholds⟩ := holds_allocate halloc h5 h30 before n mem
  simp only [← hstarted] at hne hinit hholds
  obtain ⟨rec, hrec, hholds⟩ := hholds.run hrun
  have hpending : tr.pending = none := hsame.pending.symm.trans hidle
  have htraced : rec.traced = rec.done := by simp [Recorder.traced, hholds.current, hpending]
  have hslots := hsame.slots hholds.aligned
  have hpos := hsame.ring.posIndex
  have hnum := hsame.ring.numSlots
  rw [data_tracerAt] at hslots hpos hnum
  rw [mem_tracerAt] at hslots
  refine ⟨rec.done, hne, by rw [traced, hrec, Option.map_some, htraced], hinit, ?_, ?_, ?_⟩
  · rw [hnum]
    exact hholds.length
  · rw [hslots, hholds.slots_eq hpending]
  · rw [hpos, hholds.posIndex_eq]

end History

/-- A snapshot reads the positions of buffers in `h₁` and copies them in `h₂`: the list of buffers
    is the same and points to what exists, none was freed, what is written meanwhile belongs to
    calls in progress, and of a thread that is in no call it copies what the thread had traced. -/
structure History.Consistent (h₁ h₂ : History) : Prop where
  list : h₂.process.threadTraces = h₁.process.threadTraces
  alive : ∀ r ∈ h₁.process.threadTraces, h₁.process.Alive r ∧ h₂.process.Alive r
  frozen : ∀ r ∈ h₁.process.threadTraces, Process.Frozen h₁.process h₂.process r
  live : ∀ r ∈ h₁.process.threadTraces, (h₁.process.data r).buf ≠ 0 →
    ((h₁.process.data r).buf, (h₁.process.data r).bufSize) ∈ h₂.process.buffers.blocks
  copied : ∀ r ∈ h₁.process.threadTraces, (h₁.process.data r).buf ≠ 0 →
    (h₁.process.tracerAt r).pending = none → ∃ es, h₁.traced r = some es ∧
      (∃ hne : (h₁.started r).data.slots (h₁.started r).mem ≠ [],
        (h₂.process.data r).slots h₂.process.mem = (ringOf hne es).slots) ∧
      ∀ time pauseTime, es.Pairwise (·.cycle < ·.cycle) → (∀ e ∈ es, e.cycle ≠ 0) →
        (∀ e ∈ es, e.cycle ≤ pauseTime) → time ≤ pauseTime →
        copyStartingAtTime ((h₂.process.data r).slots h₂.process.mem) (h₁.process.data r).posIndex
            time pauseTime =
          (es.drop (es.length - (h₁.process.data r).numSlots)).filter (inInterval time pauseTime)

namespace History
open Process
variable {h₁ h₂ : History} {r : TraceRef}

/-- A buffer that is frozen is copied as it was. -/
theorem Alone.slots_eq (ha : h₁.Alone r) (hfrozen : Frozen h₁.process h₂.process r)
    (hbuf : (h₁.process.data r).buf ≠ 0) (hidle : (h₁.process.tracerAt r).pending = none)
    (hmask : (h₁.process.data r).wraparoundMask = 0) :
    (h₂.process.data r).slots h₂.process.mem = (h₁.process.data r).slots h₁.process.mem := by
  obtain ⟨L, haligned⟩ := ha.aligned
  have hcopied := (hfrozen.sameBuffer hbuf hidle hmask).slots haligned
  rwa [data_tracerAt, mem_tracerAt, data_tracerAt, mem_tracerAt] at hcopied

theorem consistent_of_frozen (hsound : h₁.Sound) (hhalted : h₁.process.Halted) (hsound₂ : h₂.Sound)
    (hlist : h₂.process.threadTraces = h₁.process.threadTraces)
    (hfrozen : ∀ r ∈ h₁.process.threadTraces, Frozen h₁.process h₂.process r) :
    h₁.Consistent h₂ where
  list := hlist
  alive r hr := ⟨hsound.alive r hr, hsound₂.alive r (hlist.symm ▸ hr)⟩
  frozen := hfrozen
  live r hr hbuf := by
    have hbuf₂ : (h₂.process.data r).buf ≠ 0 := (hfrozen r hr).buf.symm ▸ hbuf
    have hlive := hsound₂.kept.owned.bufLive r (Or.inl (hlist.symm ▸ hr)) hbuf₂
    rw [(hfrozen r hr).buf, (hfrozen r hr).bufSize] at hlive
    exact hlive
  copied r hr hbuf hidle := by
    have halone := hsound.kept.alone r (Or.inl hr) hbuf
    obtain ⟨es, hne, htraced, hinit, hlength, hslots, hpos⟩ := halone.ring hidle
    have hslots₂ := (halone.slots_eq (hfrozen r hr) hbuf hidle (hhalted.masks r hr)).trans hslots
    refine ⟨es, htraced, ⟨hne, hslots₂⟩, fun time pauseTime hsorted hnonzero hpast htime => ?_⟩
    have hlater : ∀ e ∈ ([] : List FunTraceEntry), pauseTime < e.cycle := by simp
    have hwindow := copyStartingAtTime_ring hne hinit hsorted hnonzero hpast hlater htime
    rw [List.append_nil, hlength] at hwindow
    rw [hslots₂, hpos]
    exact hwindow

end History

section
variable {pid : UInt64} {gcMaxAgeMs : ℤ} {defaultLogBufSize : ℕ} {mem : Memory}
  {before mid later : List Process.Action} {names : TraceRef → Vector UInt8 16} {h₁ h₂ : History}
open History Process

/-- What holds when a snapshot reads the positions, and from then on until it copies. -/
theorem snapshot_run (hdefault : defaultLogBufSize = 0 ∨ 5 ≤ defaultLogBufSize)
    (hok : Along Process.step Allowed (.init pid gcMaxAgeMs defaultLogBufSize mem)
      (before ++ .beginSnapshot names :: (mid ++ later)))
    (hmid : .endSnapshot ∉ mid) (hlater : .endSnapshot ∉ later)
    (hread : runFrom History.step (.init pid gcMaxAgeMs defaultLogBufSize mem)
      (before ++ .beginSnapshot names :: mid) = some h₁)
    (hcopy : runFrom History.step h₁ later = some h₂) :
    h₁.Sound ∧ h₁.process.Halted ∧ h₂.Sound ∧
      h₂.process.threadTraces = h₁.process.threadTraces ∧
      ∀ r ∈ h₁.process.threadTraces, Frozen h₁.process h₂.process r := by
  have hsound : (History.init pid gcMaxAgeMs defaultLogBufSize mem).Sound :=
    ⟨kept_init hdefault, accounted_init, endedGone_init⟩
  have hok := along_process (h := .init pid gcMaxAgeMs defaultLogBufSize mem) hok
  -- the run has three parts: up to the pause, up to where positions are read, and the rest
  rw [runFrom_append] at hread
  obtain ⟨h₀, hbefore, hread⟩ := Option.bind_eq_some_iff.1 hread
  obtain ⟨hp, hbegin, hread⟩ := runFrom_cons hread
  obtain ⟨hok₀, hrest⟩ := (along_append _ _ _).1 hok
  obtain ⟨hokBegin, hrest⟩ := (hrest h₀ hbefore).of_cons hbegin
  obtain ⟨hokMid, hrest⟩ := (along_append _ _ _).1 hrest
  have hsoundp := (hsound.run hok₀ hbefore).step hokBegin hbegin
  have hhalted : hp.process.Halted := by
    obtain ⟨s', hs', rfl⟩ := Option.map_eq_some_iff.1 hbegin
    exact halted_beginSnapshot hs'
  obtain ⟨hsound₁, hhalted₁, -, -⟩ := frozen_run hmid hsoundp hhalted hokMid hread
  obtain ⟨hsound₂, -, hlist, hfrozen⟩ := frozen_run hlater hsound₁ hhalted₁ (hrest h₁ hread) hcopy
  exact ⟨hsound₁, hhalted₁, hsound₂, hlist, hfrozen⟩

/-- **Snapshots are consistent.**  A snapshot pauses tracing after some actions; after others it
    reads the positions of buffers, and after others still it copies them, whatever the threads
    do meanwhile, as long as none ends while it is registered. -/
theorem consistent_run (hdefault : defaultLogBufSize = 0 ∨ 5 ≤ defaultLogBufSize)
    (hok : Along Process.step Allowed (.init pid gcMaxAgeMs defaultLogBufSize mem)
      (before ++ .beginSnapshot names :: (mid ++ later)))
    (hmid : .endSnapshot ∉ mid) (hlater : .endSnapshot ∉ later)
    (hread : runFrom History.step (.init pid gcMaxAgeMs defaultLogBufSize mem)
      (before ++ .beginSnapshot names :: mid) = some h₁)
    (hcopy : runFrom History.step h₁ later = some h₂) : h₁.Consistent h₂ := by
  obtain ⟨hsound, hhalted, hsound₂, hlist, hfrozen⟩ :=
    snapshot_run hdefault hok hmid hlater hread hcopy
  exact consistent_of_frozen hsound hhalted hsound₂ hlist hfrozen

end

/-- One thread is in a call at the pause, and ends it before its buffer is copied; a third one is
    created meanwhile. -/
theorem consistent_run_demo :
    let before : List Process.Action :=
      [.createThread 1, .allocate 1 (some 0x10000), .link 1 2 2, .createThread 2,
        .allocate 2 (some 0x20000), .link 2 3 3, .trace 1 (.fentry 0x1100 10), .store 1, .store 1,
        .store 1, .trace 2 (.fentry 0x1200 20), .store 2]
    let mid : List Process.Action := [.trace 1 (.fentry 0x1300 30), .createThread 3]
    let later : List Process.Action := [.store 2, .allocate 3 (some 0x30000), .store 2]
    ∃ h₁ h₂, runFrom History.step (.init 1 300 5 fun _ => 7)
        (before ++ .beginSnapshot (fun _ => Vector.replicate 16 0) :: mid) = some h₁ ∧
      runFrom History.step h₁ later = some h₂ ∧ h₁.Consistent h₂ := by
  intro before mid later
  have hsome : (runFrom History.step (.init 1 300 5 fun _ => 7)
      ((before ++ .beginSnapshot (fun _ => Vector.replicate 16 0) :: mid) ++ later)).isSome := by
    decide +kernel
  rw [runFrom_append] at hsome
  obtain ⟨h₂, hh₂⟩ := Option.isSome_iff_exists.1 hsome
  obtain ⟨h₁, hread, hcopy⟩ := Option.bind_eq_some_iff.1 hh₂
  refine ⟨h₁, h₂, hread, hcopy, consistent_run (Or.inr le_rfl) ?_ ?_ ?_ hread hcopy⟩
  · decide +kernel
  · simp [mid]
  · simp [later]

end Funtrace
