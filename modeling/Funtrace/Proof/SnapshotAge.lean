/-
  Snapshots up to an age.

  The age becomes the time at which the snapshot starts, by a subtraction that wraps
  around.  A time after the pause comes before all entries of a trace buffer and after
  all events of ftrace, so an age larger than the current time selects all of the
  former and none of the latter (`snapshotUpToAge_iff`).
-/
import Funtrace.Proof.FtraceHandler
import Funtrace.Proof.Snapshots

namespace Funtrace

/-! ## Trace buffers -/

/-- A trace buffer with arbitrary content, but for the cycle of its last slot, into which some
    events have been traced. -/
structure SortedBuffer where
  id : ThreadID
  init : List FunTraceEntry
  nonempty : init ≠ []
  lastZero : (init.getLast nonempty).cycle = 0
  events : List FunTraceEntry
  sorted : events.Pairwise (·.cycle < ·.cycle)
  nonzero : ∀ e ∈ events, e.cycle ≠ 0

namespace SortedBuffer
variable (b : SortedBuffer)

/-- The ring after the events. -/
def ring : Ring FunTraceEntry := (Ring.fresh b.init b.nonempty).pushAll b.events

/-- The buffer as a snapshot reads it. -/
def buffer : ThreadBuffer := ⟨b.id, b.ring.slots, b.ring.pos⟩

/-- The events that are still in the buffer. -/
def held : List FunTraceEntry := b.events.drop (b.events.length - b.init.length)

variable {b} {time pauseTime : UInt64}

theorem mem_held {e : FunTraceEntry} (h : e ∈ b.held) : e ∈ b.events := List.mem_of_mem_drop h

/-- A snapshot from a time before the pause. -/
theorem copy_of_le (hpast : ∀ e ∈ b.events, e.cycle ≤ pauseTime) (htime : time ≤ pauseTime) :
    copyStartingAtTime b.buffer.buf b.buffer.pos time pauseTime =
      b.held.filter fun e => time ≤ e.cycle := by
  have hring := @copyStartingAtTime_ring time pauseTime b.events [] b.init b.nonempty b.lastZero
    b.sorted b.nonzero hpast (List.forall_mem_nil _) htime
  dsimp only at hring
  rw [List.append_nil, Ring.pushAll_nil] at hring
  refine hring.trans (List.filter_congr fun e he => ?_)
  have hle := hpast e (mem_held he)
  simp [inInterval, hle]

/-- Nothing lies before a time after the pause. -/
theorem copyFrom_of_lt {range : List FunTraceEntry} (hpast : ∀ e ∈ range, e.cycle ≤ pauseTime)
    (htime : pauseTime < time) : copyFrom range (findEarliestEventAfter range time pauseTime) = range := by
  have hbefore : ∀ e ∈ range, eventBefore pauseTime e ⟨0, time⟩ = false := by
    intro e he
    have hle := hpast e he
    simp [eventBefore, htime, UInt64.not_lt.2 hle, hle]
  have hzero := @lowerBound_append _ (fun e => eventBefore pauseTime e ⟨0, time⟩) [] range
    (List.forall_mem_nil _) hbefore
  rw [List.nil_append, List.length_nil] at hzero
  unfold findEarliestEventAfter
  simp only [hzero]
  split_ifs with hlen
  · rw [List.eq_nil_of_length_eq_zero hlen.symm]
    rfl
  · rfl

/-- **A snapshot from a time after the pause** has all entries. -/
theorem copy_of_lt (hpast : ∀ e ∈ b.events, e.cycle ≤ pauseTime) (htime : pauseTime < time) :
    copyStartingAtTime b.buffer.buf b.buffer.pos time pauseTime = b.held := by
  rcases Nat.lt_or_ge b.events.length b.init.length with hlt | hge
  · -- the last slot was never written, so what is right of `pos` is not searched
    obtain ⟨hslots, hpos⟩ := Ring.slots_fresh b.nonempty hlt.le
    have hdrop : b.init.drop b.events.length ≠ [] := by simpa using hlt
    have hlast : ¬ b.buffer.buf.getLast?.any (·.cycle ≠ 0) := by
      simp only [buffer, ring]
      rw [hslots, List.getLast?_append_of_ne_nil _ hdrop, List.getLast?_drop, if_neg (by omega),
        List.getLast?_eq_getLast_of_ne_nil b.nonempty]
      simp [b.lastZero]
    have hleft : b.buffer.buf.take b.buffer.pos = b.events := by
      simp only [buffer, ring]
      rw [hslots, hpos, List.take_left]
    rw [copyStartingAtTime, if_neg hlast, hleft, copyFrom_of_lt hpast htime, held,
      Nat.sub_eq_zero_of_le hlt.le, List.drop_zero]
    rfl
  · have hcontents : b.ring.contents = b.held := by
      rw [ring, Ring.contents_pushAll, Ring.contents_fresh, List.drop_append,
        List.drop_of_length_le hge, List.nil_append, held]
    have hmem : ∀ e ∈ b.ring.slots, e ∈ b.events := by
      intro e he
      have hmem := (Ring.mem_contentsFrom _ b.ring.pos).2 he
      rw [← Ring.contents, hcontents] at hmem
      exact mem_held hmem
    have hlast : b.buffer.buf.getLast?.any (·.cycle ≠ 0) := by
      simp only [buffer]
      rw [List.getLast?_eq_getLast_of_ne_nil b.ring.nonempty]
      simpa using b.nonzero _ (hmem _ (List.getLast_mem _))
    have hright : ∀ e ∈ b.buffer.buf.drop b.buffer.pos, e.cycle ≤ pauseTime := fun e he =>
      hpast e (hmem e (List.mem_of_mem_drop he))
    have hleft : ∀ e ∈ b.buffer.buf.take b.buffer.pos, e.cycle ≤ pauseTime := fun e he =>
      hpast e (hmem e (List.mem_of_mem_take he))
    rw [copyStartingAtTime, if_pos hlast, copyFrom_of_lt hright htime, copyFrom_of_lt hleft htime,
      ← hcontents]
    rfl

end SortedBuffer

/-- The buffer of a thread is such a buffer. -/
theorem HasTraced.sortedBuffer {L : ℕ} {posixMemalign : UInt64 → UInt64 → Option UInt64}
    {entries : UInt64} (halloc : Allocates posixMemalign L entries) (h5 : 5 ≤ L) (h30 : L ≤ 30)
    (d₀ : TraceData) (defaultLogBufSize : ℕ) (mem₀ : Memory) {acts : List TraceAction}
    {es : List FunTraceEntry} {s : Tracer}
    (h : HasTraced (Tracer.fresh (d₀.allocate defaultLogBufSize posixMemalign L mem₀)) acts es s)
    (hsorted : es.Pairwise (·.cycle < ·.cycle)) (hnonzero : ∀ e ∈ es, e.cycle ≠ 0) :
    ∃ b : SortedBuffer, b.events = es ∧ b.init.length = 2 ^ L / 16 ∧
      b.buffer.buf = s.data.slots s.mem ∧ b.buffer.pos = s.data.posIndex := by
  obtain ⟨hne, hinit, hholds⟩ := holds_allocate halloc h5 h30 d₀ defaultLogBufSize mem₀
  obtain ⟨hslots, hpos⟩ := h.holds hholds
  refine ⟨⟨s.data.id, _, hne, hinit, es, hsorted, hnonzero⟩, rfl, ?_, hslots.symm, hpos.symm⟩
  rw [TraceData.length_slots]
  exact hholds.numSlots_eq

/-! ## Ftrace -/

namespace FtraceHandler

/-- An event has a line. -/
theorem line_ne_nil {n : ℕ} {lines : List (List UInt8)} {e : Event} (he : e ∈ lastEvents n lines) :
    e.line ≠ [] := by
  have hmem := (List.mem_filter.1 (List.mem_of_mem_drop he)).1
  obtain ⟨line, -, rfl⟩ := List.mem_map.1 hmem
  rintro rfl
  exact timestamp_ne_zero he rfl

/-- A snapshot from time zero has the empty slots, too. -/
theorem eventsSnapshot_zero {n : ℕ} (hn : 0 < n) (lines : List (List UInt8)) :
    ((init n hn).threadFunc lines).eventsSnapshot 0 =
      List.replicate (n - (acceptedEvents lines).length) [] ++ (lastEvents n lines).map (·.line) := by
  have hcopy (range : List Event) : copyLines range (findEarliestEventAfter range 0) =
      range.map (·.line) := by
    have hpart : Partitioned (fun e : Event => e.timestamp < 0) range :=
      List.pairwise_of_forall fun _ e h => absurd (of_decide_eq_true h) UInt64.not_lt_zero
    rw [copyLines_find hpart, List.filter_eq_self.2 fun e _ => decide_eq_true UInt64.zero_le]
  have hcontents := contents_threadFunc hn lines
  dsimp only at hcontents
  rw [eventsSnapshot, hcopy, hcopy, ← List.map_append, hcontents, List.map_append, List.map_replicate]

end FtraceHandler

/-! ## Ages -/

/-- A time that is no older than an age. -/
def upToAge (now maxEventAge time : UInt64) : Bool := now.toNat ≤ time.toNat + maxEventAge.toNat

section
variable {now pauseTime maxEventAge : UInt64}

theorem upToAge_of_le (h : maxEventAge ≤ now) (time : UInt64) :
    upToAge now maxEventAge time = decide (now - maxEventAge ≤ time) := by
  rw [upToAge, decide_eq_decide, UInt64.le_iff_toNat_le, UInt64.toNat_sub_of_le _ _ h]
  rw [UInt64.le_iff_toNat_le] at h
  omega

theorem upToAge_of_lt (h : now < maxEventAge) (time : UInt64) : upToAge now maxEventAge time = true := by
  rw [upToAge, decide_eq_true_eq]
  rw [UInt64.lt_iff_toNat_lt] at h
  omega

/-- **The trace entries** up to an age. -/
theorem traces_iff {bs : List SortedBuffer} (hpause : now ≤ pauseTime)
    (hpast : ∀ b ∈ bs, ∀ e ∈ b.events, e.cycle ≤ pauseTime) (ftraceHandler : FtraceHandler)
    (procmaps : List UInt8) :
    (snapshotUpToAge (bs.map SortedBuffer.buffer) ftraceHandler procmaps now pauseTime
        maxEventAge).threadTraces =
      (bs.map fun b => ⟨b.id, b.held.filter fun e => upToAge now maxEventAge e.cycle⟩) ↔
      maxEventAge ≤ now ∨ pauseTime < now - maxEventAge ∨
        ∀ b ∈ bs, ∀ e ∈ b.held, now - maxEventAge ≤ e.cycle := by
  have hcopied : (snapshotUpToAge (bs.map SortedBuffer.buffer) ftraceHandler procmaps now pauseTime
      maxEventAge).threadTraces = bs.map fun b =>
        ⟨b.id, copyStartingAtTime b.buffer.buf b.buffer.pos (now - maxEventAge) pauseTime⟩ :=
    List.map_map
  rw [hcopied, List.map_inj_left]
  simp only [SnapshotBuffer.mk.injEq, true_and]
  by_cases hage : maxEventAge ≤ now
  · have htime : now - maxEventAge ≤ pauseTime := by
      rw [UInt64.le_iff_toNat_le, UInt64.toNat_sub_of_le _ _ hage]
      rw [UInt64.le_iff_toNat_le] at hpause
      omega
    refine iff_of_true (fun b hb => ?_) (Or.inl hage)
    rw [SortedBuffer.copy_of_le (hpast b hb) htime]
    exact List.filter_congr fun e _ => (upToAge_of_le hage _).symm
  · have hlt := UInt64.not_le.1 hage
    have hall (b : SortedBuffer) : b.held.filter (fun e => upToAge now maxEventAge e.cycle) = b.held :=
      List.filter_eq_self.2 fun e _ => upToAge_of_lt hlt _
    by_cases hwrap : pauseTime < now - maxEventAge
    · refine iff_of_true (fun b hb => ?_) (Or.inr (Or.inl hwrap))
      rw [SortedBuffer.copy_of_lt (hpast b hb) hwrap, hall]
    · simp only [hage, hwrap, false_or]
      refine forall₂_congr fun b hb => ?_
      rw [SortedBuffer.copy_of_le (hpast b hb) (UInt64.not_lt.1 hwrap), hall, List.filter_eq_self]
      simp only [decide_eq_true_eq]

/-- **The events of ftrace** up to an age; slots without an event have an empty line. -/
theorem ftrace_iff {n : ℕ} (hn : 0 < n) {lines : List (List UInt8)}
    (hsorted : (FtraceHandler.acceptedEvents lines).Pairwise (·.timestamp ≤ ·.timestamp))
    (threadTraces : List ThreadBuffer) (procmaps : List UInt8) :
    (snapshotUpToAge threadTraces ((FtraceHandler.init n hn).threadFunc lines) procmaps now pauseTime
        maxEventAge).ftraceEvents.filter (· ≠ []) =
      ((FtraceHandler.lastEvents n lines).filter fun e =>
        upToAge now maxEventAge e.timestamp).map (·.line) ↔
      maxEventAge ≤ now ∨ ∀ e ∈ FtraceHandler.lastEvents n lines, now - maxEventAge ≤ e.timestamp := by
  set es := FtraceHandler.lastEvents n lines with hes
  set t := now - maxEventAge with ht
  have hlines (q : FtraceHandler.Event → Bool) : ((es.filter q).map (·.line)).filter (· ≠ []) =
      (es.filter q).map (·.line) := by
    refine List.filter_eq_self.2 fun line hline => ?_
    obtain ⟨e, he, rfl⟩ := List.mem_map.1 hline
    simpa using FtraceHandler.line_ne_nil (List.mem_filter.1 he).1
  have hsnapshot : (((FtraceHandler.init n hn).threadFunc lines).eventsSnapshot t).filter (· ≠ []) =
      (es.filter fun e => t ≤ e.timestamp).map (·.line) := by
    by_cases hzero : t = 0
    · rw [hzero, FtraceHandler.eventsSnapshot_zero, List.filter_append, ← hes]
      have hall : es.filter (fun e => 0 ≤ e.timestamp) = es :=
        List.filter_eq_self.2 fun e _ => decide_eq_true UInt64.zero_le
      have hempty : (List.replicate (n - (FtraceHandler.acceptedEvents lines).length)
          ([] : List UInt8)).filter (· ≠ []) = [] :=
        List.filter_eq_nil_iff.2 fun line hline => by simp [List.eq_of_mem_replicate hline]
      have hnonempty := hlines fun e => 0 ≤ e.timestamp
      rw [hall] at hnonempty
      rw [hempty, List.nil_append, hall, hnonempty]
    · have hone : 1 ≤ t := by
        rw [UInt64.le_iff_toNat_le]
        exact Nat.pos_of_ne_zero fun h0 => hzero (UInt64.toNat_inj.1 h0)
      rw [FtraceHandler.eventsSnapshot_eq hn hsorted hone, ← hes, hlines]
  have hcopied : (snapshotUpToAge threadTraces ((FtraceHandler.init n hn).threadFunc lines) procmaps
      now pauseTime maxEventAge).ftraceEvents =
        ((FtraceHandler.init n hn).threadFunc lines).eventsSnapshot t := rfl
  rw [hcopied, hsnapshot]
  by_cases hage : maxEventAge ≤ now
  · refine iff_of_true ?_ (Or.inl hage)
    exact congrArg _ (List.filter_congr fun e _ => (upToAge_of_le hage _).symm)
  · have hall : es.filter (fun e => upToAge now maxEventAge e.timestamp) = es :=
      List.filter_eq_self.2 fun e _ => upToAge_of_lt (UInt64.not_le.1 hage) _
    rw [hall]
    simp only [hage, false_or]
    constructor
    · intro heq e he
      have hlen := congrArg List.length heq
      rw [List.length_map, List.length_map, List.length_filter_eq_length_iff] at hlen
      exact of_decide_eq_true (hlen e he)
    · intro hlate
      rw [List.filter_eq_self.2 fun e he => decide_eq_true (hlate e he)]

/-- **Snapshots up to an age** have the events of that age, of threads and of ftrace, if the age is
    at most the current time, or else the wrapped start time comes before none of the events but,
    for trace entries, if it lies after the pause. -/
theorem snapshotUpToAge_iff {bs : List SortedBuffer} {n : ℕ} (hn : 0 < n) {lines : List (List UInt8)}
    (hsorted : (FtraceHandler.acceptedEvents lines).Pairwise (·.timestamp ≤ ·.timestamp))
    (hpause : now ≤ pauseTime) (hpast : ∀ b ∈ bs, ∀ e ∈ b.events, e.cycle ≤ pauseTime)
    (procmaps : List UInt8) (maxEventAge : UInt64) :
    let snapshot := snapshotUpToAge (bs.map SortedBuffer.buffer)
      ((FtraceHandler.init n hn).threadFunc lines) procmaps now pauseTime maxEventAge
    (snapshot.threadTraces =
        (bs.map fun b => ⟨b.id, b.held.filter fun e => upToAge now maxEventAge e.cycle⟩) ∧
      snapshot.ftraceEvents.filter (· ≠ []) =
        ((FtraceHandler.lastEvents n lines).filter fun e =>
          upToAge now maxEventAge e.timestamp).map (·.line)) ↔
      maxEventAge ≤ now ∨
        (∀ e ∈ FtraceHandler.lastEvents n lines, now - maxEventAge ≤ e.timestamp) ∧
          (pauseTime < now - maxEventAge ∨ ∀ b ∈ bs, ∀ e ∈ b.held, now - maxEventAge ≤ e.cycle) := by
  intro snapshot
  rw [traces_iff hpause hpast, ftrace_iff hn hsorted, ← or_and_left, and_comm]

end

/-- A thread that traced two events, of which one is left, and three events of ftrace. -/
def ageDemo : SortedBuffer where
  id := ⟨1, 1, Vector.replicate 16 0⟩
  init := [⟨7, 0⟩]
  nonempty := List.cons_ne_nil _ _
  lastZero := rfl
  events := [⟨0x1100, 10⟩, ⟨0x1200, 30⟩]
  sorted := by decide
  nonzero := by decide

theorem snapshotUpToAge_iff_demo :
    let snapshot := snapshotUpToAge [ageDemo.buffer]
      ((FtraceHandler.init 2 (by decide)).threadFunc FtraceHandler.demoLines) [] 30 40 15
    snapshot.threadTraces = [⟨⟨1, 1, Vector.replicate 16 0⟩, [⟨0x1200, 30⟩]⟩] ∧
      snapshot.ftraceEvents.filter (· ≠ []) =
        [utf8Bytes "main-7 [0] d 20: sched_waking", utf8Bytes "main-7 [1] d 20: task_rename"] := by
  intro snapshot
  obtain ⟨htraces, hftrace⟩ := (@snapshotUpToAge_iff 30 40 [ageDemo] 2 (by decide)
    FtraceHandler.demoLines (by decide +kernel) (by decide) (by decide) [] 15).2 (Or.inl (by decide))
  exact ⟨htraces.trans (by decide), hftrace.trans (by decide +kernel)⟩

/-- An age that is larger than the current time by one selects no event of ftrace. -/
theorem not_snapshotUpToAge : ¬ ∀ (bs : List SortedBuffer) (n : ℕ) (hn : 0 < n)
    (lines : List (List UInt8)) (now pauseTime : UInt64) (procmaps : List UInt8) (maxEventAge : UInt64),
      (FtraceHandler.acceptedEvents lines).Pairwise (·.timestamp < ·.timestamp) → now ≤ pauseTime →
      (∀ b ∈ bs, ∀ e ∈ b.events, e.cycle ≤ pauseTime) →
      (∀ e ∈ FtraceHandler.lastEvents n lines, e.timestamp ≤ pauseTime) →
      let snapshot := snapshotUpToAge (bs.map SortedBuffer.buffer)
        ((FtraceHandler.init n hn).threadFunc lines) procmaps now pauseTime maxEventAge
      snapshot.threadTraces =
          (bs.map fun b => ⟨b.id, b.held.filter fun e => upToAge now maxEventAge e.cycle⟩) ∧
        snapshot.ftraceEvents.filter (· ≠ []) =
          ((FtraceHandler.lastEvents n lines).filter fun e =>
            upToAge now maxEventAge e.timestamp).map (·.line) := by
  intro h
  have hdemo := (h [] 1 (by decide) [utf8Bytes "main-7 [0] d 10: sched_switch"] 20 20 [] 21
    (by decide +kernel) (by decide) (List.forall_mem_nil _) (by decide +kernel)).2
  revert hdemo
  decide +kernel

end Funtrace
