/-
  Snapshots of trace buffers.

  A snapshot that starts at a time finds the first event of each half of the buffer
  by binary search.  Events traced after the pause count as earlier than all others,
  so both halves are partitioned (`partitioned_window`), and the copy has just the
  events of the interval that are still there (`copyStartingAtTime_ring`).
-/
import Funtrace.Proof.Cyclic
import Funtrace.Runtime.Snapshot
import Funtrace.Viz.Sample

namespace Funtrace

section
variable {time pauseTime : UInt64}

/-- What is skipped: events after the pause, and those before the threshold. -/
theorem eventBefore_eq (h : time ≤ pauseTime) (e : FunTraceEntry) :
    eventBefore pauseTime e ⟨0, time⟩ = decide (pauseTime < e.cycle ∨ e.cycle < time) := by
  unfold eventBefore
  by_cases hlate : pauseTime < e.cycle
  · simp [hlate, h]
  · simp [hlate, h, UInt64.not_lt.2 h]

/-- The events of the interval. -/
def inInterval (time pauseTime : UInt64) (e : FunTraceEntry) : Bool :=
  time ≤ e.cycle ∧ e.cycle ≤ pauseTime

theorem inInterval_eq (h : time ≤ pauseTime) (e : FunTraceEntry) :
    inInterval time pauseTime e = !eventBefore pauseTime e ⟨0, time⟩ := by
  rw [eventBefore_eq h, inInterval, ← decide_not, decide_eq_decide, not_or, UInt64.not_lt,
    UInt64.not_lt, and_comm]

/-- A range in which the skipped events come first is copied from the first of the others on. -/
theorem copyFrom_find (h : time ≤ pauseTime) {range : List FunTraceEntry}
    (hpart : Partitioned (fun e => eventBefore pauseTime e ⟨0, time⟩) range) :
    copyFrom range (findEarliestEventAfter range time pauseTime) =
      range.filter (inInterval time pauseTime) := by
  have hdrop := drop_lowerBound hpart
  have hfilter : range.filter (inInterval time pauseTime) =
      range.filter fun e => !eventBefore pauseTime e ⟨0, time⟩ :=
    List.filter_congr fun e _ => inInterval_eq h e
  rw [hfilter, ← hdrop]
  unfold findEarliestEventAfter
  dsimp only
  split_ifs with hend
  · rw [hend, List.drop_length]
    rfl
  · rfl

end

section
variable {time pauseTime : UInt64} {es ls : List FunTraceEntry}

/-- Later events, followed by earlier ones in their order. -/
theorem partitioned_window (htime : time ≤ pauseTime) (hes : es.Pairwise (·.cycle < ·.cycle))
    (hpast : ∀ e ∈ es, e.cycle ≤ pauseTime) (hlater : ∀ e ∈ ls, pauseTime < e.cycle) :
    Partitioned (fun e => eventBefore pauseTime e ⟨0, time⟩) (ls ++ es) := by
  have hskip : ∀ e ∈ ls, eventBefore pauseTime e ⟨0, time⟩ := fun e he => by
    simp [eventBefore_eq htime, hlater e he]
  refine List.pairwise_append.2 ⟨?_, hes.imp_of_mem fun {e e'} he he' hlt hbelow => ?_, ?_⟩
  · exact List.pairwise_of_forall_mem_list fun e he e' _ _ => hskip e he
  · simp only [eventBefore_eq htime, decide_eq_true_eq] at hbelow ⊢
    have hlt' := hbelow.resolve_left (UInt64.not_lt.2 (hpast e' he'))
    exact Or.inr (UInt64.lt_trans hlt hlt')
  · exact fun e he e' _ _ => hskip e he

theorem filter_later (hlater : ∀ e ∈ ls, pauseTime < e.cycle) :
    ls.filter (inInterval time pauseTime) = [] :=
  List.filter_eq_nil_iff.2 fun e he => by simp [inInterval, UInt64.not_le.2 (hlater e he)]

/-- Both halves of a buffer that reads as a partitioned range. -/
theorem copy_of_partitioned (htime : time ≤ pauseTime) {buf : List FunTraceEntry} {pos : ℕ}
    (hlast : buf.getLast?.any (·.cycle ≠ 0))
    (hpart : Partitioned (fun e => eventBefore pauseTime e ⟨0, time⟩) (buf.drop pos ++ buf.take pos)) :
    copyStartingAtTime buf pos time pauseTime =
      (buf.drop pos ++ buf.take pos).filter (inInterval time pauseTime) := by
  rw [copyStartingAtTime]
  simp only [hlast, if_true]
  rw [copyFrom_find htime (hpart.sublist (List.sublist_append_left _ _)),
    copyFrom_find htime (hpart.sublist (List.sublist_append_right _ _)), List.filter_append]

/-- **Snapshots starting at a time.**  A fresh buffer holds some events, of which `pos` is the
    position; then later ones overwrite the slots from there on.  The snapshot has the events of
    the interval that are still in the buffer, in their order. -/
theorem copyStartingAtTime_ring {init : List FunTraceEntry} (hne : init ≠ [])
    (hinit : (init.getLast hne).cycle = 0) (hes : es.Pairwise (·.cycle < ·.cycle))
    (hnonzero : ∀ e ∈ es, e.cycle ≠ 0) (hpast : ∀ e ∈ es, e.cycle ≤ pauseTime)
    (hlater : ∀ e ∈ ls, pauseTime < e.cycle) (htime : time ≤ pauseTime) :
    let paused := (Ring.fresh init hne).pushAll es
    copyStartingAtTime (paused.pushAll ls).slots paused.pos time pauseTime =
      ((es ++ ls).drop ((es ++ ls).length - init.length)).filter (inInterval time pauseTime) := by
  intro paused
  have hall : paused.pushAll ls = (Ring.fresh init hne).pushAll (es ++ ls) :=
    (Ring.pushAll_append _ _ _).symm
  have hlen : paused.slots.length = init.length := Ring.length_pushAll _ _
  have hnonzero' : ∀ e ∈ es ++ ls, e.cycle ≠ 0 := fun e he => by
    rcases List.mem_append.1 he with he | he
    · exact hnonzero e he
    · intro h0
      have := hlater e he
      rw [h0] at this
      exact UInt64.not_lt_zero this
  rcases Nat.lt_or_ge (es ++ ls).length init.length with hlt | hge
  · -- the last slot was never written, so what is right of `pos` is not searched
    have hles : es.length ≤ init.length := by rw [List.length_append] at hlt; omega
    obtain ⟨hslots, -⟩ := Ring.slots_fresh hne hlt.le
    have hpos : paused.pos = es.length := (Ring.slots_fresh hne hles).2
    have hlast : ¬ (paused.pushAll ls).slots.getLast?.any (·.cycle ≠ 0) := by
      have hdrop : init.drop (es ++ ls).length ≠ [] := by simpa using hlt
      rw [hall, hslots, List.getLast?_append_of_ne_nil _ hdrop, List.getLast?_drop,
        if_neg (by omega), List.getLast?_eq_getLast_of_ne_nil hne]
      simp [hinit]
    have hleft : (paused.pushAll ls).slots.take paused.pos = es := by
      rw [hall, hslots, hpos, List.append_assoc, List.take_left]
    have hpart : Partitioned (fun e => eventBefore pauseTime e ⟨0, time⟩) es :=
      @partitioned_window time pauseTime es [] htime hes hpast (by simp)
    rw [copyStartingAtTime, if_neg hlast, hleft, copyFrom_find htime hpart,
      Nat.sub_eq_zero_of_le hlt.le, List.drop_zero, List.filter_append, filter_later hlater]
    simp [copyFrom]
  · have hcontents : (paused.pushAll ls).contents =
        (es ++ ls).drop ((es ++ ls).length - init.length) := by
      rw [hall, Ring.contents_pushAll, Ring.contents_fresh, List.drop_append,
        List.drop_of_length_le hge, List.nil_append]
    have hmem : ∀ e ∈ (paused.pushAll ls).slots, e ∈ es ++ ls := fun e he => by
      have hmem := (Ring.mem_contentsFrom _ (paused.pushAll ls).pos).2 he
      rw [← Ring.contents, hcontents] at hmem
      exact List.mem_of_mem_drop hmem
    have hlast : (paused.pushAll ls).slots.getLast?.any (·.cycle ≠ 0) := by
      rw [List.getLast?_eq_getLast_of_ne_nil (Ring.nonempty _)]
      simpa using hnonzero' _ (hmem _ (List.getLast_mem _))
    rcases Nat.lt_or_ge init.length ls.length with hturn | hturn
    · -- nothing is left of the events before the pause
      have hlater' : ∀ e ∈ (paused.pushAll ls).slots, pauseTime < e.cycle := fun e he =>
        hlater e (Ring.mem_of_mem_pushAll paused (by omega) he)
      have hread : ∀ e ∈ (paused.pushAll ls).contentsFrom paused.pos, pauseTime < e.cycle :=
        fun e he => hlater' e ((Ring.mem_contentsFrom _ _).1 he)
      have hpart := @partitioned_window time _ [] _ htime List.Pairwise.nil (by simp) hread
      rw [List.append_nil] at hpart
      have hgone : ∀ e ∈ (es ++ ls).drop ((es ++ ls).length - init.length), pauseTime < e.cycle :=
        fun e he => hlater' e ((Ring.mem_contentsFrom _ _).1 (hcontents ▸ he))
      rw [copy_of_partitioned htime hlast hpart, filter_later hgone]
      exact filter_later hread
    · have hread : (paused.pushAll ls).contentsFrom paused.pos =
          ls ++ es.drop ((es ++ ls).length - init.length) := by
        rw [Ring.contentsFrom_pushAll paused (hlen ▸ hturn), Ring.contents_pushAll,
          Ring.contents_fresh, List.drop_drop, List.drop_append,
          List.drop_of_length_le (by rw [List.length_append] at hge; omega), List.nil_append,
          List.length_append]
      have hpart := @partitioned_window time _ _ _ htime
        (hes.sublist (List.drop_sublist ((es ++ ls).length - init.length) es))
        (fun e he => hpast e (List.mem_of_mem_drop he)) hlater
      rw [← hread] at hpart
      have hcopy := copy_of_partitioned htime hlast hpart
      rw [← Ring.contentsFrom, hread] at hcopy
      rw [hcopy, List.filter_append, filter_later hlater, List.nil_append, List.drop_append,
        List.filter_append]
      have hzero : (es ++ ls).length - init.length - es.length = 0 := by
        rw [List.length_append]
        omega
      rw [hzero, List.drop_zero, filter_later hlater, List.append_nil]

/-! ## Runs -/

/-- A thread that is in no call and has traced some events since it allocated its buffer. -/
structure HasTraced (start : Tracer) (acts : List TraceAction) (events : List FunTraceEntry)
    (s : Tracer) : Prop where
  run : runFrom Tracer.step start acts = some s
  idle : s.pending = none
  traced : (runFrom Recorder.step Recorder.init acts).map Recorder.traced = some events

theorem HasTraced.holds {L : ℕ} {init : List FunTraceEntry} {hne : init ≠ []} {mem₀ : Memory}
    {start s : Tracer} {acts : List TraceAction} (h : HasTraced start acts es s)
    (hstart : Holds L hne mem₀ start Recorder.init) :
    s.data.slots s.mem = (ringOf hne es).slots ∧ s.data.posIndex = (ringOf hne es).pos := by
  obtain ⟨r, hr, hholds⟩ := hstart.run h.run
  have htraced := h.traced
  rw [hr, Option.map_some, Option.some.injEq, Recorder.traced, hholds.current, h.idle] at htraced
  have hdone : r.done = es := htraced
  exact ⟨hdone ▸ hholds.slots_eq h.idle, hdone ▸ hholds.posIndex_eq⟩

/-- **Snapshots starting at a time.**  A fresh buffer holds some events up to the pause, then
    later ones overwrite the slots from the sampled position on: the snapshot has the events of
    the interval that are still in the buffer, in their order.  This holds of rings of every
    size, and so of the buffers of threads. -/
theorem copyStartingAtTime_eq (hes : es.Pairwise (·.cycle < ·.cycle))
    (hnonzero : ∀ e ∈ es, e.cycle ≠ 0) (hpast : ∀ e ∈ es, e.cycle ≤ pauseTime)
    (hlater : ∀ e ∈ ls, pauseTime < e.cycle) (htime : time ≤ pauseTime) :
    (∀ (init : List FunTraceEntry) (hne : init ≠ []), (init.getLast hne).cycle = 0 →
      let paused := (Ring.fresh init hne).pushAll es
      copyStartingAtTime (paused.pushAll ls).slots paused.pos time pauseTime =
        ((es ++ ls).drop ((es ++ ls).length - init.length)).filter (inInterval time pauseTime)) ∧
    (∀ (L : ℕ) (posixMemalign : UInt64 → UInt64 → Option UInt64) (entries : UInt64)
      (d₀ : TraceData) (defaultLogBufSize : ℕ) (mem₀ : Memory),
      Allocates posixMemalign L entries → 5 ≤ L → L ≤ 30 →
      let start := Tracer.fresh (d₀.allocate defaultLogBufSize posixMemalign L mem₀)
      ∀ (acts later : List TraceAction) (paused s : Tracer), HasTraced start acts es paused →
        HasTraced start (acts ++ later) (es ++ ls) s →
        copyStartingAtTime (s.data.slots s.mem) paused.data.posIndex time pauseTime =
          ((es ++ ls).drop ((es ++ ls).length - 2 ^ L / 16)).filter
            (inInterval time pauseTime)) := by
  have hring : ∀ (init : List FunTraceEntry) (hne : init ≠ []), (init.getLast hne).cycle = 0 → _ :=
    fun init hne hinit => copyStartingAtTime_ring hne hinit hes hnonzero hpast hlater htime
  refine ⟨hring, fun L posixMemalign entries d₀ defaultLogBufSize mem₀ halloc h5 h30 => ?_⟩
  intro start acts later paused s hpaused hs
  obtain ⟨hne, hinit, hholds⟩ := holds_allocate halloc h5 h30 d₀ defaultLogBufSize mem₀
  have hlen : (start.data.slots start.mem).length = 2 ^ L / 16 := by
    rw [TraceData.length_slots]
    exact hholds.numSlots_eq
  rw [(hs.holds hholds).1, (hpaused.holds hholds).2, ← hlen, ringOf, Ring.pushAll_append]
  exact hring _ hne hinit

end

/-- Three events in two slots, then a later one; the snapshot starts at the second. -/
theorem copyStartingAtTime_eq_demo :
    let es : List FunTraceEntry := [⟨0x1100, 10⟩, ⟨0x1200, 20⟩, .traced 0x1200 returnFlag 30]
    let ls : List FunTraceEntry := [.traced 0x1100 returnFlag 50]
    let call (e : FunTraceEntry) : List TraceAction :=
      [.enter (.trace e.address 0 e.cycle), .store, .store, .store]
    let start := Tracer.fresh
      (TraceData.allocate ⟨0, 0, 0, 0, 0, ⟨1, 1, Vector.replicate 16 0⟩, 0⟩ 20 (fun _ _ => some 64) 5
        fun _ => 7)
    let kept := ((es ++ ls).drop 2).filter (inInterval 20 40)
    let ring := (Ring.fresh [⟨7, 7⟩, ⟨7, 0⟩] (List.cons_ne_nil _ _)).pushAll es
    copyStartingAtTime (ring.pushAll ls).slots ring.pos 20 40 = kept ∧
    ∃ paused s, runFrom Tracer.step start (es.flatMap call) = some paused ∧
      runFrom Tracer.step start (es.flatMap call ++ ls.flatMap call) = some s ∧
      copyStartingAtTime (s.data.slots s.mem) paused.data.posIndex 20 40 = kept := by
  intro es ls call start kept ring
  obtain ⟨hring, hrun⟩ := @copyStartingAtTime_eq 20 40 es ls (by decide) (by decide) (by decide)
    (by decide) (by decide)
  have halloc : Allocates (fun _ _ => some 64) 5 64 := ⟨rfl, by decide, by decide⟩
  have hsome : (runFrom Tracer.step start (es.flatMap call)).isSome ∧
      (runFrom Tracer.step start (es.flatMap call ++ ls.flatMap call)).isSome := by decide +kernel
  obtain ⟨paused, hpaused⟩ := Option.isSome_iff_exists.1 hsome.1
  obtain ⟨s, hs⟩ := Option.isSome_iff_exists.1 hsome.2
  have hidle : ∀ acts ∈ [es.flatMap call, es.flatMap call ++ ls.flatMap call],
      ∀ s ∈ runFrom Tracer.step start acts, s.pending.isNone := by decide +kernel
  refine ⟨hring _ _ (by decide), paused, s, hpaused, hs,
    hrun 5 _ 64 _ 20 _ halloc le_rfl (by decide) (es.flatMap call) (ls.flatMap call) paused s
      ⟨hpaused, ?_, by decide +kernel⟩ ⟨hs, ?_, by decide +kernel⟩⟩
  · exact Option.isNone_iff_eq_none.1 (hidle _ (by simp) paused hpaused)
  · exact Option.isNone_iff_eq_none.1 (hidle _ (by simp) s hs)

end Funtrace
