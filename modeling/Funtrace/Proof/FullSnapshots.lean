/-
  Snapshots of whole buffers.

  `allocate` clears one word of a buffer and leaves the others as `posix_memalign` gives
  them.  A snapshot of the whole buffer has the events that are still there, and what lies
  in the slots that were never written; of these the decoder drops the empty ones only.
  So nothing stale survives exactly if they were empty to begin with (`noStale_iff`).
-/
import Funtrace.Proof.Snapshots
import Funtrace.Proof.SnapshotFile

namespace Funtrace

/-! ## Threads and their snapshots -/

/-- A thread with a buffer of `2 ^ logBufSize` bytes, outside of calls, and the events that it has
    traced since the buffer was allocated. -/
structure TracedThread where
  id : ThreadID
  logBufSize : ℕ
  five_le : 5 ≤ logBufSize
  le_thirty : logBufSize ≤ 30
  posixMemalign : UInt64 → UInt64 → Option UInt64
  block : UInt64
  allocates : Allocates posixMemalign logBufSize block
  /-- what lies in memory when the block is allocated -/
  memory : Memory
  before : TraceData
  defaultLogBufSize : ℕ
  acts : List TraceAction
  events : List FunTraceEntry
  tracer : Tracer
  hasTraced : HasTraced
    (Tracer.fresh (before.allocate defaultLogBufSize posixMemalign logBufSize memory)) acts events
    tracer

/-- The buffers that the file has. -/
def FileSnapshot.saved (snap : FileSnapshot) : List SnapshotBuffer :=
  snap.threadTraces.map fun b => ⟨b.id, b.buf⟩

/-- The entries that survive `parse_chunks` from the `TRACEBUF` of a thread, whatever it has read
    before. -/
def EventBuffer.Survive (b : EventBuffer) (kept : List FunTraceEntry) : Prop :=
  ∀ (w : World) (pos : ℕ) (s : ParseState), ∃ s', readChunk w pos s b.bufChunk = .ok s' ∧
    (s'.sampleEntries.drop s.sampleEntries.length).flatMap ThreadTrace.trace = kept

namespace TracedThread
variable (t : TracedThread)

/-- The tracer when its buffer has just been allocated. -/
def start : Tracer :=
  Tracer.fresh (t.before.allocate t.defaultLogBufSize t.posixMemalign t.logBufSize t.memory)

/-- How many entries the buffer has room for. -/
def numSlots : ℕ := 2 ^ t.logBufSize / 16

/-- The address of a slot. -/
def slotAddr (i : ℕ) : UInt64 := t.block + sizeofTraceEntry * UInt64.ofNat i

/-- The thread as a snapshot reads it. -/
def buffer : ThreadBuffer := ⟨t.id, t.tracer.data.slots t.tracer.mem, t.tracer.data.posIndex⟩

/-- The events that are still in the buffer; the decoder takes an entry that is zero for none. -/
def held : List FunTraceEntry :=
  (t.events.drop (t.events.length - t.numSlots)).filter (!·.isEmpty)

/-- A file that has what a full snapshot of some threads saves. -/
def SavedIn (threads : List TracedThread) (snap : FileSnapshot) : Prop :=
  (∃ ftraceHandler procmaps, snap.saved =
    (pauseAndGetSnapshot (threads.map buffer) ftraceHandler procmaps).threadTraces) ∨
  snap.saved = currentTraces (threads.map buffer)

/-- What survives of a full snapshot is just what the thread has traced and the buffer holds. -/
def NoStale : Prop :=
  ∀ (threads : List TracedThread) (snap : FileSnapshot), SavedIn threads snap →
    ∀ (i : ℕ) (b : EventBuffer), threads[i]? = some t → snap.threadTraces[i]? = some b →
      ∃ kept, b.Survive kept ∧ kept.Perm t.held

/-- The slots that were never written were zero when the block was allocated, but for the word
    that `allocate` clears. -/
def RestZero : Prop :=
  ∀ i, t.events.length ≤ i → i < t.numSlots →
    t.memory (t.slotAddr i) = 0 ∧ (i + 1 < t.numSlots → t.memory (t.slotAddr i + 8) = 0)

end TracedThread

/-! ## What is decoded -/

theorem EventBuffer.survive_iff {b : EventBuffer} {kept : List FunTraceEntry} :
    b.Survive kept ↔ kept = nonzeroEntries b.buf := by
  have hread (w : World) (pos : ℕ) (s : ParseState) : ∃ s', readChunk w pos s b.bufChunk = .ok s' ∧
      (s'.sampleEntries.drop s.sampleEntries.length).flatMap ThreadTrace.trace =
        nonzeroEntries b.buf := by
    rw [EventBuffer.bufChunk, readChunk_chunk _ b.accepts_bufBytes, ParseState.handleChunk]
    simp only [keptEntries_bufBytes]
    split_ifs with hnonzero
    · exact ⟨_, rfl, by rw [List.drop_left, List.flatMap_singleton]⟩
    · refine ⟨_, rfl, ?_⟩
      rw [List.drop_length, not_not.1 hnonzero]
      rfl
  constructor
  · intro h
    obtain ⟨s', hs', hkept⟩ := h demoWorld 0 (ParseState.new Cli.default)
    obtain ⟨s'', hs'', hnonzero⟩ := hread demoWorld 0 (ParseState.new Cli.default)
    rw [hs', Except.ok.injEq] at hs''
    rw [← hkept, hs'', hnonzero]
  · rintro rfl
    exact hread

/-! ## What is in the buffer -/

theorem perm_slots_ringOf {init : List FunTraceEntry} (hne : init ≠ []) (es : List FunTraceEntry) :
    (ringOf hne es).slots.Perm (init.drop es.length ++ es.drop (es.length - init.length)) := by
  have hcontents := Ring.contents_pushAll es (Ring.fresh init hne)
  rw [Ring.contents_fresh, List.drop_append] at hcontents
  rw [← hcontents, Ring.contents, Ring.contentsFrom]
  conv_lhs => rw [← List.take_append_drop (ringOf hne es).pos (ringOf hne es).slots]
  exact List.perm_append_comm

/-- What survives of a ring is what was pushed exactly if the other slots are empty. -/
theorem perm_nonzero_ringOf {init : List FunTraceEntry} (hne : init ≠ [])
    (es : List FunTraceEntry) :
    (nonzeroEntries (ringOf hne es).slots).Perm
        ((es.drop (es.length - init.length)).filter (!·.isEmpty)) ↔
      ∀ e ∈ init.drop es.length, e.isEmpty := by
  have hperm : (nonzeroEntries (ringOf hne es).slots).Perm
      ((init.drop es.length).filter (!·.isEmpty) ++
        (es.drop (es.length - init.length)).filter (!·.isEmpty)) := by
    rw [← List.filter_append]
    exact (List.perm_insertionSort _ _).trans ((perm_slots_ringOf hne es).filter _)
  have hnil : (init.drop es.length).filter (!·.isEmpty) = [] ↔
      ∀ e ∈ init.drop es.length, e.isEmpty := by
    simp only [List.filter_eq_nil_iff, Bool.not_eq_true', Bool.not_eq_false]
  rw [← hnil]
  constructor
  · intro h
    have hlength := (hperm.symm.trans h).length_eq
    rw [List.length_append] at hlength
    exact List.eq_nil_of_length_eq_zero (by omega)
  · intro h
    rwa [h, List.nil_append] at hperm

namespace TracedThread
variable (t : TracedThread)

/-- The slots before the first event. -/
theorem start_slots : t.start.data.slots t.start.mem = (List.range t.numSlots).map fun i =>
    ⟨t.memory (t.slotAddr i), if i + 1 = t.numSlots then 0 else t.memory (t.slotAddr i + 8)⟩ := by
  obtain ⟨haligned, -, -, hmem⟩ := allocate_eq t.allocates t.five_le t.le_thirty t.before
    t.defaultLogBufSize t.memory
  have haligned : t.start.data.Aligned t.logBufSize := haligned
  have hmem : t.start.mem =
      Function.update t.memory (t.start.data.slotAddr (t.start.data.numSlots - 1) + 8) 0 := hmem
  have hpos := TraceData.numSlots_pos haligned
  have hN : t.start.data.numSlots = t.numSlots := by
    have := TraceData.sixteen_mul_numSlots haligned
    rw [numSlots]
    omega
  have hbuf : t.start.data.buf = t.block := by
    have hL : t.logBufSize ≠ 0 := by
      have := t.five_le
      omega
    simp only [start, Tracer.fresh, TraceData.allocate, if_neg hL, t.allocates.result]
  have haddr (i : ℕ) : t.start.data.slotAddr i = t.slotAddr i := by
    rw [TraceData.slotAddr, slotAddr, hbuf]
  rw [TraceData.slots, hN]
  refine List.map_congr_left fun i hi => ?_
  have hi : i < t.start.data.numSlots := hN ▸ List.mem_range.1 hi
  have hlast : t.start.data.numSlots - 1 < t.start.data.numSlots := by omega
  rw [← haddr i, Memory.entry, hmem]
  refine FunTraceEntry.ext ?_ ?_
  · exact Function.update_of_ne (TraceData.slotAddr_ne_add_eight haligned hi hlast) _ _
  · dsimp only
    split_ifs with hend
    · have hi' : t.start.data.numSlots - 1 = i := by omega
      rw [hi', Function.update_self]
    · refine Function.update_of_ne (fun heq => hend ?_) _ _
      have := TraceData.slotAddr_add_eight_inj haligned hi hlast heq
      omega

theorem restZero_iff : t.RestZero ↔
    ∀ e ∈ (t.start.data.slots t.start.mem).drop t.events.length, e.isEmpty := by
  have hslot (i : ℕ) (hi : i < t.numSlots) :
      (t.start.data.slots t.start.mem)[i]? = some ⟨t.memory (t.slotAddr i),
        if i + 1 = t.numSlots then 0 else t.memory (t.slotAddr i + 8)⟩ := by
    rw [start_slots, List.getElem?_map, List.getElem?_range hi, Option.map_some]
  have hempty (i : ℕ) (hi : i < t.numSlots) :
      (FunTraceEntry.mk (t.memory (t.slotAddr i))
        (if i + 1 = t.numSlots then 0 else t.memory (t.slotAddr i + 8))).isEmpty ↔
      t.memory (t.slotAddr i) = 0 ∧ (i + 1 < t.numSlots → t.memory (t.slotAddr i + 8) = 0) := by
    rw [FunTraceEntry.isEmpty, Bool.and_eq_true, beq_iff_eq, beq_iff_eq, and_comm]
    refine and_congr_right fun _ => ?_
    split_ifs with hend
    · exact iff_of_true rfl fun hlt => absurd hend hlt.ne
    · exact ⟨fun h _ => h, fun h => h (by omega)⟩
  constructor
  · intro h e he
    obtain ⟨j, hj⟩ := List.getElem?_of_mem he
    rw [List.getElem?_drop] at hj
    have hlt : t.events.length + j < t.numSlots := by
      have := (List.getElem?_eq_some_iff.1 hj).1
      rwa [start_slots, List.length_map, List.length_range] at this
    rw [hslot _ hlt, Option.some.injEq] at hj
    rw [← hj, hempty _ hlt]
    exact h _ (Nat.le_add_right _ _) hlt
  · intro h i hle hi
    refine (hempty i hi).1 (h _ (List.mem_of_getElem? (i := i - t.events.length) ?_))
    rw [List.getElem?_drop, Nat.add_sub_cancel' hle, hslot i hi]

/-- What is saved for the thread, by snapshots of either kind. -/
theorem buf_eq_of_savedIn {threads : List TracedThread} {snap : FileSnapshot}
    (hsaved : SavedIn threads snap) {i : ℕ} {b : EventBuffer} (ht : threads[i]? = some t)
    (hb : snap.threadTraces[i]? = some b) : b.buf = t.tracer.data.slots t.tracer.mem := by
  have htraces : snap.saved = currentTraces (threads.map buffer) := by
    rcases hsaved with ⟨ftraceHandler, procmaps, hsaved⟩ | hsaved
    · exact hsaved
    · exact hsaved
  have hplace := congrArg (·[i]?) htraces
  simp only [FileSnapshot.saved, currentTraces, List.getElem?_map, hb, ht, Option.map_some,
    Option.some.injEq, SnapshotBuffer.mk.injEq] at hplace
  exact hplace.2

theorem numSlots_le : t.numSlots ≤ 2 ^ 30 :=
  (Nat.div_le_self _ _).trans (Nat.pow_le_pow_right (by decide) t.le_thirty)

/-- The buffer is a ring to which the events were pushed. -/
theorem exists_ring : ∃ hne : t.start.data.slots t.start.mem ≠ [],
    t.tracer.data.slots t.tracer.mem = (ringOf hne t.events).slots := by
  obtain ⟨hne, -, hholds⟩ := holds_allocate t.allocates t.five_le t.le_thirty t.before
    t.defaultLogBufSize t.memory
  exact ⟨hne, (t.hasTraced.holds hholds).1⟩

theorem length_start_slots : (t.start.data.slots t.start.mem).length = t.numSlots := by
  rw [start_slots, List.length_map, List.length_range]

/-- A file with the thread alone. -/
theorem exists_savedIn : ∃ (snap : FileSnapshot) (b : EventBuffer), SavedIn [t] snap ∧
    snap.threadTraces[0]? = some b := by
  have hlength : 16 * (t.tracer.data.slots t.tracer.mem).length < 2 ^ 63 := by
    obtain ⟨hne, hring⟩ := t.exists_ring
    have hring' : (ringOf hne t.events).slots.length = t.numSlots :=
      (Ring.length_pushAll _ _).trans t.length_start_slots
    have hle := t.numSlots_le
    rw [hring, hring']
    omega
  let b : EventBuffer := ⟨t.id, t.tracer.data.slots t.tracer.mem, hlength⟩
  exact ⟨⟨[], 0, [], [b], [], by decide, by decide, by decide⟩, b, Or.inr rfl, rfl⟩

/-- What survives of the thread's buffer. -/
theorem perm_held_iff : (nonzeroEntries (t.tracer.data.slots t.tracer.mem)).Perm t.held ↔
    t.RestZero := by
  obtain ⟨hne, hring⟩ := t.exists_ring
  have hnonzero := perm_nonzero_ringOf hne t.events
  rw [← hring, t.length_start_slots] at hnonzero
  rw [t.restZero_iff, ← hnonzero, held]

variable {t}

theorem restZero_of_noStale (h : t.NoStale) : t.RestZero := by
  obtain ⟨snap, b, hsaved, hb⟩ := t.exists_savedIn
  obtain ⟨kept, hsurvive, hperm⟩ := h [t] snap hsaved 0 b rfl hb
  rw [EventBuffer.survive_iff.1 hsurvive, t.buf_eq_of_savedIn hsaved rfl hb] at hperm
  exact t.perm_held_iff.1 hperm

theorem noStale_of_restZero (h : t.RestZero) : t.NoStale := by
  intro threads snap hsaved i b ht hb
  refine ⟨_, EventBuffer.survive_iff.2 rfl, ?_⟩
  rw [t.buf_eq_of_savedIn hsaved ht hb]
  exact t.perm_held_iff.2 h

end TracedThread

/-- **Full snapshots have nothing stale** exactly if the slots that were never written were zero
    when the buffer was allocated. -/
theorem noStale_iff (t : TracedThread) : t.NoStale ↔ t.RestZero :=
  ⟨TracedThread.restZero_of_noStale, TracedThread.noStale_of_restZero⟩

/-- A buffer of two slots after one event, in a block that is full of other data. -/
def staleThread : TracedThread where
  id := ⟨1, 1, Vector.replicate 16 0⟩
  logBufSize := 5
  five_le := Nat.le_refl 5
  le_thirty := by decide
  posixMemalign _ _ := some 64
  block := 64
  allocates := ⟨rfl, by decide, by decide⟩
  memory _ := 7
  before := ⟨0, 0, 0, 0, 0, ⟨1, 1, Vector.replicate 16 0⟩, 0⟩
  defaultLogBufSize := 20
  acts := [.enter (.fentry 0x1100 10), .store, .store, .store]
  events := [⟨0x1100, 10⟩]
  tracer := (runFrom Tracer.step
    (Tracer.fresh (TraceData.allocate ⟨0, 0, 0, 0, 0, ⟨1, 1, Vector.replicate 16 0⟩, 0⟩ 20
      (fun _ _ => some 64) 5 fun _ => 7))
    [.enter (.fentry 0x1100 10), .store, .store, .store]).get (by decide +kernel)
  hasTraced := ⟨(Option.some_get _).symm, Option.isNone_iff_eq_none.1 (by decide +kernel),
    by decide +kernel⟩

/-- The last slot keeps what was in its first word. -/
theorem not_noStale : ¬ ∀ t : TracedThread, t.NoStale := by
  intro h
  have hzero := TracedThread.restZero_of_noStale (h staleThread) 1 (Nat.le_refl 1) (by decide)
  revert hzero
  decide

end Funtrace
