/-
  Snapshots as chunks, and what `parse_chunks` reads of them.

  The bytes of a snapshot are those of a list of chunks (`bytes_eq`): the header, a pair
  of chunks for each thread, the text of ftrace, and `ENDTRACE`.  Reading the header sets
  maps, frequency and command line (`withHeader`); reading the pairs adds the threads that
  have nonzero entries (`readChunks_pairs`).
-/
import Funtrace.Proof.ChunkList

namespace Funtrace

variable {w : World}

/-! ## The chunks of a snapshot -/

namespace EventBuffer
variable (t : EventBuffer)

/-- The chunk of the thread's ids. -/
def idChunk : Chunk :=
  ChunkType.threadid.chunk (threadIdBytes t.id) (by rw [length_threadIdBytes]; decide)

/-- The chunk of the buffer. -/
def bufChunk : Chunk :=
  ChunkType.tracebuf.chunk t.bufBytes (by rw [t.length_bufBytes]; exact t.length_buf)

/-- Both. -/
def pair : List Chunk := [t.idChunk, t.bufChunk]

end EventBuffer

namespace FileSnapshot
variable (s : FileSnapshot)

/-- The chunks before the threads. -/
def header : List Chunk :=
  [ChunkType.procmaps.chunk s.procmaps s.length_procmaps,
    ChunkType.funtrace.chunk (u64Bytes s.cpuFreq) (by rw [length_u64Bytes]; decide),
    ChunkType.cmdLine.chunk s.cmdline s.length_cmdline]

/-- The chunks of the threads. -/
def pairs : List Chunk := s.threadTraces.flatMap EventBuffer.pair

/-- The chunk of the ftrace lines, if there are any. -/
def ftrace : List Chunk :=
  if s.ftraceEvents = [] then []
  else [ChunkType.ftracetx.chunk (ftraceBytes s.ftraceEvents) s.length_ftraceEvents]

/-- All chunks of a snapshot. -/
def chunks : List Chunk := s.header ++ s.pairs ++ s.ftrace ++ [endtraceChunk]

theorem foldl_length_ftraceBytes (events : List (List UInt8)) : ∀ size : ℕ,
    events.foldl (fun size e => size + (e.length + 1)) size = size + (ftraceBytes events).length := by
  induction events with
  | nil => exact fun size => rfl
  | cons e events ih =>
    intro size
    have hcons : (ftraceBytes (e :: events)).length = e.length + 1 + (ftraceBytes events).length := by
      rw [ftraceBytes, List.flatMap_cons, List.length_append, List.length_append, List.length_singleton]
      rfl
    rw [List.foldl_cons, ih, hcons, Nat.add_assoc]

/-- **The bytes of a snapshot** are those of its chunks. -/
theorem bytes_eq : s.bytes = chunkBytes s.chunks := by
  have hpairs : s.writeTracebufs = chunkBytes s.pairs := by
    rw [writeTracebufs, chunkBytes, pairs, List.flatMap_assoc]
    exact List.flatMap_congr fun t _ => by
      rw [EventBuffer.pair, List.flatMap_cons, List.flatMap_singleton]
      rfl
  have hftrace : s.writeFtrace = chunkBytes s.ftrace := by
    unfold writeFtrace ftrace
    split_ifs
    · rfl
    · dsimp only
      rw [chunkBytes, List.flatMap_singleton, foldl_length_ftraceBytes, Nat.zero_add]
      rfl
  have hheader : s.writeProcmaps ++ s.writeFuntrace = chunkBytes s.header := by
    rw [header, chunkBytes, List.flatMap_cons, List.flatMap_cons, List.flatMap_singleton]
    rfl
  have hend : writeEndtrace = chunkBytes [endtraceChunk] := by
    rw [chunkBytes, List.flatMap_singleton]
    rfl
  rw [bytes, chunks, hheader, hpairs, hftrace, hend, chunkBytes_append, chunkBytes_append,
    chunkBytes_append]

end FileSnapshot

theorem fileBytes_eq (snapshots : List FileSnapshot) :
    fileBytes snapshots = chunkBytes (snapshots.flatMap FileSnapshot.chunks) := by
  rw [fileBytes, chunkBytes, List.flatMap_assoc]
  exact List.flatMap_congr fun s _ => s.bytes_eq

/-! ## What is read back -/

theorem entryOfBytes_entryBytes (e : FunTraceEntry) : entryOfBytes (entryBytes e) = e := by
  have hlen := length_u64Bytes e.address
  rw [entryOfBytes, entryBytes, List.take_left' hlen, List.drop_left' hlen, u64OfBytes_u64Bytes,
    u64OfBytes_u64Bytes]

theorem entriesOfBytes_flatMap (buf : List FunTraceEntry) :
    entriesOfBytes (buf.flatMap entryBytes) = buf := by
  rw [entriesOfBytes, pieces_flatMap (by decide) length_entryBytes, List.map_map]
  exact (List.map_congr_left fun e _ => entryOfBytes_entryBytes e).trans (List.map_id buf)

theorem threadIdOfBytes_threadIdBytes (t : ThreadID) : threadIdOfBytes (threadIdBytes t) = t := by
  have hpid := length_u64Bytes t.pid
  have htid := length_u64Bytes t.tid
  have hname : Vector.ofFn (fun i : Fin 16 => (threadIdBytes t).getD (16 + i) 0) = t.name := by
    ext i hi
    rw [Vector.getElem_ofFn, threadIdBytes, List.getD_eq_getElem?_getD,
      List.getElem?_append_right (by simp)]
    simp [hi]
  rw [threadIdOfBytes, hname, threadIdBytes, List.append_assoc, List.take_left' hpid,
    List.drop_left' hpid, List.take_left' htid, u64OfBytes_u64Bytes, u64OfBytes_u64Bytes]

/-- The nonzero entries of a buffer, in the order of their times. -/
def nonzeroEntries (buf : List FunTraceEntry) : List FunTraceEntry :=
  (buf.filter (!·.isEmpty)).insertionSort (·.cycle ≤ ·.cycle)

theorem keptEntries_bufBytes (t : EventBuffer) : keptEntries t.bufBytes = nonzeroEntries t.buf := by
  rw [keptEntries, EventBuffer.bufBytes, entriesOfBytes_flatMap]
  rfl

/-- A thread of a sample, unless it has no nonzero entry. -/
def EventBuffer.trace (t : EventBuffer) : Option ThreadTrace :=
  if h : nonzeroEntries t.buf ≠ [] then some ⟨t.id, nonzeroEntries t.buf, h⟩ else none

/-! ## Chunk by chunk -/

theorem EventBuffer.accepts_bufBytes (t : EventBuffer) :
    ChunkType.tracebuf.accepts (UInt64.ofNat t.bufBytes.length) := by
  have hlt : 16 * t.buf.length < UInt64.size := t.length_buf.trans (by decide)
  have hmod : UInt64.ofNat (16 * t.buf.length) % 16 = 0 := by
    rw [← UInt64.toNat_inj, UInt64.toNat_mod, UInt64.toNat_ofNat_of_lt' hlt]
    exact Nat.mul_mod_right 16 _
  rw [t.length_bufBytes, ChunkType.accepts, hmod]
  rfl

theorem EventBuffer.accepts_idBytes (t : EventBuffer) :
    ChunkType.threadid.accepts (UInt64.ofNat (threadIdBytes t.id).length) := by
  rw [length_threadIdBytes]
  rfl

theorem readChunk_idChunk (t : EventBuffer) (pos : ℕ) (s : ParseState) :
    readChunk w pos s t.idChunk = .ok { s with threadId := t.id } := by
  rw [EventBuffer.idChunk, readChunk_chunk _ t.accepts_idBytes, ParseState.handleChunk,
    threadIdOfBytes_threadIdBytes]
  rfl

theorem readChunk_bufChunk (t : EventBuffer) (pos : ℕ) (s : ParseState) (hid : s.threadId = t.id) :
    readChunk w pos s t.bufChunk =
      .ok { s with sampleEntries := s.sampleEntries ++ t.trace.toList } := by
  rw [EventBuffer.bufChunk, readChunk_chunk _ t.accepts_bufBytes, ParseState.handleChunk,
    EventBuffer.trace]
  simp only [keptEntries_bufBytes]
  split_ifs
  · rw [← hid]
    rfl
  · rw [Option.toList_none, List.append_nil]
    rfl

/-- The id that the last of some threads leaves behind. -/
def lastId (ts : List EventBuffer) (id : ThreadID) : ThreadID := ts.foldl (fun _ t => t.id) id

theorem readChunks_pair (t : EventBuffer) (pos : ℕ) (s : ParseState) :
    readChunks w pos s t.pair =
      .ok { s with threadId := t.id, sampleEntries := s.sampleEntries ++ t.trace.toList } := by
  rw [EventBuffer.pair, readChunks, readChunk_idChunk]
  dsimp only [bind, Except.bind]
  rw [readChunks, readChunk_bufChunk _ _ _ rfl]
  rfl

/-- **The threads** of a snapshot. -/
theorem readChunks_pairs : ∀ (ts : List EventBuffer) (pos : ℕ) (s : ParseState),
    readChunks w pos s (ts.flatMap EventBuffer.pair) =
      .ok { s with
        threadId := lastId ts s.threadId
        sampleEntries := s.sampleEntries ++ ts.filterMap EventBuffer.trace }
  | [], _, s => by
    simp [readChunks, lastId]
  | t :: ts, pos, s => by
    have htraces : s.sampleEntries ++ (t :: ts).filterMap EventBuffer.trace =
        s.sampleEntries ++ t.trace.toList ++ ts.filterMap EventBuffer.trace := by
      rw [List.filterMap_cons, List.append_assoc]
      cases t.trace <;> rfl
    rw [List.flatMap_cons, readChunks_append, readChunks_pair, Except.bind, readChunks_pairs ts, htraces]
    rfl

theorem FileSnapshot.type_of_mem {snap : FileSnapshot} {c : Chunk} (h : c ∈ snap.chunks) :
    ∃ type, c.type = some type := by
  have hpair : ∀ t : EventBuffer, ∀ c ∈ t.pair, ∃ type, c.type = some type := by
    intro t c hc
    rcases List.mem_pair.1 hc with rfl | rfl
    exacts [⟨_, ChunkType.type_chunk _ t.accepts_idBytes⟩, ⟨_, ChunkType.type_chunk _ t.accepts_bufBytes⟩]
  have hfreq : ChunkType.funtrace.accepts (UInt64.ofNat (u64Bytes snap.cpuFreq).length) := by
    rw [length_u64Bytes]
    rfl
  simp only [chunks, List.mem_append, header, List.mem_cons, List.not_mem_nil, or_false, pairs,
    List.mem_flatMap] at h
  rcases h with (((rfl | rfl | rfl) | ⟨t, -, ht⟩) | hftrace) | rfl
  · exact ⟨_, ChunkType.type_chunk _ rfl⟩
  · exact ⟨_, ChunkType.type_chunk _ hfreq⟩
  · exact ⟨_, ChunkType.type_chunk _ rfl⟩
  · exact hpair t c ht
  · unfold ftrace at hftrace
    split_ifs at hftrace
    · cases hftrace
    · rw [List.mem_singleton.1 hftrace]
      exact ⟨_, ChunkType.type_chunk _ rfl⟩
  · exact ⟨_, ChunkType.type_chunk _ rfl⟩

theorem sorted_trace {t : EventBuffer} {t' : ThreadTrace} (h : t.trace = some t') :
    t'.trace.Pairwise (·.cycle ≤ ·.cycle) := by
  unfold EventBuffer.trace at h
  split_ifs at h
  cases h
  have : Std.Total (fun e e' : FunTraceEntry => e.cycle ≤ e'.cycle) :=
    ⟨fun e e' => UInt64.le_total e.cycle e'.cycle⟩
  have : IsTrans FunTraceEntry (fun e e' => e.cycle ≤ e'.cycle) := ⟨fun _ _ _ => UInt64.le_trans⟩
  exact List.pairwise_insertionSort _ _

/-! ## A snapshot -/

namespace FileSnapshot

/-- The threads that have nonzero entries. -/
def sampleEntries (snap : FileSnapshot) : List ThreadTrace :=
  snap.threadTraces.filterMap EventBuffer.trace

theorem sorted_of_mem {snap : FileSnapshot} {t : ThreadTrace} (ht : t ∈ snap.sampleEntries) :
    t.trace.Pairwise (·.cycle ≤ ·.cycle) := by
  obtain ⟨buffer, -, hbuffer⟩ := List.mem_filterMap.1 ht
  exact sorted_trace hbuffer

/-- The text of ftrace; `none` if the bytes encode none. -/
def ftraceText (snap : FileSnapshot) : Option String := decodeUtf8 (ftraceBytes snap.ftraceEvents)

end FileSnapshot

namespace ParseState
variable (w) (s : ParseState) (snap : FileSnapshot)

/-- The state after the header of a snapshot, unless it makes the decoder panic. -/
def withHeader : Option ParseState := do
  let procaddr2sym ← s.converter.procaddr2sym.setProcMaps w snap.procmaps
  let cmdLine ← decodeUtf8 snap.cmdline
  return { s with converter :=
    { s.converter with procaddr2sym, symCache := fun _ => none, cpuFreq := snap.cpuFreq, cmdLine } }

/-- The state before `ENDTRACE`. -/
def withSnapshot : Option ParseState := do
  let s ← s.withHeader w snap
  let ftraceText ← snap.ftraceText
  return { s with
    threadId := lastId snap.threadTraces s.threadId
    sampleEntries := s.sampleEntries ++ snap.sampleEntries
    ftraceText }

end ParseState

section
variable {s : ParseState} {snap : FileSnapshot} {pos : ℕ}

theorem readChunks_header {s' : ParseState} (h : s.withHeader w snap = some s') :
    readChunks w pos s snap.header = .ok s' := by
  simp only [ParseState.withHeader, Option.bind_eq_bind, Option.pure_def, Option.bind_eq_some_iff,
    Option.some.injEq] at h
  obtain ⟨procaddr2sym, hmaps, cmdLine, hcmd, rfl⟩ := h
  have hfreq : ChunkType.funtrace.accepts (UInt64.ofNat (u64Bytes snap.cpuFreq).length) := by
    rw [length_u64Bytes]
    rfl
  rw [FileSnapshot.header, readChunks, readChunk_chunk _ rfl, ParseState.handleChunk, hmaps]
  dsimp only [Except.mapError, bind, Except.bind]
  rw [readChunks, readChunk_chunk _ hfreq, ParseState.handleChunk, u64OfBytes_u64Bytes]
  dsimp only [Except.mapError, bind, Except.bind]
  rw [readChunks, readChunk_chunk _ rfl, ParseState.handleChunk, hcmd]
  rfl

theorem readChunks_header_panic (h : s.withHeader w snap = none) :
    ∃ s', readChunks w pos s snap.header = .error (.panic, s') ∧ s'.written = s.written := by
  have hfreq : ChunkType.funtrace.accepts (UInt64.ofNat (u64Bytes snap.cpuFreq).length) := by
    rw [length_u64Bytes]
    rfl
  rw [FileSnapshot.header, readChunks, readChunk_chunk _ rfl, ParseState.handleChunk]
  cases hmaps : s.converter.procaddr2sym.setProcMaps w snap.procmaps with
  | none => exact ⟨_, rfl, rfl⟩
  | some procaddr2sym =>
    dsimp only [Except.mapError, bind, Except.bind]
    rw [readChunks, readChunk_chunk _ hfreq, ParseState.handleChunk, u64OfBytes_u64Bytes]
    dsimp only [Except.mapError, bind, Except.bind]
    cases hcmd : decodeUtf8 snap.cmdline with
    | none =>
      rw [readChunks, readChunk_chunk _ rfl, ParseState.handleChunk, hcmd]
      exact ⟨_, rfl, rfl⟩
    | some cmdLine => simp [ParseState.withHeader, hmaps, hcmd] at h

theorem readChunks_ftrace {text : String} (hfresh : s.ftraceText = "")
    (h : snap.ftraceText = some text) :
    readChunks w pos s snap.ftrace = .ok { s with ftraceText := text } := by
  unfold FileSnapshot.ftrace
  split_ifs with hnone
  · have htext : text = "" := by
      have hempty : snap.ftraceText = some "" := by
        rw [FileSnapshot.ftraceText, hnone]
        exact decodeUtf8_eq_some.2 rfl
      exact Option.some.inj (h.symm.trans hempty)
    rw [readChunks, htext, ← hfresh]
  · rw [readChunks, readChunk_chunk _ rfl, ParseState.handleChunk]
    rw [FileSnapshot.ftraceText] at h
    rw [h]
    rfl

theorem readChunks_ftrace_panic (h : snap.ftraceText = none) :
    readChunks w pos s snap.ftrace = .error (.panic, s) := by
  have hsome : snap.ftraceEvents ≠ [] := by
    intro hnil
    rw [FileSnapshot.ftraceText, hnil] at h
    exact absurd (h.symm.trans (decodeUtf8_eq_some.2 rfl : decodeUtf8 [] = some "")) (by simp)
  rw [FileSnapshot.ftraceText] at h
  rw [FileSnapshot.ftrace, if_neg hsome, readChunks, readChunk_chunk _ rfl, ParseState.handleChunk, h]
  rfl

/-- What is known before `ENDTRACE`. -/
structure HasSnapshot (w : World) (snap : FileSnapshot) (s s' : ParseState) : Prop where
  follows : s.Follows w s'
  maps : ∃ maps, w.memoryMaps snap.procmaps = some maps ∧
    s'.converter.procaddr2sym.maps = ProcAddr2Sym.sortMaps maps
  cpuFreq : s'.converter.cpuFreq = snap.cpuFreq
  cmdLine : decodeUtf8 snap.cmdline = some s'.converter.cmdLine
  sampleEntries : s'.sampleEntries = s.sampleEntries ++ snap.sampleEntries
  ftraceText : snap.ftraceText = some s'.ftraceText
  numJson : s'.numJson = s.numJson
  written : s'.written = s.written

theorem hasSnapshot {s' : ParseState} (h : s.withSnapshot w snap = some s') :
    HasSnapshot w snap s s' := by
  simp only [ParseState.withSnapshot, ParseState.withHeader, Option.bind_eq_bind, Option.pure_def,
    Option.bind_eq_some_iff, Option.some.injEq] at h
  obtain ⟨_, ⟨p, hset, _, hcmd, rfl⟩, _, htext, rfl⟩ := h
  have hintact : s.converter.Intact w → _ := fun hintact => hintact.setProcMaps hset
  obtain ⟨maps, hparse, rfl⟩ := Option.map_eq_some_iff.1 hset
  refine ⟨⟨rfl, id, fun h => ?_, List.prefix_rfl⟩, ⟨maps, hparse, rfl⟩, rfl, hcmd, rfl, htext, rfl, rfl⟩
  exact ⟨(hintact h).current, (hintact h).completed, (hintact h).readable⟩

/-- **A snapshot** that is read up to its `ENDTRACE`. -/
theorem readChunks_snapshot {s' : ParseState} (hfresh : s.ftraceText = "")
    (h : s.withSnapshot w snap = some s') :
    readChunks w pos s snap.chunks = (s'.endTrace w).mapError (Exit.panic, ·) := by
  simp only [ParseState.withSnapshot, Option.bind_eq_bind, Option.pure_def, Option.bind_eq_some_iff,
    Option.some.injEq] at h
  obtain ⟨s₁, hheader, text, htext, rfl⟩ := h
  have hfresh₁ : ({ s₁ with
      threadId := lastId snap.threadTraces s₁.threadId
      sampleEntries := s₁.sampleEntries ++ snap.threadTraces.filterMap EventBuffer.trace } :
        ParseState).ftraceText = "" := by
    simp only [ParseState.withHeader, Option.bind_eq_bind, Option.pure_def, Option.bind_eq_some_iff,
      Option.some.injEq] at hheader
    obtain ⟨_, -, _, -, rfl⟩ := hheader
    exact hfresh
  rw [FileSnapshot.chunks, List.append_assoc, List.append_assoc, readChunks_append,
    readChunks_header hheader, Except.bind, readChunks_append, FileSnapshot.pairs, readChunks_pairs,
    Except.bind, readChunks_append, readChunks_ftrace hfresh₁ htext, Except.bind, readChunks_singleton,
    readChunk_endtraceChunk]
  rfl

/-- **A snapshot** in which the decoder panics before its `ENDTRACE`. -/
theorem readChunks_snapshot_panic (h : s.withSnapshot w snap = none) :
    ∃ s', readChunks w pos s snap.chunks = .error (.panic, s') ∧ s'.written = s.written := by
  rw [FileSnapshot.chunks, List.append_assoc, List.append_assoc, readChunks_append]
  cases hheader : s.withHeader w snap with
  | none =>
    obtain ⟨s', hread, hwritten⟩ := @readChunks_header_panic w s snap pos hheader
    rw [hread]
    exact ⟨s', rfl, hwritten⟩
  | some s₁ =>
    have htext : snap.ftraceText = none := by
      cases htext : snap.ftraceText with
      | none => rfl
      | some text => simp [ParseState.withSnapshot, hheader, htext] at h
    have hwritten : s₁.written = s.written := by
      simp only [ParseState.withHeader, Option.bind_eq_bind, Option.pure_def, Option.bind_eq_some_iff,
        Option.some.injEq] at hheader
      obtain ⟨_, -, _, -, rfl⟩ := hheader
      rfl
    rw [readChunks_header hheader, Except.bind, readChunks_append, FileSnapshot.pairs, readChunks_pairs,
      Except.bind, readChunks_append, readChunks_ftrace_panic htext]
    exact ⟨_, rfl, hwritten⟩

end

/-! ## Whole snapshots -/

theorem pending_of_endTrace {s s' : ParseState} (h : s.endTrace w = .ok s') : s'.pending = false := by
  unfold ParseState.endTrace at h
  split_ifs at h with hpending
  · cases hwrite : s.writeSample w <;> rw [hwrite] at h <;> cases h
    rfl
  · cases h
    rfl
  · cases h
    simpa using hpending

theorem fresh_of_pending {s : ParseState} (h : s.pending = false) :
    s.sampleEntries = [] ∧ s.ftraceText = "" := by
  simp only [ParseState.pending, Bool.or_eq_false_iff, Bool.not_eq_false', List.isEmpty_iff,
    String.isEmpty_iff] at h
  exact h

/-- What is read of a snapshot, before and after `ENDTRACE`. -/
theorem withSnapshot_of_readChunks {s s' : ParseState} {snap : FileSnapshot} {pos : ℕ}
    (hfresh : s.pending = false) (h : readChunks w pos s snap.chunks = .ok s') :
    ∃ s₁, s.withSnapshot w snap = some s₁ ∧ s₁.endTrace w = .ok s' := by
  cases hsnap : s.withSnapshot w snap with
  | none =>
    obtain ⟨s₂, hread, -⟩ := @readChunks_snapshot_panic w s snap pos hsnap
    rw [hread] at h
    cases h
  | some s₁ =>
    rw [readChunks_snapshot (fresh_of_pending hfresh).2 hsnap] at h
    cases hend : s₁.endTrace w <;> rw [hend] at h <;> cases h
    exact ⟨s₁, rfl, hend⟩

/-- Nothing is pending after whole snapshots. -/
theorem pending_readChunks : ∀ (snaps : List FileSnapshot) {pos : ℕ} {s s' : ParseState},
    s.pending = false → readChunks w pos s (snaps.flatMap FileSnapshot.chunks) = .ok s' →
      s'.pending = false
  | [], _, _, _, hfresh, h => by
    cases h
    exact hfresh
  | snap :: snaps, pos, s, s', hfresh, h => by
    rw [List.flatMap_cons, readChunks_append] at h
    cases hread : readChunks w pos s snap.chunks with
    | error r =>
      rw [hread] at h
      cases h
    | ok s₁ =>
      rw [hread] at h
      obtain ⟨s₂, -, hend⟩ := withSnapshot_of_readChunks hfresh hread
      exact pending_readChunks snaps (pending_of_endTrace hend) h

theorem finish_of_not_pending {s : ParseState} (h : s.pending = false) :
    finish w (.done, s) = (.done, s) := by
  rw [finish, ParseState.unclosed, h]
  rfl

/-- A file of snapshots that is read to its end. -/
theorem parses_of_readChunks {args : Cli} {snaps : List FileSnapshot} {s : ParseState}
    (h : readChunks w 0 (ParseState.new args) (snaps.flatMap FileSnapshot.chunks) = .ok s) :
    Parses w args (fileBytes snaps) (.done, s) := by
  have hparses := @parses_parseFile w args (snaps.flatMap FileSnapshot.chunks)
  rw [parseFile, h, loopEnd, finish_of_not_pending (pending_readChunks snaps rfl h)] at hparses
  rwa [fileBytes_eq]

end Funtrace
