/-
  Trace files are read back as they were written.

  For each snapshot with something in it `write_sample_to_json` is called once, with its
  frequency, command line, ftrace text and threads (`Reads`).  The calls stop at the first
  snapshot in which the decoder panics, and after `2 ^ 32` of them their numbers start again
  (`roundTrip_iff`).
-/
import Funtrace.Lib.StableSort
import Funtrace.Proof.Panics

namespace Funtrace

variable {w : World} {args : Cli}

/-! ## What is written, and how it is read -/

/-- A snapshot whose texts are UTF-8. -/
structure TextSnapshot where
  file : FileSnapshot
  cmdline : String
  ftraceLines : List String
  cpuFreq_ne : file.cpuFreq ≠ 0
  cmdline_eq : file.cmdline = utf8Bytes cmdline
  names : ∀ t ∈ file.threadTraces, t.id.nameStr.isSome
  ftraceEvents_eq : file.ftraceEvents = ftraceLines.map utf8Bytes

/-- Has a thread a nonzero entry? -/
def EventBuffer.hasNonzero (t : EventBuffer) : Bool := t.buf.any (!·.isEmpty)

namespace TextSnapshot
variable (snap : TextSnapshot)

/-- There is a nonzero entry or a line of ftrace. -/
def hasSample : Bool :=
  snap.file.threadTraces.any EventBuffer.hasNonzero || !snap.ftraceLines.isEmpty

/-- The ftrace text that is read. -/
def ftraceText : String := String.join (snap.ftraceLines.map (· ++ "\n"))

end TextSnapshot

/-- A thread is read under its id, with its nonzero entries in the order of their times. -/
structure ReadsThread (t : EventBuffer) (t' : ThreadTrace) : Prop where
  threadId : t'.threadId = t.id
  trace : SortedStably (fun e e' : FunTraceEntry => e.cycle ≤ e'.cycle)
    (t.buf.filter (!·.isEmpty)) t'.trace

/-- A call of `write_sample_to_json` has just what is in a snapshot. -/
structure Reads (snap : TextSnapshot) (sample : WrittenSample) : Prop where
  cpuFreq : sample.cpuFreq = snap.file.cpuFreq
  cmdLine : sample.cmdLine = snap.cmdline
  ftraceText : sample.ftraceText = snap.ftraceText
  threads : List.Forall₂ ReadsThread (snap.file.threadTraces.filter EventBuffer.hasNonzero)
    sample.sampleEntries

/-- The calls for some snapshots, in order and with consecutive numbers. -/
structure ReadsAll (snaps : List TextSnapshot) (written : List WrittenSample) : Prop where
  reads : List.Forall₂ Reads (snaps.filter TextSnapshot.hasSample) written
  index : ∀ (i : ℕ) (sample : WrittenSample), written[i]? = some sample → sample.index.toNat = i

/-- The bytes of some snapshots. -/
def textBytes (snaps : List TextSnapshot) : List UInt8 := fileBytes (snaps.map TextSnapshot.file)

/-- Their chunks. -/
def textChunks (snaps : List TextSnapshot) : List Chunk :=
  (snaps.map TextSnapshot.file).flatMap FileSnapshot.chunks

/-! ## Threads and texts -/

theorem hasNonzero_iff (t : EventBuffer) : t.hasNonzero ↔ nonzeroEntries t.buf ≠ [] := by
  rw [EventBuffer.hasNonzero, nonzeroEntries, ne_eq, ← List.length_eq_zero_iff,
    List.length_insertionSort, List.length_eq_zero_iff, List.filter_eq_nil_iff, List.any_eq_true]
  push Not
  rfl

theorem readsThread_trace {t : EventBuffer} {t' : ThreadTrace} (h : t.trace = some t') :
    ReadsThread t t' := by
  unfold EventBuffer.trace at h
  split_ifs at h
  cases h
  have : Std.Total (fun e e' : FunTraceEntry => e.cycle ≤ e'.cycle) :=
    ⟨fun e e' => UInt64.le_total e.cycle e'.cycle⟩
  have : IsTrans FunTraceEntry (fun e e' => e.cycle ≤ e'.cycle) := ⟨fun _ _ _ => UInt64.le_trans⟩
  exact ⟨rfl, sortedStably_insertionSort _ _⟩

theorem trace_of_nonzero {t : EventBuffer} (h : t.hasNonzero) : ∃ t', t.trace = some t' :=
  ⟨_, dif_pos ((hasNonzero_iff t).1 h)⟩

theorem trace_of_zero {t : EventBuffer} (h : ¬ t.hasNonzero) : t.trace = none :=
  dif_neg fun hne => h ((hasNonzero_iff t).2 hne)

/-- **The threads that are kept** are those with nonzero entries. -/
theorem readsThread_filterMap : ∀ ts : List EventBuffer,
    List.Forall₂ ReadsThread (ts.filter EventBuffer.hasNonzero) (ts.filterMap EventBuffer.trace)
  | [] => .nil
  | t :: ts => by
    have ih := readsThread_filterMap ts
    rw [List.filterMap_cons]
    by_cases hnonzero : t.hasNonzero
    · obtain ⟨t', htrace⟩ := trace_of_nonzero hnonzero
      rw [List.filter_cons_of_pos hnonzero, htrace]
      exact .cons (readsThread_trace htrace) ih
    · rw [List.filter_cons_of_neg hnonzero, trace_of_zero hnonzero]
      exact ih

theorem isEmpty_filterMap_trace : ∀ ts : List EventBuffer,
    (!(ts.filterMap EventBuffer.trace).isEmpty) = ts.any EventBuffer.hasNonzero
  | [] => rfl
  | t :: ts => by
    have ih := isEmpty_filterMap_trace ts
    rw [List.filterMap_cons, List.any_cons]
    by_cases hnonzero : t.hasNonzero
    · obtain ⟨t', htrace⟩ := trace_of_nonzero hnonzero
      rw [htrace, hnonzero]
      rfl
    · rw [trace_of_zero hnonzero, ih]
      simp [hnonzero]

theorem ftraceBytes_map : ∀ lines : List String,
    ftraceBytes (lines.map utf8Bytes) = utf8Bytes (String.join (lines.map (· ++ "\n")))
  | [] => rfl
  | line :: lines => by
    have hnewline : utf8Bytes "\n" = [10] := by decide
    have ih := ftraceBytes_map lines
    rw [ftraceBytes] at ih
    rw [List.map_cons, List.map_cons, String.join_cons, utf8Bytes_append, utf8Bytes_append, hnewline,
      ← ih, ftraceBytes, List.flatMap_cons]

theorem TextSnapshot.ftraceText_eq (snap : TextSnapshot) :
    snap.file.ftraceText = some snap.ftraceText := by
  rw [FileSnapshot.ftraceText, snap.ftraceEvents_eq, ftraceBytes_map, decodeUtf8_utf8Bytes]
  rfl

theorem TextSnapshot.isEmpty_ftraceText (snap : TextSnapshot) :
    snap.ftraceText.isEmpty = snap.ftraceLines.isEmpty := by
  unfold ftraceText
  cases snap.ftraceLines with
  | nil => rfl
  | cons line lines => simp [String.join_cons]

theorem TextSnapshot.sampleEntries_names {snap : TextSnapshot} {t : ThreadTrace}
    (h : t ∈ snap.file.sampleEntries) : t.threadId.nameStr.isSome := by
  obtain ⟨t', ht', htrace⟩ := List.mem_filterMap.1 h
  rw [(readsThread_trace htrace).threadId]
  exact snap.names t' ht'

/-! ## One snapshot -/

section
variable {s : ParseState} {snap : TextSnapshot} {pos : ℕ}

/-- The state before the `ENDTRACE` of a snapshot. -/
theorem exists_withSnapshot (hmaps : (w.memoryMaps snap.file.procmaps).isSome)
    (hfresh : s.pending = false) : ∃ s₁, s.withSnapshot w snap.file = some s₁ ∧ s.Follows w s₁ ∧
      s₁.written = s.written ∧ s₁.numJson = s.numJson ∧ s₁.pending = snap.hasSample ∧
      s₁.converter.cpuFreq = snap.file.cpuFreq ∧ s₁.ftraceText = snap.ftraceText ∧
      s₁.sampleEntries = snap.file.sampleEntries ∧ ∀ index json, Reads snap
        ⟨index, s₁.converter.cpuFreq, s₁.converter.cmdLine, s₁.sampleEntries, s₁.ftraceText, json⟩ := by
  have hcmd : decodeUtf8 snap.file.cmdline = some snap.cmdline := by
    rw [snap.cmdline_eq, decodeUtf8_utf8Bytes]
  obtain ⟨s₁, hs₁⟩ := Option.isSome_iff_exists.1 ((withSnapshot_isSome (s := s) hmaps).2
    ⟨by rw [hcmd]; rfl, by rw [snap.ftraceText_eq]; rfl⟩)
  have hhas := hasSnapshot hs₁
  have hentries : s₁.sampleEntries = snap.file.sampleEntries := by
    rw [hhas.sampleEntries, (fresh_of_pending hfresh).1, List.nil_append]
  have htext : s₁.ftraceText = snap.ftraceText :=
    Option.some.inj (hhas.ftraceText.symm.trans snap.ftraceText_eq)
  have hcmdLine : s₁.converter.cmdLine = snap.cmdline :=
    Option.some.inj (hhas.cmdLine.symm.trans hcmd)
  have hthreads := readsThread_filterMap snap.file.threadTraces
  refine ⟨s₁, hs₁, hhas.follows, hhas.written, hhas.numJson, ?_, hhas.cpuFreq, htext, hentries,
    fun index json => ⟨hhas.cpuFreq, hcmdLine, htext, by rw [hentries]; exact hthreads⟩⟩
  rw [ParseState.pending, hentries, htext, TextSnapshot.hasSample, snap.isEmpty_ftraceText,
    FileSnapshot.sampleEntries, isEmpty_filterMap_trace]

/-- What a snapshot adds to the calls. -/
def Adds (snap : TextSnapshot) (s s' : ParseState) : Prop :=
  ∃ samples, s'.written = s.written ++ samples ∧
    List.Forall₂ Reads ([snap].filter TextSnapshot.hasSample) samples ∧
    ∀ sample ∈ samples, sample.index = s.numJson

/-- The number of the next call. -/
def TextSnapshot.next (snap : TextSnapshot) (numJson : UInt32) : UInt32 :=
  if snap.hasSample then numJson + 1 else numJson

/-- No entry of a snapshot that the options let through lies in a map whose file opens but cannot be
    parsed. -/
def ExecsConvert (w : World) (s : ParseState) (snap : TextSnapshot) : Prop :=
  ∀ s' raw, s.withSnapshot w snap.file = some s' → s'.converter.rawFtrace s'.ftraceText = some raw →
    s'.converter.ExecsRead w s'.sampleEntries raw

/-- The lines of ftrace have no wide blank, and the executables, and the source files if they are
    needed, can be read. -/
def Converts (w : World) (s : ParseState) (snap : TextSnapshot) : Prop :=
  (∀ line ∈ linesOf snap.ftraceText.toList, ¬ WideBlank line) ∧ ExecsConvert w s snap ∧
    (s.converter.args.dry ∨ s.SourcesOk w snap.file)

/-- A call of `write_sample_to_json` is recorded whether it panics or not. -/
theorem written_after_writeSample (s : ParseState) :
    ∃ json, (ParseState.after (s.writeSample w)).written = s.written ++
      [⟨s.numJson, s.converter.cpuFreq, s.converter.cmdLine, s.sampleEntries, s.ftraceText, json⟩] ∧
      (ParseState.after (s.writeSample w)).numJson = s.numJson := by
  unfold ParseState.writeSample
  dsimp only
  split <;> exact ⟨_, rfl, rfl⟩

/-- The calls and the number of the next one, after `ENDTRACE`. -/
theorem adds_endTrace {s₁ : ParseState} (hsamples : s₁.converter.args.samples = [])
    (hpending : s₁.pending = snap.hasSample) (hwritten : s₁.written = s.written)
    (hnum : s₁.numJson = s.numJson) (hreads : ∀ index json, Reads snap
      ⟨index, s₁.converter.cpuFreq, s₁.converter.cmdLine, s₁.sampleEntries, s₁.ftraceText, json⟩) :
    Adds snap s (ParseState.after (s₁.endTrace w)) ∧
      (∀ s', s₁.endTrace w = .ok s' → s'.numJson = snap.next s.numJson) ∧
      ∀ s', s₁.endTrace w = .error s' → snap.hasSample := by
  have hselected : s₁.selected := by
    rw [ParseState.selected, hsamples]
    rfl
  unfold ParseState.endTrace TextSnapshot.next
  rw [hpending]
  by_cases hsample : snap.hasSample
  · obtain ⟨json, hrecord, hnext⟩ := @written_after_writeSample w s₁
    have hadds : ∀ s', s'.written = (ParseState.after (s₁.writeSample w)).written → Adds snap s s' := by
      intro s' hs'
      refine ⟨_, by rw [hs', hrecord, hwritten], ?_, ?_⟩
      · rw [List.filter_cons_of_pos hsample]
        exact .cons (hreads _ _) .nil
      · intro sample hmem
        rw [List.mem_singleton.1 hmem]
        exact hnum
    rw [if_pos hsample, if_pos hselected, if_pos hsample]
    cases hwrite : s₁.writeSample w with
    | ok s₂ =>
      rw [hwrite] at hadds hnext
      have hmap : (Except.ok s₂ : Except ParseState ParseState).map ParseState.nextSample =
          .ok s₂.nextSample := rfl
      have hnum₂ : s₂.nextSample.numJson = s.numJson + 1 := by
        rw [← hnum, ← hnext]
        rfl
      rw [hmap]
      refine ⟨hadds s₂.nextSample rfl, fun s' hs' => ?_, fun _ _ => hsample⟩
      rw [← Except.ok.inj hs', hnum₂]
    | error s₂ =>
      rw [hwrite] at hadds
      exact ⟨hadds s₂ rfl, (fun _ hs' => by cases hs'), fun _ _ => hsample⟩
  · rw [if_neg hsample, if_neg hsample]
    refine ⟨⟨[], ?_, ?_, List.forall_mem_nil _⟩, ?_, (fun _ hs' => by cases hs')⟩
    · rw [List.append_nil]
      exact hwritten
    · rw [List.filter_cons_of_neg hsample]
      exact .nil
    · rintro s' ⟨⟩
      exact hnum

theorem step_ok (hsamples : s.converter.args.samples = [])
    (hmaps : (w.memoryMaps snap.file.procmaps).isSome) (hfresh : s.pending = false) {s' : ParseState}
    (h : readChunks w pos s snap.file.chunks = .ok s') :
    Adds snap s s' ∧ s'.numJson = snap.next s.numJson := by
  obtain ⟨s₁, hs₁, hfollows, hwritten, hnum, hpending, -, -, -, hreads⟩ :=
    exists_withSnapshot hmaps hfresh
  obtain ⟨hadds, hnext, -⟩ := adds_endTrace (w := w) (by rw [hfollows.args]; exact hsamples) hpending
    hwritten hnum hreads
  rw [readChunks_snapshot (fresh_of_pending hfresh).2 hs₁] at h
  cases hend : s₁.endTrace w with
  | error s₂ =>
    rw [hend] at h
    cases h
  | ok s₂ =>
    rw [hend] at h hadds
    cases h
    exact ⟨hadds, hnext _ hend⟩

theorem step_error (hsamples : s.converter.args.samples = [])
    (hmaps : (w.memoryMaps snap.file.procmaps).isSome) (hfresh : s.pending = false)
    {r : Exit × ParseState} (h : readChunks w pos s snap.file.chunks = .error r) :
    snap.hasSample ∧ Adds snap s r.2 := by
  obtain ⟨s₁, hs₁, hfollows, hwritten, hnum, hpending, -, -, -, hreads⟩ :=
    exists_withSnapshot hmaps hfresh
  obtain ⟨hadds, -, hpanic⟩ := adds_endTrace (w := w) (by rw [hfollows.args]; exact hsamples) hpending
    hwritten hnum hreads
  rw [readChunks_snapshot (fresh_of_pending hfresh).2 hs₁] at h
  cases hend : s₁.endTrace w with
  | ok s₂ =>
    rw [hend] at h
    cases h
  | error s₂ =>
    rw [hend] at h hadds
    cases h
    exact ⟨hpanic _ hend, hadds⟩

/-- **A snapshot** is read without a panic. -/
theorem step_iff (hsamples : s.converter.args.samples = []) (hread : s.converter.SourcesRead w)
    (hintact : s.converter.Intact w) (hmaps : (w.memoryMaps snap.file.procmaps).isSome)
    (hfresh : s.pending = false) :
    (∃ s', readChunks w pos s snap.file.chunks = .ok s') ↔ Converts w s snap := by
  obtain ⟨s₁, hs₁, hfollows, -, -, -, hfreq, htext, hentries, -⟩ :=
    exists_withSnapshot hmaps hfresh
  have hfreq₁ : s₁.converter.cpuFreq ≠ 0 := by
    rw [hfreq]
    exact snap.cpuFreq_ne
  have hread₁ := hfollows.sourcesRead hread
  have hintact₁ := hfollows.intact hintact
  -- the names are UTF-8, so that it depends on the sources only
  have hthreads (raw : List FtraceEvent) :
      (∀ p ∈ s₁.sampleEntries.zip (s₁.converter.sampleCalls w s₁.sampleEntries raw),
        s₁.converter.ThreadWritable w p) ↔
      (s₁.converter.args.dry = false → ∀ calls ∈ s₁.converter.sampleCalls w s₁.sampleEntries raw,
        ∀ call ∈ calls, (w.sourceText call.sym.file).isSome) := by
    have hlen : (s₁.converter.sampleCalls w s₁.sampleEntries raw).length = s₁.sampleEntries.length :=
      TraceConverter.length_decodeThreads w _ _ _ _
    constructor
    · intro h hdry calls hcalls call hcall
      have hsnd : (s₁.sampleEntries.zip (s₁.converter.sampleCalls w s₁.sampleEntries raw)).map Prod.snd =
          s₁.converter.sampleCalls w s₁.sampleEntries raw := List.map_snd_zip hlen.le
      rw [← hsnd] at hcalls
      obtain ⟨p, hp, rfl⟩ := List.mem_map.1 hcalls
      cases hsel : s₁.converter.selects p.1 with
      | true => exact ((h p hp hsel).2 hdry call hcall).2
      | false =>
        rw [TraceConverter.zip_decodeThreads w _ _ _ _ p hp hsel] at hcall
        cases hcall
    · intro h p hp hsel
      obtain ⟨hmem, hcalls⟩ := List.of_mem_zip hp
      rw [hentries] at hmem
      exact ⟨TextSnapshot.sampleEntries_names hmem,
        fun hdry call hcall => ⟨fun _ => hfreq₁, h hdry _ hcalls call hcall⟩⟩
  rw [readChunks_isOk hfresh hs₁, endTrace_isOk (by rw [hfollows.args]; exact hsamples) hread₁
    hintact₁, TraceConverter.writeSampleToJson_isSome hread₁, Converts, ← htext, ← rawFtrace_isSome hfreq₁]
  constructor
  · rintro ⟨raw, hraw, hcompleted, h⟩
    refine ⟨by rw [hraw]; rfl, fun s' raw' hs' hraw' => ?_, ?_⟩
    · cases hs₁.symm.trans hs'
      cases hraw.symm.trans hraw'
      exact hintact₁.completed_iff.1 hcompleted
    cases hdry : s.converter.args.dry with
    | true => exact Or.inl rfl
    | false =>
      refine Or.inr fun s' raw' hs' hraw' => ?_
      cases hs₁.symm.trans hs'
      cases hraw.symm.trans hraw'
      exact (hthreads raw).1 h (by rw [hfollows.args]; exact hdry)
  · rintro ⟨hsome, hexecs, hsources⟩
    obtain ⟨raw, hraw⟩ := Option.isSome_iff_exists.1 hsome
    refine ⟨raw, hraw, hintact₁.completed_iff.2 (hexecs s₁ raw hs₁ hraw), (hthreads raw).2 fun hdry => ?_⟩
    rw [hfollows.args] at hdry
    exact (hsources.resolve_left (by simp [hdry])) s₁ raw hs₁ hraw

end

/-! ## All snapshots -/

theorem textChunks_append (snaps snaps' : List TextSnapshot) :
    textChunks (snaps ++ snaps') = textChunks snaps ++ textChunks snaps' := by
  rw [textChunks, List.map_append, List.flatMap_append]
  rfl

theorem textChunks_singleton (snap : TextSnapshot) : textChunks [snap] = snap.file.chunks := by
  rw [textChunks, List.map_singleton, List.flatMap_singleton]

/-- The calls for some snapshots, with numbers that start again after `2 ^ 32`. -/
structure Calls (snaps : List TextSnapshot) (s : ParseState) : Prop where
  reads : List.Forall₂ Reads (snaps.filter TextSnapshot.hasSample) s.written
  index : ∀ (i : ℕ) (sample : WrittenSample), s.written[i]? = some sample → sample.index = UInt32.ofNat i

theorem Calls.add {snaps : List TextSnapshot} {snap : TextSnapshot} {s s' : ParseState}
    (h : Calls snaps s) (hnum : s.numJson = UInt32.ofNat s.written.length) (hadds : Adds snap s s') :
    Calls (snaps ++ [snap]) s' := by
  obtain ⟨samples, hwritten, hreads, hindex⟩ := hadds
  have hone : samples.length ≤ 1 := by
    rw [← hreads.length_eq]
    exact (List.length_filter_le _ _).trans (Nat.le_refl 1)
  refine ⟨?_, fun i sample hi => ?_⟩
  · rw [List.filter_append, hwritten]
    exact List.rel_append h.reads hreads
  · rw [hwritten] at hi
    rcases Nat.lt_or_ge i s.written.length with hlt | hge
    · rw [List.getElem?_append_left hlt] at hi
      exact h.index i sample hi
    · rw [List.getElem?_append_right hge] at hi
      have hlast : i = s.written.length := by
        have hbound := (List.getElem?_eq_some_iff.1 hi).1
        omega
      rw [hindex sample (List.mem_of_getElem? hi), hnum, hlast]

theorem Calls.next {snap : TextSnapshot} {s s' : ParseState}
    (hnum : s.numJson = UInt32.ofNat s.written.length) (hadds : Adds snap s s')
    (hnext : s'.numJson = snap.next s.numJson) : s'.numJson = UInt32.ofNat s'.written.length := by
  obtain ⟨samples, hwritten, hreads, -⟩ := hadds
  have hlen := hreads.length_eq
  rw [hnext, hwritten, List.length_append, ← hlen, TextSnapshot.next, hnum]
  by_cases hsample : snap.hasSample
  · rw [if_pos hsample, List.filter_cons_of_pos hsample, UInt32.ofNat_add]
    rfl
  · rw [if_neg hsample, List.filter_cons_of_neg hsample]
    rfl

section
variable {snaps : List TextSnapshot} (hsamples : args.samples = [])
  (hmaps : ∀ snap ∈ snaps, (w.memoryMaps snap.file.procmaps).isSome)
include hsamples hmaps

/-- The calls for the first snapshots, if they are read. -/
theorem calls_of_readChunks : ∀ k ≤ snaps.length, ∀ s,
    readChunks w 0 (ParseState.new args) (textChunks (snaps.take k)) = .ok s →
      Calls (snaps.take k) s ∧ s.numJson = UInt32.ofNat s.written.length
  | 0, _, s, h => by
    cases h
    exact ⟨⟨.nil, fun i sample hi => by cases hi⟩, rfl⟩
  | k + 1, hk, s, h => by
    obtain ⟨snap, hsnap⟩ : ∃ snap, snaps[k]? = some snap := ⟨_, List.getElem?_eq_getElem (by omega)⟩
    have htake : snaps.take (k + 1) = snaps.take k ++ [snap] := by
      rw [List.take_add_one, hsnap]
      rfl
    rw [htake, textChunks_append, textChunks_singleton] at h
    obtain ⟨s₀, h₀, hlast⟩ := readChunks_append_ok h
    obtain ⟨hcalls, hnum⟩ := calls_of_readChunks k (by omega) s₀ h₀
    obtain ⟨hadds, hnext⟩ := step_ok (by rw [(follows_of_readChunks h₀).args]; exact hsamples)
      (hmaps snap (List.mem_of_getElem? hsnap)) (pending_readChunks _ rfl h₀) hlast
    rw [htake]
    exact ⟨hcalls.add hnum hadds, Calls.next hnum hadds hnext⟩

/-- A file is read to its end, or up to a snapshot in which the decoder panics. -/
theorem read_cases : (∃ s, readChunks w 0 (ParseState.new args) (textChunks snaps) = .ok s) ∨
    ∃ k snap s r, snaps[k]? = some snap ∧
      readChunks w 0 (ParseState.new args) (textChunks (snaps.take k)) = .ok s ∧ ¬ Converts w s snap ∧
      readChunks w 0 (ParseState.new args) (textChunks snaps) = .error r ∧
      Calls (snaps.take (k + 1)) r.2 := by
  have hprefix : ∀ k ≤ snaps.length,
      (∃ s, readChunks w 0 (ParseState.new args) (textChunks (snaps.take k)) = .ok s) ∨
        ∃ k snap s r, snaps[k]? = some snap ∧
          readChunks w 0 (ParseState.new args) (textChunks (snaps.take k)) = .ok s ∧
          ¬ Converts w s snap ∧
          readChunks w 0 (ParseState.new args) (textChunks (snaps.take (k + 1))) = .error r ∧
          Calls (snaps.take (k + 1)) r.2 := by
    intro k
    induction k with
    | zero => exact fun _ => Or.inl ⟨_, rfl⟩
    | succ k ih =>
      intro hk
      rcases ih (by omega) with ⟨s, hs⟩ | hpanic
      · obtain ⟨snap, hsnap⟩ : ∃ snap, snaps[k]? = some snap :=
          ⟨_, List.getElem?_eq_getElem (by omega)⟩
        have htake : snaps.take (k + 1) = snaps.take k ++ [snap] := by
          rw [List.take_add_one, hsnap]
          rfl
        have hmem := hmaps snap (List.mem_of_getElem? hsnap)
        have hargs : s.converter.args.samples = [] := by
          rw [(follows_of_readChunks hs).args]
          exact hsamples
        have hfresh := pending_readChunks _ rfl hs
        have hread := (follows_of_readChunks hs).sourcesRead fun _ h => by cases h
        obtain ⟨hcalls, hnum⟩ := calls_of_readChunks hsamples hmaps k (by omega) s hs
        have hnext : readChunks w 0 (ParseState.new args) (textChunks (snaps.take (k + 1))) =
            readChunks w (0 + (chunkBytes (textChunks (snaps.take k))).length) s snap.file.chunks := by
          rw [htake, textChunks_append, readChunks_append, hs, Except.bind, textChunks_singleton]
        cases hstep : readChunks w (0 + (chunkBytes (textChunks (snaps.take k))).length) s
            snap.file.chunks with
        | ok s' => exact Or.inl ⟨s', hnext.trans hstep⟩
        | error r =>
          refine Or.inr ⟨k, snap, s, r, hsnap, hs, fun hconv => ?_, hnext.trans hstep, ?_⟩
          · have hintact := (follows_of_readChunks hs).intact (TraceConverter.intact_new args)
            obtain ⟨s', hs'⟩ := (step_iff hargs hread hintact hmem hfresh).2 hconv
            rw [hstep] at hs'
            cases hs'
          · rw [htake]
            exact hcalls.add hnum (step_error hargs hmem hfresh hstep).2
      · exact Or.inr hpanic
  rcases hprefix snaps.length (Nat.le_refl _) with ⟨s, hs⟩ | ⟨k, snap, s, r, hsnap, hs, hconv, hr, hcalls⟩
  · rw [List.take_length] at hs
    exact Or.inl ⟨s, hs⟩
  · refine Or.inr ⟨k, snap, s, r, hsnap, hs, hconv, ?_, hcalls⟩
    rw [← List.take_append_drop (k + 1) snaps, textChunks_append, readChunks_append, hr]
    rfl

/-- A snapshot that is followed by others that are read. -/
theorem converts_of_read {j k : ℕ} {snap : TextSnapshot} {s s' : ParseState} (hkj : k < j)
    (hsnap : snaps[k]? = some snap)
    (hs : readChunks w 0 (ParseState.new args) (textChunks (snaps.take k)) = .ok s)
    (hs' : readChunks w 0 (ParseState.new args) (textChunks (snaps.take j)) = .ok s') :
    Converts w s snap := by
  have htake : snaps.take j = snaps.take k ++ ([snap] ++ (snaps.take j).drop (k + 1)) := by
    have hk : snaps.take (k + 1) = snaps.take k ++ [snap] := by
      rw [List.take_add_one, hsnap]
      rfl
    have hmin : (snaps.take j).take (k + 1) = snaps.take (k + 1) := by
      rw [List.take_take, Nat.min_eq_left hkj]
    rw [← List.append_assoc, ← hk, ← hmin, List.take_append_drop]
  rw [htake, textChunks_append, textChunks_append, textChunks_singleton] at hs'
  obtain ⟨s₀, h₀, hrest⟩ := readChunks_append_ok hs'
  cases h₀.symm.trans hs
  obtain ⟨s₁, h₁, -⟩ := readChunks_append_ok hrest
  have hfollows := follows_of_readChunks hs
  exact (step_iff (by rw [hfollows.args]; exact hsamples)
    (hfollows.sourcesRead fun _ h => by cases h) (hfollows.intact (TraceConverter.intact_new args))
    (hmaps snap (List.mem_of_getElem? hsnap))
    (pending_readChunks _ rfl hs)).1 ⟨s₁, h₁⟩

end

/-- The state in which the decoder ends. -/
theorem parses_text {snaps : List TextSnapshot} {e : Except (Exit × ParseState) ParseState}
    (h : readChunks w 0 (ParseState.new args) (textChunks snaps) = e) :
    Parses w args (textBytes snaps) (loopEnd .done e) := by
  cases e with
  | ok s => exact parses_of_readChunks h
  | error r =>
    have hparses := @parses_parseFile w args (textChunks snaps)
    have hpanic := readChunks_error_panic _ (fun c hc => by
      obtain ⟨snap, -, hc⟩ := List.mem_flatMap.1 hc
      exact FileSnapshot.type_of_mem hc) h
    rw [parseFile, h, loopEnd, finish_of_ne (by rw [hpanic]; decide), textChunks, ← fileBytes_eq]
      at hparses
    exact hparses

theorem filter_take_of_not_any {snaps : List TextSnapshot} {k : ℕ}
    (h : ¬ (snaps.drop k).any TextSnapshot.hasSample) :
    (snaps.take k).filter TextSnapshot.hasSample = snaps.filter TextSnapshot.hasSample := by
  have hnone : (snaps.drop k).filter TextSnapshot.hasSample = [] := by
    rw [List.filter_eq_nil_iff]
    intro snap hsnap hsample
    exact h (List.any_eq_true.2 ⟨snap, hsnap, hsample⟩)
  conv_rhs => rw [← List.take_append_drop k snaps, List.filter_append, hnone, List.append_nil]

/-- If the first snapshots have all the samples, there is none later. -/
theorem not_any_of_length_filter_take {snaps : List TextSnapshot} {k : ℕ}
    (h : (snaps.filter TextSnapshot.hasSample).length =
      ((snaps.take k).filter TextSnapshot.hasSample).length) :
    ¬ (snaps.drop k).any TextSnapshot.hasSample := by
  have hsplit : snaps.filter TextSnapshot.hasSample =
      (snaps.take k).filter TextSnapshot.hasSample ++ (snaps.drop k).filter TextSnapshot.hasSample := by
    rw [← List.filter_append, List.take_append_drop]
  rw [hsplit, List.length_append] at h
  have hnil : (snaps.drop k).filter TextSnapshot.hasSample = [] :=
    List.length_eq_zero_iff.1 (by omega)
  intro hany
  obtain ⟨snap, hmem, hsample⟩ := List.any_eq_true.1 hany
  exact List.filter_eq_nil_iff.1 hnil snap hmem hsample

theorem any_drop_of_le {snaps : List TextSnapshot} {i j : ℕ} (hle : i ≤ j)
    (h : (snaps.drop j).any TextSnapshot.hasSample) : (snaps.drop i).any TextSnapshot.hasSample := by
  obtain ⟨snap, hmem, hsample⟩ := List.any_eq_true.1 h
  refine List.any_eq_true.2 ⟨snap, ?_, hsample⟩
  have hdrop : snaps.drop j = (snaps.drop i).drop (j - i) := by
    rw [List.drop_drop]
    congr 1
    omega
  rw [hdrop] at hmem
  exact List.mem_of_mem_drop hmem

/-- **The round trip** of a file. -/
theorem roundTrip_iff (w : World) (args : Cli) (snaps : List TextSnapshot) (hsamples : args.samples = [])
    (hmaps : ∀ snap ∈ snaps, (w.memoryMaps snap.file.procmaps).isSome) :
    (∃ r, Parses w args (textBytes snaps) r ∧ ReadsAll snaps r.2.written) ↔
      (snaps.filter TextSnapshot.hasSample).length ≤ 2 ^ 32 ∧
        ∀ k snap s, snaps[k]? = some snap → (snaps.drop (k + 1)).any TextSnapshot.hasSample →
          readChunks w 0 (ParseState.new args) (textChunks (snaps.take k)) = .ok s →
            Converts w s snap := by
  constructor
  · rintro ⟨r, hr, hreads, hindex⟩
    have hlen := hreads.length_eq
    refine ⟨?_, fun k snap s hsnap hlater hs => ?_⟩
    · -- the number of the last call is a `u32`
      rw [hlen]
      cases hlast : r.2.written.length with
      | zero => exact Nat.zero_le _
      | succ i =>
        obtain ⟨sample, hsample⟩ : ∃ sample, r.2.written[i]? = some sample :=
          ⟨_, List.getElem?_eq_getElem (by omega)⟩
        have hlt := sample.index.toNat_lt
        rw [hindex i sample hsample] at hlt
        exact hlt
    · rcases read_cases hsamples hmaps with ⟨sf, hf⟩ | ⟨j, snap', s', r', hsnap', hs', -, hr', hcalls⟩
      · have hk := (List.getElem?_eq_some_iff.1 hsnap).1
        rw [← List.take_length (l := snaps)] at hf
        exact converts_of_read hsamples hmaps hk hsnap hs hf
      · -- the calls stop after the snapshot in which the decoder panics
        have hsame : r = r' := hr.unique (parses_text hr')
        have hcount := hcalls.reads.length_eq
        rw [← hsame, ← hlen] at hcount
        have hnone : ¬ (snaps.drop (j + 1)).any TextSnapshot.hasSample :=
          not_any_of_length_filter_take hcount.symm
        have hkj : k < j := by
          by_contra hge
          exact hnone (any_drop_of_le (by omega) hlater)
        exact converts_of_read hsamples hmaps hkj hsnap hs hs'
  · rintro ⟨hlen, hcond⟩
    have hnumbers {s : ParseState} (hcalls : List.Forall₂ Reads (snaps.filter TextSnapshot.hasSample)
        s.written) (hindex : ∀ (i : ℕ) (sample : WrittenSample), s.written[i]? = some sample →
          sample.index = UInt32.ofNat i) : ReadsAll snaps s.written := by
      refine ⟨hcalls, fun i sample hi => ?_⟩
      have hbound := (List.getElem?_eq_some_iff.1 hi).1
      rw [← hcalls.length_eq] at hbound
      rw [hindex i sample hi]
      exact UInt32.toNat_ofNat_of_lt' (hbound.trans_le hlen)
    rcases read_cases hsamples hmaps with ⟨s, hs⟩ | ⟨k, snap, s, r, hsnap, hs, hconv, hr, hcalls⟩
    · rw [← List.take_length (l := snaps)] at hs
      obtain ⟨hcalls, -⟩ := calls_of_readChunks hsamples hmaps snaps.length (Nat.le_refl _) s hs
      rw [List.take_length] at hs hcalls
      exact ⟨_, parses_text hs, hnumbers hcalls.reads hcalls.index⟩
    · have hnone : ¬ (snaps.drop (k + 1)).any TextSnapshot.hasSample :=
        fun hlater => hconv (hcond k snap s hsnap hlater hs)
      have hreads := hcalls.reads
      rw [filter_take_of_not_any hnone] at hreads
      exact ⟨_, parses_text hr, hnumbers hreads hcalls.index⟩

/-- A snapshot of one call. -/
def plainSnapshot : TextSnapshot where
  file := demoSnapshot demoName
  cmdline := "prog"
  ftraceLines := []
  cpuFreq_ne := by decide
  cmdline_eq := rfl
  names t ht := by
    obtain rfl := List.mem_singleton.1 ht
    decide
  ftraceEvents_eq := rfl

theorem converts_plainSnapshot (s : ParseState) : Converts demoWorld s plainSnapshot :=
  have hlines : linesOf plainSnapshot.ftraceText.toList = [] := by decide
  ⟨by rw [hlines]; exact nofun, fun _ _ _ _ _ _ _ e _ _ => unreadableAt_demoWorld _ e.addr,
    Or.inr (sourcesOk_demoWorld s _)⟩

theorem roundTrip_demo : ∃ r, Parses demoWorld Cli.default (textBytes [plainSnapshot, plainSnapshot]) r ∧
    ReadsAll [plainSnapshot, plainSnapshot] r.2.written :=
  (roundTrip_iff demoWorld Cli.default [plainSnapshot, plainSnapshot] rfl fun _ _ => rfl).2
    ⟨(List.length_filter_le _ _).trans (by decide), fun k snap s hsnap _ _ => by
      have hmem := List.mem_of_getElem? hsnap
      simp only [List.mem_cons, List.not_mem_nil, or_false, or_self] at hmem
      rw [hmem]
      exact converts_plainSnapshot s⟩

/-- A line with an ideographic space before its timestamp. -/
def wideLine : String := "a\u30001: b"

/-- A snapshot with just this line. -/
def wideSnapshot : TextSnapshot where
  file := { demoSnapshot demoName with
    ftraceEvents := [utf8Bytes wideLine]
    length_ftraceEvents := by decide }
  cmdline := "prog"
  ftraceLines := [wideLine]
  cpuFreq_ne := by decide
  cmdline_eq := rfl
  names := plainSnapshot.names
  ftraceEvents_eq := rfl

theorem not_converts_wideSnapshot (s : ParseState) : ¬ Converts w s wideSnapshot := by
  rintro ⟨hlines, -⟩
  have hmem : wideLine.toList ∈ linesOf wideSnapshot.ftraceText.toList := by decide
  exact hlines _ hmem ⟨by decide, '\u3000', by decide, by decide⟩

theorem not_roundTrip : ¬ ∀ (w : World) (args : Cli) (snaps : List TextSnapshot), args.samples = [] →
    (∀ snap ∈ snaps, (w.memoryMaps snap.file.procmaps).isSome) →
      ∃ r, Parses w args (textBytes snaps) r ∧ ReadsAll snaps r.2.written := by
  intro h
  obtain ⟨r, hr, hreads⟩ := h demoWorld Cli.default [wideSnapshot, plainSnapshot] rfl fun _ _ => rfl
  have hmaps : ∀ snap ∈ [wideSnapshot, plainSnapshot],
      (demoWorld.memoryMaps snap.file.procmaps).isSome := fun _ _ => rfl
  have hlen : r.2.written.length = 2 := hreads.reads.length_eq.symm
  have hfirst (j : ℕ) (hj : 0 < j) (s : ParseState) : readChunks demoWorld 0 (ParseState.new Cli.default)
      (textChunks ([wideSnapshot, plainSnapshot].take j)) ≠ .ok s := fun hs =>
    not_converts_wideSnapshot _ (converts_of_read rfl hmaps hj rfl rfl hs)
  rcases @read_cases demoWorld Cli.default _ rfl hmaps with ⟨s, hs⟩ | ⟨k, snap, s, r', -, hs, -, hr', hcalls⟩
  · exact hfirst 2 (by decide) s hs
  · have hk : k = 0 := by
      by_contra hne
      exact hfirst k (Nat.pos_of_ne_zero hne) s hs
    have hsame : r = r' := hr.unique (parses_text hr')
    have hone := hcalls.reads.length_eq
    rw [← hsame, hlen, hk] at hone
    exact absurd hone (by decide)

end Funtrace
