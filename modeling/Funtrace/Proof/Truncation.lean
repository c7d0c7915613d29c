/-
  Files that were cut off.

  A prefix of a file has some snapshots wholly, then some chunks of the next one
  (`cutSnapshot`), then some bytes of the next chunk (`bytesInto`).  The whole snapshots are
  decoded as before.  What has been read of the cut one is written if the loop is left at
  the end of the file: the magic of a chunk may be cut, but if its length or content is,
  the loop is left with an error and what has been read is lost (`salvages_iff`).
-/
import Funtrace.Proof.Panics

namespace Funtrace

variable {w : World} {args : Cli}

/-! ## A part of the threads -/

namespace TraceConverter
variable {c : TraceConverter}

/-- Where nothing is too old, the threshold makes no difference. -/
theorem threadLoop_young {oldest oldest' earliest : UInt64} (es : List FunTraceEntry) :
    ∀ s : Lookup × Dec, (∀ e ∈ es, oldest ≤ e.cycle ∧ oldest' ≤ e.cycle) →
      threadLoop w oldest earliest s es = threadLoop w oldest' earliest s es := by
  induction es with
  | nil => exact fun _ _ => rfl
  | cons e es ih =>
    intro s h
    obtain ⟨he, he'⟩ := h e List.mem_cons_self
    have hstep : threadStep w oldest earliest s e = threadStep w oldest' earliest s e := by
      unfold threadStep
      rw [if_neg (UInt64.not_lt.2 he), if_neg (UInt64.not_lt.2 he')]
    have hrest : ∀ e ∈ es, oldest ≤ e.cycle ∧ oldest' ≤ e.cycle :=
      fun e he => h e (List.mem_cons_of_mem _ he)
    simp only [threadLoop, hstep, ih _ hrest]

theorem decodeThread_young {oldest oldest' : UInt64} (l : Lookup) {t : ThreadTrace}
    (h : ∀ e ∈ t.trace, oldest ≤ e.cycle ∧ oldest' ≤ e.cycle) :
    decodeThread w oldest l t = decodeThread w oldest' l t := by
  obtain ⟨hhead, hhead'⟩ := h _ (List.head_mem t.nonempty)
  simp only [decodeThread, max_eq_of_le hhead, max_eq_of_le hhead', threadLoop_young t.trace _ h]

theorem decodeThreads_young {oldest oldest' : UInt64} : ∀ (ts : List ThreadTrace) (l : Lookup),
    (∀ t ∈ ts, ∀ e ∈ t.trace, oldest ≤ e.cycle ∧ oldest' ≤ e.cycle) →
      c.decodeThreads w oldest l ts = c.decodeThreads w oldest' l ts
  | [], _, _ => rfl
  | t :: ts, l, h => by
    have hrest : ∀ t ∈ ts, ∀ e ∈ t.trace, oldest ≤ e.cycle ∧ oldest' ≤ e.cycle :=
      fun t ht => h t (List.mem_cons_of_mem _ ht)
    simp only [decodeThreads, decodeThread_young l (h t List.mem_cons_self),
      decodeThreads_young ts _ hrest]

theorem decodeThreads_append_calls (oldest : UInt64) (ts ts' : List ThreadTrace) :
    ∀ l, (c.decodeThreads w oldest l (ts ++ ts')).2 = (c.decodeThreads w oldest l ts).2 ++
      (c.decodeThreads w oldest (c.decodeThreads w oldest l ts).1 ts').2 := by
  induction ts with
  | nil => exact fun l => rfl
  | cons t ts ih => exact fun l => congrArg (_ :: ·) (ih _)

/-- **The first threads of a sample** are written without a panic if the sample is. -/
theorem writeSampleToJson_isSome_left (hargs : c.args = Cli.default) (hread : c.SourcesRead w)
    (hintact : c.Intact w) {ts ts' : List ThreadTrace} {text : String}
    (hsorted : ∀ t ∈ ts, t.trace.Pairwise (·.cycle ≤ ·.cycle))
    (h : (c.writeSampleToJson w (ts ++ ts') text).isSome) : (c.writeSampleToJson w ts "").isSome := by
  rw [writeSampleToJson_isSome hread] at h ⊢
  obtain ⟨raw, -, hcompleted, hwritable⟩ := h
  have hexecs := hintact.completed_iff.1 hcompleted
  have hyoung (o : UInt64) (ho : ∀ t ∈ ts, o ≤ (t.trace.head t.nonempty).cycle) :
      ∀ t ∈ ts, ∀ e ∈ t.trace, o ≤ e.cycle := fun t ht e he =>
    UInt64.le_trans (ho t ht) (head_le_of_sorted (f := FunTraceEntry.cycle) (hsorted t ht) t.nonempty he)
  have hboth : ∀ t ∈ ts, ∀ e ∈ t.trace,
      c.oldestEvent ts [] ≤ e.cycle ∧ c.oldestEvent (ts ++ ts') raw ≤ e.cycle := fun t ht e he =>
    ⟨hyoung _ (fun t ht => oldest_le_head hargs ht) t ht e he,
      hyoung _ (fun t ht => oldest_le_head hargs (List.mem_append_left _ ht)) t ht e he⟩
  refine ⟨[], rfl, hintact.completed_iff.2 fun t ht hsel e he _ =>
    hexecs t (List.mem_append_left _ ht) hsel e he (hboth t ht e he).2, fun p hp => hwritable p ?_⟩
  have hcalls : c.sampleCalls w (ts ++ ts') raw = c.sampleCalls w ts [] ++
      (c.decodeThreads w (c.oldestEvent (ts ++ ts') raw)
        (c.decodeThreads w (c.oldestEvent (ts ++ ts') raw) c.lookup ts).1 ts').2 := by
    rw [sampleCalls, sampleCalls, decodeThreads_append_calls, decodeThreads_young ts _ hboth]
  have hlen : ts.length = (c.sampleCalls w ts []).length := (length_decodeThreads w c _ ts _).symm
  rw [hcalls, List.zip_append hlen]
  exact List.mem_append_left _ hp

end TraceConverter

/-! ## What is cut off -/

/-- The snapshots that lie wholly in the first bytes of a file. -/
def wholeSnapshots (n : ℕ) (snaps : List FileSnapshot) : List FileSnapshot :=
  (wholeRecords FileSnapshot.bytes n snaps).1

/-- The snapshot that is cut off, and how many of its bytes there are. -/
def cutSnapshot (n : ℕ) (snaps : List FileSnapshot) : Option (FileSnapshot × ℕ) :=
  (snaps.drop (wholeSnapshots n snaps).length).head?.map fun cut =>
    (cut, (wholeRecords FileSnapshot.bytes n snaps).2)

namespace FileSnapshot
variable (cut : FileSnapshot) (m : ℕ)

/-- The chunks that lie wholly in the first bytes of a snapshot. -/
def chunksInside : List Chunk := (wholeRecords Chunk.bytes m cut.chunks).1

/-- How many bytes of the next chunk there are. -/
def bytesInto : ℕ := (wholeRecords Chunk.bytes m cut.chunks).2

/-- The threads whose two chunks lie wholly in the first bytes, and that have nonzero entries.
    Three chunks come before those of the threads. -/
def tracesInside : List ThreadTrace :=
  (cut.threadTraces.take (((cut.chunksInside m).length - 3) / 2)).filterMap EventBuffer.trace

end FileSnapshot

/-- What is saved of the first `n` bytes of a file: the samples that they have wholly are written
    as from the whole file, and the threads that they have of the next sample are written. -/
def Salvages (w : World) (n : ℕ) (snaps : List FileSnapshot) : Prop :=
  ∃ r r' r₀, Parses w Cli.default ((fileBytes snaps).take n) r ∧
    Parses w Cli.default (fileBytes snaps) r' ∧
    Parses w Cli.default (fileBytes (wholeSnapshots n snaps)) r₀ ∧
    r₀.2.written <+: r.2.written ∧ r₀.2.written <+: r'.2.written ∧
    ∀ cut m, cutSnapshot n snaps = some (cut, m) → ∀ t ∈ cut.tracesInside m,
      ∃ sample ∈ r.2.written.drop r₀.2.written.length, sample.json.isSome ∧ t ∈ sample.sampleEntries

/-- The first bytes of a file: whole snapshots, whole chunks of the next, and a part of a chunk. -/
theorem take_fileBytes {n : ℕ} {snaps : List FileSnapshot} {cut : FileSnapshot} {m : ℕ}
    (h : cutSnapshot n snaps = some (cut, m)) :
    ∃ more c cs, snaps = wholeSnapshots n snaps ++ cut :: more ∧
      cut.chunks = cut.chunksInside m ++ c :: cs ∧ cut.bytesInto m < c.bytes.length ∧
      (fileBytes snaps).take n = chunkBytes ((wholeSnapshots n snaps).flatMap FileSnapshot.chunks ++
        cut.chunksInside m) ++ c.bytes.take (cut.bytesInto m) := by
  obtain ⟨rest, hsnaps, htake, hrest⟩ := wholeRecords_spec FileSnapshot.bytes n snaps
  have hdrop : snaps.drop (wholeSnapshots n snaps).length = rest :=
    (congrArg (List.drop _) hsnaps).trans List.drop_left
  rw [cutSnapshot, hdrop] at h
  cases rest with
  | nil => cases h
  | cons cut' more =>
    obtain ⟨rfl, rfl⟩ : cut' = cut ∧ (wholeRecords FileSnapshot.bytes n snaps).2 = m := by
      simpa using h
    set m := (wholeRecords FileSnapshot.bytes n snaps).2 with hm
    have hlt : m < cut'.bytes.length := hrest cut' rfl
    obtain ⟨crest, hchunks, hctake, hcrest⟩ := wholeRecords_spec Chunk.bytes m cut'.chunks
    cases crest with
    | nil =>
      -- there are not enough bytes for all chunks
      have hall := congrArg List.length hctake
      have hcs : (wholeRecords Chunk.bytes m cut'.chunks).1 = cut'.chunks := by
        rw [List.append_nil] at hchunks
        exact hchunks.symm
      have hbytes : cut'.chunks.flatMap Chunk.bytes = cut'.bytes := cut'.bytes_eq.symm
      rw [hcs, hbytes, List.length_take, List.length_append] at hall
      omega
    | cons c cs =>
      have hc : cut'.bytesInto m < c.bytes.length := hcrest c rfl
      refine ⟨more, c, cs, hsnaps, hchunks, hc, ?_⟩
      have hleft : ((cut' :: more).flatMap FileSnapshot.bytes).take m = cut'.bytes.take m := by
        rw [List.flatMap_cons, List.take_append_of_le_length hlt.le]
      have hcleft : ((c :: cs).flatMap Chunk.bytes).take (cut'.bytesInto m) =
          c.bytes.take (cut'.bytesInto m) := by
        rw [List.flatMap_cons, List.take_append_of_le_length hc.le]
      rw [fileBytes, htake, hleft, cut'.bytes_eq, chunkBytes, hctake, chunkBytes_append,
        ← fileBytes_eq, List.append_assoc]
      exact congrArg (fun l => _ ++ (_ ++ l)) hcleft

/-! ## The chunks of a snapshot -/

/-- A part of the pairs: some pairs, and at most the first half of another one. -/
theorem prefix_flatMap_pair : ∀ (ts : List EventBuffer) {cs : List Chunk},
    cs <+: ts.flatMap EventBuffer.pair →
      cs = (ts.take (cs.length / 2)).flatMap EventBuffer.pair ∨
        ∃ t : EventBuffer, cs = (ts.take (cs.length / 2)).flatMap EventBuffer.pair ++ [t.idChunk]
  | [], cs, h => by
    rw [List.prefix_nil.1 h]
    exact Or.inl rfl
  | t :: ts, [], h => Or.inl rfl
  | t :: ts, [c], h => by
    refine Or.inr ⟨t, ?_⟩
    rw [(List.cons_prefix_cons.1 h).1]
    simp
  | t :: ts, c :: d :: cs, h => by
    obtain ⟨hc, h⟩ := List.cons_prefix_cons.1 h
    obtain ⟨hd, h⟩ := List.cons_prefix_cons.1 h
    have hlen : (c :: d :: cs).length / 2 = cs.length / 2 + 1 := by
      rw [List.length_cons, List.length_cons]
      omega
    rw [hlen, List.take_succ_cons, List.flatMap_cons, hc, hd]
    rcases prefix_flatMap_pair ts h with hcs | ⟨t', hcs⟩
    · refine Or.inl ?_
      rw [← hcs]
      rfl
    · refine Or.inr ⟨t', ?_⟩
      rw [List.append_assoc, ← hcs]
      rfl

/-- Reading a part of the pairs. -/
theorem readChunks_prefix_pairs {ts : List EventBuffer} {cs : List Chunk}
    (h : cs <+: ts.flatMap EventBuffer.pair) (pos : ℕ) (s : ParseState) :
    ∃ id, readChunks w pos s cs = .ok { s with
      threadId := id
      sampleEntries := s.sampleEntries ++ (ts.take (cs.length / 2)).filterMap EventBuffer.trace } := by
  rcases prefix_flatMap_pair ts h with hcs | ⟨t, hcs⟩
  · refine ⟨_, (congrArg (readChunks w pos s) hcs).trans (readChunks_pairs _ _ _)⟩
  · refine ⟨t.id, (congrArg (readChunks w pos s) hcs).trans ?_⟩
    rw [readChunks_append, readChunks_pairs, Except.bind, readChunks_singleton, readChunk_idChunk]

theorem length_pairs (cut : FileSnapshot) : cut.pairs.length = 2 * cut.threadTraces.length :=
  length_flatMap_record (k := 2) (fun _ => rfl) _

/-- **The threads that are inside** have been read, when the loop comes to the cut. -/
theorem readChunks_chunksInside {cs : List Chunk} {cut : FileSnapshot} {s s' : ParseState} {pos : ℕ}
    (hcs : cs <+: cut.header ++ (cut.pairs ++ cut.ftrace)) (hlong : 3 ≤ cs.length)
    (hfresh : s.ftraceText = "") (h : s.withSnapshot w cut = some s') :
    ∃ s₁, readChunks w pos s cs = .ok s₁ ∧ s₁.written = s.written ∧ s₁.converter = s'.converter ∧
      s₁.sampleEntries = s.sampleEntries ++
        (cut.threadTraces.take ((cs.length - 3) / 2)).filterMap EventBuffer.trace ∧
      (s₁.ftraceText = "" ∨
        s₁.ftraceText = s'.ftraceText ∧ s₁.sampleEntries = s'.sampleEntries) := by
  simp only [ParseState.withSnapshot, Option.bind_eq_bind, Option.pure_def, Option.bind_eq_some_iff,
    Option.some.injEq] at h
  obtain ⟨sh, hheader, text, htext, rfl⟩ := h
  have hsh : sh.written = s.written ∧ sh.ftraceText = "" ∧ sh.sampleEntries = s.sampleEntries := by
    simp only [ParseState.withHeader, Option.bind_eq_bind, Option.pure_def, Option.bind_eq_some_iff,
      Option.some.injEq] at hheader
    obtain ⟨_, -, _, -, rfl⟩ := hheader
    exact ⟨rfl, hfresh, rfl⟩
  obtain ⟨hwritten, hfresh', hentries⟩ := hsh
  -- the header is there
  obtain ⟨t, rfl⟩ : cut.header <+: cs :=
    List.prefix_of_prefix_length_le (List.prefix_append _ _) hcs hlong
  have ht : t <+: cut.pairs ++ cut.ftrace := (List.prefix_append_right_inj _).1 hcs
  have hlen : (cut.header ++ t).length - 3 = t.length := by
    rw [List.length_append]
    exact Nat.add_sub_cancel_left 3 _
  rw [readChunks_append, readChunks_header hheader, Except.bind, hlen]
  rcases (Nat.lt_or_ge cut.pairs.length t.length).symm with hshort | hall
  · have hpairs : t <+: cut.pairs :=
      List.prefix_of_prefix_length_le ht (List.prefix_append _ _) hshort
    obtain ⟨id, hread⟩ := @readChunks_prefix_pairs w _ _ hpairs
      (pos + (chunkBytes cut.header).length) sh
    exact ⟨_, hread, hwritten, rfl, congrArg (· ++ _) hentries, Or.inl hfresh'⟩
  · -- the text of ftrace is there, and all threads
    obtain ⟨u, rfl⟩ : cut.pairs <+: t :=
      List.prefix_of_prefix_length_le (List.prefix_append _ _) ht hall.le
    have hu : u <+: cut.ftrace := (List.prefix_append_right_inj _).1 ht
    have hne : u ≠ [] := by
      rintro rfl
      simp at hall
    obtain rfl : u = cut.ftrace := by
      refine hu.eq_of_length_le ?_
      have hone : cut.ftrace.length ≤ 1 := by
        unfold FileSnapshot.ftrace
        split_ifs <;> simp
      have hpos := List.length_pos_of_ne_nil hne
      omega
    have htake : cut.threadTraces.take ((cut.pairs ++ cut.ftrace).length / 2) = cut.threadTraces := by
      refine List.take_of_length_le ?_
      rw [List.length_append, length_pairs]
      omega
    have hfresh₁ : ({ sh with
        threadId := lastId cut.threadTraces sh.threadId
        sampleEntries := sh.sampleEntries ++ cut.threadTraces.filterMap EventBuffer.trace } :
          ParseState).ftraceText = "" := hfresh'
    refine ⟨{ sh with
      threadId := lastId cut.threadTraces sh.threadId
      sampleEntries := sh.sampleEntries ++ cut.threadTraces.filterMap EventBuffer.trace
      ftraceText := text }, ?_, hwritten, rfl, ?_, Or.inr ⟨rfl, rfl⟩⟩
    · rw [readChunks_append, FileSnapshot.pairs, readChunks_pairs, Except.bind,
        readChunks_ftrace hfresh₁ htext]
    · rw [htake, ← hentries]

/-! ## The cut -/

/-- A sample that is written is recorded with its file. -/
theorem written_writeSample {s : ParseState} (hdry : s.converter.args.dry = false)
    (h : (s.converter.writeSampleToJson w s.sampleEntries s.ftraceText).isSome) :
    ∃ s' sample, s.writeSample w = .ok s' ∧ s'.written = s.written ++ [sample] ∧
      sample.json.isSome ∧ sample.sampleEntries = s.sampleEntries := by
  obtain ⟨⟨c', json⟩, hwrite⟩ := Option.isSome_iff_exists.1 h
  refine ⟨_, _, by rw [ParseState.writeSample, hwrite], rfl, ?_, rfl⟩
  obtain ⟨raw, shifted, funcset, events, -, -, -, -, rfl⟩ :=
    TraceConverter.exists_of_writeSampleToJson hwrite
  simp [hdry]

/-- What has been read of the cut sample can be written, if the whole sample can. -/
theorem isSome_cut {s s₁ s₂ : ParseState} {ts : List ThreadTrace}
    (hargs : s₂.converter.args = Cli.default) (hread : s₂.converter.SourcesRead w)
    (hintact : s₂.converter.Intact w)
    (hend : s₂.endTrace w = .ok s) (hsplit : s₂.sampleEntries = s₁.sampleEntries ++ ts)
    (hsorted : ∀ t ∈ s₁.sampleEntries, t.trace.Pairwise (·.cycle ≤ ·.cycle))
    (hne : s₁.sampleEntries ≠ []) (hconverter : s₁.converter = s₂.converter)
    (htext : s₁.ftraceText = "" ∨
      s₁.ftraceText = s₂.ftraceText ∧ s₁.sampleEntries = s₂.sampleEntries) :
    (s₁.converter.writeSampleToJson w s₁.sampleEntries s₁.ftraceText).isSome := by
  have hpending : s₂.pending := by
    rw [ParseState.pending, hsplit]
    cases hs₁ : s₁.sampleEntries with
    | nil => exact absurd hs₁ hne
    | cons t ts => rfl
  have hselected : s₂.selected := by
    rw [ParseState.selected, hargs]
    rfl
  have hwhole : (s₂.converter.writeSampleToJson w s₂.sampleEntries s₂.ftraceText).isSome := by
    rw [ParseState.endTrace, if_pos hpending, if_pos hselected, ParseState.writeSample] at hend
    cases hwrite : s₂.converter.writeSampleToJson w s₂.sampleEntries s₂.ftraceText with
    | some r => rfl
    | none =>
      rw [hwrite] at hend
      cases hend
  rw [hconverter]
  rcases htext with htext | ⟨htext, hentries⟩
  · rw [htext]
    rw [hsplit] at hwhole
    exact TraceConverter.writeSampleToJson_isSome_left hargs hread hintact hsorted hwhole
  · rw [htext, hentries]
    exact hwhole

theorem take_fileBytes_whole {n : ℕ} {snaps : List FileSnapshot} (h : cutSnapshot n snaps = none) :
    wholeSnapshots n snaps = snaps ∧ (fileBytes snaps).take n = fileBytes snaps := by
  obtain ⟨rest, hsnaps, htake, -⟩ := wholeRecords_spec FileSnapshot.bytes n snaps
  have hdrop : snaps.drop (wholeSnapshots n snaps).length = rest :=
    (congrArg (List.drop _) hsnaps).trans List.drop_left
  rw [cutSnapshot, hdrop, Option.map_eq_none_iff, List.head?_eq_none_iff] at h
  rw [h, List.append_nil] at hsnaps
  refine ⟨hsnaps.symm, ?_⟩
  rw [fileBytes, htake, h, ← hsnaps]
  simp

/-- The chunks that are inside, without `ENDTRACE`. -/
theorem chunksInside_body {cut : FileSnapshot} {m : ℕ} {c : Chunk} {cs : List Chunk}
    (h : cut.chunks = cut.chunksInside m ++ c :: cs) :
    cut.chunksInside m <+: cut.header ++ (cut.pairs ++ cut.ftrace) := by
  have hbody : cut.chunks = (cut.header ++ (cut.pairs ++ cut.ftrace)) ++ [endtraceChunk] := by
    rw [FileSnapshot.chunks, ← List.append_assoc]
  have hlen := congrArg List.length (hbody.symm.trans h)
  refine List.prefix_of_prefix_length_le ⟨c :: cs, h.symm⟩ ⟨[endtraceChunk], hbody.symm⟩ ?_
  rw [List.length_append, List.length_singleton, @List.length_append _ (cut.chunksInside m),
    List.length_cons] at hlen
  omega

/-- Reading up to the cut. -/
structure ReadsCut (w : World) (n m : ℕ) (snaps : List FileSnapshot) (cut : FileSnapshot)
    (s₀ s₁ : ParseState) : Prop where
  whole : readChunks w 0 (ParseState.new Cli.default)
    ((wholeSnapshots n snaps).flatMap FileSnapshot.chunks) = .ok s₀
  inside : readChunks w 0 (ParseState.new Cli.default)
    ((wholeSnapshots n snaps).flatMap FileSnapshot.chunks ++ cut.chunksInside m) = .ok s₁
  full : ∃ s, readChunks w 0 (ParseState.new Cli.default) (snaps.flatMap FileSnapshot.chunks) = .ok s ∧
    s₀.Follows w s
  fresh : s₀.pending = false
  follows : s₀.Follows w s₁
  traces : cut.tracesInside m ≠ [] → s₁.written = s₀.written ∧ s₁.sampleEntries = cut.tracesInside m ∧
    s₁.converter.args = Cli.default ∧
    (s₁.converter.writeSampleToJson w s₁.sampleEntries s₁.ftraceText).isSome

theorem exists_readsCut {n m : ℕ} {snaps : List FileSnapshot} {cut : FileSnapshot}
    (hvalid : ∃ s, Parses w Cli.default (fileBytes snaps) (.done, s))
    (hcut : cutSnapshot n snaps = some (cut, m)) : ∃ s₀ s₁, ReadsCut w n m snaps cut s₀ s₁ := by
  obtain ⟨sf, hfull⟩ := hvalid
  obtain ⟨more, c, cs, hsnaps, hchunks, -, -⟩ := take_fileBytes hcut
  rw [fileBytes_eq] at hfull
  obtain ⟨s', hread⟩ := readChunks_of_done hfull
  have hall : snaps.flatMap FileSnapshot.chunks =
      (wholeSnapshots n snaps).flatMap FileSnapshot.chunks ++
        (cut.chunks ++ more.flatMap FileSnapshot.chunks) := by
    conv_lhs => rw [hsnaps]
    rw [List.flatMap_append, List.flatMap_cons]
  have hsplit := hread
  rw [hall] at hsplit
  obtain ⟨s₀, hwhole, hrest⟩ := readChunks_append_ok hsplit
  have hfresh : s₀.pending = false := pending_readChunks _ rfl hwhole
  obtain ⟨s₃, hsnap, -⟩ := readChunks_append_ok hrest
  obtain ⟨s₂, hbody, hend⟩ := withSnapshot_of_readChunks hfresh hsnap
  have hinside := hsnap
  rw [hchunks] at hinside
  obtain ⟨s₁, hinside, -⟩ := readChunks_append_ok hinside
  have hfollows₀ := follows_of_readChunks hwhole
  have hfollows₁ := follows_of_readChunks hinside
  refine ⟨s₀, s₁, hwhole, ?_, ⟨s', hread, follows_of_readChunks hrest⟩, hfresh, hfollows₁, fun hne => ?_⟩
  · rw [readChunks_append, hwhole, Except.bind, hinside]
  · -- there is a thread, so that the header has been read
    have hlong : 3 ≤ (cut.chunksInside m).length := by
      by_contra hshort
      refine hne ?_
      have hzero : ((cut.chunksInside m).length - 3) / 2 = 0 := by omega
      rw [FileSnapshot.tracesInside, hzero]
      rfl
    obtain ⟨s₁', hread₁, hwritten, hconverter, hentries, htext⟩ :=
      readChunks_chunksInside (chunksInside_body hchunks) hlong (fresh_of_pending hfresh).2 hbody
    obtain rfl : s₁' = s₁ := Except.ok.inj (hread₁.symm.trans hinside)
    rw [(fresh_of_pending hfresh).1, List.nil_append] at hentries
    have hargs : s₁'.converter.args = Cli.default := (hfollows₀.trans hfollows₁).args
    have hsourcesRead : s₁'.converter.SourcesRead w :=
      (hfollows₀.trans hfollows₁).sourcesRead fun _ h => by cases h
    have hintact : s₁'.converter.Intact w :=
      (hfollows₀.trans hfollows₁).intact (TraceConverter.intact_new Cli.default)
    refine ⟨hwritten, hentries, hargs, ?_⟩
    have hsplit : ∃ ts, s₂.sampleEntries = s₁'.sampleEntries ++ ts := by
      simp only [ParseState.withSnapshot, ParseState.withHeader, Option.bind_eq_bind, Option.pure_def,
        Option.bind_eq_some_iff, Option.some.injEq] at hbody
      obtain ⟨_, ⟨_, -, _, -, rfl⟩, _, -, rfl⟩ := hbody
      refine ⟨(cut.threadTraces.drop (((cut.chunksInside m).length - 3) / 2)).filterMap
        EventBuffer.trace, ?_⟩
      dsimp only
      rw [hentries, (fresh_of_pending hfresh).1, List.nil_append, FileSnapshot.sampleEntries,
        ← List.filterMap_append, List.take_append_drop]
    obtain ⟨ts, hsplit⟩ := hsplit
    refine isSome_cut (hconverter ▸ hargs) (hconverter ▸ hsourcesRead) (hconverter ▸ hintact) hend hsplit ?_ ?_
      hconverter htext
    · intro t ht
      rw [hentries, List.mem_filterMap] at ht
      obtain ⟨t', -, ht'⟩ := ht
      exact sorted_trace ht'
    · rw [hentries]
      exact hne

theorem salvages_iff' {n : ℕ} {snaps : List FileSnapshot}
    (hvalid : ∃ s, Parses w Cli.default (fileBytes snaps) (.done, s)) :
    Salvages w n snaps ↔ ∀ cut m, cutSnapshot n snaps = some (cut, m) →
      cut.bytesInto m < 8 ∨ cut.tracesInside m = [] := by
  cases hcut : cutSnapshot n snaps with
  | none =>
    obtain ⟨sf, hfull⟩ := hvalid
    obtain ⟨hwhole, htake⟩ := take_fileBytes_whole hcut
    refine iff_of_true ?_ nofun
    rw [Salvages, hwhole, htake, hcut]
    exact ⟨_, _, _, hfull, hfull, hfull, List.prefix_rfl, List.prefix_rfl, nofun⟩
  | some p =>
    obtain ⟨cut, m⟩ := p
    obtain ⟨s₀, s₁, hreads⟩ := exists_readsCut hvalid hcut
    obtain ⟨sf, hfull⟩ := hvalid
    obtain ⟨more, c, cs, hsnaps, hchunks, hinto, htake⟩ := take_fileBytes hcut
    -- the file that ends with the last whole snapshot
    have hwhole : Parses w Cli.default (fileBytes (wholeSnapshots n snaps)) (.done, s₀) :=
      parses_of_readChunks hreads.whole
    have hprefix : s₀.written <+: sf.written := by
      obtain ⟨s', hread, hfollows⟩ := hreads.full
      rw [fileBytes_eq] at hfull
      have hsf : (.done, sf) = parseFile w Cli.default (snaps.flatMap FileSnapshot.chunks) :=
        hfull.unique (parses_parseFile _)
      rw [parseFile, hread] at hsf
      have hwritten := (hfollows.trans (@follows_finish w (.done, s'))).written
      rw [loopEnd] at hsf
      rwa [← hsf] at hwritten
    obtain ⟨type, htype⟩ := FileSnapshot.type_of_mem (c := c)
      (hchunks ▸ List.mem_append_right _ List.mem_cons_self)
    -- the way in which the loop is left at the cut
    have hparses : Parses w Cli.default ((fileBytes snaps).take n)
        (finish w (if cut.bytesInto m < 8 then .done else .error, s₁)) := by
      rw [htake]
      have h := @parses_of_remainder w Cli.default ((wholeSnapshots n snaps).flatMap FileSnapshot.chunks ++
        cut.chunksInside m) (c.bytes.take (cut.bytesInto m))
        (if cut.bytesInto m < 8 then .done else .error) fun s => by
          split_ifs with hmagic
          · refine chunkStep_end _ ?_ s
            rw [List.length_append, List.length_take, Nat.min_eq_left hinto.le]
            omega
          · exact chunkStep_cut htype (Nat.not_lt.1 hmagic) hinto s
      rw [hreads.inside] at h
      exact h
    constructor
    · rintro ⟨r, r', r₀, hr, -, hr₀, -, -, htraces⟩ cut' m' ⟨⟩
      by_contra hneither
      obtain ⟨hmagic, hne⟩ := not_or.1 hneither
      obtain ⟨t, ht⟩ := List.exists_mem_of_ne_nil _ hne
      obtain ⟨sample, hsample, -⟩ := htraces cut m hcut t ht
      have hlost : (finish w (.error, s₁)).2.written = s₀.written := (hreads.traces hne).1
      rw [hr.unique hparses, hr₀.unique hwhole, if_neg hmagic, hlost, List.drop_length] at hsample
      cases hsample
    · intro hcond
      have hfollows := hreads.follows.trans
        (@follows_finish w (if cut.bytesInto m < 8 then .done else .error, s₁))
      refine ⟨_, _, _, hparses, hfull, hwhole, hfollows.written, hprefix, ?_⟩
      intro cut' m' hcut' t ht
      cases hcut.symm.trans hcut'
      have hne : cut.tracesInside m ≠ [] := List.ne_nil_of_mem ht
      obtain ⟨hwritten, hentries, hargs, hsome⟩ := hreads.traces hne
      have hdry : s₁.converter.args.dry = false := by rw [hargs]; rfl
      have hpending : s₁.pending := by
        rw [ParseState.pending, hentries]
        cases htraces : cut.tracesInside m with
        | nil => exact absurd htraces hne
        | cons t ts => rfl
      obtain ⟨s', sample, hwrite, happend, hjson, hthreads⟩ := written_writeSample hdry hsome
      have hsaved : (finish w (.done, s₁)).2.written = s₀.written ++ [sample] := by
        rw [finish_done, ParseState.unclosed, if_pos hpending, hwrite, ← hwritten]
        exact happend
      rw [if_pos ((hcond cut m rfl).resolve_right hne), hsaved, List.drop_left]
      refine ⟨sample, List.mem_singleton_self _, hjson, ?_⟩
      rw [hthreads, hentries]
      exact ht

/-- **A file that was cut off** is saved if and only if nothing has been read of the cut sample, or
    the cut is at the end of a chunk or in the magic of one. -/
theorem salvages_iff (w : World) (n : ℕ) (snaps : List FileSnapshot)
    (hvalid : ∃ s, Parses w Cli.default (fileBytes snaps) (.done, s)) :
    Salvages w n snaps ↔ ∀ cut m, cutSnapshot n snaps = some (cut, m) →
      cut.bytesInto m < 8 ∨ cut.tracesInside m = [] :=
  salvages_iff' hvalid

/-- Two snapshots of one thread. -/
def demoSnapshots : List FileSnapshot := [demoSnapshot demoName, demoSnapshot demoName]

theorem cutSnapshot_demoSnapshots {m : ℕ} (h : m < 156) :
    cutSnapshot (156 + m) demoSnapshots = some (demoSnapshot demoName, m) := by
  have hlen : (demoSnapshot demoName).bytes.length = 156 := by decide +kernel
  have hcut : ¬ 156 ≤ m := Nat.not_le.2 h
  simp [cutSnapshot, wholeSnapshots, demoSnapshots, wholeRecords, hlen, hcut]

theorem parses_demoSnapshots :
    ∃ s, Parses demoWorld Cli.default (fileBytes demoSnapshots) (.done, s) := by
  have hread := (@readChunks_snapshots_iff demoWorld demoSnapshots
    (by simp [demoSnapshots, demoSnapshot]) fun _ _ => rfl).2
      ⟨by simpa [demoSnapshots] using ⟨textsOk_demoSnapshot (by decide), execsOk_demoSnapshot _⟩,
        fun _ _ s _ _ => sourcesOk_demoWorld s _⟩
  obtain ⟨s, hs⟩ := hread
  exact ⟨s, parses_of_readChunks hs⟩

/-- The end of the file is cut off in the magic of the last chunk. -/
theorem salvages_demo : Salvages demoWorld 300 demoSnapshots :=
  (salvages_iff demoWorld 300 demoSnapshots parses_demoSnapshots).2 fun cut m h => by
    have hcut := @cutSnapshot_demoSnapshots 144 (by decide)
    cases hcut.symm.trans h
    exact Or.inl (by decide)

/-- The end of the file is cut off in the length of the last chunk. -/
theorem not_salvages : ¬ ∀ (w : World) (n : ℕ) (snaps : List FileSnapshot),
    (∃ s, Parses w Cli.default (fileBytes snaps) (.done, s)) → Salvages w n snaps := by
  intro h
  have hcut := @cutSnapshot_demoSnapshots 152 (by decide)
  rcases (salvages_iff' parses_demoSnapshots).1 (h demoWorld 308 demoSnapshots parses_demoSnapshots)
    _ _ hcut with hinto | hnone
  · exact absurd hinto (by decide)
  · exact absurd hnone (by decide)

end Funtrace
