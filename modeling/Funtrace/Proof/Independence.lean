/-
  Samples of one file.

  A file may have many samples for one `PROCMAPS`.  The decoder keeps its caches from sample
  to sample, until the next `PROCMAPS` or for the whole file; what they hold is what would be
  found without them (`ready_readChunks`).  But a thunk is only ignored in the sample in which
  it is looked up.  So a sample is decoded as in a file of its own if none of its entries lies
  in a thunk that is in the cache already, and no other condition will do for all samples
  (`independent_iff`).
-/
import Funtrace.Proof.Alike
import Funtrace.Proof.Caches
import Funtrace.Proof.SnapshotFile

namespace Funtrace
open ProcAddr2Sym

variable {w : World} {args : Cli}

/-! ## Samples and what comes before them -/

/-- The chunks of a sample but for its `ENDTRACE`. -/
structure SampleChunks where
  chunks : List Chunk
  known : ∀ c ∈ chunks, ∃ type, c.type = some type ∧ type ≠ .procmaps ∧ type ≠ .endtrace
  funtrace : ∃ c ∈ chunks, c.type = some .funtrace
  cmdLine : ∃ c ∈ chunks, c.type = some .cmdLine
  /-- a `THREADID` precedes every `TRACEBUF` -/
  threadid : ∀ before c after, chunks = before ++ c :: after → c.type = some .tracebuf →
    ∃ c' ∈ before, c'.type = some .threadid

namespace SampleChunks

/-- With the `ENDTRACE`. -/
def closed (own : SampleChunks) : List Chunk := own.chunks ++ [endtraceChunk]

end SampleChunks

/-- A file up to the beginning of a sample. -/
structure FileBefore (w : World) (args : Cli) where
  before : List Chunk
  /-- the last `PROCMAPS`, of maps that start at different addresses -/
  procmaps : List UInt8
  length_procmaps : procmaps.length < 2 ^ 63
  starts : ∀ maps, w.memoryMaps procmaps = some maps → OwnStarts maps
  /-- what lies between it and the sample -/
  between : List Chunk
  noMaps : ∀ c ∈ between, c.type ≠ some .procmaps
  /-- the state of the decoder, and that it has read the samples so far to their ends -/
  state : ParseState
  read : readChunks w 0 (ParseState.new args)
    (before ++ ChunkType.procmaps.chunk procmaps length_procmaps :: between) = .ok state
  closed : state.pending = false
  /-- by its number here and in a file of its own, `--samples` has the sample -/
  selected : state.selected ∧ (ParseState.new args).selected

namespace FileBefore
variable (f : FileBefore w args)

/-- The last `PROCMAPS`. -/
def mapsChunk : Chunk := ChunkType.procmaps.chunk f.procmaps f.length_procmaps

/-- The file up to the sample. -/
def chunks : List Chunk := f.before ++ f.mapsChunk :: f.between

/-- The JSON files that `parse_chunks` has written at the end of a file but for the first `n` ones;
    texts of source files are left out, and `none` is a panic. -/
def jsons (r : Exit × ParseState) (n : ℕ) : List (Option SampleJson) :=
  (r.2.written.drop n).map fun sample => sample.json.map TraceConverter.withoutFiles

/-- A sample is decoded as in a file that has only the last maps and the sample. -/
def SameJson (own : SampleChunks) : Prop :=
  ∀ r r', Parses w args (chunkBytes (f.chunks ++ own.closed)) r →
    Parses w args (chunkBytes (f.mapsChunk :: own.closed)) r' →
      jsons r f.state.written.length = jsons r' 0

/-- No entry of the sample that is decoded lies in a thunk whose symbol is cached from an earlier
    sample. -/
def Unstale (own : SampleChunks) : Prop :=
  ∀ s, readChunks w (chunkBytes f.chunks).length f.state own.chunks = .ok s →
    ∀ raw, s.converter.rawFtrace s.ftraceText = some raw →
      ∀ t ∈ s.sampleEntries, s.converter.selects t → ∀ e ∈ t.trace,
        s.converter.oldestEvent s.sampleEntries raw ≤ e.cycle →
          isThunk (nameOf (s.converter.symbols w) e) → f.state.converter.symCache e.addr = none

end FileBefore

/-! ## The caches -/

/-- What every chunk preserves, a list of them does. -/
theorem readChunks_invariant {I : ParseState → Prop} : ∀ (cs : List Chunk) {pos : ℕ}
    {s s' : ParseState}, (∀ c ∈ cs, ∀ type, c.type = some type → ∀ s s', I s →
      s.handleChunk w c.data type = .ok s' → I s') → I s → readChunks w pos s cs = .ok s' → I s'
  | [], _, _, _, _, h, hread => by
    cases hread
    exact h
  | c :: cs, pos, s, s', hstep, h, hread => by
    rw [readChunks] at hread
    cases hchunk : readChunk w pos s c with
    | error r =>
      rw [hchunk] at hread
      cases hread
    | ok s₁ =>
      rw [hchunk] at hread
      refine readChunks_invariant cs (fun c hc => hstep c (List.mem_cons_of_mem _ hc)) ?_ hread
      unfold readChunk at hchunk
      split at hchunk
      · split_ifs at hchunk
        cases hchunk
        exact h
      · next type htype =>
        cases hhandle : s.handleChunk w c.data type with
        | error s₂ =>
          rw [hhandle] at hchunk
          cases hchunk
        | ok s₂ =>
          rw [hhandle] at hchunk
          cases hchunk
          exact hstep c List.mem_cons_self type htype s _ h hhandle

/-- Chunks leave the lookups as they are or as a sample leaves them, but for `PROCMAPS`. -/
theorem lookup_handleChunk {s s' : ParseState} {content : List UInt8} {type : ChunkType}
    (htype : type ≠ .procmaps) (h : s.handleChunk w content type = .ok s') :
    s'.converter.lookup = s.converter.lookup ∨ ∃ sampleEntries raw, s'.converter.lookup =
      { s.converter.sampleLookup w sampleEntries raw with ignoreAddrs := [] } := by
  cases type with
  | procmaps => exact absurd rfl htype
  | funtrace =>
    cases h
    exact Or.inl rfl
  | threadid =>
    cases h
    exact Or.inl rfl
  | cmdLine =>
    rw [ParseState.handleChunk] at h
    split at h <;> cases h
    exact Or.inl rfl
  | ftracetx =>
    rw [ParseState.handleChunk] at h
    split at h <;> cases h
    exact Or.inl rfl
  | tracebuf =>
    rw [ParseState.handleChunk] at h
    split_ifs at h <;> cases h
    · exact Or.inl rfl
    · exact Or.inl rfl
  | endtrace =>
    rw [ParseState.handleChunk, ParseState.endTrace] at h
    split_ifs at h
    · cases hwrite : s.writeSample w with
      | error s₁ =>
        rw [hwrite] at h
        cases h
      | ok s₁ =>
        rw [hwrite] at h
        cases h
        unfold ParseState.writeSample at hwrite
        dsimp only at hwrite
        split at hwrite <;> cases hwrite
        next hsample =>
        obtain ⟨-, -, -, -, raw, -, -, hlookup⟩ := TraceConverter.writeSampleToJson_spec hsample
        exact Or.inr ⟨_, raw, hlookup⟩
    · cases h
      exact Or.inl rfl
    · cases h
      exact Or.inl rfl

/-- **The caches are right** as long as the maps stay. -/
theorem ready_handleChunk {s s' : ParseState} {content : List UInt8} {type : ChunkType}
    (htype : type ≠ .procmaps) (hready : s.converter.Ready w)
    (h : s.handleChunk w content type = .ok s') :
    s'.converter.Ready w ∧ s'.converter.procaddr2sym.maps = s.converter.procaddr2sym.maps := by
  have hlookup : ∃ l : Lookup, l.Faithful w s.converter.procaddr2sym.maps s.converter.symCache ∧
      s'.converter.lookup = { l with ignoreAddrs := [] } := by
    rcases lookup_handleChunk htype h with hlookup | ⟨sampleEntries, raw, hlookup⟩
    · exact ⟨_, hready.faithful, hlookup⟩
    · exact ⟨_, hready.faithful_sampleLookup, hlookup⟩
  obtain ⟨l, hfaithful, hlookup⟩ := hlookup
  have hprocs : s'.converter.procaddr2sym = l.procaddr2sym := congrArg Lookup.procaddr2sym hlookup
  have hcache : s'.converter.symCache = l.symCache := congrArg Lookup.symCache hlookup
  have hmaps : s'.converter.procaddr2sym.maps = s.converter.procaddr2sym.maps := by
    rw [hprocs, hfaithful.maps_eq]
  refine ⟨⟨hprocs ▸ hfaithful.current, ?_, ?_⟩, hmaps⟩
  · rw [hmaps]
    exact hready.starts
  · intro a sym ha
    rw [hmaps]
    exact hfaithful.cached a sym (hcache ▸ ha)

/-! ## Reading a sample in two files -/

/-- Some of the chunks are of a type. -/
def Seen (cs : List Chunk) (type : ChunkType) : Prop := ∃ c ∈ cs, c.type = some type

theorem seen_append {cs : List Chunk} {c : Chunk} {type : ChunkType} :
    Seen (cs ++ [c]) type ↔ Seen cs type ∨ c.type = some type := by
  constructor
  · rintro ⟨c', hc', htype⟩
    rcases List.mem_append.1 hc' with hc' | hc'
    · exact Or.inl ⟨c', hc', htype⟩
    · rw [List.mem_singleton.1 hc'] at htype
      exact Or.inr htype
  · rintro (⟨c', hc', htype⟩ | htype)
    · exact ⟨c', List.mem_append_left _ hc', htype⟩
    · exact ⟨c, List.mem_append_right _ (List.mem_singleton_self c), htype⟩

namespace ParseState

/-- What the chunks of a sample leave as it is. -/
structure Keeps (s s' : ParseState) : Prop where
  converter : s'.converter =
    { s.converter with cpuFreq := s'.converter.cpuFreq, cmdLine := s'.converter.cmdLine }
  numJson : s'.numJson = s.numJson
  written : s'.written = s.written

theorem Keeps.refl (s : ParseState) : s.Keeps s := ⟨rfl, rfl, rfl⟩

theorem Keeps.trans {s s' s'' : ParseState} (h : s.Keeps s') (h' : s'.Keeps s'') : s.Keeps s'' := by
  refine ⟨?_, h'.numJson.trans h.numJson, h'.written.trans h.written⟩
  rw [h'.converter, h.converter]

/-- Two states in which the same chunks of a sample have been read. -/
structure Agree (cs : List Chunk) (s t : ParseState) : Prop where
  sampleEntries : s.sampleEntries = t.sampleEntries
  ftraceText : s.ftraceText = t.ftraceText
  threadId : Seen cs .threadid → s.threadId = t.threadId
  cpuFreq : Seen cs .funtrace → s.converter.cpuFreq = t.converter.cpuFreq
  cmdLine : Seen cs .cmdLine → s.converter.cmdLine = t.converter.cmdLine

end ParseState

open ParseState

/-- What a chunk of a sample does in two files. -/
theorem agree_readChunk {cs : List Chunk} {c : Chunk} {s t : ParseState} (pos pos' : ℕ)
    (hknown : ∃ type, c.type = some type ∧ type ≠ .procmaps ∧ type ≠ .endtrace)
    (hthread : c.type = some .tracebuf → Seen cs .threadid) (h : Agree cs s t) :
    (∃ s' t', readChunk w pos s c = .ok s' ∧ readChunk w pos' t c = .ok t' ∧ s.Keeps s' ∧
      t.Keeps t' ∧ Agree (cs ++ [c]) s' t') ∨
    ∃ s' t', readChunk w pos s c = .error (.panic, s') ∧
      readChunk w pos' t c = .error (.panic, t') ∧ s.Keeps s' ∧ t.Keeps t' := by
  obtain ⟨type, htype, hmaps, hend⟩ := hknown
  have hsame {ty : ChunkType} (hne : type ≠ ty) (hseen : Seen (cs ++ [c]) ty) : Seen cs ty := by
    refine (seen_append.1 hseen).resolve_right fun hc => hne ?_
    rw [htype, Option.some.injEq] at hc
    exact hc
  simp only [readChunk, htype]
  cases type with
  | procmaps => exact absurd rfl hmaps
  | endtrace => exact absurd rfl hend
  | funtrace =>
    refine Or.inl ⟨_, _, rfl, rfl, ⟨rfl, rfl, rfl⟩, ⟨rfl, rfl, rfl⟩, ?_⟩
    exact ⟨h.sampleEntries, h.ftraceText, fun hseen => h.threadId (hsame (by decide) hseen),
      fun _ => rfl, fun hseen => h.cmdLine (hsame (by decide) hseen)⟩
  | cmdLine =>
    cases hdecode : decodeUtf8 c.data with
    | none =>
      simp only [handleChunk, hdecode]
      exact Or.inr ⟨_, _, rfl, rfl, Keeps.refl s, Keeps.refl t⟩
    | some cmdLine =>
      simp only [handleChunk, hdecode]
      refine Or.inl ⟨_, _, rfl, rfl, ⟨rfl, rfl, rfl⟩, ⟨rfl, rfl, rfl⟩, ?_⟩
      exact ⟨h.sampleEntries, h.ftraceText, fun hseen => h.threadId (hsame (by decide) hseen),
        fun hseen => h.cpuFreq (hsame (by decide) hseen), fun _ => rfl⟩
  | threadid =>
    refine Or.inl ⟨_, _, rfl, rfl, ⟨rfl, rfl, rfl⟩, ⟨rfl, rfl, rfl⟩, ?_⟩
    exact ⟨h.sampleEntries, h.ftraceText, fun _ => rfl,
      fun hseen => h.cpuFreq (hsame (by decide) hseen),
      fun hseen => h.cmdLine (hsame (by decide) hseen)⟩
  | tracebuf =>
    have hid := h.threadId (hthread htype)
    have hrest {s' t' : ParseState} (hentries : s'.sampleEntries = t'.sampleEntries)
        (hs : s' = { s with sampleEntries := s'.sampleEntries })
        (ht : t' = { t with sampleEntries := t'.sampleEntries }) : Agree (cs ++ [c]) s' t' := by
      rw [hs, ht, hentries]
      exact ⟨rfl, h.ftraceText, fun _ => hid, fun hseen => h.cpuFreq (hsame (by decide) hseen),
        fun hseen => h.cmdLine (hsame (by decide) hseen)⟩
    by_cases hkept : keptEntries c.data ≠ []
    · simp only [handleChunk, dif_pos hkept]
      refine Or.inl ⟨_, _, rfl, rfl, ⟨rfl, rfl, rfl⟩, ⟨rfl, rfl, rfl⟩, hrest ?_ rfl rfl⟩
      rw [h.sampleEntries, hid]
    · simp only [handleChunk, dif_neg hkept]
      exact Or.inl ⟨_, _, rfl, rfl, Keeps.refl s, Keeps.refl t, hrest h.sampleEntries rfl rfl⟩
  | ftracetx =>
    cases hdecode : decodeUtf8 c.data with
    | none =>
      simp only [handleChunk, hdecode]
      exact Or.inr ⟨_, _, rfl, rfl, Keeps.refl s, Keeps.refl t⟩
    | some ftraceText =>
      simp only [handleChunk, hdecode]
      refine Or.inl ⟨_, _, rfl, rfl, ⟨rfl, rfl, rfl⟩, ⟨rfl, rfl, rfl⟩, ?_⟩
      exact ⟨h.sampleEntries, rfl, fun hseen => h.threadId (hsame (by decide) hseen),
        fun hseen => h.cpuFreq (hsame (by decide) hseen),
        fun hseen => h.cmdLine (hsame (by decide) hseen)⟩

/-- **The chunks of a sample** in two files: what is read of them is the same. -/
theorem agree_readChunks (own : SampleChunks) : ∀ (post pre : List Chunk) {s t : ParseState}
    (pos pos' : ℕ), own.chunks = pre ++ post → Agree pre s t →
    (∃ s' t', readChunks w pos s post = .ok s' ∧ readChunks w pos' t post = .ok t' ∧ s.Keeps s' ∧
      t.Keeps t' ∧ Agree own.chunks s' t') ∨
    ∃ s' t', readChunks w pos s post = .error (.panic, s') ∧
      readChunks w pos' t post = .error (.panic, t') ∧ s.Keeps s' ∧ t.Keeps t'
  | [], pre, s, t, pos, pos', hown, h => by
    rw [List.append_nil] at hown
    rw [hown]
    exact Or.inl ⟨s, t, rfl, rfl, Keeps.refl s, Keeps.refl t, h⟩
  | c :: post, pre, s, t, pos, pos', hown, h => by
    have hmem : c ∈ own.chunks := by
      rw [hown]
      exact List.mem_append_right _ List.mem_cons_self
    have hone := agree_readChunk (w := w) pos pos' (own.known c hmem) (own.threadid pre c post hown) h
    rcases hone with ⟨s₁, t₁, hs, ht, hkeeps, hkeeps', h₁⟩ | ⟨s₁, t₁, hs, ht, hkeeps, hkeeps'⟩
    · have hown' : own.chunks = (pre ++ [c]) ++ post := by
        rw [hown, List.append_assoc]
        rfl
      have hrest := agree_readChunks own post (pre ++ [c]) (pos + c.bytes.length)
        (pos' + c.bytes.length) hown' h₁
      simp only [readChunks, hs, ht]
      rcases hrest with ⟨s', t', hs', ht', hk, hk', hagree⟩ | ⟨s', t', hs', ht', hk, hk'⟩
      · exact Or.inl ⟨s', t', hs', ht', hkeeps.trans hk, hkeeps'.trans hk', hagree⟩
      · exact Or.inr ⟨s', t', hs', ht', hkeeps.trans hk, hkeeps'.trans hk'⟩
    · simp only [readChunks, hs, ht]
      exact Or.inr ⟨s₁, t₁, rfl, rfl, hkeeps, hkeeps'⟩

/-! ## The end of a sample -/

/-- The JSON of a sample that has been read, but for its source files. -/
def ParseState.json (w : World) (s : ParseState) : Option SampleJson :=
  ((s.converter.writeSampleToJson w s.sampleEntries s.ftraceText).bind Prod.snd).map
    TraceConverter.withoutFiles

theorem jsons_writeSample (s : ParseState) :
    ((after (s.writeSample w)).written.drop s.written.length).map
      (fun sample => sample.json.map TraceConverter.withoutFiles) = [s.json w] := by
  unfold ParseState.writeSample ParseState.json
  dsimp only
  split
  · next hwrite =>
    rw [hwrite, after, List.drop_left]
    rfl
  · next hwrite =>
    rw [hwrite, after, List.drop_left]
    rfl

theorem exit_ne : Exit.panic ≠ Exit.done := by decide

section
variable {cs : List Chunk} {own : SampleChunks} {s₀ s : ParseState}

/-- What is written for a sample that is read to its end. -/
theorem jsons_of_ok (hread : readChunks w 0 (ParseState.new args) cs = .ok s₀)
    (hown : readChunks w (chunkBytes cs).length s₀ own.chunks = .ok s)
    (hwritten : s.written = s₀.written) :
    FileBefore.jsons (parseFile w args (cs ++ own.closed)) s₀.written.length =
      if s.pending && s.selected then [s.json w] else [] := by
  have hall : readChunks w 0 (ParseState.new args) (cs ++ own.closed) =
      (s.endTrace w).mapError (Exit.panic, ·) := by
    rw [SampleChunks.closed, readChunks_append, hread, Except.bind, Nat.zero_add, readChunks_append,
      hown, Except.bind, readChunks_singleton, readChunk_endtraceChunk]
  have hfinish : (parseFile w args (cs ++ own.closed)).2 = after (s.endTrace w) := by
    rw [parseFile, hall]
    cases hend : s.endTrace w with
    | ok s' =>
      have hpending := pending_of_endTrace hend
      exact congrArg Prod.snd (finish_of_not_pending hpending)
    | error s' => exact congrArg Prod.snd (finish_of_ne (r := (Exit.panic, s')) exit_ne)
  rw [FileBefore.jsons, hfinish, ← hwritten]
  cases hpending : s.pending with
  | false =>
    rw [ParseState.endTrace, hpending]
    simp [after]
  | true =>
    cases hselected : s.selected with
    | false =>
      rw [ParseState.endTrace, hpending, hselected]
      simp [after, Except.map, nextSample]
    | true =>
      rw [← jsons_writeSample, ParseState.endTrace, hpending, hselected]
      cases hwrite : s.writeSample w <;> rfl

/-- Nothing is written for a sample that is not. -/
theorem jsons_of_error (hread : readChunks w 0 (ParseState.new args) cs = .ok s₀)
    (hown : readChunks w (chunkBytes cs).length s₀ own.chunks = .error (.panic, s))
    (hwritten : s.written = s₀.written) :
    FileBefore.jsons (parseFile w args (cs ++ own.closed)) s₀.written.length = [] := by
  have hall : readChunks w 0 (ParseState.new args) (cs ++ own.closed) = .error (.panic, s) := by
    rw [SampleChunks.closed, readChunks_append, hread, Except.bind, Nat.zero_add, readChunks_append,
      hown, Except.bind]
  rw [parseFile, hall, FileBefore.jsons, loopEnd, finish_of_ne exit_ne, hwritten, List.drop_length]
  rfl

end

namespace FileBefore
variable (f : FileBefore w args)

/-- The state after the maps in a file of its own. -/
def alone (maps : List MemoryMap) (args : Cli) : ParseState :=
  { ParseState.new args with
    converter :=
      { TraceConverter.new args with
        procaddr2sym := { ProcAddr2Sym.new with maps := sortMaps maps } } }

theorem readChunks_maps {procmaps : List UInt8} {maps : List MemoryMap}
    (hmaps : w.memoryMaps procmaps = some maps) (hlen : procmaps.length < 2 ^ 63) :
    readChunks w 0 (ParseState.new args) [ChunkType.procmaps.chunk procmaps hlen] =
      .ok (alone maps args) := by
  have hset : (ParseState.new args).converter.procaddr2sym.setProcMaps w procmaps =
      some { ProcAddr2Sym.new with maps := sortMaps maps } := setProcMaps_eq _ hmaps
  rw [readChunks_singleton, readChunk_chunk _ rfl, ParseState.handleChunk, hset]
  rfl

theorem readChunks_mapsChunk {maps : List MemoryMap} (hmaps : w.memoryMaps f.procmaps = some maps) :
    readChunks w 0 (ParseState.new args) [f.mapsChunk] = .ok (alone maps args) :=
  readChunks_maps hmaps f.length_procmaps

theorem ready_alone {maps : List MemoryMap} (h : OwnStarts maps) : (alone maps args).converter.Ready w where
  current :=
    { sorted := List.pairwise_insertionSort _ maps
      opened := fun _ _ h => by cases h
      missing := fun _ h => by cases h
      offsets := fun _ _ h => by cases h }
  starts := ownStarts_sortMaps h
  cached := by
    intro a sym ha
    cases ha

/-- **Before the sample** the caches are right, for the maps that the file has last. -/
theorem exists_maps : ∃ maps, w.memoryMaps f.procmaps = some maps ∧ f.state.converter.Ready w ∧
    f.state.converter.procaddr2sym.maps = sortMaps maps := by
  obtain ⟨s, hbefore, hrest⟩ := readChunks_append_ok f.read
  have hcur : s.converter.procaddr2sym.Current w :=
    ((follows_of_readChunks hbefore).intact (TraceConverter.intact_new args)).current
  rw [readChunks, readChunk_chunk _ rfl, ParseState.handleChunk] at hrest
  cases hmaps : w.memoryMaps f.procmaps with
  | none =>
    have hset : s.converter.procaddr2sym.setProcMaps w f.procmaps = none := by
      rw [ProcAddr2Sym.setProcMaps, hmaps]
      rfl
    rw [hset] at hrest
    cases hrest
  | some maps =>
    have hset := setProcMaps_eq s.converter.procaddr2sym hmaps
    have hcur' := hcur.setProcMaps hset
    rw [hset] at hrest
    refine ⟨maps, rfl, ?_⟩
    refine readChunks_invariant (I := fun s => s.converter.Ready w ∧
      s.converter.procaddr2sym.maps = sortMaps maps) f.between ?_ ?_ hrest
    · rintro c hc type htype s s' ⟨hready, hsame⟩ hs
      have hne : type ≠ .procmaps := by
        rintro rfl
        exact f.noMaps c hc htype
      obtain ⟨hready', hmaps'⟩ := ready_handleChunk hne hready hs
      exact ⟨hready', hmaps'.trans hsame⟩
    · refine ⟨⟨hcur', ownStarts_sortMaps (f.starts maps hmaps), ?_⟩, rfl⟩
      intro a sym ha
      cases ha

end FileBefore

/-! ## One sample in two files -/

/-- The calls of a sample without stale thunks do not depend on the cache. -/
theorem sampleCalls_congr {c d : TraceConverter} (hc : c.Ready w) (hd : d.Ready w)
    (hargs : c.args = d.args) (hmaps : c.procaddr2sym.maps = d.procaddr2sym.maps)
    (hfresh : ∀ a, d.symCache a = none) {sampleEntries : List ThreadTrace} {raw : List FtraceEvent}
    (hunstale : ∀ t ∈ sampleEntries, c.selects t → ∀ e ∈ t.trace,
      c.oldestEvent sampleEntries raw ≤ e.cycle → isThunk (nameOf (c.symbols w) e) →
        c.symCache e.addr = none) :
    c.sampleCalls w sampleEntries raw = d.sampleCalls w sampleEntries raw := by
  have hsymbols : c.symbols w = d.symbols w := by
    funext a
    rw [TraceConverter.symbols, TraceConverter.symbols, hmaps]
  have holdest := @TraceConverter.oldestEvent_congr c d sampleEntries hargs raw
  have hselects : c.selects = d.selects := by
    funext t
    rw [TraceConverter.selects, TraceConverter.selects, hargs]
  rw [hc.sampleCalls_eq, hd.sampleCalls_eq, ← hsymbols, ← holdest, ← hselects]
  refine List.map_congr_left fun t ht => ?_
  by_cases hsel : c.selects t
  · rw [if_pos hsel, if_pos hsel]
    congr 1
    refine List.filter_congr fun e he => ?_
    rw [TraceConverter.heeds, TraceConverter.heeds, ← hsymbols, hfresh]
    by_cases hold : c.oldestEvent sampleEntries raw ≤ e.cycle
    · by_cases hthunk : isThunk (nameOf (c.symbols w) e)
      · rw [hunstale t ht hsel e he hold hthunk]
      · simp [hthunk]
    · simp [hold]
  · rw [if_neg hsel, if_neg hsel]

/-- Whether the lookups of a sample panic does not depend on the cache. -/
theorem TraceConverter.Intact.panicked_congr {c d : TraceConverter} (hc : c.Intact w) (hd : d.Intact w)
    (hargs : c.args = d.args) (hmaps : c.procaddr2sym.maps = d.procaddr2sym.maps)
    {sampleEntries : List ThreadTrace} {raw : List FtraceEvent} :
    (c.sampleLookup w sampleEntries raw).procaddr2sym.panicked =
      (d.sampleLookup w sampleEntries raw).procaddr2sym.panicked := by
  have hselects : c.selects = d.selects := by
    funext t
    rw [TraceConverter.selects, TraceConverter.selects, hargs]
  have hexecs : c.ExecsRead w sampleEntries raw ↔ d.ExecsRead w sampleEntries raw := by
    rw [TraceConverter.ExecsRead, TraceConverter.ExecsRead, hselects, hmaps,
      TraceConverter.oldestEvent_congr hargs]
  rw [← Bool.not_inj_iff, Bool.eq_iff_iff, Bool.not_eq_true', Bool.not_eq_true', hc.completed_iff,
    hd.completed_iff, hexecs]

/-- The same JSON for what has been read of a sample in two files. -/
theorem json_congr {s t : ParseState} (hargs : s.converter.args = t.converter.args)
    (hfreq : s.converter.cpuFreq = t.converter.cpuFreq)
    (hcmd : s.converter.cmdLine = t.converter.cmdLine) (hread : s.converter.SourcesRead w)
    (hread' : t.converter.SourcesRead w) (hentries : s.sampleEntries = t.sampleEntries)
    (htext : s.ftraceText = t.ftraceText)
    (hcalls : ∀ raw, s.converter.rawFtrace s.ftraceText = some raw →
      s.converter.sampleCalls w s.sampleEntries raw = t.converter.sampleCalls w s.sampleEntries raw)
    (hintact : s.converter.Intact w) (hintact' : t.converter.Intact w)
    (hmaps : s.converter.procaddr2sym.maps = t.converter.procaddr2sym.maps) : s.json w = t.json w := by
  have hrel := TraceConverter.rel_writeSampleToJson hargs hfreq hcmd hread hread' hcalls fun raw _ =>
    hintact.panicked_congr hintact' hargs hmaps
  rw [ParseState.json, ParseState.json, ← hentries, ← htext, Option.map_bind, Option.map_bind]
  exact bind_eq_of_rel hrel fun _ _ h => h

theorem sourcesRead_new : (ParseState.new args).converter.SourcesRead w := by
  intro file hfile
  cases hfile

namespace FileBefore
variable (f : FileBefore w args)

theorem sameJson_iff (own : SampleChunks) : f.SameJson own ↔
    jsons (parseFile w args (f.chunks ++ own.closed)) f.state.written.length =
      jsons (parseFile w args ([f.mapsChunk] ++ own.closed)) 0 := by
  constructor
  · exact fun h => h _ _ (parses_parseFile _) (parses_parseFile _)
  · intro h r r' hr hr'
    rw [hr.unique (parses_parseFile _), hr'.unique (parses_parseFile (f.mapsChunk :: own.closed))]
    exact h

theorem read_chunks : readChunks w 0 (ParseState.new args) f.chunks = .ok f.state := f.read

/-- The caches in the file and in the one with only the last maps. -/
structure Both (maps : List MemoryMap) : Prop where
  found : w.memoryMaps f.procmaps = some maps
  ready : f.state.converter.Ready w
  ready' : (alone maps args).converter.Ready w
  same : f.state.converter.procaddr2sym.maps = sortMaps maps

theorem both : ∃ maps, f.Both maps := by
  obtain ⟨maps, hmaps, hready, hsame⟩ := f.exists_maps
  exact ⟨maps, hmaps, hready, ready_alone (f.starts maps hmaps), hsame⟩

/-- Before the sample nothing of it has been read. -/
theorem agree_alone (maps : List MemoryMap) : Agree [] f.state (alone maps args) := by
  obtain ⟨hentries, htext⟩ := fresh_of_pending f.closed
  have hnone (type : ChunkType) : ¬ Seen [] type := by
    rintro ⟨c, hc, -⟩
    cases hc
  exact ⟨hentries, htext, fun h => absurd h (hnone _), fun h => absurd h (hnone _),
    fun h => absurd h (hnone _)⟩

section
variable {own : SampleChunks} {maps : List MemoryMap} {s t : ParseState}

theorem selected_of_keeps (hs : f.state.Keeps s) (ht : (alone maps args).Keeps t) :
    s.selected ∧ t.selected := by
  obtain ⟨h, h'⟩ := f.selected
  have hargs : s.converter.args = f.state.converter.args := by
    rw [hs.converter]
  have hargs' : t.converter.args = (ParseState.new args).converter.args := by
    rw [ht.converter]
    rfl
  have hnum : t.numJson = (ParseState.new args).numJson := ht.numJson
  rw [ParseState.selected] at h h' ⊢
  rw [ParseState.selected, hargs, hargs', hs.numJson, hnum]
  exact ⟨h, h'⟩

/-- A sample that is read, up to its end, in both files. -/
structure ReadBoth (own : SampleChunks) (maps : List MemoryMap) (s t : ParseState) : Prop where
  read : readChunks w (chunkBytes f.chunks).length f.state own.chunks = .ok s
  read' : readChunks w (chunkBytes [f.mapsChunk]).length (alone maps args) own.chunks = .ok t
  keeps : f.state.Keeps s
  keeps' : (alone maps args).Keeps t
  agree : Agree own.chunks s t

theorem ReadBoth.pending (h : f.ReadBoth own maps s t) : s.pending = t.pending := by
  rw [ParseState.pending, ParseState.pending, h.agree.sampleEntries, h.agree.ftraceText]

theorem ReadBoth.args_eq (h : f.ReadBoth own maps s t) :
    s.converter.args = args ∧ t.converter.args = args := by
  have hargs : f.state.converter.args = args := (follows_of_readChunks f.read).args
  rw [h.keeps.converter, h.keeps'.converter]
  exact ⟨hargs, rfl⟩

theorem ReadBoth.ready (h : f.ReadBoth own maps s t) (hboth : f.Both maps) :
    s.converter.Ready w ∧ t.converter.Ready w ∧
      s.converter.procaddr2sym.maps = t.converter.procaddr2sym.maps := by
  obtain ⟨hcur, hstarts, hcached⟩ := hboth.ready
  obtain ⟨hcur', hstarts', hcached'⟩ := hboth.ready'
  rw [h.keeps.converter, h.keeps'.converter]
  exact ⟨⟨hcur, hstarts, hcached⟩, ⟨hcur', hstarts', hcached'⟩, hboth.same⟩

theorem ReadBoth.caches (h : f.ReadBoth own maps s t) :
    s.converter.symCache = f.state.converter.symCache ∧ ∀ a, t.converter.symCache a = none := by
  rw [h.keeps.converter, h.keeps'.converter]
  exact ⟨rfl, fun _ => rfl⟩

/-- What is written for it. -/
theorem ReadBoth.sameJson_iff (h : f.ReadBoth own maps s t) (hboth : f.Both maps) :
    f.SameJson own ↔ (s.pending → s.json w = t.json w) := by
  obtain ⟨hselected, hselected'⟩ := f.selected_of_keeps h.keeps h.keeps'
  have hfull := jsons_of_ok f.read_chunks h.read h.keeps.written
  have halone := jsons_of_ok (f.readChunks_mapsChunk hboth.found) h.read' h.keeps'.written
  rw [FileBefore.sameJson_iff]
  rw [hselected, Bool.and_true] at hfull
  rw [hselected', Bool.and_true, ← h.pending] at halone
  refine (iff_of_eq (congr_arg₂ _ hfull halone)).trans ?_
  split_ifs with hpending <;> simp [hpending]

theorem ReadBoth.symbols (h : f.ReadBoth own maps s t) (hboth : f.Both maps) :
    s.converter.symbols w = f.state.converter.symbols w ∧
      t.converter.symbols w = f.state.converter.symbols w := by
  have hkept : s.converter.procaddr2sym = f.state.converter.procaddr2sym := by
    rw [h.keeps.converter]
  have hmaps := (h.ready f hboth).2.2
  constructor
  · funext a
    rw [TraceConverter.symbols, TraceConverter.symbols, hkept]
  · funext a
    rw [TraceConverter.symbols, TraceConverter.symbols, ← hmaps, hkept]

/-- A sample is read in both files, or the decoder panics in both. -/
theorem readBoth_or_panic (hboth : f.Both maps) (own : SampleChunks) :
    (∃ s t, f.ReadBoth own maps s t) ∨ f.SameJson own ∧
      ∀ s, readChunks w (chunkBytes f.chunks).length f.state own.chunks ≠ .ok s := by
  have hreads := agree_readChunks (w := w) own own.chunks [] (chunkBytes f.chunks).length
    (chunkBytes [f.mapsChunk]).length rfl (f.agree_alone maps)
  rcases hreads with ⟨s, t, hs, ht, hkeeps, hkeeps', hagree⟩ | ⟨s, t, hs, ht, hkeeps, hkeeps'⟩
  · exact Or.inl ⟨s, t, hs, ht, hkeeps, hkeeps', hagree⟩
  · refine Or.inr ⟨?_, fun s' hs' => ?_⟩
    · have hfull := jsons_of_error f.read_chunks hs hkeeps.written
      have halone := jsons_of_error (f.readChunks_mapsChunk hboth.found) ht hkeeps'.written
      rw [FileBefore.sameJson_iff, hfull]
      exact halone.symm
    · rw [hs] at hs'
      cases hs'

theorem ReadBoth.intact (h : f.ReadBoth own maps s t) (hboth : f.Both maps) :
    s.converter.Intact w ∧ t.converter.Intact w :=
  ⟨((follows_of_readChunks f.read).trans (follows_of_readChunks h.read)).intact
      (TraceConverter.intact_new args),
    ((follows_of_readChunks (f.readChunks_mapsChunk hboth.found)).trans
      (follows_of_readChunks h.read')).intact (TraceConverter.intact_new args)⟩

theorem ReadBoth.sourcesRead (h : f.ReadBoth own maps s t) (hboth : f.Both maps) :
    s.converter.SourcesRead w ∧ t.converter.SourcesRead w :=
  ⟨((follows_of_readChunks f.read).trans (follows_of_readChunks h.read)).sourcesRead sourcesRead_new,
    ((follows_of_readChunks (f.readChunks_mapsChunk hboth.found)).trans
      (follows_of_readChunks h.read')).sourcesRead sourcesRead_new⟩

/-- **A sample without stale thunks** is decoded as in a file of its own. -/
theorem same_of_unstale (hunstale : f.Unstale own) : f.SameJson own := by
  obtain ⟨maps, hboth⟩ := f.both
  rcases f.readBoth_or_panic hboth own with ⟨s, t, hread⟩ | ⟨hsame, -⟩
  · refine (hread.sameJson_iff f hboth).2 fun _ => ?_
    obtain ⟨hargs, hargs'⟩ := hread.args_eq
    obtain ⟨hready, hready', hmaps⟩ := hread.ready f hboth
    obtain ⟨hcache, hfresh⟩ := hread.caches
    obtain ⟨hsources, hsources'⟩ := hread.sourcesRead f hboth
    obtain ⟨hintact, hintact'⟩ := hread.intact f hboth
    refine json_congr (hargs.trans hargs'.symm) (hread.agree.cpuFreq own.funtrace)
      (hread.agree.cmdLine own.cmdLine) hsources hsources' hread.agree.sampleEntries
      hread.agree.ftraceText ?_ hintact hintact' hmaps
    intro raw hraw
    refine sampleCalls_congr hready hready' (hargs.trans hargs'.symm) hmaps hfresh ?_
    intro t' ht' hsel e he hold hthunk
    rw [hcache]
    exact hunstale s hread.read raw hraw t' ht' hsel e he hold hthunk
  · exact hsame

end

end FileBefore

/-! ## A sample of one entry -/

namespace FunTraceEntry

theorem addr_addr (e : FunTraceEntry) (cycle : UInt64) : (FunTraceEntry.mk e.addr cycle).addr = e.addr := by
  rw [addr, addr, UInt64.and_assoc, UInt64.and_self]

/-- An address without flags is that of a call. -/
theorem isCall_addr (e : FunTraceEntry) (cycle : UInt64) : (FunTraceEntry.mk e.addr cycle).isCall := by
  have hbit (b : UInt64) (hb : addressMask >>> b &&& 1 = 0) :
      bitSet (e.address &&& addressMask) b = false := by
    rw [bitSet, UInt64.shiftRight_and, UInt64.and_assoc, hb, UInt64.and_zero]
    rfl
  have hcatch : (FunTraceEntry.mk e.addr cycle).isCatch = false := by
    have hmask : addressMask &&& catchMask = 0 := by decide
    rw [isCatch, addr, UInt64.and_assoc, hmask, UInt64.and_zero]
    decide
  have hret : bitSet e.addr returnBit = false := hbit returnBit (by decide)
  have hcaller : bitSet e.addr returnWithCallerAddressBit = false := hbit returnWithCallerAddressBit (by decide)
  simp only [isCall, isRet, isRetWithCallerAddr, hcatch, hret, hcaller]
  rfl

end FunTraceEntry

/-- The last moment. -/
def lastCycle : UInt64 := 0 - 1

theorem le_lastCycle (a : UInt64) : a ≤ lastCycle := by
  have h := a.toNat_lt
  have hlast : lastCycle.toNat = 2 ^ 64 - 1 := by decide
  rw [UInt64.le_iff_toNat_le, hlast]
  omega

/-- An entry of a thread, late enough to be decoded under any options. -/
def probeBuffer (tid a : UInt64) : EventBuffer where
  id := ⟨0, tid, Vector.replicate 16 0⟩
  buf := [⟨a, lastCycle⟩]
  length_buf := by
    rw [List.length_singleton]
    omega

theorem accepts_frequency (freq : UInt64) :
    ChunkType.funtrace.accepts (UInt64.ofNat (u64Bytes freq).length) := by
  rw [length_u64Bytes]
  rfl

theorem length_noBytes : ([] : List UInt8).length < 2 ^ 63 := by
  rw [List.length_nil]
  omega

theorem length_one : (u64Bytes 1).length < 2 ^ 63 := by
  rw [length_u64Bytes]
  omega

/-- The chunks of a sample that has only this entry. -/
def probeChunks (tid a : UInt64) : List Chunk :=
  ChunkType.funtrace.chunk (u64Bytes 1) length_one ::
    ChunkType.cmdLine.chunk [] length_noBytes :: (probeBuffer tid a).pair

/-- The sample of one entry. -/
def probe (tid a : UInt64) : SampleChunks where
  chunks := probeChunks tid a
  known := by
    intro c hc
    simp only [probeChunks, EventBuffer.pair, List.mem_cons, List.not_mem_nil, or_false] at hc
    rcases hc with rfl | rfl | rfl | rfl
    · exact ⟨_, ChunkType.type_chunk _ (accepts_frequency 1), by decide, by decide⟩
    · exact ⟨_, ChunkType.type_chunk _ rfl, by decide, by decide⟩
    · exact ⟨_, ChunkType.type_chunk _ (EventBuffer.accepts_idBytes _), by decide, by decide⟩
    · exact ⟨_, ChunkType.type_chunk _ (EventBuffer.accepts_bufBytes _), by decide, by decide⟩
  funtrace := ⟨_, List.mem_cons_self, ChunkType.type_chunk _ (accepts_frequency 1)⟩
  cmdLine := ⟨_, List.mem_cons_of_mem _ List.mem_cons_self, ChunkType.type_chunk _ rfl⟩
  threadid := by
    intro before c after hchunks htype
    have hne {type : ChunkType} {data : List UInt8} (hlt : data.length < 2 ^ 63)
        (h : type.accepts (UInt64.ofNat data.length)) (hnot : type ≠ .tracebuf) :
        type.chunk data hlt ≠ c := by
      rintro rfl
      rw [ChunkType.type_chunk hlt h, Option.some.injEq] at htype
      exact hnot htype
    -- The only `TRACEBUF` is the last chunk.
    have hid : (probeBuffer tid a).idChunk ∈ before := by
      rcases before with _ | ⟨c₁, _ | ⟨c₂, _ | ⟨c₃, before⟩⟩⟩ <;>
        simp only [probeChunks, EventBuffer.pair, List.cons_append, List.nil_append,
          List.cons.injEq] at hchunks
      · exact absurd hchunks.1 (hne _ (accepts_frequency 1) (by decide))
      · exact absurd hchunks.2.1 (hne _ rfl (by decide))
      · exact absurd hchunks.2.2.1 (hne _ (EventBuffer.accepts_idBytes _) (by decide))
      · rw [hchunks.2.2.1]
        simp
    exact ⟨_, hid, ChunkType.type_chunk _ (EventBuffer.accepts_idBytes _)⟩

/-- The thread that is read. -/
def probeThread (tid a : UInt64) : ThreadTrace :=
  ⟨⟨0, tid, Vector.replicate 16 0⟩, [⟨a, lastCycle⟩], List.cons_ne_nil _ _⟩

theorem trace_probeBuffer (tid a : UInt64) : (probeBuffer tid a).trace = some (probeThread tid a) := by
  have hnot : (FunTraceEntry.mk a lastCycle).isEmpty = false := by
    have hlast : (lastCycle == 0) = false := by decide
    rw [FunTraceEntry.isEmpty, hlast, Bool.false_and]
  have hnonzero : nonzeroEntries (probeBuffer tid a).buf = [⟨a, lastCycle⟩] := by
    simp [nonzeroEntries, probeBuffer, hnot]
  unfold EventBuffer.trace
  simp only [hnonzero]
  rfl

theorem readChunks_probe (tid a : UInt64) (pos : ℕ) (s : ParseState) :
    readChunks w pos s (probe tid a).chunks = .ok { s with
      converter := { s.converter with cpuFreq := 1, cmdLine := "" }
      threadId := (probeBuffer tid a).id
      sampleEntries := s.sampleEntries ++ [probeThread tid a] } := by
  have hempty : decodeUtf8 [] = some "" := decodeUtf8_eq_some.2 rfl
  have hfreq := accepts_frequency 1
  unfold probe probeChunks
  dsimp only
  rw [readChunks, readChunk_chunk _ hfreq, ParseState.handleChunk, u64OfBytes_u64Bytes]
  dsimp only [Except.mapError, bind, Except.bind]
  rw [readChunks, readChunk_chunk _ rfl, ParseState.handleChunk, hempty]
  dsimp only [Except.mapError, bind, Except.bind]
  rw [readChunks_pair, trace_probeBuffer]
  rfl

theorem json_spans {s : ParseState} {raw : List FtraceEvent} {json : SampleJson}
    (hraw : s.converter.rawFtrace s.ftraceText = some raw) (h : s.json w = some json) :
    json.events.map (List.filterMap JsonEvent.span) =
      (s.converter.emitted w s.sampleEntries raw).map
        (List.map fun e => (jsonName s.converter.args.executableFileInfo e.1, e.2)) := by
  simp only [ParseState.json, Option.map_eq_some_iff, Option.bind_eq_some_iff, Prod.exists] at h
  obtain ⟨json', ⟨c', json'', hwrite, hjson⟩, rfl⟩ := h
  obtain rfl : json'' = some json' := hjson
  have hspans := TraceConverter.spans_writeSampleToJson hraw hwrite
  exact hspans

/-- A sample that is written without a panic has JSON, but for a dry run. -/
theorem json_isSome {s : ParseState} (hdry : s.converter.args.dry = false) :
    (s.json w).isSome ↔ (s.converter.writeSampleToJson w s.sampleEntries s.ftraceText).isSome := by
  rw [ParseState.json, Option.isSome_map]
  cases hwrite : s.converter.writeSampleToJson w s.sampleEntries s.ftraceText with
  | none => rfl
  | some r =>
    obtain ⟨raw, shifted, funcset, events, -, -, -, -, hjson⟩ :=
      TraceConverter.exists_of_writeSampleToJson hwrite
    simp [hjson, hdry]

theorem json_of_dry {s : ParseState} (hdry : s.converter.args.dry) : s.json w = none := by
  rw [ParseState.json]
  cases hwrite : s.converter.writeSampleToJson w s.sampleEntries s.ftraceText with
  | none => rfl
  | some r =>
    obtain ⟨raw, shifted, funcset, events, -, -, -, -, hjson⟩ :=
      TraceConverter.exists_of_writeSampleToJson hwrite
    simp [hjson, hdry]

section
variable {c : TraceConverter} {tid : UInt64} {e : FunTraceEntry}

/-- The calls of the sample of one entry: one call if the entry is decoded. -/
theorem sampleCalls_probe (h : c.Ready w) (hsel : c.selects (probeThread tid e.addr))
    (raw : List FtraceEvent) : c.sampleCalls w [probeThread tid e.addr] raw =
      [if !isThunk (nameOf (c.symbols w) e) || (c.symCache e.addr).isSome then
        [⟨symOf (c.symbols w) e, lastCycle, lastCycle, 1⟩] else []] := by
  have haddr := e.addr_addr lastCycle
  have hsym : symOf (c.symbols w) ⟨e.addr, lastCycle⟩ = symOf (c.symbols w) e := by
    rw [symOf, symOf, haddr]
  have hheeds : c.heeds w (c.oldestEvent [probeThread tid e.addr] raw) ⟨e.addr, lastCycle⟩ =
      (!isThunk (nameOf (c.symbols w) e) || (c.symCache e.addr).isSome) := by
    have hold : c.oldestEvent [probeThread tid e.addr] raw ≤ lastCycle := le_lastCycle _
    rw [TraceConverter.heeds, nameOf, hsym, haddr, decide_eq_true hold, Bool.true_and]
    rfl
  rw [h.sampleCalls_eq, List.map_singleton, if_pos hsel]
  change [decodeReported _ _ _ (List.filter _ [⟨e.addr, lastCycle⟩])] = _
  rw [List.filter_cons, hheeds, List.filter_nil]
  split_ifs
  · rw [decodeReported, runEntries, handle_call _ _ (e.isCall_addr lastCycle)]
    simp only [runEntries, Dec.init, fakeReturns, List.reverse_singleton, List.mapIdx_cons,
      List.mapIdx_nil, hsym, List.nil_append, List.length_singleton]
    rfl
  · rfl

/-- The events of it. -/
theorem emitted_probe (h : c.Ready w) (hsel : c.selects (probeThread tid e.addr))
    (raw : List FtraceEvent) :
    (c.emitted w [probeThread tid e.addr] raw = [[]]) ↔
      isThunk (nameOf (c.symbols w) e) ∧ c.symCache e.addr = none := by
  have hcomplete (sym : SymInfo) : (⟨sym, lastCycle, lastCycle, 1⟩ : FunctionCall).isComplete := by
    have hlast : (lastCycle != 0) = true := by decide
    rw [FunctionCall.isComplete, hlast, Bool.and_self]
  rw [TraceConverter.emitted, sampleCalls_probe h hsel, List.map_singleton]
  split_ifs with hheeds
  · rw [List.filter_cons_of_pos (hcomplete _)]
    simp only [List.map_cons, List.cons.injEq, reduceCtorEq, and_true, false_iff, not_and]
    intro hthunk hnone
    simp [hthunk, hnone] at hheeds
  · simpa using hheeds

end

theorem rawFtrace_empty (c : TraceConverter) : c.rawFtrace "" = some [] := by
  have hlines : linesOf "".toList = [] := by decide
  rw [TraceConverter.rawFtrace, parseFtraceLines, hlines]
  rfl

theorem nameStr_probe (tid a : UInt64) : (probeThread tid a).threadId.nameStr = some "" := by
  have hzero : ((probeThread tid a).threadId.name.toList.filter (· != 0)) = [] := by
    simp [probeThread]
  rw [ThreadID.nameStr, hzero]
  exact decodeUtf8_eq_some.2 rfl

section
variable {c : TraceConverter}

/-- The entries that were decoded are in the cache. -/
theorem cached_of_writes {c' : TraceConverter} {sampleEntries : List ThreadTrace} {ftraceText : String}
    {json : Option SampleJson} (h : c.writeSampleToJson w sampleEntries ftraceText = some (c', json))
    {t : ThreadTrace} (ht : t ∈ sampleEntries) (hsel : c.selects t) {e : FunTraceEntry}
    (he : e ∈ t.trace) (hold : ∀ raw, c.oldestEvent sampleEntries raw ≤ e.cycle) :
    (c'.symCache e.addr).isSome := by
  obtain ⟨-, -, -, -, raw, -, -, hlookup⟩ := TraceConverter.writeSampleToJson_spec h
  have hcache : c'.symCache = (c.sampleLookup w sampleEntries raw).symCache :=
    congrArg Lookup.symCache hlookup
  rw [hcache]
  exact TraceConverter.decodeThreads_isSome _ hsel he (hold raw) _ _ ht

/-- The sample of one entry is written if the entry is ignored. -/
theorem writes_ignored {tid : UInt64} {e : FunTraceEntry} (h : c.Ready w) (hread : c.SourcesRead w)
    (hintact : c.Intact w) (hreadable : unreadableAt w c.procaddr2sym.maps e.addr = false)
    (hsel : c.selects (probeThread tid e.addr)) (hthunk : isThunk (nameOf (c.symbols w) e))
    (hfresh : c.symCache e.addr = none) :
    (c.writeSampleToJson w [probeThread tid e.addr] "").isSome := by
  refine (TraceConverter.writeSampleToJson_isSome hread).2 ⟨[], rawFtrace_empty _, ?_, ?_⟩
  · refine hintact.completed_iff.2 fun t ht _ e' he' _ => ?_
    rw [List.mem_singleton.1 ht] at he'
    rw [List.mem_singleton.1 he', e.addr_addr lastCycle]
    exact hreadable
  rw [sampleCalls_probe h hsel, hthunk, hfresh]
  intro p hp _
  rw [List.zip_cons_cons, List.zip_nil_right, List.mem_singleton] at hp
  subst hp
  exact ⟨by rw [nameStr_probe]; rfl, fun _ call hcall => absurd hcall List.not_mem_nil⟩

end

namespace FileBefore
variable (f : FileBefore w args)

/-- **A stale thunk** is decoded in the file, and ignored in a file of its own. -/
theorem not_same_of_stale (hdry : args.dry = false) {t : ThreadTrace} {e : FunTraceEntry}
    (hsel : f.state.converter.selects t) (hthunk : isThunk (nameOf (f.state.converter.symbols w) e))
    (hstale : f.state.converter.symCache e.addr ≠ none) :
    ¬ f.SameJson (probe t.threadId.tid e.addr) := by
  obtain ⟨maps, hboth⟩ := f.both
  obtain ⟨hentries, htext⟩ := fresh_of_pending f.closed
  rcases f.readBoth_or_panic hboth (probe t.threadId.tid e.addr) with ⟨s, s', hread⟩ | ⟨-, hpanic⟩
  · obtain ⟨hready, hready', hmaps⟩ := hread.ready f hboth
    obtain ⟨hargs, hargs'⟩ := hread.args_eq
    obtain ⟨hcache, hfresh⟩ := hread.caches
    obtain ⟨-, hsymbols'⟩ := hread.symbols f hboth
    obtain ⟨-, hsources'⟩ := hread.sourcesRead f hboth
    obtain ⟨hintact, hintact'⟩ := hread.intact f hboth
    -- The file of the thunk's map could be parsed when its symbol was cached.
    have hreadable : unreadableAt w s'.converter.procaddr2sym.maps e.addr = false := by
      rw [← hmaps]
      refine hintact.readable _ ?_
      rw [hcache]
      exact Option.ne_none_iff_isSome.1 hstale
    have hagree := hread.agree
    have hselects : ∀ c : TraceConverter, c.args = args →
        c.selects (probeThread t.threadId.tid e.addr) := by
      intro c hc
      rw [TraceConverter.selects, (follows_of_readChunks f.read).args] at hsel
      rw [TraceConverter.selects, hc]
      exact hsel
    -- What has been read.
    have hsample : s.sampleEntries = [probeThread t.threadId.tid e.addr] ∧ s.ftraceText = "" := by
      have hs := hread.read
      rw [readChunks_probe] at hs
      cases hs
      simp [hentries, htext]
    have hraw : s.converter.rawFtrace s.ftraceText = some [] := by
      rw [hsample.2]
      exact rawFtrace_empty _
    have hraw' : s'.converter.rawFtrace s'.ftraceText = some [] := by
      rw [← hagree.ftraceText, hsample.2]
      exact rawFtrace_empty _
    have hpending : s.pending := by
      rw [ParseState.pending, hsample.1]
      rfl
    -- The thunk is no call in a file of its own ...
    have hnone : s'.converter.emitted w s'.sampleEntries [] = [[]] := by
      rw [← hagree.sampleEntries, hsample.1]
      refine (emitted_probe hready' (hselects _ hargs') []).2 ⟨?_, hfresh _⟩
      rw [hsymbols']
      exact hthunk
    -- ... but in the file it is one.
    have hsome : s.converter.emitted w s.sampleEntries [] ≠ [[]] := by
      rw [hsample.1]
      intro h
      have hcached := ((emitted_probe hready (hselects _ hargs) []).1 h).2
      rw [hcache] at hcached
      exact hstale hcached
    have hwrites : (s'.json w).isSome := by
      rw [json_isSome (by rw [hargs', hdry]), ← hagree.sampleEntries, ← hagree.ftraceText, hsample.1,
        hsample.2]
      exact writes_ignored hready' hsources' hintact' hreadable (hselects _ hargs') (hsymbols' ▸ hthunk)
        (hfresh _)
    obtain ⟨json', hjson'⟩ := Option.isSome_iff_exists.1 hwrites
    intro hsame
    have hjson := (hread.sameJson_iff f hboth).1 hsame hpending
    rw [hjson'] at hjson
    have hspans := (json_spans hraw hjson).symm.trans (json_spans hraw' hjson')
    rw [hnone, List.map_singleton, List.map_nil, List.map_eq_singleton_iff] at hspans
    obtain ⟨es, hes, hnil⟩ := hspans
    rw [List.map_eq_nil_iff.1 hnil] at hes
    exact hsome hes
  · exact absurd (readChunks_probe _ _ _ _) (hpanic _)

/-- **Samples are independent of what came before** if none of their entries lies in a thunk that
    is cached from an earlier sample; a condition that lets through all samples that are decoded
    the same, unless nothing is written at all. -/
theorem independent_iff : (∀ own, f.Unstale own → f.SameJson own) ∧
    ((args.dry ∨ ∀ own, f.Unstale own) ↔ ∀ own, f.SameJson own) := by
  obtain ⟨maps, hboth⟩ := f.both
  refine ⟨fun own => f.same_of_unstale, ?_, fun hsame => or_iff_not_imp_left.2 fun hdry => ?_⟩
  · rintro (hdry | hunstale) own
    · rcases f.readBoth_or_panic hboth own with ⟨s, t, hread⟩ | ⟨hsame, -⟩
      · obtain ⟨hargs, hargs'⟩ := hread.args_eq
        refine (hread.sameJson_iff f hboth).2 fun _ => ?_
        rw [json_of_dry (by rw [hargs, hdry]), json_of_dry (by rw [hargs', hdry])]
      · exact hsame
    · exact f.same_of_unstale (hunstale own)
  · intro own s hs raw hraw t ht hsel e he hold hthunk
    by_contra hstale
    rcases f.readBoth_or_panic hboth own with ⟨s₁, t₁, hread⟩ | ⟨-, hpanic⟩
    · obtain rfl : s = s₁ := Except.ok.inj (hs.symm.trans hread.read)
      have hselects : f.state.converter.selects t := by
        rw [hread.keeps.converter] at hsel
        exact hsel
      rw [(hread.symbols f hboth).1] at hthunk
      exact f.not_same_of_stale (by simpa using hdry) hselects hthunk hstale (hsame _)
    · exact hpanic s hs

end FileBefore

/-! ## A program with a thunk -/

/-- The decoder after the maps of the small program and one entry of it. -/
def demoProbed (a : UInt64) : ParseState :=
  { FileBefore.alone [⟨0x1000, 0x2000, 0, some "prog"⟩] Cli.default with
    converter :=
      { (FileBefore.alone [⟨0x1000, 0x2000, 0, some "prog"⟩] Cli.default).converter with
        cpuFreq := 1
        cmdLine := "" }
    threadId := (probeBuffer 1 a).id
    sampleEntries := [probeThread 1 a] }

theorem ownStarts_demo : OwnStarts [⟨0x1000, 0x2000, 0, some "prog"⟩] := by
  intro m hm n hn _
  rw [List.mem_singleton.1 hm, List.mem_singleton.1 hn]

theorem ready_demoProbed (a : UInt64) : (demoProbed a).converter.Ready demoWorld := by
  have hready : (FileBefore.alone _ Cli.default).converter.Ready demoWorld :=
    FileBefore.ready_alone ownStarts_demo
  exact ⟨hready.current, hready.starts, hready.cached⟩

/-- When the sample has been written. -/
def probedState (a : UInt64) (c : TraceConverter) (json : Option SampleJson) : ParseState :=
  { demoProbed a with
    converter := c
    written := [⟨0, 1, "", [probeThread 1 a], "", json⟩] }

theorem endTrace_demoProbed {a : UInt64} {c : TraceConverter} {json : Option SampleJson}
    (hwrite : (demoProbed a).converter.writeSampleToJson demoWorld [probeThread 1 a] "" =
      some (c, json)) :
    (demoProbed a).endTrace demoWorld = .ok (probedState a c json).nextSample := by
  have hsample : (demoProbed a).writeSample demoWorld = .ok (probedState a c json) := by
    unfold ParseState.writeSample
    rw [show (demoProbed a).converter.writeSampleToJson demoWorld (demoProbed a).sampleEntries
      (demoProbed a).ftraceText = some (c, json) from hwrite]
    rfl
  rw [ParseState.endTrace, hsample]
  rfl

theorem readChunks_demoProbed {a : UInt64} {c : TraceConverter} {json : Option SampleJson}
    (hwrite : (demoProbed a).converter.writeSampleToJson demoWorld [probeThread 1 a] "" =
      some (c, json)) :
    readChunks demoWorld 0 (ParseState.new Cli.default)
      (ChunkType.procmaps.chunk [] length_noBytes :: (probe 1 a).closed) =
        .ok (probedState a c json).nextSample := by
  have hfirst : readChunks demoWorld 0 (ParseState.new Cli.default)
      [ChunkType.procmaps.chunk [] length_noBytes] = _ := FileBefore.readChunks_maps rfl length_noBytes
  rw [← List.singleton_append, readChunks_append, hfirst, Except.bind, SampleChunks.closed,
    readChunks_append, readChunks_probe, Except.bind, readChunks_singleton, readChunk_endtraceChunk]
  exact congrArg (Except.mapError _) (endTrace_demoProbed hwrite)

/-- A file with a sample of one entry, which is written, and what is cached after it. -/
theorem exists_second (a : UInt64) (hwrites : ((demoProbed a).converter.writeSampleToJson demoWorld
      [probeThread 1 a] "").isSome) :
    ∃ f : FileBefore demoWorld Cli.default, f.state.written.length = 1 ∧
      f.state.converter.args = Cli.default ∧
      f.state.converter.symbols demoWorld = (demoProbed a).converter.symbols demoWorld ∧
      ((⟨a, lastCycle⟩ : FunTraceEntry).addr = a → (f.state.converter.symCache a).isSome) := by
  obtain ⟨⟨c, json⟩, hwrite⟩ := Option.isSome_iff_exists.1 hwrites
  have hcached := cached_of_writes hwrite List.mem_cons_self rfl List.mem_cons_self
    fun _ => le_lastCycle _
  obtain ⟨hargs, -, -, -, raw, -, -, hlookup⟩ := TraceConverter.writeSampleToJson_spec hwrite
  have hmaps : c.procaddr2sym.maps = (demoProbed a).converter.procaddr2sym.maps :=
    (congrArg (fun l => l.procaddr2sym.maps) hlookup).trans
      (ready_demoProbed a).faithful_sampleLookup.maps_eq
  have hsymbols : c.symbols demoWorld = (demoProbed a).converter.symbols demoWorld := by
    funext addr
    rw [TraceConverter.symbols, TraceConverter.symbols, hmaps]
  have hnoMaps : ∀ chunk ∈ (probe 1 a).closed, chunk.type ≠ some .procmaps := by
    intro chunk hchunk
    rcases List.mem_append.1 hchunk with hchunk | hchunk
    · obtain ⟨type, htype, hne, -⟩ := (probe 1 a).known chunk hchunk
      rw [htype]
      exact fun h => hne (Option.some.inj h)
    · rw [List.mem_singleton.1 hchunk, endtraceChunk, ChunkType.type_chunk _ rfl]
      decide
  let f : FileBefore demoWorld Cli.default :=
    { before := []
      procmaps := []
      length_procmaps := length_noBytes
      starts := fun maps hmaps => by
        cases hmaps
        exact ownStarts_demo
      between := (probe 1 a).closed
      noMaps := hnoMaps
      state := (probedState a c json).nextSample
      read := readChunks_demoProbed hwrite
      closed := rfl
      selected := by
        rw [ParseState.selected, probedState, ParseState.nextSample, hargs]
        exact ⟨rfl, rfl⟩ }
  exact ⟨f, rfl, hargs, hsymbols, fun haddr => haddr ▸ hcached⟩

/-- A second sample with the same function is decoded as in a file of its own. -/
theorem FileBefore.independent_iff_demo : ∃ f : FileBefore demoWorld Cli.default,
    f.state.written.length = 1 ∧ f.SameJson (probe 1 0x1100) := by
  obtain ⟨f, hwritten, -, hsymbols, -⟩ := exists_second 0x1100 (by decide +kernel)
  refine ⟨f, hwritten, f.independent_iff.1 _ ?_⟩
  intro s hs raw hraw t ht hsel e he hold hthunk
  have hnot : isThunk (nameOf ((demoProbed 0x1100).converter.symbols demoWorld) ⟨0x1100, lastCycle⟩) =
      false := by decide +kernel
  rw [readChunks_probe] at hs
  cases hs
  obtain rfl : t = probeThread 1 0x1100 := by simpa [(fresh_of_pending f.closed).1] using ht
  obtain rfl : e = ⟨0x1100, lastCycle⟩ := List.mem_singleton.1 he
  have hthunk' : isThunk (nameOf (f.state.converter.symbols demoWorld) ⟨0x1100, lastCycle⟩) := hthunk
  rw [hsymbols, hnot] at hthunk'
  cases hthunk'

/-- A second sample with the same thunk is decoded differently in a file of its own. -/
theorem not_independent : ∃ f : FileBefore demoWorld Cli.default, ¬ f.SameJson (probe 1 0x1400) := by
  have hthunk : isThunk (nameOf ((demoProbed 0x1400).converter.symbols demoWorld) ⟨0x1400, 0⟩) := by
    decide +kernel
  have haddr : (FunTraceEntry.mk 0x1400 0).addr = 0x1400 := by decide
  have hready := ready_demoProbed 0x1400
  have hintact : (demoProbed 0x1400).converter.Intact demoWorld :=
    ⟨hready.current, rfl, fun _ h => by cases h⟩
  -- The first sample is written, and leaves the thunk in the cache.
  have hwrites : ((demoProbed 0x1400).converter.writeSampleToJson demoWorld
      [probeThread 1 (FunTraceEntry.mk 0x1400 0).addr] "").isSome :=
    writes_ignored hready (fun _ h => by cases h) hintact (by decide) rfl hthunk rfl
  rw [haddr] at hwrites
  obtain ⟨f, -, hargs, hsymbols, hcached⟩ := exists_second 0x1400 hwrites
  refine ⟨f, fun hsame => ?_⟩
  have hselects : f.state.converter.selects (probeThread 1 0x1400) := by
    rw [TraceConverter.selects, hargs]
    rfl
  refine f.not_same_of_stale (e := ⟨0x1400, 0⟩) rfl hselects ?_ ?_ (haddr.symm ▸ hsame)
  · rw [hsymbols]
    exact hthunk
  · rw [haddr]
    exact Option.ne_none_iff_isSome.2 (hcached (by decide))

end Funtrace
