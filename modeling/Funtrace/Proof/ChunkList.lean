/-
  Files that consist of chunks.

  On the bytes of a list of chunks the loop of `parse_chunks` goes from chunk to chunk:
  `readChunk` says what it does with one, and `parseFile` what it does with all
  (`decodes_parseFile`).
-/
import Funtrace.Proof.Caches
import Funtrace.Proof.Progress
import Funtrace.Runtime.File
import Funtrace.Viz.Writes

namespace Funtrace

variable {w : World} {args : Cli}

/-! ## Reading -/

theorem readExact_append (l x r : List UInt8) {n : ℕ} (h : x.length = n) :
    readExact (l ++ (x ++ r)) l.length n = some x := by
  subst h
  rw [readExact, if_pos (Or.inr (by simp)), List.drop_left, List.take_left]

/-- What is read lies in the file. -/
theorem readExact_eq_none {file : List UInt8} {pos n : ℕ} (h : file.length < pos + n) (hn : n ≠ 0) :
    readExact file pos n = none := by
  rw [readExact, if_neg]
  rintro (h' | h') <;> omega

/-! ## One chunk -/

namespace Chunk
variable (c : Chunk)

/-- The length in the header. -/
def length : UInt64 := UInt64.ofNat c.data.length

/-- The type as which the chunk is read; `none` if it is skipped. -/
def type : Option ChunkType := (ChunkType.ofMagic c.magic).filter (ChunkType.accepts c.length)

theorem toNat_length : c.length.toNat = c.data.length :=
  UInt64.toNat_ofNat_of_lt' (c.length_data.trans (by decide))

theorem bytes_append (r : List UInt8) :
    c.bytes ++ r = c.magic ++ (u64Bytes c.length ++ (c.data ++ r)) := by
  simp only [bytes, writeChunk, length, List.append_assoc]

end Chunk

/-- What the loop does with a chunk at a position: an error is the way in which it is left. -/
def readChunk (w : World) (pos : ℕ) (s : ParseState) (c : Chunk) :
    Except (Exit × ParseState) ParseState :=
  match c.type with
  | none => if pos + c.bytes.length < 2 ^ 63 then .ok s else .error (.error, s)
  | some type => (s.handleChunk w c.data type).mapError (Exit.panic, ·)

/-- The chunks from a position on. -/
def readChunks (w : World) : ℕ → ParseState → List Chunk → Except (Exit × ParseState) ParseState
  | _, s, [] => .ok s
  | pos, s, c :: cs => do
    let s ← readChunk w pos s c
    readChunks w (pos + c.bytes.length) s cs

/-- The state and the position after a turn, or the way in which the loop is left. -/
def turn (pos : ℕ) : Except (Exit × ParseState) ParseState → (ℕ × ParseState) ⊕ (Exit × ParseState)
  | .ok s => .inl (pos, s)
  | .error r => .inr r

theorem seekCurrent_chunk (c : Chunk) (pos : ℕ) : seekCurrent (pos + 16) c.length =
    if pos + c.bytes.length < 2 ^ 63 then some (pos + c.bytes.length) else none := by
  have hint : c.length.toInt64.toInt = c.data.length := by
    rw [toInt_toInt64, c.toNat_length, if_pos c.length_data]
  have hend : pos + c.bytes.length = pos + 16 + c.data.length := by rw [c.length_bytes]; omega
  split_ifs with hlt
  · rw [seekCurrent_eq_some, hint, hend]
    exact ⟨by push_cast; rfl, by omega⟩
  · refine Option.eq_none_iff_forall_ne_some.2 fun pos' h => hlt ?_
    obtain ⟨htarget, hbound⟩ := seekCurrent_eq_some.1 h
    rw [hint] at htarget
    omega

/-- **A turn of the loop** at a chunk. -/
theorem chunkStep_chunk (l r : List UInt8) (c : Chunk) (s : ParseState) :
    chunkStep w (l ++ (c.bytes ++ r)) (l.length, s) =
      turn (l.length + c.bytes.length) (readChunk w l.length s c) := by
  have hmagic : readExact (l ++ (c.bytes ++ r)) l.length magicLen = some c.magic := by
    rw [c.bytes_append]
    exact readExact_append _ _ _ c.length_magic
  have hlength : readExact (l ++ (c.bytes ++ r)) (l.length + magicLen) lengthLen =
      some (u64Bytes c.length) := by
    have hpos : l.length + magicLen = (l ++ c.magic).length := by
      rw [List.length_append, c.length_magic, magicLen]
    rw [c.bytes_append, hpos, ← List.append_assoc]
    exact readExact_append _ _ _ (length_u64Bytes _)
  have hdata : readExact (l ++ (c.bytes ++ r)) (l.length + 16) c.length.toNat = some c.data := by
    have hpos : l.length + 16 = (l ++ (c.magic ++ u64Bytes c.length)).length := by
      rw [List.length_append, List.length_append, c.length_magic, length_u64Bytes]
    have hbytes : l ++ (c.bytes ++ r) = (l ++ (c.magic ++ u64Bytes c.length)) ++ (c.data ++ r) := by
      simp only [c.bytes_append, List.append_assoc]
    rw [hbytes, hpos]
    exact readExact_append _ _ _ c.toNat_length.symm
  have hsmall : ¬ 2 ^ 63 ≤ c.length.toNat := by
    rw [c.toNat_length]
    exact Nat.not_le.2 c.length_data
  simp only [chunkStep, hmagic, hlength, u64OfBytes_u64Bytes, header_end]
  rw [readChunk, Chunk.type]
  cases (ChunkType.ofMagic c.magic).filter (ChunkType.accepts c.length) with
  | none =>
    simp only [seekCurrent_chunk]
    split_ifs <;> rfl
  | some type =>
    have hend : l.length + 16 + c.length.toNat = l.length + c.bytes.length := by
      rw [c.toNat_length, c.length_bytes, Nat.add_assoc]
    simp only [if_neg hsmall, hdata, hend]
    cases s.handleChunk w c.data type <;> rfl

/-! ## Chunks of known types -/

/-- A chunk as `parse_chunks` expects it. -/
def ChunkType.chunk (type : ChunkType) (data : List UInt8) (h : data.length < 2 ^ 63) : Chunk where
  magic := type.magic
  data
  length_magic := by cases type <;> decide
  length_data := h

/-- The `ENDTRACE` chunk. -/
def endtraceChunk : Chunk := ChunkType.endtrace.chunk [] (by decide)

theorem ChunkType.type_chunk {type : ChunkType} {data : List UInt8} (h : data.length < 2 ^ 63)
    (haccepts : type.accepts (UInt64.ofNat data.length)) : (type.chunk data h).type = some type := by
  have hmagic : ofMagic (type.chunk data h).magic = some type := by cases type <;> rfl
  rw [Chunk.type, hmagic, Option.filter_some, Chunk.length]
  exact if_pos haccepts

theorem readChunk_chunk {type : ChunkType} {data : List UInt8} (h : data.length < 2 ^ 63)
    (haccepts : type.accepts (UInt64.ofNat data.length)) (pos : ℕ) (s : ParseState) :
    readChunk w pos s (type.chunk data h) = (s.handleChunk w data type).mapError (Exit.panic, ·) := by
  rw [readChunk, ChunkType.type_chunk h haccepts]
  rfl

theorem readChunk_endtraceChunk (pos : ℕ) (s : ParseState) :
    readChunk w pos s endtraceChunk = (s.endTrace w).mapError (Exit.panic, ·) :=
  readChunk_chunk _ rfl pos s

/-! ## All chunks -/

/-- The bytes of a file. -/
def chunkBytes (cs : List Chunk) : List UInt8 := cs.flatMap Chunk.bytes

theorem chunkBytes_append (cs cs' : List Chunk) :
    chunkBytes (cs ++ cs') = chunkBytes cs ++ chunkBytes cs' := List.flatMap_append

theorem readChunks_singleton (pos : ℕ) (s : ParseState) (c : Chunk) :
    readChunks w pos s [c] = readChunk w pos s c := by
  rw [readChunks]
  cases readChunk w pos s c <;> rfl

theorem readChunks_append : ∀ (cs cs' : List Chunk) (pos : ℕ) (s : ParseState),
    readChunks w pos s (cs ++ cs') =
      (readChunks w pos s cs).bind fun s => readChunks w (pos + (chunkBytes cs).length) s cs'
  | [], _, _, _ => rfl
  | c :: cs, cs', pos, s => by
    have hend : pos + (chunkBytes (c :: cs)).length =
        pos + c.bytes.length + (chunkBytes cs).length := by
      rw [chunkBytes, List.flatMap_cons, List.length_append, Nat.add_assoc]
      rfl
    rw [List.cons_append, readChunks, readChunks, hend]
    cases readChunk w pos s c with
    | error r => rfl
    | ok s' => exact readChunks_append cs cs' _ s'

/-- **The loop over chunks**, and what follows them. -/
theorem loop_chunks : ∀ (cs : List Chunk) (l r : List UInt8) (s : ParseState) (fuel : ℕ),
    loop (chunkStep w (l ++ (chunkBytes cs ++ r))) (fuel + cs.length) (l.length, s) =
      Sum.elim (loop (chunkStep w (l ++ (chunkBytes cs ++ r))) fuel) some
        (turn (l.length + (chunkBytes cs).length) (readChunks w l.length s cs))
  | [], _, _, _, _ => rfl
  | c :: cs, l, r, s, fuel => by
    have hcons : chunkBytes (c :: cs) = c.bytes ++ chunkBytes cs := List.flatMap_cons
    have hfile : l ++ (chunkBytes (c :: cs) ++ r) = (l ++ c.bytes) ++ (chunkBytes cs ++ r) := by
      simp only [hcons, List.append_assoc]
    have hend : l.length + (chunkBytes (c :: cs)).length =
        (l ++ c.bytes).length + (chunkBytes cs).length := by
      simp only [hcons, List.length_append, Nat.add_assoc]
    have hstep : chunkStep w (l ++ (chunkBytes (c :: cs) ++ r)) (l.length, s) =
        turn (l ++ c.bytes).length (readChunk w l.length s c) := by
      rw [hfile, List.append_assoc, chunkStep_chunk, List.length_append]
    rw [List.length_cons, ← Nat.add_assoc, loop_succ, hstep, readChunks]
    cases readChunk w l.length s c with
    | error e => rfl
    | ok s' =>
      rw [hend, hfile]
      refine (loop_chunks cs (l ++ c.bytes) r s' fuel).trans ?_
      rw [List.length_append]
      rfl

/-! ## Files -/

theorem Parses.unique {file : List UInt8} {r r' : Exit × ParseState} (h : Parses w args file r)
    (h' : Parses w args file r') : r = r' := by
  obtain ⟨fuel, h⟩ := h
  obtain ⟨fuel', h'⟩ := h'
  obtain ⟨e, he, rfl⟩ := Option.map_eq_some_iff.1 h
  obtain ⟨e', he', rfl⟩ := Option.map_eq_some_iff.1 h'
  rw [loop_unique he he']

/-- How the loop is left, if it is left in some way after the chunks. -/
def loopEnd (e : Exit) : Except (Exit × ParseState) ParseState → Exit × ParseState
  | .ok s => (e, s)
  | .error r => r

/-- `parse_chunks` on a file that consists of chunks. -/
def parseFile (w : World) (args : Cli) (cs : List Chunk) : Exit × ParseState :=
  finish w (loopEnd .done (readChunks w 0 (ParseState.new args) cs))

/-- Chunks, and a remainder at which the loop is left. -/
theorem parses_of_remainder {cs : List Chunk} {r : List UInt8} {e : Exit}
    (h : ∀ s, chunkStep w (chunkBytes cs ++ r) ((chunkBytes cs).length, s) = .inr (e, s)) :
    Parses w args (chunkBytes cs ++ r)
      (finish w (loopEnd e (readChunks w 0 (ParseState.new args) cs))) := by
  refine ⟨1 + cs.length, ?_⟩
  have hloop := @loop_chunks w cs [] r (ParseState.new args) 1
  rw [List.nil_append, List.length_nil, Nat.zero_add] at hloop
  rw [parseChunks, hloop]
  cases readChunks w 0 (ParseState.new args) cs with
  | error e => rfl
  | ok s =>
    rw [turn, Sum.elim_inl, loop_of_result (h s)]
    rfl

theorem chunkStep_end (file : List UInt8) {pos : ℕ} (h : file.length < pos + 8) (s : ParseState) :
    chunkStep w file (pos, s) = .inr (.done, s) := by
  have hmagic : readExact file pos magicLen = none := readExact_eq_none h (by decide)
  simp only [chunkStep, hmagic]

/-- The loop is left with an error where the length or the content of a chunk is cut off. -/
theorem chunkStep_cut {l : List UInt8} {c : Chunk} {type : ChunkType} {k : ℕ} (htype : c.type = some type)
    (h : 8 ≤ k) (hk : k < c.bytes.length) (s : ParseState) :
    chunkStep w (l ++ c.bytes.take k) (l.length, s) = .inr (.error, s) := by
  have hlen : (l ++ c.bytes.take k).length = l.length + k := by
    rw [List.length_append, List.length_take, Nat.min_eq_left hk.le]
  have hbytes : c.bytes = c.magic ++ (u64Bytes c.length ++ c.data) := by
    simpa using c.bytes_append []
  have hmagic : readExact (l ++ c.bytes.take k) l.length magicLen = some c.magic := by
    rw [hbytes, List.take_append, List.take_of_length_le (by rw [c.length_magic]; exact h)]
    exact readExact_append _ _ _ c.length_magic
  rcases Nat.lt_or_ge k 16 with hshort | hlong
  · have hlength : readExact (l ++ c.bytes.take k) (l.length + magicLen) lengthLen = none :=
      readExact_eq_none (by rw [hlen]; unfold magicLen lengthLen; omega) (by decide)
    simp only [chunkStep, hmagic, hlength]
  · have hlength : readExact (l ++ c.bytes.take k) (l.length + magicLen) lengthLen =
        some (u64Bytes c.length) := by
      have hpos : l.length + magicLen = (l ++ c.magic).length := by
        rw [List.length_append, c.length_magic, magicLen]
      have hlast : (u64Bytes c.length).length ≤ k - c.magic.length := by
        rw [length_u64Bytes, c.length_magic]
        omega
      rw [hbytes, List.take_append, List.take_of_length_le (by rw [c.length_magic]; exact h), hpos,
        ← List.append_assoc, List.take_append, List.take_of_length_le hlast]
      exact readExact_append _ _ _ (length_u64Bytes _)
    rw [c.length_bytes] at hk
    have hdata : readExact (l ++ c.bytes.take k) (l.length + 16) c.length.toNat = none := by
      refine readExact_eq_none ?_ ?_ <;> rw [c.toNat_length]
      · rw [hlen]
        omega
      · omega
    have hsmall : ¬ 2 ^ 63 ≤ c.length.toNat := by
      rw [c.toNat_length]
      exact Nat.not_le.2 c.length_data
    rw [Chunk.type] at htype
    simp only [chunkStep, hmagic, hlength, u64OfBytes_u64Bytes, header_end, htype, if_neg hsmall, hdata]

/-- **A file that consists of chunks**. -/
theorem parses_parseFile (cs : List Chunk) : Parses w args (chunkBytes cs) (parseFile w args cs) := by
  have h := @parses_of_remainder w args cs [] .done fun s => chunkStep_end _ (by simp) s
  rwa [List.append_nil] at h

/-! ## What stays as it is -/

namespace ParseState

/-- The state that is left, with or without a panic. -/
def after : Except ParseState ParseState → ParseState
  | .ok s => s
  | .error s => s

/-- What reading on keeps: the options, that the cached source files have been read, that no lookup
    has panicked, and the samples written so far. -/
structure Follows (w : World) (s s' : ParseState) : Prop where
  args : s'.converter.args = s.converter.args
  sourcesRead : s.converter.SourcesRead w → s'.converter.SourcesRead w
  intact : s.converter.Intact w → s'.converter.Intact w
  written : s.written <+: s'.written

theorem Follows.refl (s : ParseState) : s.Follows w s := ⟨rfl, id, id, List.prefix_rfl⟩

theorem Follows.trans {s s' s'' : ParseState} (h : s.Follows w s') (h' : s'.Follows w s'') :
    s.Follows w s'' :=
  ⟨h'.args.trans h.args, fun hread => h'.sourcesRead (h.sourcesRead hread),
    fun hintact => h'.intact (h.intact hintact), h.written.trans h'.written⟩

variable (s : ParseState)

theorem follows_writeSample : s.Follows w (after (s.writeSample w)) := by
  unfold writeSample
  dsimp only
  split
  · next h =>
    obtain ⟨hargs, -, -, hread, raw, -, hcompleted, hlookup⟩ := TraceConverter.writeSampleToJson_spec h
    exact ⟨hargs, hread, fun hintact => .of_sound hintact.sound_sampleLookup hcompleted hlookup,
      List.prefix_append _ _⟩
  · exact ⟨rfl, id, id, List.prefix_append _ _⟩

theorem after_endTrace : after (s.endTrace w) = s ∨
    ∃ s', (s' = s ∨ s' = after (s.writeSample w)) ∧ (after (s.endTrace w) = s' ∨
      after (s.endTrace w) = s'.nextSample) := by
  unfold endTrace
  split_ifs
  · cases s.writeSample w with
    | ok s' => exact Or.inr ⟨s', Or.inr rfl, Or.inr rfl⟩
    | error s' => exact Or.inr ⟨s', Or.inr rfl, Or.inl rfl⟩
  · exact Or.inr ⟨s, Or.inl rfl, Or.inr rfl⟩
  · exact Or.inl rfl

theorem follows_endTrace : s.Follows w (after (s.endTrace w)) := by
  rcases s.after_endTrace (w := w) with h | ⟨s', hs', h⟩
  · rw [h]
    exact Follows.refl s
  · have hfollows : s.Follows w s' := by
      rcases hs' with rfl | rfl
      exacts [Follows.refl _, s.follows_writeSample]
    rcases h with h | h <;> rw [h]
    exacts [hfollows, ⟨hfollows.args, hfollows.sourcesRead, hfollows.intact, hfollows.written⟩]

theorem follows_handleChunk (content : List UInt8) (type : ChunkType) :
    s.Follows w (after (s.handleChunk w content type)) := by
  cases type with
  | endtrace => exact s.follows_endTrace
  | funtrace => exact ⟨rfl, id, fun h => ⟨h.current, h.completed, h.readable⟩, List.prefix_rfl⟩
  | threadid => exact ⟨rfl, id, id, List.prefix_rfl⟩
  | procmaps =>
    rw [handleChunk]
    split
    · next p hset => exact ⟨rfl, id, fun h => h.setProcMaps hset, List.prefix_rfl⟩
    · exact Follows.refl s
  | cmdLine =>
    rw [handleChunk]
    split
    · exact ⟨rfl, id, fun h => ⟨h.current, h.completed, h.readable⟩, List.prefix_rfl⟩
    · exact Follows.refl s
  | _ => rw [handleChunk]; split <;> exact ⟨rfl, id, id, List.prefix_rfl⟩

theorem follows_unclosed : s.Follows w (after (s.unclosed w)) := by
  unfold unclosed
  split_ifs
  exacts [s.follows_writeSample, Follows.refl s]

end ParseState

theorem follows_readChunk (e : Exit) (pos : ℕ) (s : ParseState) (c : Chunk) :
    s.Follows w (loopEnd e (readChunk w pos s c)).2 := by
  unfold readChunk
  split
  · split_ifs <;> exact ParseState.Follows.refl s
  · next type _ =>
    have hfollows := @ParseState.follows_handleChunk w s c.data type
    cases hhandle : s.handleChunk w c.data type <;> rw [hhandle] at hfollows <;> exact hfollows

/-- **Reading chunks** keeps what has been read and written. -/
theorem follows_readChunks (e : Exit) : ∀ (cs : List Chunk) (pos : ℕ) (s : ParseState),
    s.Follows w (loopEnd e (readChunks w pos s cs)).2
  | [], _, s => ParseState.Follows.refl s
  | c :: cs, pos, s => by
    have hfollows := @follows_readChunk w e pos s c
    rw [readChunks]
    cases hread : readChunk w pos s c with
    | error r => rw [hread] at hfollows; exact hfollows
    | ok s' =>
      rw [hread] at hfollows
      exact hfollows.trans (follows_readChunks e cs _ s')

theorem follows_of_readChunks {cs : List Chunk} {pos : ℕ} {s s' : ParseState}
    (h : readChunks w pos s cs = .ok s') : s.Follows w s' := by
  have hfollows := @follows_readChunks w .done cs pos s
  rwa [h] at hfollows

/-- An error in the middle of the file is not its end. -/
theorem readChunks_error_ne : ∀ (cs : List Chunk) {pos : ℕ} {s : ParseState} {r : Exit × ParseState},
    readChunks w pos s cs = .error r → r.1 ≠ .done
  | [], _, _, _, h => by cases h
  | c :: cs, pos, s, r, h => by
    rw [readChunks] at h
    cases hread : readChunk w pos s c with
    | ok s' =>
      rw [hread] at h
      exact readChunks_error_ne cs h
    | error r' =>
      rw [hread] at h
      obtain rfl : r' = r := by cases h; rfl
      unfold readChunk at hread
      split at hread
      · split_ifs at hread
        cases hread
        exact nofun
      · cases hhandle : s.handleChunk w c.data _ <;> rw [hhandle] at hread <;> cases hread
        exact nofun

/-- If all chunks are of known types, the loop is only left with a panic. -/
theorem readChunks_error_panic : ∀ (cs : List Chunk) {pos : ℕ} {s : ParseState} {r : Exit × ParseState},
    (∀ c ∈ cs, ∃ type, c.type = some type) → readChunks w pos s cs = .error r → r.1 = .panic
  | [], _, _, _, _, h => by cases h
  | c :: cs, pos, s, r, htypes, h => by
    rw [readChunks] at h
    cases hread : readChunk w pos s c with
    | ok s' =>
      rw [hread] at h
      exact readChunks_error_panic cs (fun c hc => htypes c (List.mem_cons_of_mem _ hc)) h
    | error r' =>
      rw [hread] at h
      obtain rfl : r' = r := by cases h; rfl
      obtain ⟨type, htype⟩ := htypes c List.mem_cons_self
      rw [readChunk, htype] at hread
      dsimp only at hread
      cases hhandle : s.handleChunk w c.data type <;> rw [hhandle] at hread <;> cases hread
      rfl

theorem finish_done (s : ParseState) : (finish w (.done, s)).2 = ParseState.after (s.unclosed w) := by
  rw [finish]
  cases s.unclosed w <;> rfl

theorem finish_of_ne {r : Exit × ParseState} (h : r.1 ≠ .done) : finish w r = r := by
  obtain ⟨e, s⟩ := r
  cases e with
  | done => exact absurd rfl h
  | error => rfl
  | panic => rfl

theorem follows_finish (r : Exit × ParseState) : r.2.Follows w (finish w r).2 := by
  by_cases hdone : r.1 = .done
  · obtain ⟨e, s⟩ := r
    obtain rfl : e = .done := hdone
    rw [finish_done]
    exact s.follows_unclosed
  · rw [finish_of_ne hdone]
    exact ParseState.Follows.refl r.2

/-- A file that is read to its end. -/
theorem readChunks_of_done {cs : List Chunk} {s : ParseState}
    (h : Parses w args (chunkBytes cs) (.done, s)) :
    ∃ s', readChunks w 0 (ParseState.new args) cs = .ok s' := by
  have hdone : (parseFile w args cs).1 = .done := by rw [(parses_parseFile cs).unique h]
  rw [parseFile] at hdone
  cases hread : readChunks w 0 (ParseState.new args) cs with
  | ok s' => exact ⟨s', rfl⟩
  | error r =>
    have hne := readChunks_error_ne cs hread
    rw [hread, loopEnd, finish_of_ne hne] at hdone
    exact absurd hdone hne

theorem readChunks_append_ok {cs cs' : List Chunk} {pos : ℕ} {s s' : ParseState}
    (h : readChunks w pos s (cs ++ cs') = .ok s') :
    ∃ s₁, readChunks w pos s cs = .ok s₁ ∧
      readChunks w (pos + (chunkBytes cs).length) s₁ cs' = .ok s' := by
  rw [readChunks_append] at h
  cases hread : readChunks w pos s cs with
  | error r =>
    rw [hread] at h
    cases h
  | ok s₁ =>
    rw [hread] at h
    exact ⟨s₁, rfl, h⟩

end Funtrace
