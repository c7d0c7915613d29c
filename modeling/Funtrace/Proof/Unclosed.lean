/-
  Files that end without `ENDTRACE`.

  A sample that is not closed is written at the end of the file whether it is on the
  list of `--samples` or not.  Apart from this it makes no difference if the file is
  closed (`files_unclosed_iff`).
-/
import Funtrace.Proof.ChunkList

namespace Funtrace

variable {w : World} {args : Cli}

namespace ParseState

/-- The JSON files that were written, with their numbers; none in a dry run. -/
def files (s : ParseState) : List (UInt32 × Option SampleJson) :=
  if s.converter.args.dry then [] else s.written.map fun sample => (sample.index, sample.json)

variable (s : ParseState)

theorem files_after_map (r : Except ParseState ParseState) :
    (after (r.map nextSample)).files = (after r).files := by
  cases r <;> rfl

theorem unclosed_nextSample : s.nextSample.unclosed w = .ok s.nextSample := rfl

/-- A sample that is written makes a file, but in a dry run. -/
theorem length_files_writeSample (hdry : s.converter.args.dry = false) :
    (after (s.writeSample w)).files.length = s.files.length + 1 := by
  have hargs := (s.follows_writeSample (w := w)).args
  rw [files, files, hargs, hdry, if_neg Bool.false_ne_true, if_neg Bool.false_ne_true,
    List.length_map, List.length_map]
  unfold writeSample
  dsimp only
  split <;> exact List.length_append

/-- **The end of a sample**, in the two places that handle it. -/
theorem files_endTrace_iff : (after (s.unclosed w)).files = (after (s.endTrace w)).files ↔
    (s.pending → s.converter.args.dry ∨ s.selected) := by
  unfold unclosed endTrace
  by_cases hpending : s.pending
  · rw [if_pos hpending, if_pos hpending]
    by_cases hsel : s.selected
    · rw [if_pos hsel, files_after_map]
      exact iff_of_true rfl fun _ => Or.inr hsel
    · rw [if_neg hsel, files_after_map]
      cases hdry : s.converter.args.dry with
      | true =>
        have hargs := (s.follows_writeSample (w := w)).args
        rw [files, files, hargs]
        simp [after, hdry]
      | false =>
        have hlen := s.length_files_writeSample (w := w) hdry
        refine iff_of_false (fun h => ?_) (fun h => ?_)
        · rw [h] at hlen
          exact absurd hlen (Nat.succ_ne_self _).symm
        · exact (h hpending).elim (by decide) hsel
  · rw [if_neg hpending, if_neg hpending]
    exact iff_of_true rfl fun h => absurd h hpending

end ParseState

/-- After `ENDTRACE` nothing is left that is not closed. -/
theorem unclosed_of_endTrace {s s' : ParseState} (h : s.endTrace w = .ok s') :
    s'.unclosed w = .ok s' := by
  unfold ParseState.endTrace at h
  split_ifs at h with hpending hsel
  · cases hwrite : s.writeSample w <;> rw [hwrite] at h <;> cases h
    exact ParseState.unclosed_nextSample _
  · cases h
    exact ParseState.unclosed_nextSample _
  · cases h
    rw [ParseState.unclosed, if_neg hpending]

theorem files_parseFile_iff (cs : List Chunk) :
    (parseFile w args cs).2.files = (parseFile w args (cs ++ [endtraceChunk])).2.files ↔
      ∀ s, readChunks w 0 (ParseState.new args) cs = .ok s → s.pending → args.dry ∨ s.selected := by
  rw [parseFile, parseFile, readChunks_append]
  cases hread : readChunks w 0 (ParseState.new args) cs with
  | error e => exact iff_of_true rfl fun s h => by cases h
  | ok s =>
    have hargs : s.converter.args = args := (follows_of_readChunks hread).args
    have hclosed : (finish w (loopEnd .done (readChunks w (0 + (chunkBytes cs).length) s
        [endtraceChunk]))).2.files = (ParseState.after (s.endTrace w)).files := by
      rw [readChunks, readChunk_endtraceChunk]
      cases hend : s.endTrace w with
      | error s' => rfl
      | ok s' =>
        refine (congrArg ParseState.files (finish_done s')).trans ?_
        rw [unclosed_of_endTrace hend]
    have hunclosed : (finish w (loopEnd .done (Except.ok s))).2.files =
        (ParseState.after (s.unclosed w)).files := congrArg ParseState.files (finish_done s)
    rw [hunclosed, Except.bind, hclosed, s.files_endTrace_iff, hargs]
    constructor
    · rintro h s' ⟨⟩
      exact h
    · exact fun h => h s rfl

/-- **Unclosed files** make the same JSON files as closed ones if and only if the sample that is
    not closed, if any, is on the list of `--samples`, or nothing is written anyway. -/
theorem files_unclosed_iff (w : World) (args : Cli) (cs : List Chunk) :
    (∃ r r', Parses w args (chunkBytes cs) r ∧
      Parses w args (chunkBytes (cs ++ [endtraceChunk])) r' ∧ r.2.files = r'.2.files) ↔
    ∀ s, readChunks w 0 (ParseState.new args) cs = .ok s → s.pending → args.dry ∨ s.selected := by
  rw [← files_parseFile_iff]
  constructor
  · rintro ⟨r, r', h, h', hfiles⟩
    rwa [h.unique (parses_parseFile cs), h'.unique (parses_parseFile _)] at hfiles
  · exact fun h => ⟨_, _, parses_parseFile cs, parses_parseFile _, h⟩

/-- A line of ftrace data, and no more. -/
def unclosedChunk : Chunk := ChunkType.ftracetx.chunk (utf8Bytes "x") (by decide)

theorem not_files_unclosed : ¬ ∀ (w : World) (args : Cli) (cs : List Chunk) (r r' : Exit × ParseState),
    Parses w args (chunkBytes cs) r → Parses w args (chunkBytes (cs ++ [endtraceChunk])) r' →
      r.2.files = r'.2.files := by
  intro h
  have hfiles := h demoWorld { Cli.default with samples := [5] } [unclosedChunk] _ _
    (parses_parseFile _) (parses_parseFile _)
  have htype : unclosedChunk.type = some .ftracetx := by decide
  have hread : readChunks demoWorld 0 (ParseState.new { Cli.default with samples := [5] })
      [unclosedChunk] = .ok { ParseState.new { Cli.default with samples := [5] } with ftraceText := "x" } := by
    rw [readChunks, readChunk, htype]
    dsimp only
    rw [ParseState.handleChunk, unclosedChunk, ChunkType.chunk, decodeUtf8_utf8Bytes]
    rfl
  have hcond := (files_parseFile_iff _).1 hfiles _ hread (by decide)
  exact absurd hcond (by decide)

end Funtrace
