/-
  The loop over the chunks of a file stops.

  A chunk that is skipped moves the cursor by its length, which is taken as signed: a
  chunk with a length near `2 ^ 64` moves it back.  Unless it comes to such a chunk, the
  loop moves on with each turn, and stops (`parseChunks_progress_iff`).
-/
import Funtrace.Viz.Chunks
import Funtrace.Viz.Sample

namespace Funtrace

variable {w : World} {args : Cli} {file : List UInt8}

/-- The length of the chunk at a position, if the chunk is skipped. -/
def skippedLength (file : List UInt8) (pos : ℕ) : Option UInt64 := do
  let magic ← readExact file pos magicLen
  let lengthBytes ← readExact file (pos + magicLen) lengthLen
  let length := u64OfBytes lengthBytes
  if ((ChunkType.ofMagic magic).filter (ChunkType.accepts length)).isNone then some length else none

/-- The lengths, taken as signed, that lead from the end of the header of a chunk at a position
    to this position or one before it. -/
structure GoesBack (pos : ℕ) (length : UInt64) : Prop where
  negative : 2 ^ 63 ≤ length.toNat
  le : length.toNat + 16 ≤ 2 ^ 64
  inFile : 2 ^ 64 ≤ pos + 16 + length.toNat ∧ pos + 16 + length.toNat < 2 ^ 64 + 2 ^ 63

theorem seekCurrent_eq_some {pos pos' : ℕ} {length : UInt64} :
    seekCurrent pos length = some pos' ↔
      (pos' : ℤ) = pos + length.toInt64.toInt ∧ pos' < 2 ^ 63 := by
  unfold seekCurrent
  dsimp only
  split_ifs with hrange
  · simp only [Option.some.injEq]
    constructor
    · rintro rfl
      omega
    · rintro ⟨htarget, -⟩
      omega
  · simp only [false_iff, not_and]
    intro htarget hlt
    omega

theorem toInt_toInt64 (length : UInt64) : length.toInt64.toInt =
    if length.toNat < 2 ^ 63 then (length.toNat : ℤ) else length.toNat - 2 ^ 64 := by
  have hcond := BitVec.toInt_eq_toNat_cond length.toBitVec
  have hlt := length.toNat_lt
  simp only [UInt64.toNat_toBitVec] at hcond
  refine hcond.trans ?_
  push_cast
  split_ifs <;> omega

/-- **A skipped chunk** moves the cursor on, unless it goes back. -/
theorem seekCurrent_le_iff {pos : ℕ} {length : UInt64} :
    (∃ pos', seekCurrent (pos + 16) length = some pos' ∧ pos' ≤ pos) ↔ GoesBack pos length := by
  have hlt := length.toNat_lt
  simp only [seekCurrent_eq_some, toInt_toInt64]
  constructor
  · rintro ⟨pos', ⟨htarget, hbound⟩, hle⟩
    push_cast at htarget
    split_ifs at htarget with hsmall
    · omega
    · exact ⟨by omega, by omega, by omega, by omega⟩
  · rintro ⟨hneg, hle, hge, hbound⟩
    refine ⟨pos + 16 + length.toNat - 2 ^ 64, ⟨?_, by omega⟩, by omega⟩
    push_cast
    rw [if_neg (by omega)]
    omega

theorem header_end (pos : ℕ) : pos + magicLen + lengthLen = pos + 16 := Nat.add_assoc pos 8 8

/-- What a turn that does not leave the loop does to the cursor. -/
theorem chunkStep_pos {s s' : ℕ × ParseState} (h : chunkStep w file s = .inl s') :
    s.1 + 8 ≤ file.length ∧
      ((∃ n, s'.1 = s.1 + 16 + n ∧ skippedLength file s.1 = none) ∨
        ∃ length, skippedLength file s.1 = some length ∧ seekCurrent (s.1 + 16) length = some s'.1) := by
  unfold chunkStep at h
  split at h
  · cases h
  next magic hmagic =>
  have hlen : s.1 + 8 ≤ file.length := by
    unfold readExact at hmagic
    split_ifs at hmagic with hc
    exact hc.resolve_left (by decide)
  refine ⟨hlen, ?_⟩
  split at h
  · cases h
  next lengthBytes hlength =>
  have hskipped (o : Option ChunkType)
      (ho : (ChunkType.ofMagic magic).filter (ChunkType.accepts (u64OfBytes lengthBytes)) = o) :
      skippedLength file s.1 = if o.isNone then some (u64OfBytes lengthBytes) else none := by
    simp only [skippedLength, hmagic, hlength, Option.bind_eq_bind, Option.bind_some, ho]
  dsimp only at h
  rw [header_end] at h
  split at h
  · next hnone =>
    refine Or.inr ⟨u64OfBytes lengthBytes, hskipped none hnone, ?_⟩
    split at h
    · next pos hseek =>
      obtain rfl := Sum.inl.inj h
      exact hseek
    · cases h
  · next type htype =>
    refine Or.inl ?_
    split_ifs at h
    split at h
    · cases h
    · split at h
      · obtain rfl := Sum.inl.inj h
        exact ⟨_, rfl, hskipped _ htype⟩
      · cases h

/-- A chunk that is skipped, and not to outside of the file, is passed. -/
theorem chunkStep_of_skipped {pos pos' : ℕ} {s : ParseState} {length : UInt64}
    (h : skippedLength file pos = some length) (hseek : seekCurrent (pos + 16) length = some pos') :
    chunkStep w file (pos, s) = .inl (pos', s) := by
  simp only [skippedLength, Option.bind_eq_bind, Option.bind_eq_some_iff] at h
  obtain ⟨magic, hmagic, lengthBytes, hlength, hskip⟩ := h
  split_ifs at hskip with hnone
  obtain rfl := Option.some.inj hskip
  simp only [chunkStep, hmagic, hlength, Option.isNone_iff_eq_none.1 hnone, header_end, hseek]

/-- **The loop over the chunks** stops, and moves on with each turn, if and only if it comes to no
    skipped chunk that goes back. -/
theorem parseChunks_progress_iff (w : World) (args : Cli) (file : List UInt8) :
    ((∃ fuel, (parseChunks w args file fuel).isSome) ∧
      ∀ s s', LoopReaches (chunkStep w file) (0, ParseState.new args) s →
        chunkStep w file s = .inl s' → s.1 < s'.1) ↔
    ∀ s, LoopReaches (chunkStep w file) (0, ParseState.new args) s →
      ∀ length ∈ skippedLength file s.1, ¬ GoesBack s.1 length := by
  constructor
  · rintro ⟨-, hprogress⟩ s hs length hlength hback
    obtain ⟨pos', hseek, hle⟩ := seekCurrent_le_iff.2 hback
    have hlt := hprogress s _ hs (chunkStep_of_skipped hlength hseek)
    exact absurd hle (Nat.not_le.2 hlt)
  · intro hcond
    have hprogress : ∀ s s', LoopReaches (chunkStep w file) (0, ParseState.new args) s →
        chunkStep w file s = .inl s' → s.1 < s'.1 := by
      intro s s' hs hstep
      rcases (chunkStep_pos hstep).2 with ⟨n, hpos, -⟩ | ⟨length, hlength, hseek⟩
      · omega
      · by_contra hge
        exact hcond s hs length hlength (seekCurrent_le_iff.1 ⟨s'.1, hseek, Nat.le_of_not_lt hge⟩)
    refine ⟨⟨file.length + 1, ?_⟩, hprogress⟩
    -- what is left of the file gets less with each turn
    have hdec : ∀ s, LoopReaches (chunkStep w file) (0, ParseState.new args) s →
        ∀ s', chunkStep w file s = .inl s' → file.length - s'.1 < file.length - s.1 := by
      intro s hs s' hstep
      have hpos := hprogress s s' hs hstep
      have hread := (chunkStep_pos hstep).1
      omega
    rw [parseChunks, Option.isSome_map]
    exact loop_isSome (fun s : ℕ × ParseState => file.length - s.1) hdec (Nat.lt_succ_self _)

/-- A chunk of no known type whose length is minus sixteen. -/
def loopingFile : List UInt8 := utf8Bytes "CORETRAC" ++ u64Bytes (0 - 16)

theorem chunkStep_loopingFile (s : ParseState) :
    chunkStep w loopingFile (0, s) = .inl (0, s) :=
  have hskipped : skippedLength loopingFile 0 = some (0 - 16) := by decide +kernel
  chunkStep_of_skipped hskipped (by decide +kernel)

theorem not_progress : ¬ ∀ (w : World) (args : Cli) (file : List UInt8),
    (∃ fuel, (parseChunks w args file fuel).isSome) ∧
      ∀ s s', LoopReaches (chunkStep w file) (0, ParseState.new args) s →
        chunkStep w file s = .inl s' → s.1 < s'.1 := by
  intro h
  obtain ⟨⟨fuel, hsome⟩, -⟩ := h demoWorld Cli.default loopingFile
  have hnone : ∀ fuel, loop (chunkStep demoWorld loopingFile) fuel (0, ParseState.new Cli.default) = none := by
    intro fuel
    induction fuel with
    | zero => rfl
    | succ fuel ih => rw [loop_of_step (chunkStep_loopingFile _), ih]
  rw [parseChunks, hnone] at hsome
  cases hsome

end Funtrace
