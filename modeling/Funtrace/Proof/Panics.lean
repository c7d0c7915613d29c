/-
  Which files make the decoder panic.

  The bytes of a file are taken to be UTF-8 in four places: the command line, the names of
  threads, the text of ftrace and the source files of the functions called.  Besides, a line
  of ftrace is cut one byte after the blank before its timestamp, which may be in the middle
  of the blank (`WideBlank`), and the file of a map that has a function called is expected to
  be an executable if it opens (`ExecsOk`).  A file is decoded without a panic if and only if
  nothing of this kind is in it (`decodes_iff`).
-/
import Mathlib.Data.List.TakeWhile
import Funtrace.Proof.SnapshotFile

namespace Funtrace
open ProcAddr2Sym

variable {w : World}

/-! ## Lines of ftrace -/

theorem mapM_isSome_iff {α β : Type} (f : α → Option β) :
    ∀ l : List α, (l.mapM f).isSome ↔ ∀ a ∈ l, (f a).isSome
  | [] => by simp
  | a :: l => by
    have ih := mapM_isSome_iff f l
    rw [List.forall_mem_cons, List.mapM_cons, Option.bind_eq_bind]
    refine isSome_bind_iff fun b _ => ?_
    rw [← ih]
    exact (isSome_bind_iff (P := True) fun _ _ => by simp).trans (and_true _).to_iff

/-- The last blank before the first `": "` of a line takes several bytes. -/
def WideBlank (line : List Char) : Prop :=
  ": ".toList <:+: line ∧ ∃ blank ∈ (charsBefore ": ".toList line).reverse.find? isWhitespace,
    blank.utf8Size ≠ 1

instance : DecidablePred WideBlank := fun line =>
  have : Decidable (∃ blank ∈ (charsBefore ": ".toList line).reverse.find? isWhitespace,
      blank.utf8Size ≠ 1) :=
    decidable_of_iff (((charsBefore ": ".toList line).reverse.find? isWhitespace).any
      (·.utf8Size ≠ 1)) (by simp [Option.any_eq_true])
  inferInstanceAs (Decidable (_ ∧ _))

/-- **A line** makes the decoder panic if its blank is wide. -/
theorem parseFtraceLine_isSome {f : UInt64 → Option String} (hf : ∀ ts, (f ts).isSome)
    (line : List Char) : (parseFtraceLine f line).isSome ↔ ¬ WideBlank line := by
  have hblank (head : List Char) : (head.take (head.length -
      (head.reverse.takeWhile fun c => !isWhitespace c).reverse.length)).getLast? =
        head.reverse.find? isWhitespace := by
    have hdrop : head.reverse.drop (head.reverse.takeWhile fun c => !isWhitespace c).length =
        head.reverse.dropWhile fun c => !isWhitespace c :=
      (congrArg (List.drop _) List.takeWhile_append_dropWhile.symm).trans List.drop_left
    rw [List.find?_eq_head?_dropWhile_not, ← hdrop, List.length_reverse, List.drop_reverse,
      List.head?_reverse]
  unfold parseFtraceLine WideBlank
  split_ifs with hcolon
  · dsimp only
    rw [hblank]
    cases hfind : (charsBefore ": ".toList line).reverse.find? isWhitespace with
    | none => exact iff_of_true rfl (by rintro ⟨-, blank, ⟨⟩, -⟩)
    | some blank =>
      dsimp only
      split_ifs with hwide
      · exact iff_of_false (by simp) (not_not_intro ⟨hcolon, blank, rfl, hwide⟩)
      · have hnarrow : ¬ (": ".toList <:+: line ∧ ∃ blank' ∈ some blank, blank'.utf8Size ≠ 1) := by
          rintro ⟨-, blank', hblank', hsize⟩
          cases hblank'
          exact hwide hsize
        refine iff_of_true ?_ hnarrow
        split
        · rfl
        · rw [Option.isSome_map]
          exact hf _
  · exact iff_of_true rfl fun h => hcolon h.1

/-- The lines of a text are read without a panic. -/
theorem rawFtrace_isSome {c : TraceConverter} (hfreq : c.cpuFreq ≠ 0) (text : String) :
    (c.rawFtrace text).isSome ↔ ∀ line ∈ linesOf text.toList, ¬ WideBlank line := by
  have hfixts : ∀ ts, (c.fixts 0 ts).isSome := by
    intro ts
    rw [TraceConverter.fixts, if_neg hfreq]
    rfl
  rw [TraceConverter.rawFtrace, parseFtraceLines, Option.isSome_map, mapM_isSome_iff]
  exact forall₂_congr fun line _ => parseFtraceLine_isSome hfixts line

/-! ## Snapshots -/

/-- The texts of a snapshot are UTF-8, and its lines of ftrace have no wide blank. -/
structure FileSnapshot.TextsOk (snap : FileSnapshot) : Prop where
  cmdline : (decodeUtf8 snap.cmdline).isSome
  names : ∀ t ∈ snap.sampleEntries, t.threadId.nameStr.isSome
  ftrace : ∃ text, snap.ftraceText = some text ∧ ∀ line ∈ linesOf text.toList, ¬ WideBlank line

/-- No function called lies in a map whose file opens but cannot be parsed. -/
def FileSnapshot.ExecsOk (w : World) (snap : FileSnapshot) : Prop :=
  ∀ maps, w.memoryMaps snap.procmaps = some maps → ∀ t ∈ snap.sampleEntries, ∀ e ∈ t.trace,
    unreadableAt w (sortMaps maps) e.addr = false

/-- The source files of the functions called are UTF-8. -/
def ParseState.SourcesOk (w : World) (s : ParseState) (snap : FileSnapshot) : Prop :=
  ∀ s' raw, s.withSnapshot w snap = some s' → s'.converter.rawFtrace s'.ftraceText = some raw →
    ∀ calls ∈ s'.converter.sampleCalls w s'.sampleEntries raw, ∀ call ∈ calls,
      (w.sourceText call.sym.file).isSome

section
variable {s : ParseState} {snap : FileSnapshot} {pos : ℕ}

theorem withSnapshot_isSome (hmaps : (w.memoryMaps snap.procmaps).isSome) :
    (s.withSnapshot w snap).isSome ↔ (decodeUtf8 snap.cmdline).isSome ∧ snap.ftraceText.isSome := by
  have hheader : (s.withHeader w snap).isSome ↔ (decodeUtf8 snap.cmdline).isSome := by
    have hset : (s.converter.procaddr2sym.setProcMaps w snap.procmaps).isSome := by
      rw [ProcAddr2Sym.setProcMaps, Option.isSome_map]
      exact hmaps
    refine (isSome_bind_iff (P := (decodeUtf8 snap.cmdline).isSome) fun _ _ => ?_).trans
      (and_iff_right hset)
    exact (isSome_bind_iff (P := True) fun _ _ => by simp).trans (and_true _).to_iff
  rw [← hheader]
  refine isSome_bind_iff fun _ _ => ?_
  exact (isSome_bind_iff (P := True) fun _ _ => by simp).trans (and_true _).to_iff

theorem forall_mem_zip {α β : Type} {A : α → Prop} {B : β → Prop} {l : List α} {l' : List β}
    (h : l.length = l'.length) :
    (∀ p ∈ l.zip l', A p.1 ∧ B p.2) ↔ (∀ a ∈ l, A a) ∧ ∀ b ∈ l', B b := by
  have hfst : (l.zip l').map Prod.fst = l := List.map_fst_zip h.le
  have hsnd : (l.zip l').map Prod.snd = l' := List.map_snd_zip h.ge
  have hA : (∀ a ∈ l, A a) ↔ ∀ p ∈ l.zip l', A p.1 := by
    rw [← List.forall_mem_map (f := Prod.fst) (P := A), hfst]
  have hB : (∀ b ∈ l', B b) ↔ ∀ p ∈ l.zip l', B p.2 := by
    rw [← List.forall_mem_map (f := Prod.snd) (P := B), hsnd]
  rw [forall₂_and, hA, hB]

/-- The sample that is written at `ENDTRACE`. -/
theorem endTrace_isOk (hsamples : s.converter.args.samples = []) (hread : s.converter.SourcesRead w)
    (hintact : s.converter.Intact w) :
    (∃ s', s.endTrace w = .ok s') ↔
      (s.converter.writeSampleToJson w s.sampleEntries s.ftraceText).isSome := by
  have hselected : s.selected := by
    rw [ParseState.selected, hsamples]
    rfl
  unfold ParseState.endTrace
  split_ifs with hpending
  · unfold ParseState.writeSample
    cases hwrite : s.converter.writeSampleToJson w s.sampleEntries s.ftraceText with
    | none => exact iff_of_false (by rintro ⟨s', ⟨⟩⟩) (by simp)
    | some r => exact iff_of_true ⟨_, rfl⟩ rfl
  · -- nothing would be written
    obtain ⟨hentries, htext⟩ := fresh_of_pending (by simpa using hpending)
    refine iff_of_true ⟨s, rfl⟩ ?_
    rw [TraceConverter.writeSampleToJson_isSome hread, hentries, htext]
    exact ⟨[], rfl, hintact.completed, by simp⟩

theorem readChunks_isOk {s₁ : ParseState} (hfresh : s.pending = false)
    (h : s.withSnapshot w snap = some s₁) :
    (∃ s', readChunks w pos s snap.chunks = .ok s') ↔ ∃ s', s₁.endTrace w = .ok s' := by
  rw [readChunks_snapshot (fresh_of_pending hfresh).2 h]
  cases s₁.endTrace w <;> simp [Except.mapError]

/-- Without options every entry of a snapshot is looked up. -/
theorem HasSnapshot.execsRead_iff {s' : ParseState} (h : HasSnapshot w snap s s')
    (hargs : s'.converter.args = Cli.default) (raw : List FtraceEvent) :
    s'.converter.ExecsRead w snap.sampleEntries raw ↔ snap.ExecsOk w := by
  obtain ⟨maps, hparse, hmaps⟩ := h.maps
  rw [TraceConverter.ExecsRead, hmaps]
  constructor
  · intro hread maps' hparse' t ht e he
    obtain rfl := Option.some.inj (hparse.symm.trans hparse')
    refine hread t ht (TraceConverter.selects_default hargs t) e he ?_
    have hfirst := head_le_of_sorted (f := FunTraceEntry.cycle) (FileSnapshot.sorted_of_mem ht)
      t.nonempty he
    exact UInt64.le_trans (TraceConverter.oldest_le_head hargs ht) hfirst
  · exact fun hexecs t ht _ e he _ => hexecs maps hparse t ht e he

/-- **A snapshot** is read without a panic if its texts, executables and sources are. -/
theorem readChunks_snapshot_iff (hargs : s.converter.args = Cli.default)
    (hread : s.converter.SourcesRead w) (hintact : s.converter.Intact w)
    (hfresh : s.pending = false) (hfreq : snap.cpuFreq ≠ 0)
    (hmaps : (w.memoryMaps snap.procmaps).isSome) :
    (∃ s', readChunks w pos s snap.chunks = .ok s') ↔
      snap.TextsOk ∧ snap.ExecsOk w ∧ s.SourcesOk w snap := by
  cases hsnap : s.withSnapshot w snap with
  | none =>
    refine iff_of_false ?_ ?_
    · rintro ⟨s', h⟩
      obtain ⟨s₁, h₁, -⟩ := withSnapshot_of_readChunks hfresh h
      rw [hsnap] at h₁
      cases h₁
    · rintro ⟨htexts, -, -⟩
      obtain ⟨text, htext, -⟩ := htexts.ftrace
      have hsome := (withSnapshot_isSome (s := s) hmaps).2 ⟨htexts.cmdline, by rw [htext]; rfl⟩
      rw [hsnap] at hsome
      cases hsome
  | some s₁ =>
    have hhas := hasSnapshot hsnap
    have hargs₁ : s₁.converter.args = Cli.default := hhas.follows.args.trans hargs
    have hentries : s₁.sampleEntries = snap.sampleEntries := by
      rw [hhas.sampleEntries, (fresh_of_pending hfresh).1, List.nil_append]
    have hfreq₁ : s₁.converter.cpuFreq ≠ 0 := by rwa [hhas.cpuFreq]
    have hok := @readChunks_isOk w s snap pos s₁ hfresh hsnap
    have hthreads (raw : List FtraceEvent) :
        (∀ p ∈ snap.sampleEntries.zip (s₁.converter.sampleCalls w snap.sampleEntries raw),
          s₁.converter.ThreadWritable w p) ↔
        (∀ t ∈ snap.sampleEntries, t.threadId.nameStr.isSome) ∧
          ∀ calls ∈ s₁.converter.sampleCalls w snap.sampleEntries raw, ∀ call ∈ calls,
            (w.sourceText call.sym.file).isSome := by
      have hlen : snap.sampleEntries.length =
          (s₁.converter.sampleCalls w snap.sampleEntries raw).length :=
        (TraceConverter.length_decodeThreads w _ _ _ _).symm
      rw [← forall_mem_zip (A := fun t : ThreadTrace => t.threadId.nameStr.isSome)
        (B := fun calls : List FunctionCall => ∀ call ∈ calls, (w.sourceText call.sym.file).isSome) hlen]
      refine forall₂_congr fun p _ => ?_
      have hselects : s₁.converter.selects p.1 := TraceConverter.selects_default hargs₁ p.1
      have hdry : s₁.converter.args.dry = false := by rw [hargs₁]; rfl
      simp only [TraceConverter.ThreadWritable, TraceConverter.Writable, hselects, hdry, hfreq₁, ne_eq,
        not_false_eq_true, implies_true, true_and, forall_const]
    have hintact₁ := hhas.follows.intact hintact
    rw [hok, endTrace_isOk (by rw [hargs₁]; rfl) (hhas.follows.sourcesRead hread) hintact₁,
      TraceConverter.writeSampleToJson_isSome (hhas.follows.sourcesRead hread), hentries]
    constructor
    · rintro ⟨raw, hraw, hcompleted, hwritable⟩
      have hexecs := (hhas.execsRead_iff hargs₁ raw).1 (hintact₁.completed_iff.1 hcompleted)
      obtain ⟨hnames, hsources⟩ := (hthreads raw).1 hwritable
      have hlines := (rawFtrace_isSome hfreq₁ _).1 (Option.isSome_iff_exists.2 ⟨raw, hraw⟩)
      refine ⟨⟨by rw [hhas.cmdLine]; rfl, hnames, _, hhas.ftraceText, hlines⟩, hexecs, ?_⟩
      intro s' raw' hs' hraw'
      cases hsnap.symm.trans hs'
      cases hraw.symm.trans hraw'
      rwa [hentries]
    · rintro ⟨htexts, hexecs, hsources⟩
      obtain ⟨text, htext, hlines⟩ := htexts.ftrace
      obtain rfl : s₁.ftraceText = text := Option.some.inj (hhas.ftraceText.symm.trans htext)
      obtain ⟨raw, hraw⟩ := Option.isSome_iff_exists.1 ((rawFtrace_isSome hfreq₁ _).2 hlines)
      have hcalls := hsources s₁ raw hsnap hraw
      rw [hentries] at hcalls
      have hcompleted := hintact₁.completed_iff.2 ((hhas.execsRead_iff hargs₁ raw).2 hexecs)
      exact ⟨raw, hraw, hcompleted, (hthreads raw).2 ⟨htexts.names, hcalls⟩⟩

end

/-! ## Files -/

/-- A file of snapshots is read to its end, or makes the decoder panic. -/
theorem parses_snapshots_iff (snaps : List FileSnapshot) :
    (∃ r, Parses w Cli.default (fileBytes snaps) r ∧ r.1 ≠ .panic) ↔
      ∃ s, readChunks w 0 (ParseState.new Cli.default) (snaps.flatMap FileSnapshot.chunks) = .ok s := by
  constructor
  · rintro ⟨r, hr, hne⟩
    have hparses := @parses_parseFile w Cli.default (snaps.flatMap FileSnapshot.chunks)
    rw [parseFile, ← fileBytes_eq] at hparses
    cases hread : readChunks w 0 (ParseState.new Cli.default) (snaps.flatMap FileSnapshot.chunks) with
    | ok s => exact ⟨s, rfl⟩
    | error e =>
      have hpanic := readChunks_error_panic _ (fun c hc => by
        obtain ⟨snap, -, hc⟩ := List.mem_flatMap.1 hc
        exact FileSnapshot.type_of_mem hc) hread
      rw [hread, loopEnd, finish_of_ne (by rw [hpanic]; decide)] at hparses
      rw [hr.unique hparses] at hne
      exact absurd hpanic hne
  · rintro ⟨s, hread⟩
    exact ⟨_, parses_of_readChunks hread, by simp⟩

/-- The snapshots of a file are read one after the other. -/
theorem readChunks_snapshots_iff {snaps : List FileSnapshot} (hfreq : ∀ snap ∈ snaps, snap.cpuFreq ≠ 0)
    (hmaps : ∀ snap ∈ snaps, (w.memoryMaps snap.procmaps).isSome) :
    (∃ s, readChunks w 0 (ParseState.new Cli.default) (snaps.flatMap FileSnapshot.chunks) = .ok s) ↔
      (∀ snap ∈ snaps, snap.TextsOk ∧ snap.ExecsOk w) ∧ ∀ k snap s, snaps[k]? = some snap →
        readChunks w 0 (ParseState.new Cli.default) ((snaps.take k).flatMap FileSnapshot.chunks) = .ok s →
          s.SourcesOk w snap := by
  have hsplit (k : ℕ) (snap : FileSnapshot) (hk : snaps[k]? = some snap) :
      (snaps.take (k + 1)).flatMap FileSnapshot.chunks =
        (snaps.take k).flatMap FileSnapshot.chunks ++ snap.chunks := by
    rw [List.take_add_one, hk, Option.toList_some, List.flatMap_append, List.flatMap_singleton]
  -- what is known of the state before a snapshot
  have hstep (k : ℕ) (snap : FileSnapshot) (s : ParseState) (hk : snaps[k]? = some snap)
      (hread : readChunks w 0 (ParseState.new Cli.default)
        ((snaps.take k).flatMap FileSnapshot.chunks) = .ok s) (pos : ℕ) :
      (∃ s', readChunks w pos s snap.chunks = .ok s') ↔
        snap.TextsOk ∧ snap.ExecsOk w ∧ s.SourcesOk w snap := by
    have hfollows := follows_of_readChunks hread
    have hmem : snap ∈ snaps := List.mem_of_getElem? hk
    exact readChunks_snapshot_iff hfollows.args (hfollows.sourcesRead fun _ h => by cases h)
      (hfollows.intact (TraceConverter.intact_new Cli.default)) (pending_readChunks _ rfl hread)
      (hfreq snap hmem) (hmaps snap hmem)
  constructor
  · rintro ⟨s, hread⟩
    have hprefix (k : ℕ) (snap : FileSnapshot) (hk : snaps[k]? = some snap) :
        ∃ s₀, readChunks w 0 (ParseState.new Cli.default)
          ((snaps.take k).flatMap FileSnapshot.chunks) = .ok s₀ ∧
            snap.TextsOk ∧ snap.ExecsOk w ∧ s₀.SourcesOk w snap := by
      have hall : snaps.flatMap FileSnapshot.chunks =
          (snaps.take k).flatMap FileSnapshot.chunks ++
            (snap.chunks ++ (snaps.drop (k + 1)).flatMap FileSnapshot.chunks) := by
        conv_lhs => rw [← List.take_append_drop (k + 1) snaps]
        rw [List.flatMap_append, hsplit k snap hk, List.append_assoc]
      rw [hall] at hread
      obtain ⟨s₀, h₀, hrest⟩ := readChunks_append_ok hread
      obtain ⟨s₁, h₁, -⟩ := readChunks_append_ok hrest
      exact ⟨s₀, h₀, (hstep k snap s₀ hk h₀ _).1 ⟨s₁, h₁⟩⟩
    refine ⟨fun snap hsnap => ?_, fun k snap s₀ hk h₀ => ?_⟩
    · obtain ⟨k, hk⟩ := List.mem_iff_getElem?.1 hsnap
      obtain ⟨s₀, -, htexts, hexecs, -⟩ := hprefix k snap hk
      exact ⟨htexts, hexecs⟩
    · obtain ⟨s₀', h₀', -, -, hsources⟩ := hprefix k snap hk
      cases h₀.symm.trans h₀'
      exact hsources
  · rintro ⟨htexts, hsources⟩
    have hprefix : ∀ k ≤ snaps.length, ∃ s, readChunks w 0 (ParseState.new Cli.default)
        ((snaps.take k).flatMap FileSnapshot.chunks) = .ok s := by
      intro k
      induction k with
      | zero => exact fun _ => ⟨_, rfl⟩
      | succ k ih =>
        intro hk
        obtain ⟨s, hread⟩ := ih (by omega)
        obtain ⟨snap, hsnap⟩ : ∃ snap, snaps[k]? = some snap :=
          ⟨_, List.getElem?_eq_getElem (by omega)⟩
        obtain ⟨s', hs'⟩ := (hstep k snap s hsnap hread _).2
          ⟨(htexts snap (List.mem_of_getElem? hsnap)).1, (htexts snap (List.mem_of_getElem? hsnap)).2,
            hsources k snap s hsnap hread⟩
        refine ⟨s', ?_⟩
        rw [hsplit k snap hsnap, readChunks_append, hread]
        exact hs'
    have hall := hprefix snaps.length (Nat.le_refl _)
    rwa [List.take_length] at hall

/-- **A file that the runtime wrote** is decoded without a panic if and only if its texts and the
    source files of the functions called are UTF-8, no line of ftrace has a wide blank, and no
    function called lies in a map whose file opens but cannot be parsed. -/
theorem decodes_iff (w : World) (snaps : List FileSnapshot) (hfreq : ∀ snap ∈ snaps, snap.cpuFreq ≠ 0)
    (hmaps : ∀ snap ∈ snaps, (w.memoryMaps snap.procmaps).isSome) :
    (∃ r, Parses w Cli.default (fileBytes snaps) r ∧ r.1 ≠ .panic) ↔
      (∀ snap ∈ snaps, snap.TextsOk ∧ snap.ExecsOk w) ∧ ∀ k snap s, snaps[k]? = some snap →
        readChunks w 0 (ParseState.new Cli.default) ((snaps.take k).flatMap FileSnapshot.chunks) = .ok s →
          s.SourcesOk w snap :=
  (parses_snapshots_iff snaps).trans (readChunks_snapshots_iff hfreq hmaps)

/-- A snapshot with one thread and one call; the thread has a name. -/
def demoSnapshot (name : Vector UInt8 16) : FileSnapshot where
  procmaps := []
  cpuFreq := 1000000000
  cmdline := utf8Bytes "prog"
  threadTraces := [⟨⟨1, 1, name⟩, [⟨0x1100, 5⟩], Nat.lt_of_sub_eq_succ rfl⟩]
  ftraceEvents := []
  length_procmaps := Nat.two_pow_pos 63
  length_cmdline := Nat.lt_of_sub_eq_succ rfl
  length_ftraceEvents := Nat.two_pow_pos 63

/-- A name that is UTF-8. -/
def demoName : Vector UInt8 16 := Vector.ofFn fun i => (utf8Bytes "main").getD i 0

theorem sampleEntries_demoSnapshot (name : Vector UInt8 16) : (demoSnapshot name).sampleEntries =
    [⟨⟨1, 1, name⟩, [⟨0x1100, 5⟩], List.cons_ne_nil _ _⟩] := rfl

theorem textsOk_demoSnapshot {name : Vector UInt8 16}
    (h : (ThreadID.nameStr ⟨1, 1, name⟩).isSome) : (demoSnapshot name).TextsOk where
  cmdline := by
    rw [demoSnapshot, decodeUtf8_utf8Bytes]
    rfl
  names := by
    rw [sampleEntries_demoSnapshot]
    intro t ht
    obtain rfl := List.mem_singleton.1 ht
    exact h
  ftrace := ⟨"", decodeUtf8_eq_some.2 rfl, fun line hline => absurd hline (by simp [linesOf])⟩

theorem unreadableAt_demoWorld (maps : List MemoryMap) (a : UInt64) :
    unreadableAt demoWorld maps a = false := by
  refine unreadableAt_eq_false (fun path => ?_) maps a
  unfold demoWorld
  dsimp only
  split_ifs <;> rfl

theorem execsOk_demoSnapshot (name : Vector UInt8 16) : (demoSnapshot name).ExecsOk demoWorld :=
  fun maps _ _ _ e _ => unreadableAt_demoWorld (sortMaps maps) e.addr

theorem sourcesOk_demoWorld (s : ParseState) (snap : FileSnapshot) : s.SourcesOk demoWorld snap :=
  fun _ _ _ _ _ _ _ _ => rfl

theorem decodes_demo :
    ∃ r, Parses demoWorld Cli.default (fileBytes [demoSnapshot demoName]) r ∧ r.1 ≠ .panic :=
  (decodes_iff demoWorld [demoSnapshot demoName] (by simp [demoSnapshot]) fun _ _ => rfl).2
    ⟨by simpa using ⟨textsOk_demoSnapshot (by decide), execsOk_demoSnapshot _⟩,
      fun _ _ s _ _ => sourcesOk_demoWorld s _⟩

/-- The first half of a letter, as the name of a thread. -/
def cutName : Vector UInt8 16 := Vector.ofFn fun i => ([0xC3] : List UInt8).getD i 0

theorem not_decodes : ¬ ∀ (w : World) (snaps : List FileSnapshot),
    (∀ snap ∈ snaps, snap.cpuFreq ≠ 0) → (∀ snap ∈ snaps, (w.memoryMaps snap.procmaps).isSome) →
      ∃ r, Parses w Cli.default (fileBytes snaps) r ∧ r.1 ≠ .panic := by
  intro h
  have hfreq : ∀ snap ∈ [demoSnapshot cutName], snap.cpuFreq ≠ 0 := by simp [demoSnapshot]
  have hparses := h demoWorld [demoSnapshot cutName] hfreq fun _ _ => rfl
  obtain ⟨htexts, -⟩ := (readChunks_snapshots_iff hfreq fun _ _ => rfl).1
    ((parses_snapshots_iff _).1 hparses)
  have hname := (htexts _ List.mem_cons_self).1.names
  rw [sampleEntries_demoSnapshot] at hname
  exact absurd (hname _ List.mem_cons_self) (by decide)

end Funtrace
