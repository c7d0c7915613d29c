/-
  Jumps: the decoder recovers from `longjmp`.

  A jump discards the innermost frames of the real stack and logs nothing, so they stay
  on the decoder's stack.  `marked` is the real stack with the discarded frames still in
  it, each marked; the return of a frame takes those above it along.  If no discarded
  frame has the name of an open one below it (`NamesApart`), the decoder's stack is the
  marked one: a return pops the discarded frames above its own, and no open one
  (`handle_jump`, the step; `run_jump`, the run).
-/
import Funtrace.Proof.Conservation
import Funtrace.Viz.Events

namespace Funtrace

/-- What happens in a traced thread that jumps. -/
inductive JumpEvent where
  | call (entry : FunTraceEntry)
  | ret (entry : FunTraceEntry)
  /-- `longjmp` to the frame under the `n` innermost ones -/
  | jump (n : ℕ)

namespace JumpEvent

/-- The entry that is logged, none by a jump. -/
def entry : JumpEvent → Option FunTraceEntry
  | call e => some e
  | ret e => some e
  | jump _ => none

/-- The effect on the real stack. -/
def effect : JumpEvent → List FunTraceEntry → List FunTraceEntry
  | call e, S => e :: S
  | ret _, S => S.tail
  | jump n, S => S.drop n

end JumpEvent

/-- The log of a run. -/
def jumpLog (run : List JumpEvent) : List FunTraceEntry := run.filterMap JumpEvent.entry

/-- The real stack after a run. -/
def jumpStack : List JumpEvent → List FunTraceEntry → List FunTraceEntry
  | [], S => S
  | ev :: run, S => jumpStack run (ev.effect S)

/-- The frames that the jumps of a run discard. -/
def discardedBy : List JumpEvent → List FunTraceEntry → List FunTraceEntry
  | [], _ => []
  | .jump n :: run, S => S.take n ++ discardedBy run (S.drop n)
  | ev :: run, S => discardedBy run (ev.effect S)

section
variable (sym : UInt64 → SymInfo)

/-- A return is logged with an address in the returning function; a jump leaves the frame that it
    jumps to, and discards none of the name of a frame that is left. -/
def JumpEvent.Legal : JumpEvent → List FunTraceEntry → Prop
  | .call e, _ => e.isCall
  | .ret e, S => e.isRet ∧ e.isRetWithCallerAddr = false ∧ ∃ f ∈ S.head?, nameOf sym e = nameOf sym f
  | .jump n, S => n < S.length ∧ ∀ f ∈ S.take n, ∀ g ∈ S.drop n, nameOf sym f ≠ nameOf sym g

/-- Each event is legal where it happens. -/
def LegalJumps : List JumpEvent → List FunTraceEntry → Prop
  | [], _ => True
  | ev :: run, S => ev.Legal sym S ∧ LegalJumps run (ev.effect S)

end

/-! ## The marked stack -/

/-- A frame, and whether a jump has discarded it. -/
structure JumpFrame where
  entry : FunTraceEntry
  discarded : Bool

/-- The frames that are open. -/
def opens (M : List JumpFrame) : List FunTraceEntry :=
  (M.filter fun f => !f.discarded).map JumpFrame.entry

/-- Marks the innermost open frames. -/
def discard : ℕ → List JumpFrame → List JumpFrame
  | 0, M => M
  | _ + 1, [] => []
  | n + 1, f :: M =>
    if f.discarded then f :: discard (n + 1) M else ⟨f.entry, true⟩ :: discard n M

/-- What an event does to the marked stack. -/
def JumpEvent.mark : JumpEvent → List JumpFrame → List JumpFrame
  | .call e, M => ⟨e, false⟩ :: M
  | .ret _, M => (M.dropWhile JumpFrame.discarded).tail
  | .jump n, M => discard n M

/-- The marked stack after some events. -/
def marked : List JumpEvent → List JumpFrame → List JumpFrame
  | [], M => M
  | ev :: run, M => marked run (ev.mark M)

section
variable {M : List JumpFrame} {f : JumpFrame} {n : ℕ}

theorem opens_cons_discarded (h : f.discarded = true) : opens (f :: M) = opens M := by
  simp [opens, h]

theorem opens_cons_open (h : f.discarded = false) : opens (f :: M) = f.entry :: opens M := by
  simp [opens, h]

@[simp] theorem discard_zero (M : List JumpFrame) : discard 0 M = M := by
  cases M <;> rfl

theorem opens_discard : ∀ (n : ℕ) (M : List JumpFrame), opens (discard n M) = (opens M).drop n
  | 0, M => by rw [discard_zero, List.drop_zero]
  | n + 1, [] => rfl
  | n + 1, f :: M => by
    rw [discard]
    cases hf : f.discarded with
    | true => rw [if_pos rfl, opens_cons_discarded hf, opens_cons_discarded hf, opens_discard]
    | false =>
      rw [if_neg (by simp), opens_cons_discarded rfl, opens_cons_open hf, opens_discard, List.drop_succ_cons]

theorem map_entry_discard : ∀ (n : ℕ) (M : List JumpFrame),
    (discard n M).map JumpFrame.entry = M.map JumpFrame.entry
  | 0, M => by rw [discard_zero]
  | n + 1, [] => rfl
  | n + 1, f :: M => by
    rw [discard]
    split_ifs
    · rw [List.map_cons, List.map_cons, map_entry_discard]
    · rw [List.map_cons, List.map_cons, map_entry_discard]

/-- The first open frame, and what is above it. -/
theorem split_opens {g : FunTraceEntry} {S : List FunTraceEntry} : ∀ {M : List JumpFrame},
    opens M = g :: S → ∃ above below, M = above ++ ⟨g, false⟩ :: below ∧
      (∀ x ∈ above, x.discarded = true) ∧ opens below = S
  | f :: M, h => by
    cases hf : f.discarded with
    | false =>
      rw [opens_cons_open hf, List.cons.injEq] at h
      obtain ⟨rfl, rfl⟩ := h
      refine ⟨[], M, ?_, by simp, rfl⟩
      rw [← hf]
      rfl
    | true =>
      rw [opens_cons_discarded hf] at h
      obtain ⟨above, below, rfl, habove, hbelow⟩ := split_opens h
      refine ⟨f :: above, below, rfl, fun x hx => ?_, hbelow⟩
      rcases List.mem_cons.1 hx with rfl | hx
      · exact hf
      · exact habove x hx

theorem mark_ret {e : FunTraceEntry} {above below : List JumpFrame} {g : FunTraceEntry}
    (habove : ∀ x ∈ above, x.discarded = true) :
    (JumpEvent.ret e).mark (above ++ ⟨g, false⟩ :: below) = below := by
  rw [JumpEvent.mark, List.dropWhile_append_of_pos habove, List.dropWhile_cons_of_neg (by simp)]
  rfl

/-- The marked stack is the real one and more. -/
theorem opens_mark {ev : JumpEvent} (h : ∀ e, ev = .ret e → opens M ≠ []) :
    opens (ev.mark M) = ev.effect (opens M) := by
  cases ev with
  | call e => rfl
  | ret e =>
    obtain ⟨g, S, hS⟩ := List.exists_cons_of_ne_nil (h e rfl)
    obtain ⟨above, below, rfl, habove, hbelow⟩ := split_opens hS
    rw [mark_ret habove, hS, hbelow]
    rfl
  | jump n => exact opens_discard n M

end

/-! ## Names -/

section
variable {sym : UInt64 → SymInfo} {earliest : UInt64} {M : List JumpFrame} {ev : JumpEvent} {d : Dec}

variable (sym) in
/-- No discarded frame has the name of an open one under it. -/
def NamesApart (M : List JumpFrame) : Prop :=
  M.Pairwise fun f g => f.discarded = true → g.discarded = false → nameOf sym f.entry ≠ nameOf sym g.entry

theorem open_of_mem_discard {g : JumpFrame} (hg : g.discarded = false) : ∀ {n : ℕ} {M : List JumpFrame},
    g ∈ discard n M → g ∈ M ∧ g.entry ∈ (opens M).drop n
  | 0, M, h => by
    rw [discard_zero] at h
    exact ⟨h, List.mem_map.2 ⟨g, List.mem_filter.2 ⟨h, by simp [hg]⟩, rfl⟩⟩
  | n + 1, f :: M, h => by
    rw [discard] at h
    cases hf : f.discarded with
    | true =>
      rw [if_pos hf] at h
      rw [opens_cons_discarded hf]
      rcases List.mem_cons.1 h with rfl | h
      · rw [hf] at hg
        cases hg
      · obtain ⟨hmem, hdrop⟩ := open_of_mem_discard hg h
        exact ⟨List.mem_cons_of_mem f hmem, hdrop⟩
    | false =>
      rw [if_neg (by simp [hf])] at h
      rw [opens_cons_open hf, List.drop_succ_cons]
      rcases List.mem_cons.1 h with rfl | h
      · cases hg
      · obtain ⟨hmem, hdrop⟩ := open_of_mem_discard hg h
        exact ⟨List.mem_cons_of_mem f hmem, hdrop⟩

theorem mem_discard {g : JumpFrame} (hg : g.discarded = true) : ∀ {n : ℕ} {M : List JumpFrame},
    g ∈ discard n M → g ∈ M ∨ g.entry ∈ (opens M).take n
  | 0, M, h => by
    rw [discard_zero] at h
    exact Or.inl h
  | n + 1, f :: M, h => by
    rw [discard] at h
    cases hf : f.discarded with
    | true =>
      rw [if_pos hf] at h
      rw [opens_cons_discarded hf]
      rcases List.mem_cons.1 h with rfl | h
      · exact Or.inl List.mem_cons_self
      · exact (mem_discard hg h).imp_left (List.mem_cons_of_mem f)
    | false =>
      rw [if_neg (by simp [hf])] at h
      rw [opens_cons_open hf, List.take_succ_cons]
      rcases List.mem_cons.1 h with rfl | h
      · exact Or.inr List.mem_cons_self
      · exact (mem_discard hg h).imp (List.mem_cons_of_mem f) (List.mem_cons_of_mem _)

/-- A jump that discards no frame of a name that is left. -/
theorem NamesApart.discard : ∀ {n : ℕ} {M : List JumpFrame}, NamesApart sym M →
    (∀ f ∈ (opens M).take n, ∀ g ∈ (opens M).drop n, nameOf sym f ≠ nameOf sym g) →
      NamesApart sym (discard n M)
  | 0, M, h, _ => by rwa [discard_zero]
  | n + 1, [], h, _ => h
  | n + 1, f :: M, h, hnames => by
    obtain ⟨hhead, htail⟩ := List.pairwise_cons.1 h
    rw [Funtrace.discard]
    cases hf : f.discarded with
    | true =>
      rw [opens_cons_discarded hf] at hnames
      rw [if_pos rfl]
      refine List.pairwise_cons.2 ⟨fun g hg hdisc hopen => ?_, NamesApart.discard htail hnames⟩
      exact hhead g (open_of_mem_discard hopen hg).1 hf hopen
    | false =>
      rw [opens_cons_open hf, List.take_succ_cons, List.drop_succ_cons] at hnames
      rw [if_neg (by simp)]
      refine List.pairwise_cons.2 ⟨fun g hg _ hopen => ?_, NamesApart.discard htail fun x hx =>
        hnames x (List.mem_cons_of_mem _ hx)⟩
      exact hnames _ List.mem_cons_self _ (open_of_mem_discard hopen hg).2

theorem NamesApart.mark (h : NamesApart sym M) (hlegal : ev.Legal sym (opens M)) : NamesApart sym (ev.mark M) := by
  cases ev with
  | call e =>
    refine List.pairwise_cons.2 ⟨fun g _ hdisc => ?_, h⟩
    cases hdisc
  | ret e => exact List.Pairwise.sublist ((List.tail_sublist _).trans (List.dropWhile_sublist _)) h
  | jump n => exact h.discard hlegal.2

/-! ## The decoder -/

/-- The frames above the first open one. -/
def staleTop (M : List JumpFrame) : List FunTraceEntry :=
  (M.takeWhile JumpFrame.discarded).map JumpFrame.entry

theorem staleTop_append {above below : List JumpFrame} {g : FunTraceEntry}
    (habove : ∀ x ∈ above, x.discarded = true) :
    staleTop (above ++ ⟨g, false⟩ :: below) = above.map JumpFrame.entry := by
  rw [staleTop, takeWhile_split below habove rfl]

variable (earliest) in
/-- **A return** pops the discarded frames above the innermost open one, and that. -/
theorem handle_jumpRet {e f : FunTraceEntry} {S : List FunTraceEntry} (hM : NamesApart sym M)
    (hd : d.stack = M.map JumpFrame.entry) (hS : opens M = f :: S)
    (hlegal : (JumpEvent.ret e).Legal sym (opens M)) :
    (handle sym earliest d e).1.stack = ((JumpEvent.ret e).mark M).map JumpFrame.entry ∧
      (handle sym earliest d e).2 = popCalls sym e.cycle 0 (staleTop M ++ [f]) ∧
      ¬ Unmatched sym d.stack e := by
  obtain ⟨hret, hw, g, hg, hname⟩ := hlegal
  rw [hS, List.head?_cons, Option.mem_def, Option.some.injEq] at hg
  subst hg
  obtain ⟨above, below, rfl, habove, -⟩ := split_opens hS
  -- The frames above have other names than the frame that returns.
  have hothers : ∀ x ∈ above.map JumpFrame.entry, decide (nameOf sym e ≠ nameOf sym x) = true := by
    intro y hy
    obtain ⟨x, hx, rfl⟩ := List.mem_map.1 hy
    have hne := (List.pairwise_append.1 hM).2.2 x hx _ List.mem_cons_self (habove x hx) rfl
    rw [hname]
    exact decide_eq_true (Ne.symm hne)
  have hstack : d.stack = above.map JumpFrame.entry ++ f :: below.map JumpFrame.entry := by
    rw [hd, List.map_append]
    rfl
  have hcount : popCount sym d.stack e = (above.map JumpFrame.entry).length + 1 := by
    rw [popCount_own hret hw, hstack, takeWhile_split _ hothers (by simp [hname])]
  have hu : ¬ Unmatched sym d.stack e := fun hu => by
    refine hu.2.2.2 f ?_ hname
    rw [hstack]
    simp
  have hne : d.stack ≠ [] := by
    rw [hstack]
    simp
  have hcall : e.isCall = false := by simp [FunTraceEntry.isCall, hret]
  obtain ⟨hpop, -, hcalls⟩ := @handle_pop sym earliest d e hcall fun _ => hne
  have htake : d.stack.take (popCount sym d.stack e) = above.map JumpFrame.entry ++ [f] := by
    rw [hcount, hstack, List.take_append]
    simp
  have hdrop : d.stack.drop (popCount sym d.stack e) = below.map JumpFrame.entry := by
    rw [hcount, hstack, List.drop_append]
    simp
  refine ⟨?_, ?_, hu⟩
  · rw [hpop, hdrop, mark_ret habove]
  · rw [hcalls, htake, repeated_eq_nil.2 hu, List.append_nil, staleTop_append habove, firstExtra,
      if_neg (by simp [FunTraceEntry.isCatch_of_isRet hret])]
    rfl

variable (earliest) in
/-- **The decoder follows an event**: its stack stays the marked one. -/
theorem handle_jump (hM : NamesApart sym M) (hd : d.stack = M.map JumpFrame.entry)
    (hlegal : ev.Legal sym (opens M)) :
    NamesApart sym (ev.mark M) ∧ opens (ev.mark M) = ev.effect (opens M) ∧
      (runEntries sym earliest d ev.entry.toList).1.stack = (ev.mark M).map JumpFrame.entry ∧
      ∀ s ∈ runSteps sym earliest d ev.entry.toList, ¬ Unmatched sym s.1.stack s.2 ∧
        (s.2.isRet → s.1.stack ≠ []) := by
  have hopens : opens (ev.mark M) = ev.effect (opens M) := opens_mark fun e he hnil => by
    subst he
    obtain ⟨-, -, f, hf, -⟩ := hlegal
    rw [hnil] at hf
    cases hf
  refine ⟨hM.mark hlegal, hopens, ?_⟩
  cases ev with
  | call e =>
    have he : e.isCall := hlegal
    constructor
    · simp [JumpEvent.entry, JumpEvent.mark, runEntries, handle_call _ _ he, hd]
    · intro s hs
      obtain rfl := List.mem_singleton.1 hs
      have hret := FunTraceEntry.isRet_of_isCall he
      exact ⟨fun hu => by simp [hu.1] at hret, fun h => by simp [h] at hret⟩
  | ret e =>
    obtain ⟨f, S, hS⟩ : ∃ f S, opens M = f :: S := by
      obtain ⟨-, -, f, hf, -⟩ := hlegal
      exact ⟨f, _, List.eq_cons_of_mem_head? hf⟩
    obtain ⟨hstack, -, hu⟩ := handle_jumpRet earliest hM hd hS hlegal
    refine ⟨hstack, fun s hs => ?_⟩
    obtain rfl := List.mem_singleton.1 hs
    refine ⟨hu, fun _ hnil => ?_⟩
    rw [hd, List.map_eq_nil_iff] at hnil
    rw [hnil] at hS
    cases hS
  | jump n =>
    refine ⟨?_, by simp [JumpEvent.entry, runSteps]⟩
    rw [JumpEvent.mark, map_entry_discard]
    exact hd

variable (earliest) in
/-- **The decoder follows a run.** -/
theorem run_jump : ∀ (run : List JumpEvent) {d : Dec} {M : List JumpFrame}, NamesApart sym M →
    d.stack = M.map JumpFrame.entry → LegalJumps sym run (opens M) →
      NamesApart sym (marked run M) ∧ opens (marked run M) = jumpStack run (opens M) ∧
        (runEntries sym earliest d (jumpLog run)).1.stack = (marked run M).map JumpFrame.entry ∧
        ∀ s ∈ runSteps sym earliest d (jumpLog run), ¬ Unmatched sym s.1.stack s.2 ∧
          (s.2.isRet → s.1.stack ≠ [])
  | [], d, M, hM, hd, _ => ⟨hM, rfl, hd, by simp [jumpLog, runSteps]⟩
  | ev :: run, d, M, hM, hd, ⟨hlegal, hrun⟩ => by
    obtain ⟨hM', hopens, hstack, hsteps⟩ := handle_jump earliest hM hd hlegal
    rw [← hopens] at hrun
    obtain ⟨hfinal, hopens', hstack', hsteps'⟩ := run_jump run hM' hstack hrun
    have hlog : jumpLog (ev :: run) = ev.entry.toList ++ jumpLog run := by
      cases ev <;> rfl
    refine ⟨hfinal, ?_, ?_, ?_⟩
    · rw [marked, hopens', hopens]
      rfl
    · rw [hlog, runEntries_append]
      exact hstack'
    · rw [hlog, runSteps_append]
      intro s hs
      rcases List.mem_append.1 hs with hs | hs
      · exact hsteps s hs
      · exact hsteps' s hs

/-! ## Parts of a run -/

theorem jumpLog_append (run run' : List JumpEvent) : jumpLog (run ++ run') = jumpLog run ++ jumpLog run' :=
  List.filterMap_append

theorem legalJumps_append {run run' : List JumpEvent} : ∀ {S : List FunTraceEntry},
    LegalJumps sym (run ++ run') S ↔ LegalJumps sym run S ∧ LegalJumps sym run' (jumpStack run S) := by
  induction run with
  | nil =>
    intro S
    exact ⟨fun h => ⟨trivial, h⟩, fun h => h.2⟩
  | cons ev run ih =>
    intro S
    rw [List.cons_append, LegalJumps, LegalJumps, ih, and_assoc]
    rfl

/-- What is marked was discarded by the run. -/
theorem discardedBy_of_mem : ∀ {run : List JumpEvent} {M : List JumpFrame}, LegalJumps sym run (opens M) →
    ∀ x ∈ marked run M, x.discarded = true → x ∈ M ∨ x.entry ∈ discardedBy run (opens M)
  | [], _, _, x, hx, _ => Or.inl hx
  | ev :: run, M, ⟨hlegal, hrun⟩, x, hx, hdisc => by
    have hopens : opens (ev.mark M) = ev.effect (opens M) := opens_mark fun e he hnil => by
      subst he
      obtain ⟨-, -, f, hf, -⟩ := hlegal
      rw [hnil] at hf
      cases hf
    rw [← hopens] at hrun
    have ih := discardedBy_of_mem hrun x hx hdisc
    rw [hopens] at ih
    cases ev with
    | call e =>
      refine ih.imp_left fun hmem => ?_
      rcases List.mem_cons.1 hmem with rfl | hmem
      · cases hdisc
      · exact hmem
    | ret e =>
      exact ih.imp_left fun hmem => (List.dropWhile_sublist _).subset (List.mem_of_mem_tail hmem)
    | jump n =>
      rw [discardedBy, List.mem_append]
      rcases ih with hmem | hlater
      · exact (mem_discard hdisc hmem).imp_right Or.inl
      · exact Or.inr (Or.inr hlater)

end

/-! ## Samples -/

namespace TraceConverter
variable (w : World) (c : TraceConverter) (sampleEntries : List ThreadTrace)
  (ftraceEvents : List FtraceEvent)

/-- The entries of a thread are the log of a run that starts with an empty stack, and the decoder
    takes them all: the addresses resolve, there is no thunk, and nothing is too old. -/
structure IsJumpRun (i : Fin sampleEntries.length) (sym : UInt64 → SymInfo) (run : List JumpEvent) :
    Prop where
  selected : c.selects (sampleEntries.get i)
  trace_eq : (sampleEntries.get i).trace = jumpLog run
  legal : LegalJumps sym run []
  sorted : (sampleEntries.get i).trace.Pairwise (·.cycle ≤ ·.cycle)
  resolves : (c.sampleLookup w sampleEntries ftraceEvents).Resolves sym (sampleEntries.get i).trace
  recent : ∀ e ∈ (sampleEntries.get i).trace, c.oldestEvent sampleEntries ftraceEvents ≤ e.cycle

/-- What the decoder makes of a run with jumps. -/
structure Recovers (i : Fin sampleEntries.length) (sym : UInt64 → SymInfo) (run : List JumpEvent) :
    Prop where
  /-- A return writes discarded frames, and last the invocation that returns, which ends one
      nanosecond after the return for each of them. -/
  returned : ∀ pre e post, run = pre ++ .ret e :: post → ∃ f popped calls last,
    (jumpStack pre []).head? = some f ∧ popped ⊆ discardedBy pre [] ∧
    (c.loopAfter w sampleEntries ftraceEvents i ((jumpLog pre).length + 1)).2 =
      (c.loopAfter w sampleEntries ftraceEvents i (jumpLog pre).length).2 ++ (calls ++ [last]) ∧
    calls.map FunctionCall.key = popped.map (fun g => (symOf sym g, g.cycle)) ∧
    last.key = (symOf sym f, f.cycle) ∧
    (popped.length < 2 ^ 31 →
      last.interval c.cpuFreq (c.thresholds sampleEntries ftraceEvents).2 =
        (place c.cpuFreq (c.thresholds sampleEntries ftraceEvents).2 f.cycle,
          place c.cpuFreq (c.thresholds sampleEntries ftraceEvents).2 e.cycle + popped.length / 1000))
  /-- What is open stays on the stack. -/
  kept : ∀ pre post, run = pre ++ post → (jumpStack pre []).Sublist
    (c.loopAfter w sampleEntries ftraceEvents i (jumpLog pre).length).1.2.stack
  /-- Every invocation is written once, with the time of its call. -/
  once : (((c.sampleCalls w sampleEntries ftraceEvents).getD i []).map FunctionCall.key).Perm
    (((jumpLog run).filter FunTraceEntry.isCall).map fun f => (symOf sym f, f.cycle))

section
variable {w c sampleEntries ftraceEvents} {i : Fin sampleEntries.length}
  {sym : UInt64 → SymInfo} {run : List JumpEvent}

/-- The loop over the log of the first events of a run. -/
theorem IsJumpRun.loop_eq (h : c.IsJumpRun w sampleEntries ftraceEvents i sym run) :
    ∃ earliest, ∀ k,
      (c.loopAfter w sampleEntries ftraceEvents i k).1.2 =
        (runEntries sym earliest Dec.init ((jumpLog run).take k)).1 ∧
      (c.loopAfter w sampleEntries ftraceEvents i k).2 =
        (runEntries sym earliest Dec.init ((jumpLog run).take k)).2 :=
  ⟨_, fun k => Prod.mk.inj ((loopAfter_resolved h.selected h.resolves h.recent k).trans
    (congrArg (fun es => runEntries sym _ Dec.init (es.take k)) h.trace_eq))⟩

theorem IsJumpRun.kept (h : c.IsJumpRun w sampleEntries ftraceEvents i sym run)
    {pre post : List JumpEvent} (hrun : run = pre ++ post) : (jumpStack pre []).Sublist
      (c.loopAfter w sampleEntries ftraceEvents i (jumpLog pre).length).1.2.stack := by
  obtain ⟨earliest, hloop⟩ := h.loop_eq
  have hlegal := h.legal
  rw [hrun, legalJumps_append] at hlegal
  obtain ⟨-, hopens, hstack, -⟩ := run_jump earliest pre (d := Dec.init) (M := []) List.Pairwise.nil rfl
    hlegal.1
  have htake : (jumpLog run).take (jumpLog pre).length = jumpLog pre := by
    rw [hrun, jumpLog_append, List.take_left]
  rw [(hloop _).1, htake, hstack]
  have hreal : jumpStack pre [] = opens (marked pre []) := hopens.symm
  rw [hreal]
  exact List.filter_sublist.map _

theorem IsJumpRun.returned (h : c.IsJumpRun w sampleEntries ftraceEvents i sym run)
    {pre post : List JumpEvent} {e : FunTraceEntry} (hrun : run = pre ++ .ret e :: post) :
    ∃ f popped calls last,
      (jumpStack pre []).head? = some f ∧ popped ⊆ discardedBy pre [] ∧
      (c.loopAfter w sampleEntries ftraceEvents i ((jumpLog pre).length + 1)).2 =
        (c.loopAfter w sampleEntries ftraceEvents i (jumpLog pre).length).2 ++ (calls ++ [last]) ∧
      calls.map FunctionCall.key = popped.map (fun g => (symOf sym g, g.cycle)) ∧
      last.key = (symOf sym f, f.cycle) ∧
      (popped.length < 2 ^ 31 →
        last.interval c.cpuFreq (c.thresholds sampleEntries ftraceEvents).2 =
          (place c.cpuFreq (c.thresholds sampleEntries ftraceEvents).2 f.cycle,
            place c.cpuFreq (c.thresholds sampleEntries ftraceEvents).2 e.cycle +
              popped.length / 1000)) := by
  obtain ⟨earliest, hloop⟩ := h.loop_eq
  have hlegal := h.legal
  rw [hrun, legalJumps_append] at hlegal
  obtain ⟨hpre, hret, -⟩ := hlegal
  obtain ⟨hapart, hopens, hstack, -⟩ := run_jump earliest pre (d := Dec.init) (M := []) List.Pairwise.nil rfl
    hpre
  have hreal : opens (marked pre []) = jumpStack pre [] := hopens
  rw [← hreal] at hret ⊢
  obtain ⟨f, S, hS⟩ : ∃ f S, opens (marked pre []) = f :: S := by
    obtain ⟨-, -, f, hf, -⟩ := hret
    exact ⟨f, _, List.eq_cons_of_mem_head? hf⟩
  obtain ⟨-, hcalls, -⟩ := handle_jumpRet earliest hapart hstack hS hret
  have hlog : jumpLog run = jumpLog pre ++ e :: jumpLog post := by
    rw [hrun, jumpLog_append]
    rfl
  have htake : (jumpLog run).take (jumpLog pre).length = jumpLog pre := by rw [hlog, List.take_left]
  have htake' : (jumpLog run).take ((jumpLog pre).length + 1) = jumpLog pre ++ [e] := by
    rw [hlog, List.take_append]
    simp
  refine ⟨f, staleTop (marked pre []), popCalls sym e.cycle 0 (staleTop (marked pre [])),
    ⟨symOf sym f, f.cycle, e.cycle, (staleTop (marked pre [])).length⟩, by rw [hS]; rfl, ?_, ?_, ?_, rfl, ?_⟩
  · intro g hg
    obtain ⟨x, hx, rfl⟩ := List.mem_map.1 hg
    have hdisc : x.discarded = true := List.mem_takeWhile_imp hx
    have hmem := (List.takeWhile_sublist _).subset hx
    exact (discardedBy_of_mem (M := []) hpre x hmem hdisc).resolve_left List.not_mem_nil
  · rw [(hloop _).2, (hloop _).2, htake, htake', runEntries_append]
    simp only [runEntries, hcalls, List.append_nil, popCalls_append, popCalls, zero_add]
  · exact key_popCalls sym e.cycle _ 0
  · intro hfit
    have hf : f ∈ jumpLog pre := by
      have hmem : f ∈ (runEntries sym earliest Dec.init (jumpLog pre)).1.stack := by
        rw [hstack]
        have hopen : f ∈ opens (marked pre []) := by simp [hS]
        exact (List.filter_sublist.map _).subset hopen
      exact mem_of_mem_stack hmem
    have hsorted := h.sorted
    rw [h.trace_eq, hlog] at hsorted
    have hle := (List.pairwise_append.1 hsorted).2.2 f hf e List.mem_cons_self
    have hbase : (c.thresholds sampleEntries ftraceEvents).2 ≤ f.cycle :=
      UInt64.le_trans (c.timeBase_le_oldest _ _)
        (h.recent f (by rw [h.trace_eq, hlog]; exact List.mem_append_left _ hf))
    exact interval_pop c.cpuFreq hbase hle hfit

theorem IsJumpRun.once (h : c.IsJumpRun w sampleEntries ftraceEvents i sym run) :
    (((c.sampleCalls w sampleEntries ftraceEvents).getD i []).map FunctionCall.key).Perm
      (((jumpLog run).filter FunTraceEntry.isCall).map fun f => (symOf sym f, f.cycle)) := by
  rw [threadCalls_resolved h.selected h.resolves h.recent]
  generalize max ((sampleEntries.get i).trace.head _).cycle _ = earliest
  generalize ((sampleEntries.get i).trace.getLast _).cycle = latest
  rw [h.trace_eq]
  obtain ⟨-, -, -, hsteps⟩ := run_jump earliest run (d := Dec.init) (M := []) List.Pairwise.nil rfl h.legal
  have hperm := (conserved_decodeReported sym earliest latest (jumpLog run)).2 fun s hs => (hsteps s hs).1
  rwa [dueKeys_eq sym earliest fun s hs => (hsteps s hs).2] at hperm

/-- **Recovery from jumps.**  In a run of calls, returns and jumps no discarded frame of which has
    the name of an open one below it, a return writes the discarded frames above its own and then
    that, no open frame is popped, and every invocation is written once. -/
theorem recovers_jumps (h : c.IsJumpRun w sampleEntries ftraceEvents i sym run) :
    c.Recovers w sampleEntries ftraceEvents i sym run where
  returned _ _ _ hrun := h.returned hrun
  kept _ _ hrun := h.kept hrun
  once := h.once

end

/-- `f` calls `g`, which calls `h`, which jumps back to `f`; then `f` returns. -/
theorem recovers_jumps_demo :
    let sample := [demoThread ⟨0x1100, 10⟩ [⟨0x1200, 20⟩, ⟨0x1300, 30⟩, .traced 0x1100 returnFlag 40]]
    demoConverter.Recovers demoWorld sample [] 0 (demoConverter.sampleLookup demoWorld sample []).sym
      [.call ⟨0x1100, 10⟩, .call ⟨0x1200, 20⟩, .call ⟨0x1300, 30⟩, .jump 2,
        .ret (.traced 0x1100 returnFlag 40)] := by
  intro sample
  refine recovers_jumps
    { selected := by decide
      trace_eq := rfl
      legal := ?_
      sorted := by decide +kernel
      resolves := ⟨fun e _ => rfl, by decide +kernel⟩
      recent := by decide +kernel }
  have hcalls : ∀ e ∈ [⟨0x1100, 10⟩, ⟨0x1200, 20⟩, ⟨0x1300, 30⟩], FunTraceEntry.isCall e := by decide
  refine ⟨hcalls _ (by simp), hcalls _ (by simp), hcalls _ (by simp), ⟨by decide, ?_⟩,
    ⟨by decide, by decide, _, rfl, rfl⟩, trivial⟩
  decide +kernel

/-- A traced thunk: the decoder ignores its call and its return. -/
theorem not_recovers_thunk :
    let sample := [demoThread ⟨0x1400, 10⟩ [.traced 0x1400 returnFlag 20]]
    let run := [JumpEvent.call ⟨0x1400, 10⟩, .ret (.traced 0x1400 returnFlag 20)]
    LegalJumps (demoConverter.sampleLookup demoWorld sample []).sym run [] ∧
      ¬ demoConverter.Recovers demoWorld sample [] 0
        (demoConverter.sampleLookup demoWorld sample []).sym run := by
  intro sample run
  refine ⟨⟨show FunTraceEntry.isCall _ by decide, ⟨by decide, by decide, _, rfl, rfl⟩, trivial⟩,
    fun h => ?_⟩
  have hlength := h.once.length_eq
  revert hlength
  decide +kernel

end TraceConverter

end Funtrace
