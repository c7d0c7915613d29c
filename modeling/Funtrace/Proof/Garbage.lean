/-
  What garbage collection leaves and what it frees.

  The loop takes an element out by moving the last one to its place, and looks at
  that place again.  The elements before the place it looks at are kept ones
  (`Swept`), and what it took out so far it freed in the order it met it, so that at
  its end the list has just the elements that are kept, and just the others have been
  freed, each once (`collectGarbage_exact`).
-/
import Funtrace.Proof.Registry

namespace Funtrace

/-- Taking an element out by `swapRemove` leaves those before it where they are. -/
theorem take_swapRemove {α : Type} {l : List α} {i : ℕ} {x : α} (hx : l[i]? = some x) :
    (swapRemove l i).take i = l.take i := by
  obtain ⟨hi, -⟩ := List.getElem?_eq_some_iff.1 hx
  obtain ⟨init, y, rfl⟩ := List.eq_nil_or_concat l |>.resolve_left (by rintro rfl; simp at hi)
  rw [List.concat_eq_append, List.length_append, List.length_singleton] at hi
  rw [List.concat_eq_append]
  have hle : i ≤ init.length := by omega
  simp only [swapRemove, List.getLast?_append, List.getLast?_singleton, Option.some_or]
  rw [List.dropLast_eq_take, List.take_take, List.length_set, List.length_append,
    List.length_singleton, Nat.add_sub_cancel, Nat.min_eq_left hle, List.take_set_of_le (Nat.le_refl i)]

namespace Process
variable {s : Process} {r : TraceRef} {now : UInt64}

/-! ## Freeing traces -/

/-- `thread_traces[i]->free(); delete thread_traces[i]`. -/
def deleteTrace (s : Process) (r : TraceRef) : Process :=
  { s.freeBuffer r with
    copies := match r with
      | .copy n => s.copies.free n
      | .tls _ => { s.copies with badFrees := s.copies.badFrees + 1 } }

/-- Traces are deleted one after the other. -/
def deleteTraces (s : Process) (freed : List TraceRef) : Process := freed.foldl deleteTrace s

/-- With another list of traces. -/
def withTraces (s : Process) (l : List TraceRef) : Process := { s with threadTraces := l }

theorem collectAt_eq (i : ℕ) :
    s.collectAt i r = (s.deleteTrace r).withTraces (swapRemove s.threadTraces i) := rfl

@[simp] theorem withTraces_threadTraces (l : List TraceRef) : (s.withTraces l).threadTraces = l := rfl

@[simp] theorem withTraces_withTraces (l l' : List TraceRef) :
    (s.withTraces l).withTraces l' = s.withTraces l' := rfl

theorem deleteTraces_withTraces (l : List TraceRef) : ∀ (freed : List TraceRef) (s : Process),
    (s.withTraces l).deleteTraces freed = (s.deleteTraces freed).withTraces l
  | [], _ => rfl
  | r :: freed, s => deleteTraces_withTraces l freed (s.deleteTrace r)

theorem deleteTraces_withExiting (e : Bool) : ∀ (freed : List TraceRef) (s : Process),
    deleteTraces { s with exiting := e } freed = { s.deleteTraces freed with exiting := e }
  | [], _ => rfl
  | r :: freed, s => deleteTraces_withExiting e freed (s.deleteTrace r)

theorem data_deleteTrace_of_ne {r' : TraceRef} (hne : r' ≠ r) :
    (s.deleteTrace r).data r' = s.data r' :=
  Function.update_of_ne hne _ _

theorem data_deleteTraces {freed : List TraceRef} (hr : r ∉ freed) :
    (s.deleteTraces freed).data r = s.data r := by
  induction freed generalizing s with
  | nil => rfl
  | cons r' freed ih =>
    rw [List.mem_cons, not_or] at hr
    obtain ⟨hne, hr⟩ := hr
    exact (ih hr).trans (data_deleteTrace_of_ne hne)

/-- Freeing a trace does not make another one collectable. -/
theorem collectable_collectAt (i : ℕ) :
    (s.collectAt i r).collectable now = s.collectable now := by
  funext r'
  by_cases hne : r' = r
  · subst hne
    simp [collectable, collectAt, freeBuffer, write, TraceData.free]
  · simp [collectable, collectAt, freeBuffer, write, hne]

/-- The copies that are left. -/
theorem live_deleteTraces {n : ℕ} {freed : List TraceRef} :
    (s.deleteTraces freed).copies.Live n ↔ s.copies.Live n ∧ .copy n ∉ freed := by
  induction freed generalizing s with
  | nil => simp [deleteTraces]
  | cons r freed ih =>
    have hstep : (s.deleteTrace r).copies.Live n ↔ s.copies.Live n ∧ .copy n ≠ r := by
      cases r with
      | copy m => simp [deleteTrace, Heap.live_free, and_comm]
      | tls t => simp [deleteTrace, Heap.Live]
    refine (ih (s := s.deleteTrace r)).trans ?_
    rw [hstep, List.mem_cons, not_or, and_assoc]

/-- The trace buffers that are left. -/
theorem mem_blocks_deleteTraces {b : UInt64 × UInt64} (hb : b.1 ≠ 0) {freed : List TraceRef} :
    b ∈ (s.deleteTraces freed).buffers.blocks ↔
      b ∈ s.buffers.blocks ∧ ∀ r ∈ freed, (s.data r).buf ≠ b.1 := by
  induction freed generalizing s with
  | nil => simp [deleteTraces]
  | cons r freed ih =>
    have hstep : b ∈ (s.deleteTrace r).buffers.blocks ↔
        b ∈ s.buffers.blocks ∧ (s.data r).buf ≠ b.1 := by
      simp only [deleteTrace, freeBuffer]
      split_ifs with hbuf
      · exact ⟨fun hmem => ⟨hmem, fun h => hb (h ▸ hbuf)⟩, And.left⟩
      · rw [Heap.mem_free, and_comm, ne_comm]
    -- A trace that is freed twice has no buffer left the second time.
    have hrest : (∀ r' ∈ freed, ((s.deleteTrace r).data r').buf ≠ b.1) ∧ (s.data r).buf ≠ b.1 ↔
        ∀ r' ∈ r :: freed, (s.data r').buf ≠ b.1 := by
      rw [List.forall_mem_cons, and_comm]
      refine and_congr_right fun hr => forall₂_congr fun r' _ => ?_
      by_cases hne : r' = r
      · subst hne
        have hnull : ((s.deleteTrace r').data r').buf = 0 := by
          simp [deleteTrace, freeBuffer, write, TraceData.free]
        rw [hnull]
        exact ⟨fun _ => hr, fun _ => hb.symm⟩
      · rw [data_deleteTrace_of_ne hne]
    refine (ih (s := s.deleteTrace r)).trans ?_
    rw [hstep, ← hrest]
    tauto

/-! ## The loop -/

/-- What lies before the place that the loop looks at is kept. -/
def Swept (now : UInt64) (i : ℕ) (s : Process) : Prop :=
  ∀ r ∈ s.threadTraces.take i, s.collectable now r = false

theorem Swept.next {i : ℕ} (h : Swept now i s) (hr : s.threadTraces[i]? = some r)
    (hc : s.collectable now r = false) : Swept now (i + 1) s := by
  intro r' hr'
  rw [List.take_add_one, hr, Option.toList_some, List.mem_append, List.mem_singleton] at hr'
  rcases hr' with hr' | rfl
  · exact h r' hr'
  · exact hc

theorem Swept.collectAt {i : ℕ} (h : Swept now i s) (hr : s.threadTraces[i]? = some r) :
    Swept now i (s.collectAt i r) := by
  intro r' hr'
  rw [collectable_collectAt]
  refine h r' ?_
  rwa [← take_swapRemove hr]

/-- The loop keeps what is not collectable and frees the rest. -/
theorem collectLoop_exact : ∀ (fuel i : ℕ) (s : Process), s.threadTraces.length ≤ fuel + i →
    Swept now i s → ∃ freed, freed.Perm (s.threadTraces.filter (s.collectable now)) ∧
      (collectLoop now fuel i s).threadTraces.Perm
        (s.threadTraces.filter fun r => !s.collectable now r) ∧
      collectLoop now fuel i s =
        (s.deleteTraces freed).withTraces (collectLoop now fuel i s).threadTraces := by
  have hstop : ∀ (i : ℕ) (s : Process), s.threadTraces.length ≤ i → Swept now i s →
      ∃ freed, freed.Perm (s.threadTraces.filter (s.collectable now)) ∧
        s.threadTraces.Perm (s.threadTraces.filter fun r => !s.collectable now r) ∧
        s = (s.deleteTraces freed).withTraces s.threadTraces := by
    intro i s hi hswept
    rw [Swept, List.take_of_length_le hi] at hswept
    refine ⟨[], ?_, ?_, rfl⟩
    · rw [List.filter_eq_nil_iff.2 fun r hr => by simp [hswept r hr]]
    · rw [List.filter_eq_self.2 fun r hr => by simp [hswept r hr]]
  intro fuel
  induction fuel with
  | zero =>
    intro i s hlen hswept
    exact hstop i s (by omega) hswept
  | succ fuel ih =>
    intro i s hlen hswept
    unfold collectLoop
    split
    · next hnone => exact hstop i s (List.getElem?_eq_none_iff.1 hnone) hswept
    · next r hr =>
      split_ifs with hc
      · have hlen' := length_swapRemove hr
        obtain ⟨freed, hfreed, hkept, heq⟩ := ih i (s.collectAt i r)
          (by simp only [collectAt_eq, withTraces_threadTraces]; omega) (hswept.collectAt hr)
        have hperm : (r :: (s.collectAt i r).threadTraces).Perm s.threadTraces := swapRemove_perm hr
        rw [collectable_collectAt] at hfreed hkept
        refine ⟨r :: freed, ?_, hkept.trans ?_, ?_⟩
        · refine (hfreed.cons r).trans (.trans ?_ (hperm.filter _))
          rw [List.filter_cons_of_pos hc]
        · refine .trans ?_ (hperm.filter _)
          rw [List.filter_cons_of_neg (by simp [hc])]
        · rw [collectAt_eq, deleteTraces_withTraces, withTraces_withTraces] at heq
          exact heq
      · exact ih (i + 1) s (by omega) (hswept.next hr (by simpa using hc))

/-! ## Garbage collection -/

/-- A finished thread's trace that is not to be kept: the program exits, or the trace has reached
    the age limit. -/
def Expired (s : Process) (exiting : Bool) (now : UInt64) (r : TraceRef) : Prop :=
  (s.data r).thread = 0 ∧
    (exiting ∨ s.gcMaxAgeMs ≤ (now.toNat : ℤ) - (s.data r).timeOfDeathMs.toNat)

instance (s : Process) (exiting : Bool) (now : UInt64) : DecidablePred (s.Expired exiting now) :=
  fun _ => inferInstanceAs (Decidable (_ ∧ (_ ∨ _)))

theorem collectable_iff (hage : 0 < s.gcMaxAgeMs)
    (hdeath : (s.data r).thread = 0 → (s.data r).timeOfDeathMs ≤ now ∧
      (s.data r).timeOfDeathMs.toNat + s.gcMaxAgeMs < 2 ^ 64) :
    s.collectable now r ↔ s.Expired s.exiting now r := by
  simp only [collectable, decide_eq_true_eq, Expired]
  refine and_congr_right fun hr => or_congr_right ?_
  obtain ⟨hle, hlt⟩ := hdeath hr
  obtain ⟨age, hage⟩ := Int.eq_ofNat_of_zero_le (Int.le_of_lt hage)
  rw [hage] at hlt ⊢
  have hsum : ((s.data r).timeOfDeathMs + UInt64.ofInt age).toNat =
      (s.data r).timeOfDeathMs.toNat + age := by
    rw [UInt64.toNat_add, UInt64.ofInt, UInt64.toNat_ofNat']
    omega
  rw [gt_iff_lt, UInt64.lt_iff_toNat_lt, hsum]
  rw [UInt64.le_iff_toNat_le] at hle
  omega

/-- **Garbage collection is exact.**  The traces that are kept are those of live threads and, unless
    the program exits, those of finished ones below the age limit, each as often as before and as
    they were; every other one is freed, once, and nothing that is not allocated is. -/
theorem collectGarbage_exact (s : Process) (exitingProgram : Bool) (clock : ClockReading)
    (now : UInt64) (hclock : clock.currentTimeMs = some now) (hage : 0 < s.gcMaxAgeMs)
    (hdeath : ∀ r ∈ s.threadTraces, (s.data r).thread = 0 → (s.data r).timeOfDeathMs ≤ now ∧
      (s.data r).timeOfDeathMs.toNat + s.gcMaxAgeMs < 2 ^ 64) :
    let expired := s.Expired (s.exiting || exitingProgram) now
    ∃ kept freed,
      kept.Perm (s.threadTraces.filter fun r => ¬ expired r) ∧
      freed.Perm (s.threadTraces.filter fun r => expired r) ∧
      (∀ r ∈ kept, (s.deleteTraces freed).data r = s.data r) ∧
      s.collectGarbage exitingProgram clock = some { s.deleteTraces freed with
        threadTraces := kept, exiting := s.exiting || exitingProgram } ∧
      (∀ n, (s.deleteTraces freed).copies.Live n ↔ s.copies.Live n ∧ .copy n ∉ freed) ∧
      (∀ b, b.1 ≠ 0 → (b ∈ (s.deleteTraces freed).buffers.blocks ↔
        b ∈ s.buffers.blocks ∧ ∀ r ∈ freed, (s.data r).buf ≠ b.1)) ∧
      (s.Owned → (s.deleteTraces freed).copies.badFrees = 0 ∧
        (s.deleteTraces freed).buffers.badFrees = 0) := by
  intro expired
  set s₀ : Process := { s with exiting := s.exiting || exitingProgram } with hs₀
  have hcollectable : ∀ r ∈ s.threadTraces, s₀.collectable now r = decide (expired r) := by
    intro r hr
    rw [Bool.eq_iff_iff, decide_eq_true_iff]
    exact collectable_iff (s := s₀) hage (hdeath r hr)
  obtain ⟨freed, hfreed, hkept, heq⟩ :=
    @collectLoop_exact now s.threadTraces.length 0 s₀ (Nat.le_refl _)
      fun r hr => by cases hr
  set kept := (collectLoop now s.threadTraces.length 0 s₀).threadTraces
  have hfreed : freed.Perm (s.threadTraces.filter fun r => expired r) :=
    hfreed.trans (.of_eq (List.filter_congr hcollectable))
  have hkept : kept.Perm (s.threadTraces.filter fun r => ¬ expired r) := by
    refine hkept.trans (.of_eq (List.filter_congr fun r hr => ?_))
    rw [hcollectable r hr, decide_not]
  have hfinal : collectLoop now s.threadTraces.length 0 s₀ =
      { s.deleteTraces freed with threadTraces := kept, exiting := s₀.exiting } := by
    rw [heq, hs₀, deleteTraces_withExiting]
    rfl
  refine ⟨kept, freed, hkept, hfreed, fun r hr => data_deleteTraces fun hmem => ?_, ?_,
    fun n => live_deleteTraces, fun b hb => mem_blocks_deleteTraces hb, fun ho => ?_⟩
  · have hr := (List.mem_filter.1 (hkept.subset hr)).2
    have hmem := (List.mem_filter.1 (hfreed.subset hmem)).2
    rw [decide_eq_true_iff] at hr hmem
    exact hr hmem
  · rw [collectGarbage, if_neg (by omega), hclock, Option.map_some, ← hfinal]
  · have hstart : SameOwners s s₀ :=
      ⟨rfl, rfl, rfl, rfl, rfl, fun _ h => h, fun _ => ⟨rfl, rfl, rfl⟩⟩
    have howned := @collectLoop_rule Owned now
      (fun s i r hs hr hc => (released_collectAt hs hr hc).owned hs)
      s.threadTraces.length 0 s₀ (hstart.owned ho)
    rw [hfinal] at howned
    exact ⟨howned.copiesFreed, howned.buffersFreed⟩

/-- Two threads return, one at 100 ms and one at 900 ms; the main thread goes on. -/
def garbageActions : List Action :=
  [.createThread 1, .allocate 1 (some 0x10000), .link 1 2 2,
    .createThread 2, .allocate 2 (some 0x20000), .link 2 3 3,
    .constructMain, .allocate 0 (some 0x30000), .link 0 1 1,
    .returnFromStart 1 (Vector.replicate 16 0) ⟨100, 1000⟩,
    .returnFromStart 2 (Vector.replicate 16 0) ⟨900, 1000⟩]

/-- At 1000 ms, 300 ms being the age, the trace of the first thread is freed. -/
theorem collectGarbage_exact_demo : ∃ s kept freed,
    runFrom step (init 1 300 5 fun _ => 0) garbageActions = some s ∧
      kept.Perm [.copy 1, .tls 0] ∧ freed.Perm [.copy 0] ∧
      (∀ r ∈ kept, (s.deleteTraces freed).data r = s.data r) ∧
      s.collectGarbage false ⟨1000, 1000⟩ = some { s.deleteTraces freed with
        threadTraces := kept, exiting := false } ∧
      (¬ (s.deleteTraces freed).copies.Live 0 ∧ (s.deleteTraces freed).copies.Live 1) ∧
      ((0x10000, 32) ∉ (s.deleteTraces freed).buffers.blocks ∧
        (0x20000, 32) ∈ (s.deleteTraces freed).buffers.blocks) ∧
      (s.deleteTraces freed).copies.badFrees = 0 ∧ (s.deleteTraces freed).buffers.badFrees = 0 := by
  have hsome : (runFrom step (init 1 300 5 fun _ => 0) garbageActions).isSome := by decide +kernel
  obtain ⟨s, hs⟩ := Option.isSome_iff_exists.1 hsome
  have hstate : ∀ s ∈ runFrom step (init 1 300 5 fun _ => 0) garbageActions,
      s.gcMaxAgeMs = 300 ∧ s.exiting = false ∧
      (∀ r ∈ s.threadTraces, (s.data r).thread = 0 → (s.data r).timeOfDeathMs ≤ 1000 ∧
        (s.data r).timeOfDeathMs.toNat + s.gcMaxAgeMs < 2 ^ 64) ∧
      (s.threadTraces.filter fun r => ¬ s.Expired false 1000 r) = [.copy 1, .tls 0] ∧
      (s.threadTraces.filter fun r => s.Expired false 1000 r) = [.copy 0] := by
    decide +kernel
  have hheap : ∀ s ∈ runFrom step (init 1 300 5 fun _ => 0) garbageActions,
      (1, ()) ∈ s.copies.blocks ∧ (0x20000, 32) ∈ s.buffers.blocks ∧
        (s.data (.copy 0)).buf = 0x10000 := by
    decide +kernel
  obtain ⟨hage, hexit, hdeath, hyoung, hold⟩ := hstate s hs
  obtain ⟨hlive, hblock, hbuf⟩ := hheap s hs
  obtain ⟨kept, freed, hkept, hfreed, hdata, heq, hcopies, hblocks, hbad⟩ := collectGarbage_exact s
    false ⟨1000, 1000⟩ 1000 (by decide) (by rw [hage]; decide) hdeath
  rw [hexit, Bool.or_false] at hkept hfreed heq
  rw [hyoung] at hkept
  rw [hold] at hfreed
  have hmem : ∀ r, r ∈ freed ↔ r = .copy 0 := fun r => by rw [hfreed.mem_iff, List.mem_singleton]
  refine ⟨s, kept, freed, hs, hkept, hfreed, hdata, heq, ⟨?_, ?_⟩, ⟨?_, ?_⟩,
    hbad (owned_run owned_init hs)⟩
  · rw [hcopies, hmem]
    exact fun h => h.2 rfl
  · rw [hcopies, hmem]
    exact ⟨⟨(), hlive⟩, by decide⟩
  · rw [hblocks _ (by decide)]
    exact fun h => h.2 (.copy 0) ((hmem _).2 rfl) hbuf
  · rw [hblocks _ (by decide)]
    refine ⟨hblock, fun r hr => ?_⟩
    rw [(hmem r).1 hr, hbuf]
    decide

end Process

end Funtrace
