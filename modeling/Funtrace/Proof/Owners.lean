/-
  Who owns a trace buffer.

  A buffer belongs to the element of `thread_traces` whose `buf` it is, or to the
  thread that has allocated it and is not registered yet (`Holder`).  `Owned` says
  this of all reachable states.  In it the main thread is an exception: it may be
  registered by a static constructor that runs before the one that registers it.
  Where that does not happen `Accounted` holds as well: no thread is registered
  twice, and no buffer is lost.
-/
import Mathlib.Data.List.Count
import Funtrace.Runtime.Process

namespace Funtrace

namespace Process
variable {s s' : Process}

/-! ## Ownership -/

/-- What may own a buffer. -/
def Holder (s : Process) (r : TraceRef) : Prop :=
  r ∈ s.threadTraces ∨ ∃ t, r = .tls t ∧ s.registration t = .linking

/-- Two blocks have no byte in common. -/
def ApartBlocks (b b' : UInt64 × UInt64) : Prop :=
  b.1.toNat + b.2.toNat ≤ b'.1.toNat ∨ b'.1.toNat + b'.2.toNat ≤ b.1.toNat

/-- What is listed or held by a thread that registers exists, and every buffer has one holder. -/
structure Owned (s : Process) : Prop where
  once : ∀ r ∈ s.threadTraces, r ≠ .tls 0 → s.threadTraces.count r = 1
  copyLive : ∀ n, .copy n ∈ s.threadTraces → s.copies.Live n
  copyLt : ∀ n, s.copies.Live n → n < s.numCopies
  copyDead : ∀ n, .copy n ∈ s.threadTraces → (s.data (.copy n)).thread = 0
  tlsAlive : ∀ t, .tls t ∈ s.threadTraces → (s.data (.tls t)).thread ≠ 0
  registering : ∀ t, t ≠ 0 → s.registration t ≠ .idle → .tls t ∉ s.threadTraces
  unborn : ∀ t, s.phase t = .unborn → .tls t ∉ s.threadTraces ∧ s.registration t = .idle
  bufLive : ∀ r, s.Holder r → (s.data r).buf ≠ 0 →
    ((s.data r).buf, (s.data r).bufSize) ∈ s.buffers.blocks
  bufInj : ∀ r r', s.Holder r → s.Holder r' → (s.data r).buf = (s.data r').buf →
    (s.data r).buf ≠ 0 → r = r'
  apart : ∀ b ∈ s.buffers.blocks, ∀ b' ∈ s.buffers.blocks, b.1 ≠ b'.1 → ApartBlocks b b'
  buffersFreed : s.buffers.badFrees = 0
  copiesFreed : s.copies.badFrees = 0

/-- No element is listed twice, and every live buffer has a holder. -/
structure Accounted (s : Process) : Prop where
  nodup : s.threadTraces.Nodup
  registeringMain : s.registration 0 ≠ .idle → .tls 0 ∉ s.threadTraces
  notNull : ¬ s.buffers.Live 0
  noLeak : ∀ b, s.buffers.Live b → ∃ r, s.Holder r ∧ (s.data r).buf = b

/-- The main thread is not registered yet when it registers itself. -/
def MainUnregistered (s : Process) : Action → Prop
  | .constructMain => .tls 0 ∉ s.threadTraces
  | _ => True

instance (s : Process) : ∀ a, Decidable (s.MainUnregistered a)
  | .constructMain => inferInstanceAs (Decidable (.tls 0 ∉ s.threadTraces))
  | .createThread _ | .allocate _ _ | .link _ _ _ | .ignoreThisThread _ | .setThreadLogBufSize _ _
  | .returnFromStart _ _ _ | .exitThread _ | .endThread _ | .collectGarbage _ _ | .disableTracing
  | .enableTracing | .beginSnapshot _ | .endSnapshot | .trace _ _ | .store _ => isTrue trivial

/-! ## Steps that own and free nothing -/

/-- The two states have the same owners. -/
structure SameOwners (s s' : Process) : Prop where
  threadTraces : s'.threadTraces = s.threadTraces
  copies : s'.copies = s.copies
  numCopies : s'.numCopies = s.numCopies
  buffers : s'.buffers = s.buffers
  registration : s'.registration = s.registration
  unborn : ∀ t, s'.phase t = .unborn → s.phase t = .unborn
  data : ∀ r, (s'.data r).buf = (s.data r).buf ∧ (s'.data r).bufSize = (s.data r).bufSize ∧
    (s'.data r).thread = (s.data r).thread

namespace SameOwners

theorem buf (h : SameOwners s s') (r : TraceRef) : (s'.data r).buf = (s.data r).buf := (h.data r).1

theorem bufSize (h : SameOwners s s') (r : TraceRef) : (s'.data r).bufSize = (s.data r).bufSize :=
  (h.data r).2.1

theorem thread (h : SameOwners s s') (r : TraceRef) : (s'.data r).thread = (s.data r).thread :=
  (h.data r).2.2

theorem holder (h : SameOwners s s') {r : TraceRef} : s'.Holder r ↔ s.Holder r := by
  rw [Holder, Holder, h.threadTraces, h.registration]

theorem owned (h : SameOwners s s') (hs : s.Owned) : s'.Owned where
  once r hr hne := by rw [h.threadTraces] at hr ⊢; exact hs.once r hr hne
  copyLive n hn := by rw [h.copies]; exact hs.copyLive n (h.threadTraces ▸ hn)
  copyLt n hn := by rw [h.numCopies]; exact hs.copyLt n (h.copies ▸ hn)
  copyDead n hn := by rw [h.thread]; exact hs.copyDead n (h.threadTraces ▸ hn)
  tlsAlive t ht := by rw [h.thread]; exact hs.tlsAlive t (h.threadTraces ▸ ht)
  registering t hne ht := by
    rw [h.threadTraces]
    exact hs.registering t hne (h.registration ▸ ht)
  unborn t ht := by
    rw [h.threadTraces, h.registration]
    exact hs.unborn t (h.unborn t ht)
  bufLive r hr hne := by
    rw [h.buf] at hne ⊢
    rw [h.bufSize, h.buffers]
    exact hs.bufLive r (h.holder.1 hr) hne
  bufInj r r' hr hr' heq hne := by
    rw [h.buf, h.buf] at heq
    rw [h.buf] at hne
    exact hs.bufInj r r' (h.holder.1 hr) (h.holder.1 hr') heq hne
  apart := by rw [h.buffers]; exact hs.apart
  buffersFreed := by rw [h.buffers]; exact hs.buffersFreed
  copiesFreed := by rw [h.copies]; exact hs.copiesFreed

theorem accounted (h : SameOwners s s') (hs : s.Accounted) : s'.Accounted where
  nodup := by rw [h.threadTraces]; exact hs.nodup
  registeringMain := by
    rw [h.threadTraces, h.registration]
    exact hs.registeringMain
  notNull := by rw [h.buffers]; exact hs.notNull
  noLeak b hb := by
    obtain ⟨r, hr, hbuf⟩ := hs.noLeak b (h.buffers ▸ hb)
    exact ⟨r, h.holder.2 hr, (h.buf r).trans hbuf⟩

end SameOwners

theorem sameOwners_onAll {f : TraceRef → TraceData → TraceData}
    (hf : ∀ r d, (f r d).buf = d.buf ∧ (f r d).bufSize = d.bufSize ∧ (f r d).thread = d.thread) :
    SameOwners s (s.onAll f) where
  threadTraces := rfl
  copies := rfl
  numCopies := rfl
  buffers := rfl
  registration := rfl
  unborn _ h := h
  data r := by
    unfold onAll
    dsimp only
    split_ifs
    exacts [hf r _, ⟨rfl, rfl, rfl⟩]

theorem SameOwners.trans {s'' : Process} (h : SameOwners s s') (h' : SameOwners s' s'') :
    SameOwners s s'' where
  threadTraces := h'.threadTraces.trans h.threadTraces
  copies := h'.copies.trans h.copies
  numCopies := h'.numCopies.trans h.numCopies
  buffers := h'.buffers.trans h.buffers
  registration := h'.registration.trans h.registration
  unborn t ht := h.unborn t (h'.unborn t ht)
  data r := ⟨(h'.buf r).trans (h.buf r), (h'.bufSize r).trans (h.bufSize r),
    (h'.thread r).trans (h.thread r)⟩

/-! ## Removing an element -/

/-- An element other than the main thread's is gone when it is removed. -/
theorem Owned.not_mem_of_perm (h : s.Owned) {r : TraceRef} {l : List TraceRef}
    (hl : (r :: l).Perm s.threadTraces) (hr : r ≠ .tls 0) : r ∉ l := by
  intro hmem
  have hcount := hl.count_eq r
  rw [h.once r (hl.subset List.mem_cons_self) hr, List.count_cons_self] at hcount
  have := List.count_pos_iff.2 hmem
  omega

theorem Owned.count_of_perm (h : s.Owned) {r x : TraceRef} {l : List TraceRef}
    (hl : (r :: l).Perm s.threadTraces) (hx : x ∈ l) (hne : x ≠ .tls 0) : l.count x = 1 := by
  have hcount := hl.count_eq x
  rw [h.once x (hl.subset (List.mem_cons_of_mem r hx)) hne] at hcount
  have hxr : r ≠ x := by
    rintro rfl
    exact h.not_mem_of_perm hl hne hx
  rwa [List.count_cons_of_ne hxr] at hcount

/-- The state after an element was removed and its buffer freed. -/
structure Released (s s' : Process) (r : TraceRef) : Prop where
  threadTraces : (r :: s'.threadTraces).Perm s.threadTraces
  data : s'.data = Function.update s.data r (s.data r).free
  buffers : s'.buffers =
    if (s.data r).buf = 0 then s.buffers else s.buffers.free (s.data r).buf
  copies : (∀ n, r ≠ .copy n) ∧ s'.copies = s.copies ∨
    ∃ n, r = .copy n ∧ s'.copies = s.copies.free n
  numCopies : s'.numCopies = s.numCopies
  registration : s'.registration = s.registration
  phase : s'.phase = s.phase

namespace Released
variable {r : TraceRef} (h : Released s s' r)
include h

theorem mem {x : TraceRef} (hx : x ∈ s'.threadTraces) : x ∈ s.threadTraces :=
  h.threadTraces.subset (List.mem_cons_of_mem r hx)

theorem holder {x : TraceRef} (hx : s'.Holder x) : s.Holder x := by
  rw [Holder, h.registration] at hx
  exact hx.imp_left h.mem

theorem buf_self : (s'.data r).buf = 0 := by
  rw [h.data, Function.update_self]
  rfl

theorem data_of_ne {x : TraceRef} (hx : x ≠ r) : s'.data x = s.data x := by
  rw [h.data, Function.update_of_ne hx]

theorem thread (x : TraceRef) : (s'.data x).thread = (s.data x).thread := by
  by_cases hx : x = r
  · rw [hx, h.data, Function.update_self]
    rfl
  · rw [h.data_of_ne hx]

/-- Whoever still has a buffer has the one it had, and it is not the one that was freed. -/
theorem bufLive (hs : s.Owned) {x : TraceRef} (hx : s'.Holder x) (hne : (s'.data x).buf ≠ 0) :
    x ≠ r ∧ ((s'.data x).buf, (s'.data x).bufSize) ∈ s'.buffers.blocks := by
  have hxr : x ≠ r := by
    rintro rfl
    exact hne h.buf_self
  rw [h.data_of_ne hxr] at hne ⊢
  have hlive := hs.bufLive x (h.holder hx) hne
  refine ⟨hxr, ?_⟩
  rw [h.buffers]
  split_ifs
  · exact hlive
  · refine Heap.mem_free.2 ⟨fun heq => hxr ?_, hlive⟩
    exact hs.bufInj x r (h.holder hx) (Or.inl (h.threadTraces.subset List.mem_cons_self)) heq hne

theorem mem_blocks {b : UInt64 × UInt64} (hb : b ∈ s'.buffers.blocks) :
    b ∈ s.buffers.blocks := by
  rw [h.buffers] at hb
  split_ifs at hb
  · exact hb
  · exact (Heap.mem_free.1 hb).2

theorem copies_live (hs : s.Owned) {n : ℕ} (hn : .copy n ∈ s'.threadTraces) :
    s'.copies.Live n := by
  have hlive := hs.copyLive n (h.mem hn)
  rcases h.copies with ⟨-, hcopies⟩ | ⟨m, rfl, hcopies⟩
  · rwa [hcopies]
  · rw [hcopies]
    refine Heap.live_free.2 ⟨?_, hlive⟩
    rintro rfl
    exact hs.not_mem_of_perm h.threadTraces (by simp) hn

theorem owned (hs : s.Owned) : s'.Owned where
  once x hx hne := hs.count_of_perm h.threadTraces hx hne
  copyLive n hn := h.copies_live hs hn
  copyLt n hn := by
    rw [h.numCopies]
    rcases h.copies with ⟨-, hcopies⟩ | ⟨m, -, hcopies⟩
    · exact hs.copyLt n (hcopies ▸ hn)
    · exact hs.copyLt n (Heap.live_free.1 (hcopies ▸ hn)).2
  copyDead n hn := by rw [h.thread]; exact hs.copyDead n (h.mem hn)
  tlsAlive t ht := by rw [h.thread]; exact hs.tlsAlive t (h.mem ht)
  registering t hne ht hmem := hs.registering t hne (h.registration ▸ ht) (h.mem hmem)
  unborn t ht := by
    obtain ⟨hmem, hidle⟩ := hs.unborn t (h.phase ▸ ht)
    exact ⟨fun hmem' => hmem (h.mem hmem'), h.registration ▸ hidle⟩
  bufLive x hx hne := (h.bufLive hs hx hne).2
  bufInj x y hx hy heq hne := by
    have hxr := (h.bufLive hs hx hne).1
    have hyr := (h.bufLive hs hy (heq ▸ hne)).1
    rw [h.data_of_ne hxr] at heq hne
    rw [h.data_of_ne hyr] at heq
    exact hs.bufInj x y (h.holder hx) (h.holder hy) heq hne
  apart b hb b' hb' := hs.apart b (h.mem_blocks hb) b' (h.mem_blocks hb')
  buffersFreed := by
    rw [h.buffers]
    split_ifs with hbuf
    · exact hs.buffersFreed
    · rw [Heap.badFrees_free ⟨_, hs.bufLive r
        (Or.inl (h.threadTraces.subset List.mem_cons_self)) hbuf⟩]
      exact hs.buffersFreed
  copiesFreed := by
    rcases h.copies with ⟨-, hcopies⟩ | ⟨m, rfl, hcopies⟩
    · rw [hcopies]
      exact hs.copiesFreed
    · rw [hcopies, Heap.badFrees_free
        (hs.copyLive m (h.threadTraces.subset List.mem_cons_self))]
      exact hs.copiesFreed

theorem live {b : UInt64} (hb : s'.buffers.Live b) :
    s.buffers.Live b ∧ (b = (s.data r).buf → b = 0) := by
  rw [h.buffers] at hb
  split_ifs at hb with hbuf
  · exact ⟨hb, fun heq => heq.trans hbuf⟩
  · obtain ⟨hne, hb⟩ := Heap.live_free.1 hb
    exact ⟨hb, fun heq => absurd heq hne⟩

theorem accounted (hs : s.Accounted) : s'.Accounted where
  nodup := ((List.nodup_cons.1 (h.threadTraces.nodup_iff.2 hs.nodup))).2
  registeringMain ht hmem := hs.registeringMain (h.registration ▸ ht) (h.mem hmem)
  notNull hnull := hs.notNull (h.live hnull).1
  noLeak b hb := by
    obtain ⟨hlive, hne⟩ := h.live hb
    obtain ⟨x, hx, rfl⟩ := hs.noLeak b hlive
    have hxr : x ≠ r := by
      rintro rfl
      rw [hne rfl] at hlive
      exact hs.notNull hlive
    refine ⟨x, ?_, by rw [h.data_of_ne hxr]⟩
    rw [Holder, h.registration]
    refine hx.imp_left fun hmem => ?_
    exact (List.mem_cons.1 (h.threadTraces.mem_iff.2 hmem)).resolve_left hxr

end Released

/-! ## Handing over to a copy -/

theorem Owned.not_mem_new (hs : s.Owned) : .copy s.numCopies ∉ s.threadTraces := fun hmem =>
  Nat.lt_irrefl _ (hs.copyLt _ (hs.copyLive _ hmem))

/-- The state after a finished thread's element was replaced by a copy of it. -/
structure HandedOver (s s' : Process) (t : ℕ) (d : TraceData) : Prop where
  threadTraces : (.tls t :: s'.threadTraces).Perm (.copy s.numCopies :: s.threadTraces)
  data : s'.data = Function.update s.data (.copy s.numCopies) d
  buf : d.buf = (s.data (.tls t)).buf
  bufSize : d.bufSize = (s.data (.tls t)).bufSize
  thread : d.thread = 0
  buffers : s'.buffers = s.buffers
  copies : s'.copies = s.copies.alloc s.numCopies ()
  numCopies : s'.numCopies = s.numCopies + 1
  registration : s'.registration = s.registration
  phase : s'.phase = s.phase

namespace HandedOver
variable {t : ℕ} {d : TraceData} (h : HandedOver s s' t d)
include h

theorem mem {x : TraceRef} (hx : x ∈ s'.threadTraces) :
    x = .copy s.numCopies ∨ x ∈ s.threadTraces := by
  have hmem := h.threadTraces.subset (List.mem_cons_of_mem (.tls t) hx)
  exact List.mem_cons.1 hmem

theorem new_mem : .copy s.numCopies ∈ s'.threadTraces := by
  have hmem := h.threadTraces.symm.subset List.mem_cons_self
  exact (List.mem_cons.1 hmem).resolve_left (by simp)

theorem tls_mem : .tls t ∈ s.threadTraces := by
  have hmem := h.threadTraces.subset List.mem_cons_self
  exact (List.mem_cons.1 hmem).resolve_left (by simp)

theorem data_of_ne {x : TraceRef} (hx : x ≠ .copy s.numCopies) : s'.data x = s.data x := by
  rw [h.data, Function.update_of_ne hx]

theorem data_new : s'.data (.copy s.numCopies) = d := by rw [h.data, Function.update_self]

theorem not_mem_tls (hs : s.Owned) (ht : t ≠ 0) : .tls t ∉ s'.threadTraces := by
  intro hmem
  have hcount := h.threadTraces.count_eq (.tls t)
  rw [List.count_cons_self, List.count_cons_of_ne (by simp),
    hs.once (.tls t) h.tls_mem (by simpa using ht)] at hcount
  have := List.count_pos_iff.2 hmem
  omega

/-- A holder is the new copy, or was one before and is not the thread. -/
theorem holder (hs : s.Owned) (ht : t ≠ 0) (hidle : s.registration t = .idle) {x : TraceRef}
    (hx : s'.Holder x) : x = .copy s.numCopies ∨ x ≠ .copy s.numCopies ∧ x ≠ .tls t ∧ s.Holder x := by
  by_cases hnew : x = .copy s.numCopies
  · exact Or.inl hnew
  refine Or.inr ⟨hnew, ?_⟩
  rcases hx with hmem | ⟨u, rfl, hu⟩
  · refine ⟨?_, Or.inl ((h.mem hmem).resolve_left hnew)⟩
    rintro rfl
    exact h.not_mem_tls hs ht hmem
  · rw [h.registration] at hu
    refine ⟨?_, Or.inr ⟨u, rfl, hu⟩⟩
    rintro heq
    obtain rfl : u = t := by simpa using heq
    rw [hidle] at hu
    cases hu

theorem owned (hs : s.Owned) (ht : t ≠ 0) (hidle : s.registration t = .idle) : s'.Owned where
  once x hx hne := by
    have hcount := h.threadTraces.count_eq x
    by_cases hxt : x = .tls t
    · exact absurd (hxt ▸ hx) (h.not_mem_tls hs ht)
    rw [List.count_cons_of_ne (Ne.symm hxt)] at hcount
    rcases h.mem hx with rfl | hmem
    · rw [hcount, List.count_cons_self, List.count_eq_zero.2 (hs.not_mem_new)]
    · have hnew : x ≠ .copy s.numCopies := fun heq => hs.not_mem_new (heq ▸ hmem)
      rw [hcount, List.count_cons_of_ne (Ne.symm hnew), hs.once x hmem hne]
  copyLive n hn := by
    rw [h.copies]
    refine Heap.live_alloc.2 ((h.mem hn).imp (fun heq => ?_) fun hmem => hs.copyLive n hmem)
    simpa using heq
  copyLt n hn := by
    rw [h.numCopies]
    rcases Heap.live_alloc.1 (h.copies ▸ hn) with rfl | hn
    · exact Nat.lt_succ_self _
    · exact Nat.lt_succ_of_lt (hs.copyLt n hn)
  copyDead n hn := by
    by_cases hnew : n = s.numCopies
    · rw [hnew, h.data_new, h.thread]
    · rw [h.data_of_ne (by simpa using hnew)]
      exact hs.copyDead n ((h.mem hn).resolve_left (by simpa using hnew))
  tlsAlive u hu := by
    rw [h.data_of_ne (by simp)]
    exact hs.tlsAlive u ((h.mem hu).resolve_left (by simp))
  registering u hne hu hmem :=
    hs.registering u hne (h.registration ▸ hu) ((h.mem hmem).resolve_left (by simp))
  unborn u hu := by
    obtain ⟨hmem, hreg⟩ := hs.unborn u (h.phase ▸ hu)
    exact ⟨fun hmem' => hmem ((h.mem hmem').resolve_left (by simp)), h.registration ▸ hreg⟩
  bufLive x hx hne := by
    rw [h.buffers]
    rcases h.holder hs ht hidle hx with rfl | ⟨hnew, -, hold⟩
    · rw [h.data_new, h.buf] at hne ⊢
      rw [h.bufSize]
      exact hs.bufLive _ (Or.inl h.tls_mem) hne
    · rw [h.data_of_ne hnew] at hne ⊢
      exact hs.bufLive x hold hne
  bufInj x y hx hy heq hne := by
    rcases h.holder hs ht hidle hx with rfl | ⟨hxn, hxt, hx⟩ <;>
      rcases h.holder hs ht hidle hy with rfl | ⟨hyn, hyt, hy⟩
    · rfl
    · rw [h.data_new, h.buf] at heq hne
      rw [h.data_of_ne hyn] at heq
      exact absurd (hs.bufInj _ y (Or.inl h.tls_mem) hy heq hne) (Ne.symm hyt)
    · rw [h.data_of_ne hxn] at heq hne
      rw [h.data_new, h.buf] at heq
      exact absurd (hs.bufInj x _ hx (Or.inl h.tls_mem) heq hne) hxt
    · rw [h.data_of_ne hxn] at heq hne
      rw [h.data_of_ne hyn] at heq
      exact hs.bufInj x y hx hy heq hne
  apart := by rw [h.buffers]; exact hs.apart
  buffersFreed := by rw [h.buffers]; exact hs.buffersFreed
  copiesFreed := by rw [h.copies]; exact hs.copiesFreed

theorem accounted (ho : s.Owned) (hs : s.Accounted) : s'.Accounted where
  nodup := by
    have hnodup := List.nodup_cons.2 ⟨ho.not_mem_new, hs.nodup⟩
    exact (List.nodup_cons.1 (h.threadTraces.nodup_iff.2 hnodup)).2
  registeringMain ht hmem :=
    hs.registeringMain (h.registration ▸ ht) ((h.mem hmem).resolve_left (by simp))
  notNull := by rw [h.buffers]; exact hs.notNull
  noLeak b hb := by
    obtain ⟨x, hx, rfl⟩ := hs.noLeak b (h.buffers ▸ hb)
    by_cases hxt : x = .tls t
    · exact ⟨_, Or.inl h.new_mem, by rw [h.data_new, h.buf, hxt]⟩
    · by_cases hxn : x = .copy s.numCopies
      · have hlt : .copy s.numCopies ∈ s.threadTraces :=
          hxn ▸ hx.resolve_right (by rintro ⟨u, rfl, -⟩; simp at hxn)
        exact absurd hlt (ho.not_mem_new)
      refine ⟨x, ?_, by rw [h.data_of_ne hxn]⟩
      rw [Holder, h.registration]
      refine hx.imp_left fun hmem => ?_
      have hmem' := h.threadTraces.symm.subset (List.mem_cons_of_mem _ hmem)
      exact (List.mem_cons.1 hmem').resolve_left hxt

end HandedOver

/-! ## Registration -/

/-- A thread that is not registered begins to register itself. -/
theorem Owned.setRegistration (hs : s.Owned) {t n : ℕ} (hmem : t ≠ 0 → .tls t ∉ s.threadTraces)
    (hborn : s.phase t ≠ .unborn) (hidle : s.registration t = .idle) :
    (s.setRegistration t (.allocating n)).Owned := by
  have hholder : ∀ x, (s.setRegistration t (.allocating n)).Holder x → s.Holder x := by
    rintro x (hx | ⟨u, rfl, hu⟩)
    · exact Or.inl hx
    · by_cases hut : u = t
      · subst hut
        simp [Process.setRegistration] at hu
      · exact Or.inr ⟨u, rfl, by simpa [Process.setRegistration, hut] using hu⟩
  refine { hs with registering := ?_, unborn := ?_, bufLive := ?_, bufInj := ?_ }
  · intro u hne hu
    by_cases hut : u = t
    · exact hut ▸ hmem (hut ▸ hne)
    · exact hs.registering u hne (by simpa [Process.setRegistration, hut] using hu)
  · intro u hu
    have hut : u ≠ t := by
      rintro rfl
      exact hborn hu
    simpa [Process.setRegistration, hut] using hs.unborn u hu
  · exact fun x hx hne => hs.bufLive x (hholder x hx) hne
  · exact fun x y hx hy heq hne => hs.bufInj x y (hholder x hx) (hholder y hy) heq hne

theorem Accounted.setRegistration (hs : s.Accounted) {t n : ℕ}
    (hmem : t = 0 → .tls 0 ∉ s.threadTraces) (hidle : s.registration t = .idle) :
    (s.setRegistration t (.allocating n)).Accounted := by
  refine { hs with registeringMain := ?_, noLeak := ?_ }
  · intro hu
    by_cases ht : t = 0
    · exact hmem ht
    · exact hs.registeringMain (by simpa [Process.setRegistration, Ne.symm ht] using hu)
  · intro b hb
    obtain ⟨x, hx, hbuf⟩ := hs.noLeak b hb
    refine ⟨x, hx.imp_right ?_, hbuf⟩
    rintro ⟨u, rfl, hu⟩
    have hut : u ≠ t := by
      rintro rfl
      rw [hidle] at hu
      cases hu
    exact ⟨u, rfl, by simpa [Process.setRegistration, hut] using hu⟩

/-- The state after a thread allocated a buffer, or failed to. -/
structure Allocated (s s' : Process) (t : ℕ) (d : TraceData) : Prop where
  threadTraces : s'.threadTraces = s.threadTraces
  data : s'.data = Function.update s.data (.tls t) d
  thread : d.thread = (s.data (.tls t)).thread
  fresh : d.buf = 0 ∨ ∀ b ∈ s.buffers.blocks, b.1 ≠ d.buf ∧ ApartBlocks b (d.buf, d.bufSize)
  buffers : s'.buffers = if d.buf = 0 then s.buffers else s.buffers.alloc d.buf d.bufSize
  copies : s'.copies = s.copies
  numCopies : s'.numCopies = s.numCopies
  registration : s'.registration = Function.update s.registration t .linking
  phase : s'.phase = s.phase

namespace Allocated
variable {t : ℕ} {d : TraceData} (h : Allocated s s' t d)
include h

theorem data_of_ne {x : TraceRef} (hx : x ≠ .tls t) : s'.data x = s.data x := by
  rw [h.data, Function.update_of_ne hx]

theorem data_self : s'.data (.tls t) = d := by rw [h.data, Function.update_self]

theorem holder {x : TraceRef} (hx : s'.Holder x) : x = .tls t ∨ x ≠ .tls t ∧ s.Holder x := by
  by_cases hxt : x = .tls t
  · exact Or.inl hxt
  refine Or.inr ⟨hxt, ?_⟩
  rcases hx with hmem | ⟨u, rfl, hu⟩
  · exact Or.inl (h.threadTraces ▸ hmem)
  · have hut : u ≠ t := fun heq => hxt (by rw [heq])
    rw [h.registration, Function.update_of_ne hut] at hu
    exact Or.inr ⟨u, rfl, hu⟩

theorem holder_self : s'.Holder (.tls t) :=
  Or.inr ⟨t, rfl, by rw [h.registration, Function.update_self]⟩

theorem thread_eq (x : TraceRef) : (s'.data x).thread = (s.data x).thread := by
  by_cases hx : x = .tls t
  · rw [hx, h.data_self, h.thread]
  · rw [h.data_of_ne hx]

theorem mem_blocks {b : UInt64 × UInt64} (hb : b ∈ s.buffers.blocks) :
    b ∈ s'.buffers.blocks := by
  rw [h.buffers]
  split_ifs
  · exact hb
  · exact List.mem_cons_of_mem _ hb

/-- The buffer of another holder is not the new one. -/
theorem buf_ne (hs : s.Owned) {x : TraceRef} (hx : s.Holder x) (hne : (s.data x).buf ≠ 0) :
    (s.data x).buf ≠ d.buf := by
  intro heq
  rcases h.fresh with hnull | hfresh
  · exact hne (heq.trans hnull)
  · exact (hfresh _ (hs.bufLive x hx hne)).1 heq

theorem owned (hs : s.Owned) (ht : s.registration t ≠ .idle) : s'.Owned where
  once x hx hne := by rw [h.threadTraces] at hx ⊢; exact hs.once x hx hne
  copyLive n hn := by rw [h.copies]; exact hs.copyLive n (h.threadTraces ▸ hn)
  copyLt n hn := by rw [h.numCopies]; exact hs.copyLt n (h.copies ▸ hn)
  copyDead n hn := by rw [h.thread_eq]; exact hs.copyDead n (h.threadTraces ▸ hn)
  tlsAlive u hu := by rw [h.thread_eq]; exact hs.tlsAlive u (h.threadTraces ▸ hu)
  registering u hne hu := by
    rw [h.threadTraces]
    by_cases hut : u = t
    · exact hs.registering u hne (hut ▸ ht)
    · rw [h.registration, Function.update_of_ne hut] at hu
      exact hs.registering u hne hu
  unborn u hu := by
    rw [h.phase] at hu
    have hut : u ≠ t := by
      rintro rfl
      exact ht (hs.unborn u hu).2
    rw [h.threadTraces, h.registration, Function.update_of_ne hut]
    exact hs.unborn u hu
  bufLive x hx hne := by
    rcases h.holder hx with rfl | ⟨hxt, hx⟩
    · rw [h.data_self] at hne ⊢
      rw [h.buffers, if_neg hne]
      exact List.mem_cons_self
    · rw [h.data_of_ne hxt] at hne ⊢
      exact h.mem_blocks (hs.bufLive x hx hne)
  bufInj x y hx hy heq hne := by
    rcases h.holder hx with rfl | ⟨hxt, hx⟩ <;> rcases h.holder hy with rfl | ⟨hyt, hy⟩
    · rfl
    · rw [h.data_self] at heq hne
      rw [h.data_of_ne hyt] at heq
      exact absurd heq.symm (h.buf_ne hs hy (heq ▸ hne))
    · rw [h.data_of_ne hxt] at heq hne
      rw [h.data_self] at heq
      exact absurd heq (h.buf_ne hs hx hne)
    · rw [h.data_of_ne hxt] at heq hne
      rw [h.data_of_ne hyt] at heq
      exact hs.bufInj x y hx hy heq hne
  apart b hb b' hb' hne := by
    rw [h.buffers] at hb hb'
    split_ifs at hb hb' with hbuf
    · exact hs.apart b hb b' hb' hne
    · have hfresh := h.fresh.resolve_left hbuf
      rcases List.mem_cons.1 hb with rfl | hb <;> rcases List.mem_cons.1 hb' with rfl | hb'
      · exact absurd rfl hne
      · exact (hfresh b' hb').2.symm
      · exact (hfresh b hb).2
      · exact hs.apart b hb b' hb' hne
  buffersFreed := by
    rw [h.buffers]
    split_ifs <;> exact hs.buffersFreed
  copiesFreed := by rw [h.copies]; exact hs.copiesFreed

theorem accounted (hs : s.Accounted) (ho : s.Owned) {n : ℕ} (ht : s.registration t = .allocating n) :
    s'.Accounted where
  nodup := by rw [h.threadTraces]; exact hs.nodup
  registeringMain hu := by
    rw [h.threadTraces]
    by_cases ht0 : t = 0
    · subst ht0
      exact hs.registeringMain (by simp [ht])
    · rw [h.registration, Function.update_of_ne (Ne.symm ht0)] at hu
      exact hs.registeringMain hu
  notNull := by
    rw [h.buffers]
    split_ifs with hbuf
    · exact hs.notNull
    · exact fun hlive => (Heap.live_alloc.1 hlive).elim (fun heq => hbuf heq.symm) hs.notNull
  noLeak b hb := by
    have hold : s.buffers.Live b → ∃ r, s'.Holder r ∧ (s'.data r).buf = b := by
      intro hlive
      obtain ⟨x, hx, rfl⟩ := hs.noLeak b hlive
      have hxt : x ≠ .tls t := by
        rintro rfl
        rcases hx with hmem | ⟨u, heq, hu⟩
        · by_cases ht0 : t = 0
          · subst ht0
            exact hs.registeringMain (by simp [ht]) hmem
          · exact ho.registering t ht0 (by simp [ht]) hmem
        · obtain rfl : t = u := by simpa using heq
          rw [ht] at hu
          cases hu
      refine ⟨x, ?_, by rw [h.data_of_ne hxt]⟩
      refine hx.imp (fun hmem => h.threadTraces ▸ hmem) ?_
      rintro ⟨u, rfl, hu⟩
      refine ⟨u, rfl, ?_⟩
      rw [h.registration, Function.update_of_ne (fun heq => hxt (by rw [heq]))]
      exact hu
    rw [h.buffers] at hb
    split_ifs at hb with hbuf
    · exact hold hb
    · rcases Heap.live_alloc.1 hb with rfl | hb
      · exact ⟨_, h.holder_self, by rw [h.data_self]⟩
      · exact hold hb

end Allocated

/-- The state after a thread was added to `thread_traces`. -/
structure Linked (s s' : Process) (t : ℕ) (d : TraceData) : Prop where
  threadTraces : s'.threadTraces = s.threadTraces ++ [.tls t]
  data : s'.data = Function.update s.data (.tls t) d
  buf : d.buf = (s.data (.tls t)).buf
  bufSize : d.bufSize = (s.data (.tls t)).bufSize
  thread : d.thread ≠ 0
  buffers : s'.buffers = s.buffers
  copies : s'.copies = s.copies
  numCopies : s'.numCopies = s.numCopies
  linking : s.registration t = .linking
  registration : s'.registration = Function.update s.registration t .idle
  phase : s'.phase = s.phase

namespace Linked
variable {t : ℕ} {d : TraceData} (h : Linked s s' t d)
include h

theorem mem {x : TraceRef} : x ∈ s'.threadTraces ↔ x ∈ s.threadTraces ∨ x = .tls t := by
  rw [h.threadTraces, List.mem_append, List.mem_singleton]

theorem data_of_ne {x : TraceRef} (hx : x ≠ .tls t) : s'.data x = s.data x := by
  rw [h.data, Function.update_of_ne hx]

theorem buf_eq (x : TraceRef) : (s'.data x).buf = (s.data x).buf := by
  by_cases hx : x = .tls t
  · rw [hx, h.data, Function.update_self, h.buf]
  · rw [h.data_of_ne hx]

theorem bufSize_eq (x : TraceRef) : (s'.data x).bufSize = (s.data x).bufSize := by
  by_cases hx : x = .tls t
  · rw [hx, h.data, Function.update_self, h.bufSize]
  · rw [h.data_of_ne hx]

/-- Linking makes the thread a holder by its element: it was one before. -/
theorem holder {x : TraceRef} : s'.Holder x ↔ s.Holder x := by
  by_cases hx : x = .tls t
  · subst hx
    exact iff_of_true (Or.inl (h.mem.2 (Or.inr rfl))) (Or.inr ⟨t, rfl, h.linking⟩)
  · rw [Holder, Holder, h.mem, h.registration]
    refine or_congr (by simp [hx]) (exists_congr fun u => and_congr_right ?_)
    rintro rfl
    rw [Function.update_of_ne fun heq => hx (by rw [heq])]

theorem owned (hs : s.Owned) : s'.Owned where
  once x hx hne := by
    rw [h.threadTraces, List.count_append]
    by_cases hxt : x = .tls t
    · subst hxt
      have ht : t ≠ 0 := by simpa using hne
      rw [List.count_eq_zero.2 (hs.registering t ht (by simp [h.linking])), List.count_singleton_self]
    · rw [hs.once x ((h.mem.1 hx).resolve_right hxt) hne, List.count_singleton,
        if_neg (by simpa using Ne.symm hxt)]
  copyLive n hn := by rw [h.copies]; exact hs.copyLive n ((h.mem.1 hn).resolve_right (by simp))
  copyLt n hn := by rw [h.numCopies]; exact hs.copyLt n (h.copies ▸ hn)
  copyDead n hn := by
    rw [h.data_of_ne (by simp)]
    exact hs.copyDead n ((h.mem.1 hn).resolve_right (by simp))
  tlsAlive u hu := by
    by_cases hut : TraceRef.tls u = .tls t
    · rw [hut, h.data, Function.update_self]
      exact h.thread
    · rw [h.data_of_ne hut]
      exact hs.tlsAlive u ((h.mem.1 hu).resolve_right hut)
  registering u hne hu := by
    have hut : u ≠ t := by
      rintro rfl
      simp [h.registration] at hu
    rw [h.registration, Function.update_of_ne hut] at hu
    exact fun hmem => hs.registering u hne hu ((h.mem.1 hmem).resolve_right (by simpa using hut))
  unborn u hu := by
    obtain ⟨hmem, hidle⟩ := hs.unborn u (h.phase ▸ hu)
    have hut : u ≠ t := by
      rintro rfl
      rw [h.linking] at hidle
      cases hidle
    refine ⟨fun hmem' => hmem ((h.mem.1 hmem').resolve_right (by simpa using hut)), ?_⟩
    rw [h.registration, Function.update_of_ne hut]
    exact hidle
  bufLive x hx hne := by
    rw [h.buf_eq] at hne ⊢
    rw [h.bufSize_eq, h.buffers]
    exact hs.bufLive x (h.holder.1 hx) hne
  bufInj x y hx hy heq hne := by
    rw [h.buf_eq, h.buf_eq] at heq
    rw [h.buf_eq] at hne
    exact hs.bufInj x y (h.holder.1 hx) (h.holder.1 hy) heq hne
  apart := by rw [h.buffers]; exact hs.apart
  buffersFreed := by rw [h.buffers]; exact hs.buffersFreed
  copiesFreed := by rw [h.copies]; exact hs.copiesFreed

theorem accounted (ho : s.Owned) (hs : s.Accounted) : s'.Accounted where
  nodup := by
    have hnew : .tls t ∉ s.threadTraces := by
      by_cases ht : t = 0
      · subst ht
        exact hs.registeringMain (by simp [h.linking])
      · exact ho.registering t ht (by simp [h.linking])
    rw [h.threadTraces, (List.perm_append_singleton _ _).nodup_iff]
    exact List.nodup_cons.2 ⟨hnew, hs.nodup⟩
  registeringMain hu := by
    have ht : (0 : ℕ) ≠ t := by
      rintro rfl
      simp [h.registration] at hu
    rw [h.registration, Function.update_of_ne ht] at hu
    exact fun hmem => hs.registeringMain hu ((h.mem.1 hmem).resolve_right (by simpa using ht))
  notNull := by rw [h.buffers]; exact hs.notNull
  noLeak b hb := by
    obtain ⟨x, hx, rfl⟩ := hs.noLeak b (h.buffers ▸ hb)
    exact ⟨x, h.holder.2 hx, h.buf_eq x⟩

end Linked

/-! ## What a step does to the owners -/

/-- `ok` says that the main thread does not register itself twice. -/
inductive Effect (ok : Prop) : Process → Process → Prop
  | same {s s' : Process} : SameOwners s s' → Effect ok s s'
  | released {s s' : Process} {r : TraceRef} : Released s s' r → Effect ok s s'
  | handedOver {s s' : Process} {t : ℕ} {d : TraceData} : t ≠ 0 → s.registration t = .idle →
      HandedOver s s' t d → Effect ok s s'
  | registers {s : Process} {t n : ℕ} : (t ≠ 0 ∨ ok → .tls t ∉ s.threadTraces) →
      s.phase t ≠ .unborn → s.registration t = .idle →
      Effect ok s (s.setRegistration t (.allocating n))
  | allocated {s s' : Process} {t n : ℕ} {d : TraceData} : s.registration t = .allocating n →
      Allocated s s' t d → Effect ok s s'
  | linked {s s' : Process} {t : ℕ} {d : TraceData} : Linked s s' t d → Effect ok s s'
  | trans {s s' s'' : Process} : Effect ok s s' → Effect ok s' s'' → Effect ok s s''

theorem Effect.owned {ok : Prop} (h : Effect ok s s') : s.Owned → s'.Owned := by
  induction h with
  | same h => exact h.owned
  | released h => exact h.owned
  | handedOver ht hidle h => exact fun hs => h.owned hs ht hidle
  | registers hmem hborn hidle => exact fun hs => hs.setRegistration (hmem ∘ Or.inl) hborn hidle
  | allocated ht h => exact fun hs => h.owned hs (by simp [ht])
  | linked h => exact h.owned
  | trans _ _ ih ih' => exact ih' ∘ ih

theorem Effect.accounted {ok : Prop} (hok : ok) (h : Effect ok s s') :
    s.Owned → s.Accounted → s'.Accounted := by
  induction h with
  | same h => exact fun _ => h.accounted
  | released h => exact fun _ => h.accounted
  | handedOver ht hidle h => exact h.accounted
  | registers hmem hborn hidle =>
    exact fun _ hs => hs.setRegistration (fun ht => ht ▸ hmem (Or.inr hok)) hidle
  | allocated ht h => exact fun ho hs => h.accounted hs ho ht
  | linked h => exact h.accounted
  | trans h _ ih ih' => exact fun ho hs => ih' (h.owned ho) (ih ho hs)

end Process

end Funtrace
