/-
  The memory that the runtime touches through `buf`, `pos` and `end`.

  `allocate` writes the cycle of the last entry, a traced call writes an entry, and a
  snapshot that starts at a time reads the last entry's cycle and the entries on both
  sides of the position.  All of this lies in the buffer of the thread concerned
  (`accessesInside_run`), if buffers have room for an entry, traced calls come from threads
  with a buffer of their own or none, no thread ends while it is registered, and all
  registered threads have a buffer when such a snapshot begins: it reads the cycle before
  `end` also where `end` is null.
-/
import Funtrace.Proof.HandOver
import Funtrace.Runtime.Accesses

namespace Funtrace

namespace Process
variable {s s' : Process}

/-! ## Copies -/

/-- The same buffer, and the same position in it. -/
structure SameLayout (d d' : TraceData) : Prop where
  pos : d'.pos = d.pos
  buf : d'.buf = d.buf
  bufSize : d'.bufSize = d.bufSize
  mask : d'.wraparoundMask = d.wraparoundMask ∨ d'.wraparoundMask = 0 ∨ d'.wraparoundMask = ~~~d.bufSize

theorem SameLayout.refl (d : TraceData) : SameLayout d d := ⟨rfl, rfl, rfl, Or.inl rfl⟩

theorem SameLayout.trans {d d' d'' : TraceData} (h : SameLayout d d') (h' : SameLayout d' d'') :
    SameLayout d d'' where
  pos := h'.pos.trans h.pos
  buf := h'.buf.trans h.buf
  bufSize := h'.bufSize.trans h.bufSize
  mask := by
    rcases h'.mask with hm | hm | hm
    · rw [hm]
      exact h.mask
    · exact Or.inr (Or.inl hm)
    · exact Or.inr (Or.inr (by rw [hm, h.bufSize]))

theorem sameLayout_updateName (d : TraceData) (name : Vector UInt8 16) :
    SameLayout d (d.updateName name) := by
  unfold TraceData.updateName
  split_ifs <;> exact ⟨rfl, rfl, rfl, Or.inl rfl⟩

/-- What the elements of copies come from. -/
def CopiesFrom (s s' : Process) : Prop :=
  ∀ n, .copy n ∈ s'.threadTraces → ∃ r ∈ s.threadTraces, SameLayout (s.data r) (s'.data (.copy n))

theorem CopiesFrom.of_data {p : Process} (htraces : ∀ n, .copy n ∈ p.threadTraces → .copy n ∈ s.threadTraces)
    (hdata : ∀ n, .copy n ∈ p.threadTraces → p.data (.copy n) = s.data (.copy n)) : CopiesFrom s p :=
  fun n hn => ⟨_, htraces n hn, by rw [hdata n hn]; exact SameLayout.refl _⟩

theorem CopiesFrom.same {p q : Process} (h : CopiesFrom s p) (htraces : q.threadTraces = p.threadTraces)
    (hdata : ∀ n, q.data (.copy n) = p.data (.copy n)) : CopiesFrom s q := by
  intro n hn
  rw [htraces] at hn
  obtain ⟨r, hr, hsame⟩ := h n hn
  exact ⟨r, hr, by rw [hdata]; exact hsame⟩

theorem copiesFrom_unregister {t : ℕ} {deferFree : Bool} {name : Vector UInt8 16}
    {clock : ClockReading} (h : s.unregisterThisThread t deferFree name clock = some s') :
    CopiesFrom s s' := by
  rcases unregisterThisThread_cases h with ⟨-, rfl⟩ | ⟨-, hrel⟩ | ⟨-, -, -, now, -, hhand⟩
  · exact CopiesFrom.of_data (fun n hn => hn) fun n _ => rfl
  · exact CopiesFrom.of_data (fun n hn => hrel.mem hn) fun n _ => hrel.data_of_ne (by simp)
  · intro n hn
    by_cases hnew : n = s.numCopies
    · -- the copy that the thread's own data went to
      subst hnew
      refine ⟨.tls t, hhand.tls_mem, ?_⟩
      have hdata := sameLayout_updateName (s.data (.tls t)) name
      rw [hhand.data_new]
      exact ⟨hdata.pos, hdata.buf, hdata.bufSize, hdata.mask⟩
    · have hne : TraceRef.copy n ≠ .copy s.numCopies := by simpa using hnew
      refine ⟨.copy n, (hhand.mem hn).resolve_left hne, ?_⟩
      rw [hhand.data_of_ne hne]
      exact SameLayout.refl _

theorem copiesFrom_collectGarbage (ho : s.Owned) {exitingProgram : Bool} {clock : ClockReading}
    (h : s.collectGarbage exitingProgram clock = some s') : CopiesFrom s s' := by
  unfold collectGarbage at h
  split_ifs at h
  · obtain rfl := Option.some.inj h
    exact CopiesFrom.of_data (fun n hn => hn) fun n _ => rfl
  · obtain ⟨now, -, rfl⟩ := Option.map_eq_some_iff.1 h
    have hstart : SameOwners s { s with exiting := s.exiting || exitingProgram } :=
      ⟨rfl, rfl, rfl, rfl, rfl, fun _ h => h, fun _ => ⟨rfl, rfl, rfl⟩⟩
    have hloop := @collectLoop_rule (fun p => p.Owned ∧ ∀ n, .copy n ∈ p.threadTraces →
        .copy n ∈ s.threadTraces ∧ p.data (.copy n) = s.data (.copy n)) now ?_
      s.threadTraces.length 0 _ ⟨hstart.owned ho, fun n hn => ⟨hn, rfl⟩⟩
    · exact CopiesFrom.of_data (fun n hn => (hloop.2 n hn).1) fun n hn => (hloop.2 n hn).2
    · rintro p i r ⟨hp, hcopies⟩ hr hc
      have hrel := released_collectAt hp hr hc
      refine ⟨hrel.owned hp, fun n hn => ?_⟩
      obtain ⟨hmem, hdata⟩ := hcopies n (hrel.mem hn)
      have hne : TraceRef.copy n ≠ r := by
        rintro rfl
        exact hp.not_mem_of_perm hrel.threadTraces (by simp) hn
      exact ⟨hmem, by rw [hrel.data_of_ne hne, hdata]⟩

theorem copiesFrom_onAll {f : TraceRef → TraceData → TraceData} (hf : ∀ r d, SameLayout d (f r d)) :
    CopiesFrom s (s.onAll f) := by
  intro n hn
  refine ⟨.copy n, hn, ?_⟩
  have hdata : (s.onAll f).data (.copy n) = f (.copy n) (s.data (.copy n)) := if_pos hn
  rw [hdata]
  exact hf _ _

/-- **The elements of copies** come from elements before the step. -/
theorem copiesFrom_step {a : Action} (ho : s.Owned) (h : s.step a = some s') : CopiesFrom s s' := by
  have hkeep : CopiesFrom s s := CopiesFrom.of_data (fun n hn => hn) fun n _ => rfl
  have hpause : CopiesFrom s s.pauseTracing :=
    (copiesFrom_onAll (f := fun _ d => d.pauseTracing) fun _ d => ⟨rfl, rfl, rfl, Or.inr (Or.inl rfl)⟩).same
      rfl fun _ => rfl
  have hresume : CopiesFrom s s.resumeTracing :=
    (copiesFrom_onAll (f := fun _ d => d.resumeTracing) fun _ d => ⟨rfl, rfl, rfl, Or.inr (Or.inr rfl)⟩).same
      rfl fun _ => rfl
  cases stepped_of_step h with
  | constructMain | createThread | exitThread | endThread => exact hkeep.same rfl fun _ => rfl
  | allocate => exact hkeep.same rfl fun n => by simp [allocateTrace, write]
  | link u self tid hlinking hfree hself =>
    refine CopiesFrom.of_data (fun n hn => ?_) fun n _ => by simp [linkTrace, write]
    rcases List.mem_append.1 hn with hn | hn
    · exact hn
    · exact absurd (List.mem_singleton.1 hn) (by simp)
  | ignoreThisThread u _ hmay hfree hs | unsetThreadLogBufSize u n _ hmay hfree hs hsize =>
    exact copiesFrom_unregister hs
  | setThreadLogBufSize u n s₁ hmay hfree hs₁ hsize =>
    exact (copiesFrom_unregister hs₁).same rfl fun _ => rfl
  | returnFromStart u name clock s₁ hmay hrunning hu hfree hs₁ =>
    exact (copiesFrom_unregister hs₁).same rfl fun _ => rfl
  | collectGarbage exitingProgram clock _ hfree hs => exact copiesFrom_collectGarbage ho hs
  | disableTracing => exact hpause
  | enableTracing => exact hresume
  | beginSnapshot names hfree =>
    intro n hn
    obtain ⟨r, hr, hsame⟩ := copiesFrom_onAll (s := s.pauseTracing)
      (f := fun r d => d.updateName (names r)) (fun r d => sameLayout_updateName d _) n hn
    cases r with
    | copy m =>
      obtain ⟨r', hr', hsame'⟩ := hpause m hr
      exact ⟨r', hr', hsame'.trans hsame⟩
    | tls t =>
      refine ⟨.tls t, hr, SameLayout.trans ?_ hsame⟩
      have hdata : s.pauseTracing.data (.tls t) = (s.data (.tls t)).pauseTracing := if_pos hr
      rw [hdata]
      exact ⟨rfl, rfl, rfl, Or.inr (Or.inl rfl)⟩
  | endSnapshot => exact hresume.same rfl fun _ => rfl
  | trace | store => exact hkeep.same rfl fun n => by simp [withTracer, write]

/-! ## The sizes of buffers -/

/-- What is promised of arguments, and of `posix_memalign`: it rejects alignments that are no
    multiples of eight. -/
def Admitted (s : Process) : Action → Prop
  | .setThreadLogBufSize _ logBufSize => logBufSize ≤ 30
  | .allocate t (some _) =>
    match s.registration t with
    | .allocating n => s.logSize n ≠ 0 → s.blockSize n * 2 % 8 = 0
    | _ => True
  | _ => True

instance (s : Process) : ∀ a, Decidable (s.Admitted a)
  | .setThreadLogBufSize _ logBufSize => inferInstanceAs (Decidable (logBufSize ≤ 30))
  | .allocate t (some _) =>
    match h : s.registration t with
    | .allocating n => decidable_of_iff (s.logSize n ≠ 0 → s.blockSize n * 2 % 8 = 0)
        (by simp only [Admitted, h])
    | .idle | .linking => isTrue (by simp only [Admitted, h])
  | .allocate _ none | .constructMain | .createThread _ | .link _ _ _ | .ignoreThisThread _
  | .returnFromStart _ _ _ | .exitThread _ | .endThread _ | .collectGarbage _ _ | .disableTracing
  | .enableTracing | .beginSnapshot _ | .endSnapshot | .trace _ _ | .store _ => isTrue trivial

/-- No thread asks for a buffer that is too large. -/
structure SmallLogs (s : Process) : Prop where
  default : s.defaultLogBufSize ≤ 30
  asked : ∀ t n, s.registration t = .allocating n → n ≤ 30

theorem SmallLogs.same (h : s.SmallLogs) (hdefault : s'.defaultLogBufSize = s.defaultLogBufSize)
    (hreg : s'.registration = s.registration) : s'.SmallLogs where
  default := hdefault ▸ h.default
  asked t n hn := h.asked t n (hreg ▸ hn)

theorem SmallLogs.update (h : s.SmallLogs) {u : ℕ} {r : Registration}
    (hr : ∀ n, r = .allocating n → n ≤ 30) (hdefault : s'.defaultLogBufSize = s.defaultLogBufSize)
    (hreg : s'.registration = Function.update s.registration u r) : s'.SmallLogs where
  default := hdefault ▸ h.default
  asked t n hn := by
    rw [hreg] at hn
    by_cases ht : t = u
    · rw [ht, Function.update_self] at hn
      exact hr n hn
    · rw [Function.update_of_ne ht] at hn
      exact h.asked t n hn

theorem SmallLogs.rest (h : s.SmallLogs) (hrest : SameRest s s') : s'.SmallLogs :=
  h.same hrest.defaultLogBufSize hrest.registration

theorem smallLogs_step {a : Action} (h : s.SmallLogs) (hok : s.Admitted a)
    (hs : s.step a = some s') : s'.SmallLogs := by
  cases stepped_of_step hs with
  | constructMain | createThread =>
    exact h.update (r := .allocating 0) (by rintro n ⟨⟩; exact Nat.zero_le _) rfl rfl
  | allocate => exact h.update (r := .linking) (by simp) rfl rfl
  | link => exact h.update (r := .idle) (by simp) rfl rfl
  | exitThread | endThread | beginSnapshot | endSnapshot | disableTracing | enableTracing | trace
  | store => exact h.same rfl rfl
  | ignoreThisThread u _ hmay hfree hs₁ | unsetThreadLogBufSize u n _ hmay hfree hs₁ hsize =>
    exact h.rest (sameRest_unregisterThisThread hs₁).1
  | setThreadLogBufSize u n s₁ hmay hfree hs₁ hsize =>
    have hn : n ≤ 30 := hok
    refine (h.rest (sameRest_unregisterThisThread hs₁).1).update (r := .allocating n.toNat) ?_ rfl rfl
    rintro m ⟨⟩
    omega
  | returnFromStart u name clock s₁ hmay hrunning hu hfree hs₁ =>
    exact (h.rest (sameRest_unregisterThisThread hs₁).1).same rfl rfl
  | collectGarbage exitingProgram clock _ hfree hs₁ => exact h.rest (sameRest_collectGarbage hs₁)

/-! ## While a snapshot reads -/

/-- While the mutex is held, no element comes or goes, and none gets another buffer unless its
    thread allocates one. -/
theorem locked_step {a : Action} (h : s.step a = some s') (hl : s.locked = true)
    (hend : a ≠ .endSnapshot)
    (halloc : ∀ t block, a = .allocate t block → .tls t ∉ s.threadTraces) :
    s'.locked = true ∧ s'.threadTraces = s.threadTraces ∧
      ∀ r ∈ s.threadTraces, (s'.data r).buf = (s.data r).buf := by
  have htracer {t : ℕ} {a : TraceAction} {tr : Tracer} (htr : (s.tracer t).step a = some tr)
      (r : TraceRef) : ((s.withTracer t tr).data r).buf = (s.data r).buf := by
    by_cases hne : r = .tls t
    · subst hne
      exact (congrArg TraceData.buf (Function.update_self _ _ _)).trans (Tracer.step_owner htr).1
    · simp [withTracer, write, Function.update_of_ne hne]
  cases stepped_of_step h with
  | endSnapshot => exact absurd rfl hend
  | constructMain | createThread | exitThread | endThread => exact ⟨hl, rfl, fun _ _ => rfl⟩
  | allocate u n block hasked hblock =>
    refine ⟨hl, rfl, fun r hr => ?_⟩
    have hne : r ≠ .tls u := by
      rintro rfl
      exact halloc u block rfl hr
    simp [allocateTrace, write, Function.update_of_ne hne]
  | link _ _ _ _ hfree | ignoreThisThread _ _ _ hfree | setThreadLogBufSize _ _ _ _ hfree
  | unsetThreadLogBufSize _ _ _ _ hfree | returnFromStart _ _ _ _ _ _ _ hfree
  | collectGarbage _ _ _ hfree | disableTracing hfree | enableTracing hfree
  | beginSnapshot _ hfree => exact absurd (hl.symm.trans hfree) (by decide)
  | trace u call hmay =>
    have hnone : (s.tracer u).pending = none := (mayCall_iff.1 hmay).2.2
    exact ⟨hl, rfl, fun r _ => htracer (Tracer.step_enter hnone) r⟩
  | store u slot entry st rest hpending =>
    have htr := Tracer.step_store (show (s.tracer u).pending = some ⟨slot, entry, st :: rest⟩ from hpending)
    exact ⟨hl, rfl, fun r _ => htracer htr r⟩

/-! ## Accesses -/

/-- The bytes lie in the buffer that the element points to, which is allocated. -/
def Inside (s : Process) (r : TraceRef) (range : TraceData.Range) : Prop :=
  (s.data r).buf ≠ 0 ∧ ∃ size, ((s.data r).buf, size) ∈ s.buffers.blocks ∧
    (s.data r).buf ≤ range.1 ∧ range.1 ≤ range.2 ∧
    range.2.toNat ≤ (s.data r).buf.toNat + size.toNat

/-- Bytes given by their distances from the start of a buffer. -/
theorem Owned.inside (ho : s.Owned) {r : TraceRef} (hr : s.Holder r) (hbuf : (s.data r).buf ≠ 0)
    {L : ℕ} (hL : (s.data r).Laid L) {range : TraceData.Range} {i j : ℕ} (hij : i ≤ j) (hj : j ≤ 2 ^ L)
    (hi' : range.1.toNat = (s.data r).buf.toNat + i)
    (hj' : range.2.toNat = (s.data r).buf.toNat + j) : s.Inside r range := by
  have hsize : (s.data r).bufSize.toNat = 2 ^ L := by
    rw [hL.size, TraceData.toNat_bufSize hL.le_thirty]
  exact ⟨hbuf, _, ho.bufLive r hr hbuf, UInt64.le_iff_toNat_le.2 (by omega),
    UInt64.le_iff_toNat_le.2 (by omega), by omega⟩

end Process

namespace TraceData.Laid
variable {d : TraceData} {L : ℕ} (h : d.Laid L)
include h

theorem toNat_add {a : UInt64} {k : ℕ} (ha : a.toNat = k) (hk : k ≤ 2 ^ L) :
    (d.buf + a).toNat = d.buf.toNat + k := by
  have hbuf := h.buf_add_le
  have htwice : 2 ^ (L + 1) = 2 * 2 ^ L := by rw [Nat.pow_succ, Nat.mul_comm]
  have := Nat.two_pow_pos L
  rw [UInt64.toNat_add, ha, Nat.mod_eq_of_lt (by omega)]

/-- The number of entries. -/
theorem toNat_entries : (d.bufSize / sizeofTraceEntry).toNat = 2 ^ L / 16 := by
  rw [UInt64.toNat_div, h.size, TraceData.toNat_bufSize h.le_thirty]
  rfl

theorem toNat_endAddr : d.endAddr.toNat = d.buf.toNat + 2 ^ L := by
  have hpow : 2 ^ L ≤ 2 ^ 30 := Nat.pow_le_pow_right (by decide) h.le_thirty
  have hdvd := Nat.div_mul_cancel h.sixteen_dvd
  refine h.toNat_add ?_ (Nat.le_refl _)
  have hsixteen : sizeofTraceEntry.toNat = 16 := rfl
  rw [UInt64.toNat_mul, h.toNat_entries, hsixteen, hdvd, Nat.mod_eq_of_lt (by omega)]

theorem toNat_lastCycle : d.lastCycle.1.toNat = d.buf.toNat + (2 ^ L - 8) ∧
    d.lastCycle.2.toNat = d.buf.toNat + 2 ^ L := by
  have hpow : 2 ^ L ≤ 2 ^ 30 := Nat.pow_le_pow_right (by decide) h.le_thirty
  have hdvd := Nat.div_mul_cancel h.sixteen_dvd
  have hentries := h.toNat_entries
  have hpos := Nat.two_pow_pos L
  have hbuf := h.buf_add_le
  have htwice : 2 ^ (L + 1) = 2 * 2 ^ L := by rw [Nat.pow_succ, Nat.mul_comm]
  have hsixteen : sizeofTraceEntry.toNat = 16 := rfl
  have hone : (d.bufSize / sizeofTraceEntry - 1).toNat = 2 ^ L / 16 - 1 := by
    have hle : (1 : UInt64) ≤ d.bufSize / sizeofTraceEntry :=
      UInt64.le_iff_toNat_le.2 (by rw [hentries, UInt64.toNat_one]; omega)
    rw [UInt64.toNat_sub_of_le _ _ hle, hentries]
    rfl
  have hlast : ((d.bufSize / sizeofTraceEntry - 1) * sizeofTraceEntry).toNat = 2 ^ L - 16 := by
    rw [UInt64.toNat_mul, hone, hsixteen, Nat.mod_eq_of_lt (by omega)]
    omega
  have hcycle : d.lastCycle.1.toNat = d.buf.toNat + (2 ^ L - 8) := by
    have height : (8 : UInt64).toNat = 8 := rfl
    dsimp only [lastCycle]
    rw [UInt64.toNat_add, h.toNat_add hlast (by omega), height, Nat.mod_eq_of_lt (by omega)]
    omega
  refine ⟨hcycle, ?_⟩
  have height : (8 : UInt64).toNat = 8 := rfl
  have hsecond : d.lastCycle.2 = d.lastCycle.1 + 8 := rfl
  rw [hsecond, UInt64.toNat_add, hcycle, height, Nat.mod_eq_of_lt (by omega)]
  omega

end TraceData.Laid

namespace Snapshotting
variable {x x' : Snapshotting}

/-- What is accessed through `pos`, `buf` and `end` lies in the buffer that is accessed, and these
    pointers are read of objects that exist. -/
structure AccessesInside (x : Snapshotting) : Prop where
  allocated : ∀ t, x.process.registration t = .linking → (x.process.data (.tls t)).buf ≠ 0 →
    x.process.Inside (.tls t) (x.process.data (.tls t)).lastCycle
  traced : ∀ t p, x.process.pending t = some p → .tls t ∈ x.process.threadTraces ∧
    x.process.Inside (.tls t) p.range
  read : x.atTime = true → ∀ r ∈ x.process.threadTraces, x.process.Alive r ∧
    ∀ range ∈ (x.process.data r).snapshotRanges, x.process.Inside r range

/-- What keeps accesses inside. -/
def Guarded (x : Snapshotting) (a : Process.Action × Bool) : Prop :=
  match a.1 with
  | .trace t _ => .tls t ∈ x.process.threadTraces ∨ (x.process.data (.tls t)).buf = 0 ∨
      (x.process.data (.tls t)).wraparoundMask = 0
  | .allocate t block => (x.atTime = true → .tls t ∉ x.process.threadTraces) ∧
      match x.process.registration t with
      | .allocating n => block ≠ none → x.process.logSize n ≠ 2 ∧ x.process.logSize n ≠ 3
      | _ => True
  | .beginSnapshot _ => a.2 = true → ∀ r ∈ x.process.threadTraces, (x.process.data r).buf ≠ 0
  | .endThread t => .tls t ∉ x.process.threadTraces
  | _ => True

instance (x : Snapshotting) : ∀ a, Decidable (x.Guarded a)
  | (.trace t _, _) => inferInstanceAs (Decidable (.tls t ∈ x.process.threadTraces ∨
      (x.process.data (.tls t)).buf = 0 ∨ (x.process.data (.tls t)).wraparoundMask = 0))
  | (.allocate t block, _) =>
    match h : x.process.registration t with
    | .allocating n => decidable_of_iff ((x.atTime = true → .tls t ∉ x.process.threadTraces) ∧
        (block ≠ none → x.process.logSize n ≠ 2 ∧ x.process.logSize n ≠ 3))
        (by simp only [Guarded, h])
    | .idle | .linking => decidable_of_iff (x.atTime = true → .tls t ∉ x.process.threadTraces)
        (by simp only [Guarded, h, and_true])
  | (.beginSnapshot _, b) => inferInstanceAs (Decidable (b = true →
      ∀ r ∈ x.process.threadTraces, (x.process.data r).buf ≠ 0))
  | (.endThread t, _) => inferInstanceAs (Decidable (.tls t ∉ x.process.threadTraces))
  | (.constructMain, _) | (.createThread _, _) | (.link _ _ _, _) | (.ignoreThisThread _, _)
  | (.setThreadLogBufSize _ _, _) | (.returnFromStart _ _ _, _) | (.exitThread _, _)
  | (.collectGarbage _ _, _) | (.disableTracing, _) | (.enableTracing, _) | (.endSnapshot, _)
  | (.store _, _) => isTrue trivial

theorem Guarded.endsUnregistered {a : Process.Action × Bool} (h : x.Guarded a) :
    x.process.EndsUnregistered a.1 := by
  obtain ⟨a, b⟩ := a
  cases a with
  | endThread t => exact h
  | _ => trivial

/-- Buffers have room for an entry. -/
theorem Guarded.ownTrace {a : Process.Action × Bool} (h : x.Guarded a)
    (hadmitted : x.process.Admitted a.1) (hlogs : x.process.SmallLogs) : x.process.OwnTrace a.1 := by
  obtain ⟨a, b⟩ := a
  cases a with
  | trace t call => exact h
  | allocate t block =>
    cases block with
    | none => trivial
    | some block =>
      simp only [Guarded, Process.Admitted, Process.OwnTrace] at h hadmitted ⊢
      cases hreg : x.process.registration t with
      | idle | linking => trivial
      | allocating n =>
        simp only [hreg] at h hadmitted ⊢
        by_cases hzero : x.process.logSize n = 0
        · exact Or.inl hzero
        have hroom := h.2 (by simp)
        have halign := hadmitted hzero
        have hone : x.process.logSize n ≠ 1 := by
          intro hone
          have hsize : x.process.blockSize n = 1 <<< UInt64.ofNat (x.process.logSize n) := rfl
          rw [hsize, hone] at halign
          exact absurd halign (by decide)
        have hle : x.process.logSize n ≤ 30 := by
          unfold Process.logSize
          split_ifs
          exacts [hlogs.default, hlogs.asked t n hreg]
        exact Or.inr ⟨by omega, hle⟩
  | _ => trivial

/-- What holds between the steps of a guarded run. -/
structure InBounds (x : Snapshotting) : Prop where
  owned : x.process.Owned
  threads : ∀ t, Process.ThreadLaid True x.process t
  copies : ∀ n, .copy n ∈ x.process.threadTraces → (x.process.data (.copy n)).buf ≠ 0 →
    ∃ L, (x.process.data (.copy n)).Laid L
  logs : x.process.SmallLogs
  ended : x.process.EndedGone
  reading : x.atTime = true → x.process.locked = true ∧
    ∀ r ∈ x.process.threadTraces, (x.process.data r).buf ≠ 0

theorem InBounds.laid (h : x.InBounds) {r : TraceRef} (hr : r ∈ x.process.threadTraces)
    (hbuf : (x.process.data r).buf ≠ 0) : ∃ L, (x.process.data r).Laid L := by
  cases r with
  | tls t => exact (h.threads t).laid trivial hbuf
  | copy n => exact h.copies n hr hbuf

/-- The buffers that a snapshot reads stay while it does. -/
theorem reading_step {a : Process.Action × Bool} (hguard : x.Guarded a) (hx : x.step a = some x')
    (h : x.atTime = true → x.process.locked = true ∧
      ∀ r ∈ x.process.threadTraces, (x.process.data r).buf ≠ 0) (hat : x'.atTime = true) :
    x'.process.locked = true ∧ ∀ r ∈ x'.process.threadTraces, (x'.process.data r).buf ≠ 0 := by
  obtain ⟨process, hp, rfl⟩ := Option.map_eq_some_iff.1 hx
  obtain ⟨a, b⟩ := a
  by_cases hbegin : ∃ names, a = .beginSnapshot names
  · obtain ⟨names, rfl⟩ := hbegin
    cases Process.stepped_of_step hp
    refine ⟨rfl, fun r hr => ?_⟩
    have hsame := (Process.sameOwners_pauseTracing (s := x.process)).trans
      (Process.sameOwners_onAll (f := fun r d => d.updateName (names r)) fun r d => by
        unfold TraceData.updateName
        split_ifs <;> exact ⟨rfl, rfl, rfl⟩)
    have hbuf := hguard hat r hr
    rw [← hsame.buf r] at hbuf
    exact hbuf
  · have hend : a ≠ .endSnapshot := by
      rintro rfl
      cases hat
    have hat' : x.atTime = true := by
      cases a with
      | beginSnapshot names => exact absurd ⟨names, rfl⟩ hbegin
      | endSnapshot => exact absurd rfl hend
      | _ => exact hat
    obtain ⟨hl, hbufs⟩ := h hat'
    have hstep := Process.locked_step hp hl hend (by
      rintro t block rfl
      exact hguard.1 hat')
    refine ⟨hstep.1, fun r hr => ?_⟩
    have hr : r ∈ x.process.threadTraces := hstep.2.1 ▸ hr
    rw [hstep.2.2 r hr]
    exact hbufs r hr

theorem inBounds_step {a : Process.Action × Bool} (h : x.InBounds)
    (hadmitted : x.process.Admitted a.1) (hguard : x.Guarded a) (hx : x.step a = some x') :
    x'.InBounds := by
  have hreading := reading_step hguard hx h.reading
  obtain ⟨process, hp, rfl⟩ := Option.map_eq_some_iff.1 hx
  have hown := hguard.ownTrace hadmitted h.logs
  refine ⟨(Process.effect_step h.owned hp).owned h.owned,
    fun t => Process.threadLaid_step h.owned (h.threads t) (fun _ => hown) hp, fun n hn hbuf => ?_,
    Process.smallLogs_step h.logs hadmitted hp, h.ended.step h.owned hguard.endsUnregistered hp,
    hreading⟩
  obtain ⟨r, hr, hsame⟩ := Process.copiesFrom_step h.owned hp n hn
  obtain ⟨L, hL⟩ := h.laid hr (hsame.buf ▸ hbuf)
  exact ⟨L, hL.congr hsame.buf hsame.bufSize hsame.pos hsame.mask⟩

theorem InBounds.accessesInside (h : x.InBounds) : x.AccessesInside where
  allocated t ht hbuf := by
    obtain ⟨L, hL⟩ := (h.threads t).laid trivial hbuf
    obtain ⟨hfst, hsnd⟩ := hL.toNat_lastCycle
    exact h.owned.inside (Or.inr ⟨t, rfl, ht⟩) hbuf hL (Nat.sub_le _ _) (Nat.le_refl _) hfst hsnd
  traced t p hp := by
    obtain ⟨hmem, L, hL, i, hi, hnat⟩ := (h.threads t).writes trivial p hp
    have hbuf : (x.process.data (.tls t)).buf ≠ 0 := by
      intro h0
      rw [((h.threads t).null h0).2] at hp
      cases hp
    have hle := hL.buf_add_le
    have htwice : 2 ^ (L + 1) = 2 * 2 ^ L := by rw [Nat.pow_succ, Nat.mul_comm]
    have hpos := Nat.two_pow_pos L
    have hsixteen : sizeofTraceEntry.toNat = 16 := rfl
    have hend : p.range.2.toNat = (x.process.data (.tls t)).buf.toNat + 16 * (i + 1) := by
      dsimp only [PendingTrace.range]
      rw [UInt64.toNat_add, hnat, hsixteen, Nat.mod_eq_of_lt (by omega)]
      omega
    exact ⟨hmem, h.owned.inside (Or.inl hmem) hbuf hL (by omega) hi hnat hend⟩
  read hat r hr := by
    refine ⟨h.owned.forall_alive.2 h.ended.gone r hr, fun range hrange => ?_⟩
    have hbuf := (h.reading hat).2 r hr
    obtain ⟨L, hL⟩ := h.laid hr hbuf
    obtain ⟨k, hk, hpos⟩ := hL.pos
    have hend := hL.toNat_endAddr
    have h16 := Nat.le_of_dvd (Nat.two_pow_pos L) hL.sixteen_dvd
    have hlast : ((x.process.data r).endAddr - 8).toNat =
        (x.process.data r).buf.toNat + (2 ^ L - 8) := by
      have height : (8 : UInt64).toNat = 8 := rfl
      rw [UInt64.toNat_sub_of_le _ _ (UInt64.le_iff_toNat_le.2 (by omega)), hend, height]
      omega
    simp only [TraceData.snapshotRanges, List.mem_cons, List.not_mem_nil, or_false] at hrange
    rcases hrange with rfl | rfl | rfl
    · exact h.owned.inside (Or.inl hr) hbuf hL (Nat.sub_le _ _) (Nat.le_refl _) hlast hend
    · exact h.owned.inside (Or.inl hr) hbuf hL hk (Nat.le_refl _) hpos hend
    · exact h.owned.inside (Or.inl hr) hbuf hL (Nat.zero_le _) hk rfl hpos

/-- **Accesses stay in the buffer.**  If buffers have room for an entry, traced calls are made by
    threads that still have their buffer or never got one, no thread ends while it is registered,
    and every registered thread has a buffer when a snapshot starts at a time, then all accesses
    are inside. -/
theorem accessesInside_run {pid : UInt64} {gcMaxAgeMs : ℤ} {defaultLogBufSize : ℕ} {mem : Memory}
    {acts : List (Process.Action × Bool)} (hdefault : defaultLogBufSize ≤ 30)
    (hadmitted : Along step (fun x a => x.process.Admitted a.1)
      (init pid gcMaxAgeMs defaultLogBufSize mem) acts)
    (hguard : Along step Guarded (init pid gcMaxAgeMs defaultLogBufSize mem) acts)
    (hrun : runFrom step (init pid gcMaxAgeMs defaultLogBufSize mem) acts = some x) :
    x.AccessesInside := by
  have hinit : (init pid gcMaxAgeMs defaultLogBufSize mem).InBounds :=
    ⟨Process.owned_init, fun t => Process.threadLaid_init, by simp [init, Process.init],
      ⟨hdefault, by simp [init, Process.init]⟩, Process.endedGone_init, by simp [init]⟩
  have hboth : Along step (fun x a => x.process.Admitted a.1 ∧ x.Guarded a)
      (init pid gcMaxAgeMs defaultLogBufSize mem) acts := along_and hadmitted hguard
  have hx : x.InBounds :=
    run_invariant_along (fun _ _ _ h ha hx => inBounds_step h ha.1 ha.2 hx) hinit hboth hrun
  exact hx.accessesInside

/-- A snapshot begins while a thread is in a traced call. -/
theorem accessesInside_run_demo :
    let acts : List (Process.Action × Bool) := [(.createThread 1, false),
      (.allocate 1 (some 0x10000), false), (.link 1 2 2, false),
      (.trace 1 (.fentry 0x1100 10), false), (.beginSnapshot fun _ => Vector.replicate 16 0, true)]
    ∃ x, runFrom step (init 1 300 5 fun _ => 0) acts = some x ∧ x.atTime = true ∧
      x.AccessesInside := by
  intro acts
  have hsome : (runFrom step (init 1 300 5 fun _ => 0) acts).isSome := by decide +kernel
  obtain ⟨x, hx⟩ := Option.isSome_iff_exists.1 hsome
  have hat : ∀ x ∈ runFrom step (init 1 300 5 fun _ => 0) acts, x.atTime = true := by decide +kernel
  refine ⟨x, hx, hat x hx, ?_⟩
  exact accessesInside_run (by decide) (by decide +kernel) (by decide +kernel) hx

/-- Tracing is disabled by the environment, and a snapshot reads the cycle before address zero. -/
theorem not_accessesInside : ¬ ∀ (defaultLogBufSize : ℕ) (acts : List (Process.Action × Bool))
    (x : Snapshotting), defaultLogBufSize ≤ 30 →
      Along step (fun x a => x.process.Admitted a.1)
        (init 1 300 defaultLogBufSize fun _ => 0) acts →
      runFrom step (init 1 300 defaultLogBufSize fun _ => 0) acts = some x → x.AccessesInside := by
  intro h
  let acts : List (Process.Action × Bool) := [(.constructMain, false), (.allocate 0 none, false),
    (.link 0 2 2, false), (.beginSnapshot fun _ => Vector.replicate 16 0, true)]
  have hsome : (runFrom step (init 1 300 0 fun _ => 0) acts).isSome := by decide +kernel
  obtain ⟨x, hx⟩ := Option.isSome_iff_exists.1 hsome
  have hnull : ∀ x ∈ runFrom step (init 1 300 0 fun _ => 0) acts, x.atTime = true ∧
      .tls 0 ∈ x.process.threadTraces ∧ (x.process.data (.tls 0)).buf = 0 := by decide +kernel
  obtain ⟨hat, hmem, hbuf⟩ := hnull x hx
  have hinside := ((h 0 acts x (by decide) (by decide +kernel) hx).read hat _ hmem).2
  exact (hinside _ List.mem_cons_self).1 hbuf

end Snapshotting

end Funtrace
