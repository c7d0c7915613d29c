/-
  A thread writes to its own buffer only.

  While a thread is registered its traced calls write to slots of its buffer
  (`Laid`), which no other element shares.  What breaks this is a traced call of a
  thread that `unregister_this_thread` has taken off the list and whose buffer it has
  left to garbage collection: the thread-local `trace_data` still points to the buffer.
  `OwnTrace` excludes it, and `writesOwn_run` says that nothing else goes wrong.
-/
import Funtrace.Proof.Cyclic
import Funtrace.Proof.Registry

namespace Funtrace

/-! ## The layout of a buffer -/

/-- A buffer of `2 ^ L` bytes whose position is at one of its slots, or at its end. -/
structure TraceData.Laid (d : TraceData) (L : ℕ) : Prop where
  four_le : 4 ≤ L
  le_thirty : L ≤ 30
  size : d.bufSize = 1 <<< UInt64.ofNat L
  align : d.buf.toNat % 2 ^ (L + 1) = 0
  pos : ∃ k, 16 * k ≤ 2 ^ L ∧ d.pos.toNat = d.buf.toNat + 16 * k
  mask : d.wraparoundMask = 0 ∨ d.wraparoundMask = ~~~d.bufSize

/-- The address is that of a slot in a buffer of `2 ^ L` bytes. -/
def TraceData.IsSlot (d : TraceData) (L : ℕ) (slot : UInt64) : Prop :=
  ∃ i, 16 * (i + 1) ≤ 2 ^ L ∧ slot.toNat = d.buf.toNat + 16 * i

namespace TraceData.Laid
variable {d d' : TraceData} {L : ℕ} (h : d.Laid L)
include h

theorem sixteen_dvd : 16 ∣ 2 ^ L := Nat.pow_dvd_pow 2 h.four_le

theorem buf_add_le : d.buf.toNat + 2 ^ (L + 1) ≤ 2 ^ 64 := by
  have hL := h.le_thirty
  have hlt := d.buf.toNat_lt
  have hdvd : 2 ^ (L + 1) ∣ 2 ^ 64 - d.buf.toNat :=
    Nat.dvd_sub (Nat.pow_dvd_pow 2 (by omega)) (Nat.dvd_of_mod_eq_zero h.align)
  have := Nat.le_of_dvd (by omega) hdvd
  omega

theorem congr (hbuf : d'.buf = d.buf) (hsize : d'.bufSize = d.bufSize) (hpos : d'.pos = d.pos)
    (hmask : d'.wraparoundMask = d.wraparoundMask ∨ d'.wraparoundMask = 0 ∨
      d'.wraparoundMask = ~~~d.bufSize) : d'.Laid L where
  four_le := h.four_le
  le_thirty := h.le_thirty
  size := hsize.trans h.size
  align := by rw [hbuf]; exact h.align
  pos := by rw [hbuf, hpos]; exact h.pos
  mask := by
    rw [hsize]
    rcases hmask with hm | hm
    · rw [hm]
      exact h.mask
    · exact hm

/-- A traced call that is not left early writes to a slot. -/
theorem isSlot (hslot : d.pos &&& d.wraparoundMask ≠ 0) :
    d.IsSlot L (d.pos &&& d.wraparoundMask) := by
  have hL := h.le_thirty
  have hbuf := h.buf_add_le
  have htwice : 2 ^ (L + 1) = 2 * 2 ^ L := by rw [Nat.pow_succ, Nat.mul_comm]
  obtain ⟨k, hk, hpos⟩ := h.pos
  have hmask : d.wraparoundMask = ~~~d.bufSize := by
    refine h.mask.resolve_left fun h0 => hslot ?_
    rw [h0, UInt64.and_zero]
  have h64 : UInt64.size = 2 ^ 64 := rfl
  have hpow := Nat.two_pow_pos L
  have hand := and_not_two_pow (show L < 64 by omega) h.align hk (by omega)
  have hnat : (d.pos &&& d.wraparoundMask).toNat =
      if 16 * k = 2 ^ L then d.buf.toNat else d.buf.toNat + 16 * k := by
    rw [hmask, UInt64.toNat_and, UInt64.toNat_not, h.size, TraceData.toNat_bufSize hL, hpos, h64, hand]
  have hdvd := h.sixteen_dvd
  by_cases hend : 16 * k = 2 ^ L
  · rw [if_pos hend] at hnat
    exact ⟨0, Nat.le_of_dvd hpow (by simpa using hdvd), by simpa using hnat⟩
  · rw [if_neg hend] at hnat
    exact ⟨k, by omega, hnat⟩

/-- The position after a slot. -/
theorem setPos {slot : UInt64} (hslot : d.IsSlot L slot) :
    ({ d with pos := slot + sizeofTraceEntry } : TraceData).Laid L := by
  obtain ⟨i, hi, hnat⟩ := hslot
  have hbuf := h.buf_add_le
  have htwice : 2 ^ (L + 1) = 2 * 2 ^ L := by rw [Nat.pow_succ, Nat.mul_comm]
  refine { h with pos := ⟨i + 1, hi, ?_⟩ }
  have hlt : slot.toNat + sizeofTraceEntry.toNat < 2 ^ 64 := by
    change slot.toNat + 16 < _
    omega
  rw [UInt64.toNat_add, Nat.mod_eq_of_lt hlt, hnat]
  rfl

end TraceData.Laid

/-- A fresh block is laid out. -/
theorem FreshBlock.laid {buffers : Heap UInt64 UInt64} {L : ℕ} {b : UInt64} (h4 : 4 ≤ L) (h30 : L ≤ 30)
    (hb : FreshBlock buffers (1 <<< UInt64.ofNat L * 2) (1 <<< UInt64.ofNat L) b) {d : TraceData}
    (hbuf : d.buf = b) (hpos : d.pos = b) (hsize : d.bufSize = 1 <<< UInt64.ofNat L)
    (hmask : d.wraparoundMask = ~~~d.bufSize) : d.Laid L where
  four_le := h4
  le_thirty := h30
  size := hsize
  align := by
    have hmod := congrArg UInt64.toNat hb.2.1
    have hlt : 2 ^ L * 2 < 2 ^ 64 := by
      rw [← Nat.pow_succ]
      exact Nat.pow_lt_pow_right (by decide) (by omega)
    have htwo : (2 : UInt64).toNat = 2 := rfl
    rw [UInt64.toNat_mod, UInt64.toNat_mul, TraceData.toNat_bufSize h30, htwo,
      Nat.mod_eq_of_lt hlt] at hmod
    rw [hbuf, Nat.pow_succ]
    exact hmod
  pos := ⟨0, Nat.zero_le _, by rw [hbuf, hpos]; rfl⟩
  mask := Or.inr hmask

namespace Process
variable {own : Prop} {s s' : Process} {t : ℕ}

/-! ## A thread and its buffer -/

/-- The log of the size that a thread asks for. -/
def logSize (s : Process) (n : ℕ) : ℕ := if n = 0 then s.defaultLogBufSize else n

/-- Traced calls are made by threads that are registered, have no buffer or are paused; buffers
    have sizes from one entry to what an `int` can be shifted to. -/
def OwnTrace (s : Process) : Action → Prop
  | .trace t _ => .tls t ∈ s.threadTraces ∨ (s.data (.tls t)).buf = 0 ∨
      (s.data (.tls t)).wraparoundMask = 0
  | .allocate t (some _) =>
    match s.registration t with
    | .allocating n => s.logSize n = 0 ∨ 4 ≤ s.logSize n ∧ s.logSize n ≤ 30
    | _ => True
  | _ => True

instance (s : Process) : ∀ a, Decidable (s.OwnTrace a)
  | .trace t _ => inferInstanceAs (Decidable (.tls t ∈ s.threadTraces ∨ (s.data (.tls t)).buf = 0 ∨
      (s.data (.tls t)).wraparoundMask = 0))
  | .allocate t (some _) =>
    match h : s.registration t with
    | .allocating n => decidable_of_iff (s.logSize n = 0 ∨ 4 ≤ s.logSize n ∧ s.logSize n ≤ 30)
        (by simp only [OwnTrace, h])
    | .idle | .linking => isTrue (by simp only [OwnTrace, h])
  | .allocate _ none | .constructMain | .createThread _ | .link _ _ _ | .ignoreThisThread _
  | .setThreadLogBufSize _ _ | .returnFromStart _ _ _ | .exitThread _ | .endThread _
  | .collectGarbage _ _ | .disableTracing | .enableTracing | .beginSnapshot _ | .endSnapshot
  | .store _ => isTrue trivial

/-- A thread without a buffer is at address zero and in no traced call.  If all traced calls were
    the thread's own to make (`own`), it writes to its buffer. -/
structure ThreadLaid (own : Prop) (s : Process) (t : ℕ) : Prop where
  quiet : s.registration t ≠ .idle ∨ s.phase t = .unborn → s.pending t = none
  null : (s.data (.tls t)).buf = 0 → (s.data (.tls t)).pos = 0 ∧ s.pending t = none
  laid : own → (s.data (.tls t)).buf ≠ 0 → ∃ L, (s.data (.tls t)).Laid L
  writes : own → ∀ p, s.pending t = some p → .tls t ∈ s.threadTraces ∧
    ∃ L, (s.data (.tls t)).Laid L ∧ (s.data (.tls t)).IsSlot L p.slot

theorem ThreadLaid.congr (h : ThreadLaid own s t) {resumed : Prop} (hun : Untouched resumed s s' t) :
    ThreadLaid own s' t where
  quiet hq := by
    rw [hun.registration, hun.phase] at hq
    rw [hun.pending]
    exact h.quiet hq
  null hbuf := by
    rw [hun.buf] at hbuf
    rw [hun.pos, hun.pending]
    exact h.null hbuf
  laid hown hbuf := by
    rw [hun.buf] at hbuf
    obtain ⟨L, hL⟩ := h.laid hown hbuf
    exact ⟨L, hL.congr hun.buf hun.bufSize hun.pos (hun.mask.imp_right (Or.imp_right And.right))⟩
  writes hown p hp := by
    rw [hun.pending] at hp
    obtain ⟨hmem, L, hL, i, hi, hnat⟩ := h.writes hown p hp
    exact ⟨hun.mem.2 hmem, L,
      hL.congr hun.buf hun.bufSize hun.pos (hun.mask.imp_right (Or.imp_right And.right)), i, hi,
      by rw [hun.buf, hnat]⟩

/-- A thread that is in no traced call. -/
theorem threadLaid_of_idle (hpending : s.pending t = none)
    (hnull : (s.data (.tls t)).buf = 0 → (s.data (.tls t)).pos = 0)
    (hlaid : own → (s.data (.tls t)).buf ≠ 0 → ∃ L, (s.data (.tls t)).Laid L) :
    ThreadLaid own s t where
  quiet _ := hpending
  null hbuf := ⟨hnull hbuf, hpending⟩
  laid := hlaid
  writes _ p hp := by
    rw [hpending] at hp
    cases hp

theorem ThreadLaid.unregister (h : ThreadLaid own s t) (hpending : s.pending t = none) {deferFree : Bool}
    {name : Vector UInt8 16} {clock : ClockReading}
    (hs : s.unregisterThisThread t deferFree name clock = some s') : ThreadLaid own s' t := by
  have hnone : s'.pending t = none := by rw [(sameRest_unregisterThisThread hs).1.pending, hpending]
  rcases unregisterThisThread_cases hs with ⟨-, rfl⟩ | ⟨-, hrel⟩ | ⟨-, -, -, now, -, hhand⟩
  · exact h
  · have hdata : s'.data (.tls t) = (s.data (.tls t)).free := by rw [hrel.data, Function.update_self]
    refine threadLaid_of_idle hnone (fun _ => by rw [hdata]; rfl) fun _ hbuf => ?_
    exact absurd hrel.buf_self hbuf
  · have hdata : s'.data (.tls t) = s.data (.tls t) := hhand.data_of_ne (by simp)
    refine threadLaid_of_idle hnone ?_ ?_ <;> rw [hdata]
    · exact fun hbuf => (h.null hbuf).1
    · exact h.laid

theorem ThreadLaid.enter (h : ThreadLaid own s t) {call : TraceCall} (hcall : s.mayCall t)
    (hok : own → s.OwnTrace (.trace t call)) :
    ThreadLaid own (s.withTracer t ((s.tracer t).enter call)) t := by
  obtain ⟨hphase, hreg, hpending⟩ := mayCall_iff.1 hcall
  have hdata : ((s.tracer t).enter call).data = s.data (.tls t) := Tracer.data_enter
  have hdata' : (s.withTracer t ((s.tracer t).enter call)).data (.tls t) = s.data (.tls t) :=
    (Function.update_self _ _ _).trans hdata
  have hpend : (s.withTracer t ((s.tracer t).enter call)).pending t =
      ((s.tracer t).enter call).pending := Function.update_self _ _ _
  by_cases hslot : (s.data (.tls t)).pos &&& (s.data (.tls t)).wraparoundMask = 0
  · have hsame : (s.tracer t).enter call = s.tracer t := if_pos hslot
    refine threadLaid_of_idle (by rw [hpend, hsame]; exact hpending) ?_ ?_ <;> rw [hdata']
    · exact fun hbuf => (h.null hbuf).1
    · exact h.laid
  · have hbuf : (s.data (.tls t)).buf ≠ 0 := by
      intro hbuf
      rw [(h.null hbuf).1, UInt64.zero_and] at hslot
      exact hslot rfl
    have hmem : own → .tls t ∈ s.threadTraces := by
      intro hown
      refine (hok hown).resolve_right ?_
      rintro (h0 | h0)
      · exact hbuf h0
      · rw [h0, UInt64.and_zero] at hslot
        exact hslot rfl
    refine ⟨fun hq => ?_, fun h0 => ?_, fun hown _ => ?_, fun hown p hp => ?_⟩
    · rcases hq with hq | hq
      · exact absurd hreg hq
      · rcases hphase with hp | hp <;> exact absurd (hp.symm.trans hq) (by simp)
    · rw [hdata'] at h0
      exact absurd h0 hbuf
    · rw [hdata']
      exact h.laid hown hbuf
    · obtain ⟨L, hL⟩ := h.laid hown hbuf
      have hset : ((s.tracer t).enter call).pending = some
          ⟨(s.data (.tls t)).pos &&& (s.data (.tls t)).wraparoundMask, call.entry, call.stores⟩ :=
        congrArg Tracer.pending (if_neg hslot)
      rw [hpend, hset] at hp
      obtain rfl := Option.some.inj hp
      rw [hdata']
      exact ⟨hmem hown, L, hL, hL.isSlot hslot⟩

theorem ThreadLaid.store (h : ThreadLaid own s t) {slot : UInt64} {entry : FunTraceEntry}
    {st : TraceStore} {rest : List TraceStore} (hp : s.pending t = some ⟨slot, entry, st :: rest⟩) :
    ThreadLaid own (s.withTracer t ((s.tracer t).store slot entry st rest)) t := by
  have hbuf : (s.data (.tls t)).buf ≠ 0 := by
    intro h0
    rw [(h.null h0).2] at hp
    cases hp
  set tr := (s.tracer t).store slot entry st rest with htr
  have hdata : tr.data = s.data (.tls t) ∨
      tr.data = { s.data (.tls t) with pos := slot + sizeofTraceEntry } := Tracer.data_store ..
  have hsame : tr.data.buf = (s.data (.tls t)).buf := by
    rcases hdata with hd | hd <;> rw [hd]
  have hlaid : ∀ {L}, (s.data (.tls t)).Laid L → (s.data (.tls t)).IsSlot L slot → tr.data.Laid L := by
    intro L hL hslot
    rcases hdata with hd | hd <;> rw [hd]
    exacts [hL, hL.setPos hslot]
  have hpend : tr.pending = if rest = [] then none else some ⟨slot, entry, rest⟩ :=
    Tracer.pending_store ..
  have hdata' : (s.withTracer t tr).data (.tls t) = tr.data := Function.update_self _ _ _
  have hpend' : (s.withTracer t tr).pending t = tr.pending := Function.update_self _ _ _
  refine ⟨fun hq => ?_, fun h0 => ?_, fun hown _ => ?_, fun hown p hpp => ?_⟩
  · rw [h.quiet hq] at hp
    cases hp
  · rw [hdata', hsame] at h0
    exact absurd h0 hbuf
  · obtain ⟨-, L, hL, hslot⟩ := h.writes hown _ hp
    rw [hdata']
    exact ⟨L, hlaid hL hslot⟩
  · obtain ⟨hmem, L, hL, hslot⟩ := h.writes hown _ hp
    rw [hpend', hpend] at hpp
    split_ifs at hpp
    obtain rfl := Option.some.inj hpp
    rw [hdata']
    refine ⟨hmem, L, hlaid hL hslot, ?_⟩
    rw [TraceData.IsSlot, hsame]
    exact hslot

theorem threadLaid_step {a : Action} (ho : s.Owned) (h : ThreadLaid own s t)
    (hok : own → s.OwnTrace a) (hs : s.step a = some s') : ThreadLaid own s' t := by
  by_cases ha : a.thread = some t
  · cases stepped_of_step hs with
    | constructMain hmay honce =>
      obtain rfl : 0 = t := by simpa [Action.thread] using ha
      exact threadLaid_of_idle (mayCall_iff.1 hmay).2.2 (fun hbuf => (h.null hbuf).1) h.laid
    | createThread u hunborn =>
      obtain rfl : u = t := by simpa [Action.thread] using ha
      exact threadLaid_of_idle (h.quiet (Or.inr hunborn)) (fun hbuf => (h.null hbuf).1) h.laid
    | allocate u n block hasked hblock =>
      obtain rfl : u = t := by simpa [Action.thread] using ha
      have hpending : s.pending u = none := h.quiet (Or.inl (by simp [hasked]))
      have hdata : (s.allocateTrace u n block).data (.tls u) = _ := Function.update_self _ _ _
      rcases TraceData.allocate_cases (s.data (.tls u)) s.defaultLogBufSize block n s.mem with
        ⟨hr, -⟩ | ⟨b, rfl, hlog, hr⟩ <;> rw [hr] at hdata
      · refine threadLaid_of_idle hpending ?_ ?_ <;> rw [hdata]
        · exact fun _ => rfl
        · exact fun _ hbuf => absurd rfl hbuf
      · refine threadLaid_of_idle hpending ?_ ?_ <;> rw [hdata]
        · exact fun hbuf => hbuf
        · intro hown _
          have hlogs := hok hown
          simp only [OwnTrace, hasked] at hlogs
          obtain ⟨h4, h30⟩ := hlogs.resolve_left hlog
          exact ⟨_, (hblock b rfl).laid h4 h30 rfl rfl rfl rfl⟩
    | link u self tid hlinking hfree hself =>
      obtain rfl : u = t := by simpa [Action.thread] using ha
      have hpending : s.pending u = none := h.quiet (Or.inl (by simp [hlinking]))
      have hdata : (s.linkTrace u self tid).data (.tls u) = _ := Function.update_self _ _ _
      refine threadLaid_of_idle hpending ?_ ?_ <;> rw [hdata] <;> dsimp only
      · split_ifs <;> exact fun hbuf => (h.null hbuf).1
      · intro hown hbuf
        have hold : (s.data (.tls u)).buf ≠ 0 := by
          split_ifs at hbuf <;> exact hbuf
        obtain ⟨L, hL⟩ := h.laid hown hold
        refine ⟨L, hL.congr ?_ ?_ ?_ ?_⟩ <;> dsimp only <;> split_ifs
        all_goals first | rfl | exact Or.inl rfl | exact Or.inr (Or.inl rfl)
    | ignoreThisThread u _ hmay hfree hs₁ =>
      obtain rfl : u = t := by simpa [Action.thread] using ha
      exact h.unregister (mayCall_iff.1 hmay).2.2 hs₁
    | setThreadLogBufSize u n s₁ hmay hfree hs₁ hsize =>
      obtain rfl : u = t := by simpa [Action.thread] using ha
      have hpending := (mayCall_iff.1 hmay).2.2
      have h₁ := h.unregister hpending hs₁
      rw [← (sameRest_unregisterThisThread hs₁).1.pending] at hpending
      exact threadLaid_of_idle hpending (fun hbuf => (h₁.null hbuf).1) h₁.laid
    | unsetThreadLogBufSize u n _ hmay hfree hs₁ hsize =>
      obtain rfl : u = t := by simpa [Action.thread] using ha
      exact h.unregister (mayCall_iff.1 hmay).2.2 hs₁
    | returnFromStart u name clock s₁ hmay hrunning hu hfree hs₁ =>
      obtain rfl : u = t := by simpa [Action.thread] using ha
      have hpending := (mayCall_iff.1 hmay).2.2
      have h₁ := h.unregister hpending hs₁
      rw [← (sameRest_unregisterThisThread hs₁).1.pending] at hpending
      exact threadLaid_of_idle hpending (fun hbuf => (h₁.null hbuf).1) h₁.laid
    | exitThread u hmay _ | endThread u hmay _ =>
      obtain rfl : u = t := by simpa [Action.thread] using ha
      exact threadLaid_of_idle (mayCall_iff.1 hmay).2.2 (fun hbuf => (h.null hbuf).1) h.laid
    | collectGarbage | disableTracing | enableTracing | beginSnapshot | endSnapshot => cases ha
    | trace u call hmay =>
      obtain rfl : u = t := by simpa [Action.thread] using ha
      exact h.enter hmay hok
    | store u slot entry st rest hpending =>
      obtain rfl : u = t := by simpa [Action.thread] using ha
      exact h.store hpending
  · exact h.congr (untouched_step ho hs ha)

/-! ## Whose buffer is written -/

/-- The traced call writes to the buffer that belongs to the thread, and to nothing else. -/
structure WritesOwn (s : Process) (t : ℕ) (p : PendingTrace) : Prop where
  registered : .tls t ∈ s.threadTraces
  inBuffer : ∃ size, ((s.data (.tls t)).buf, size) ∈ s.buffers.blocks ∧
    (s.data (.tls t)).buf ≤ p.slot ∧
    p.slot.toNat + 16 ≤ (s.data (.tls t)).buf.toNat + size.toNat
  alone : ∀ r ∈ s.threadTraces, (s.data r).buf = (s.data (.tls t)).buf → r = .tls t
  apart : ∀ b ∈ s.buffers.blocks, b.1 ≠ (s.data (.tls t)).buf →
    b.1.toNat + b.2.toNat ≤ p.slot.toNat ∨ p.slot.toNat + 16 ≤ b.1.toNat

theorem ThreadLaid.writesOwn (h : ThreadLaid True s t) (ho : s.Owned) {p : PendingTrace}
    (hp : s.pending t = some p) : s.WritesOwn t p := by
  obtain ⟨hmem, L, hL, i, hi, hnat⟩ := h.writes trivial p hp
  have hbuf : (s.data (.tls t)).buf ≠ 0 := by
    intro h0
    rw [(h.null h0).2] at hp
    cases hp
  have hblock := ho.bufLive _ (Or.inl hmem) hbuf
  have hsize : (s.data (.tls t)).bufSize.toNat = 2 ^ L := by
    rw [hL.size, TraceData.toNat_bufSize hL.le_thirty]
  refine ⟨hmem, ⟨_, hblock, UInt64.le_iff_toNat_le.2 (by omega), by omega⟩, ?_, ?_⟩
  · intro r hr heq
    exact ho.bufInj r _ (Or.inl hr) (Or.inl hmem) heq (heq ▸ hbuf)
  · intro b hb hne
    rcases ho.apart b hb _ hblock hne with hlt | hlt <;> simp only at hlt <;> omega

theorem threadLaid_init {pid : UInt64} {gcMaxAgeMs : ℤ} {defaultLogBufSize : ℕ} {mem : Memory} :
    ThreadLaid own (init pid gcMaxAgeMs defaultLogBufSize mem) t :=
  threadLaid_of_idle rfl (fun _ => rfl) fun _ hbuf => absurd rfl hbuf

/-- **No write after hand-over.**  A traced call writes to a buffer that the thread owns, if
    threads make traced calls only while their buffer is theirs. -/
theorem writesOwn_run {pid : UInt64} {gcMaxAgeMs : ℤ} {defaultLogBufSize : ℕ} {mem : Memory}
    {acts : List Action}
    (hok : Along step OwnTrace (init pid gcMaxAgeMs defaultLogBufSize mem) acts)
    (hrun : runFrom step (init pid gcMaxAgeMs defaultLogBufSize mem) acts = some s)
    {p : PendingTrace} (hp : s.pending t = some p) : s.WritesOwn t p := by
  have hstep : ∀ (s : Process) (a : Action) (s' : Process), s.Owned ∧ ThreadLaid True s t →
      s.OwnTrace a → s.step a = some s' → s'.Owned ∧ ThreadLaid True s' t := by
    rintro s a s' ⟨ho, hs⟩ ha h
    exact ⟨(effect_step ho h).owned ho, threadLaid_step ho hs (fun _ => ha) h⟩
  obtain ⟨ho, hs⟩ := run_invariant_along hstep ⟨owned_init, threadLaid_init⟩ hok hrun
  exact hs.writesOwn ho hp

/-- A thread makes a traced call, returns from its start routine, and its buffer is collected. -/
theorem writesOwn_run_demo :
    let acts : List Action := [.createThread 1, .allocate 1 (some 0x10000), .link 1 2 2,
      .trace 1 (.fentry 0x1100 10), .store 1, .store 1]
    ∃ s p, runFrom step (init 1 300 5 fun _ => 0) acts = some s ∧ s.pending 1 = some p ∧
      s.WritesOwn 1 p := by
  intro acts
  have hsome : (runFrom step (init 1 300 5 fun _ => 0) acts).isSome := by decide +kernel
  obtain ⟨s, hs⟩ := Option.isSome_iff_exists.1 hsome
  have hpending : ∀ s ∈ runFrom step (init 1 300 5 fun _ => 0) acts, (s.pending 1).isSome := by
    decide +kernel
  obtain ⟨p, hp⟩ := Option.isSome_iff_exists.1 (hpending s hs)
  exact ⟨s, p, hs, hp, writesOwn_run (by decide +kernel) hs hp⟩

/-- A destructor of a thread that has returned makes a traced call. -/
theorem not_writesOwn : ¬ ∀ (acts : List Action) (s : Process) (t : ℕ) (p : PendingTrace),
    runFrom step (init 1 300 5 fun _ => 0) acts = some s → s.pending t = some p →
      s.WritesOwn t p := by
  intro h
  let acts : List Action := [.createThread 1, .allocate 1 (some 0x10000), .link 1 2 2,
    .returnFromStart 1 (Vector.replicate 16 0) ⟨5000, 1000000⟩,
    .collectGarbage false ⟨400000, 1000000⟩, .trace 1 (.fentry 0x1100 10)]
  have hsome : (runFrom step (init 1 300 5 fun _ => 0) acts).isSome := by decide +kernel
  obtain ⟨s, hs⟩ := Option.isSome_iff_exists.1 hsome
  have hbad : ∀ s ∈ runFrom step (init 1 300 5 fun _ => 0) acts,
      (s.pending 1).isSome ∧ .tls 1 ∉ s.threadTraces := by decide +kernel
  obtain ⟨hpending, hmem⟩ := hbad s hs
  obtain ⟨p, hp⟩ := Option.isSome_iff_exists.1 hpending
  exact hmem (h acts s 1 p hs hp).registered

end Process

end Funtrace
