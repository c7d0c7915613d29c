/-
  Each thread traces as if it were alone.

  The threads of a process write to one memory, in any order, and others pause them, free
  buffers and hand them over to copies.  `History` notes for each element of `thread_traces`
  what has happened to its buffer since it was allocated.  A thread that takes these steps
  alone ends with the same buffer (`alone_step`, `alone_run`), so what is known of one
  thread holds of every thread of every process: its buffer is the ring of its own events.
-/
import Funtrace.Proof.HandOver

namespace Funtrace

/-! ## Two threads with one buffer -/

/-- The address is that of a word in the buffer. -/
def TraceData.HasWord (d : TraceData) (a : UInt64) : Prop :=
  d.buf.toNat ≤ a.toNat ∧ a.toNat < d.buf.toNat + d.bufSize.toNat

/-- The fields that a traced call reads are the same. -/
structure TraceData.SameRing (d d' : TraceData) : Prop where
  pos : d'.pos = d.pos
  mask : d'.wraparoundMask = d.wraparoundMask
  buf : d'.buf = d.buf
  bufSize : d'.bufSize = d.bufSize

namespace TraceData.SameRing
variable {d d' d'' : TraceData}

theorem refl (d : TraceData) : d.SameRing d := ⟨rfl, rfl, rfl, rfl⟩

theorem trans (h : d.SameRing d') (h' : d'.SameRing d'') : d.SameRing d'' :=
  ⟨h'.pos.trans h.pos, h'.mask.trans h.mask, h'.buf.trans h.buf, h'.bufSize.trans h.bufSize⟩

theorem hasWord (h : d.SameRing d') {a : UInt64} : d'.HasWord a ↔ d.HasWord a := by
  rw [HasWord, HasWord, h.buf, h.bufSize]

theorem slotAddr (h : d.SameRing d') (i : ℕ) : d'.slotAddr i = d.slotAddr i := by
  rw [TraceData.slotAddr, TraceData.slotAddr, h.buf]

theorem numSlots (h : d.SameRing d') : d'.numSlots = d.numSlots := by
  rw [TraceData.numSlots, TraceData.numSlots, h.bufSize]

theorem posIndex (h : d.SameRing d') : d'.posIndex = d.posIndex := by
  rw [TraceData.posIndex, TraceData.posIndex, h.pos, h.buf]

end TraceData.SameRing

/-- Two threads have the same buffer, with the same words in it, and are in the same call. -/
structure Tracer.SameBuffer (tr tr' : Tracer) : Prop where
  ring : tr.data.SameRing tr'.data
  pending : tr'.pending = tr.pending
  words : ∀ a, tr.data.HasWord a → tr'.mem a = tr.mem a

namespace Tracer.SameBuffer
variable {tr tr' tr'' : Tracer}

theorem refl (tr : Tracer) : tr.SameBuffer tr := ⟨.refl _, rfl, fun _ _ => rfl⟩

theorem trans (h : tr.SameBuffer tr') (h' : tr'.SameBuffer tr'') : tr.SameBuffer tr'' where
  ring := h.ring.trans h'.ring
  pending := h'.pending.trans h.pending
  words a ha := (h'.words a (h.ring.hasWord.2 ha)).trans (h.words a ha)

theorem enter (h : tr.SameBuffer tr') (call : TraceCall) :
    (tr.enter call).SameBuffer (tr'.enter call) := by
  unfold Tracer.enter
  rw [h.ring.pos, h.ring.mask]
  dsimp only
  split_ifs
  exacts [h, ⟨h.ring, rfl, h.words⟩]

theorem store (h : tr.SameBuffer tr') (slot : UInt64) (entry : FunTraceEntry) (st : TraceStore)
    (rest : List TraceStore) :
    (tr.store slot entry st rest).SameBuffer (tr'.store slot entry st rest) := by
  have hwrite : ∀ (b v a : UInt64), tr.data.HasWord a →
      Function.update tr'.mem b v a = Function.update tr.mem b v a := by
    intro b v a ha
    by_cases hab : a = b
    · rw [hab, Function.update_self, Function.update_self]
    · rw [Function.update_of_ne hab, Function.update_of_ne hab]
      exact h.words a ha
  cases st with
  | func => exact ⟨h.ring, rfl, hwrite _ _⟩
  | cycle => exact ⟨h.ring, rfl, hwrite _ _⟩
  | pos => exact ⟨⟨rfl, h.ring.mask, h.ring.buf, h.ring.bufSize⟩, rfl, h.words⟩

/-- **One step**: what one thread can do, so can the other. -/
theorem step (h : tr.SameBuffer tr') {a : TraceAction} {tr₁' : Tracer}
    (hs : tr'.step a = some tr₁') : ∃ tr₁, tr.step a = some tr₁ ∧ tr₁.SameBuffer tr₁' := by
  cases a with
  | enter call =>
    simp only [Tracer.step, h.pending] at hs ⊢
    cases hp : tr.pending with
    | none =>
      rw [hp] at hs
      obtain rfl := Option.some.inj hs
      exact ⟨_, rfl, h.enter call⟩
    | some p => simp [hp] at hs
  | store =>
    simp only [Tracer.step, h.pending] at hs ⊢
    split at hs
    · next slot entry st rest hp =>
      obtain rfl := Option.some.inj hs
      exact ⟨_, rfl, h.store slot entry st rest⟩
    · cases hs
  | pause =>
    obtain rfl := Option.some.inj hs
    exact ⟨_, rfl, ⟨h.ring.pos, rfl, h.ring.buf, h.ring.bufSize⟩, h.pending, h.words⟩
  | resume =>
    obtain rfl := Option.some.inj hs
    refine ⟨_, rfl, ⟨h.ring.pos, ?_, h.ring.buf, h.ring.bufSize⟩, h.pending, h.words⟩
    exact congrArg (~~~ ·) h.ring.bufSize

end Tracer.SameBuffer

/-! ## What has happened to a buffer -/

/-- A process, and for each element of `thread_traces` its thread as it was when it had allocated
    its buffer, and what has happened to the buffer since then. -/
structure History where
  process : Process
  started : TraceRef → Tracer
  acts : TraceRef → List TraceAction

namespace Process
variable (s : Process)

/-- The thread of an element of `thread_traces`; that of a copy has finished. -/
def tracerAt : TraceRef → Tracer
  | .tls t => s.tracer t
  | .copy n => ⟨s.data (.copy n), s.mem, none⟩

variable {s}

@[simp] theorem data_tracerAt {r : TraceRef} : (s.tracerAt r).data = s.data r := by cases r <;> rfl

@[simp] theorem mem_tracerAt {r : TraceRef} : (s.tracerAt r).mem = s.mem := by cases r <;> rfl

end Process

namespace History
open Process

/-- The process begins, and no buffer has a history. -/
def init (pid : UInt64) (gcMaxAgeMs : ℤ) (defaultLogBufSize : ℕ) (mem : Memory) : History where
  process := .init pid gcMaxAgeMs defaultLogBufSize mem
  started _ := ⟨.zero, mem, none⟩
  acts _ := []

variable (h : History)

/-- One more action of the buffer. -/
def add (r : TraceRef) (a : TraceAction) : History :=
  { h with acts := Function.update h.acts r (h.acts r ++ [a]) }

/-- One more action of each listed buffer. -/
def addAll (a : TraceAction) : History :=
  { h with acts := fun r => if r ∈ h.process.threadTraces then h.acts r ++ [a] else h.acts r }

/-- Notes an action of the process, which leads to the state `s'`. -/
def note (s' : Process) : Action → History
  | .allocate t _ =>
    { h with
      started := Function.update h.started (.tls t) (s'.tracer t)
      acts := Function.update h.acts (.tls t) [] }
  | .link t _ _ => if h.process.tracingPaused then h.add (.tls t) .pause else h
  | .returnFromStart t _ _ =>
    let r := .copy h.process.numCopies
    { h with
      started := Function.update h.started r (h.started (.tls t))
      acts := Function.update h.acts r (h.acts (.tls t)) }
  | .disableTracing | .beginSnapshot _ => h.addAll .pause
  | .enableTracing | .endSnapshot => h.addAll .resume
  | .trace t call => h.add (.tls t) (.enter call)
  | .store t => h.add (.tls t) .store
  | .constructMain | .createThread _ | .ignoreThisThread _ | .setThreadLogBufSize _ _
  | .exitThread _ | .endThread _ | .collectGarbage _ _ => h

/-- A step of the process, with the actions that it is for the buffers. -/
def step (a : Action) : Option History :=
  (h.process.step a).map fun s' => { h.note s' a with process := s' }

variable {h}

/-- To note what happens does not change it. -/
theorem runFrom_process : ∀ (acts : List Action) (h : History),
    (runFrom step h acts).map History.process = runFrom Process.step h.process acts
  | [], _ => rfl
  | a :: acts, h => by
    simp only [runFrom, step]
    cases h.process.step a with
    | none => rfl
    | some s' => exact runFrom_process acts _

end History

/-! ## Steps that leave buffers alone -/

namespace Process
variable {s s' s'' : Process}

/-- No buffer has a new owner, and those that have one are as they were. -/
structure Shrunk (s s' : Process) : Prop where
  mem : s'.mem = s.mem
  pending : s'.pending = s.pending
  holder : ∀ r, s'.Holder r → (s'.data r).buf ≠ 0 → s.Holder r ∧ s'.data r = s.data r

theorem Shrunk.refl (s : Process) : s.Shrunk s := ⟨rfl, rfl, fun _ hr _ => ⟨hr, rfl⟩⟩

theorem Shrunk.trans (h : s.Shrunk s') (h' : s'.Shrunk s'') : s.Shrunk s'' where
  mem := h'.mem.trans h.mem
  pending := h'.pending.trans h.pending
  holder r hr hbuf := by
    obtain ⟨hr', hdata'⟩ := h'.holder r hr hbuf
    obtain ⟨hr, hdata⟩ := h.holder r hr' (hdata' ▸ hbuf)
    exact ⟨hr, hdata'.trans hdata⟩

theorem Released.shrunk {r : TraceRef} (h : Released s s' r) (hmem : s'.mem = s.mem)
    (hpending : s'.pending = s.pending) : s.Shrunk s' where
  mem := hmem
  pending := hpending
  holder x hx hbuf := by
    have hne : x ≠ r := by
      rintro rfl
      exact hbuf h.buf_self
    exact ⟨h.holder hx, h.data_of_ne hne⟩

theorem shrunk_setPhase {t : ℕ} {p : Phase} : s.Shrunk (s.setPhase t p) :=
  ⟨rfl, rfl, fun _ hr _ => ⟨hr, rfl⟩⟩

theorem shrunk_setRegistration {t n : ℕ} : s.Shrunk (s.setRegistration t (.allocating n)) where
  mem := rfl
  pending := rfl
  holder r hr _ := by
    refine ⟨hr.imp_right ?_, rfl⟩
    rintro ⟨u, rfl, hu⟩
    have hut : u ≠ t := by
      rintro rfl
      simp [setRegistration] at hu
    exact ⟨u, rfl, by simpa [setRegistration, hut] using hu⟩

theorem shrunk_ignoreThisThread {t : ℕ} (h : s.ignoreThisThread t = some s') : s.Shrunk s' := by
  rcases unregisterThisThread_cases h with ⟨-, rfl⟩ | ⟨-, hrel⟩ | ⟨hdefer, -⟩
  · exact .refl _
  · obtain ⟨hrest, -⟩ := sameRest_unregisterThisThread h
    exact hrel.shrunk hrest.mem hrest.pending
  · cases hdefer

theorem shrunk_collectGarbage (ho : s.Owned) {exitingProgram : Bool} {clock : ClockReading}
    (h : s.collectGarbage exitingProgram clock = some s') : s.Shrunk s' := by
  unfold collectGarbage at h
  split_ifs at h
  · obtain rfl := Option.some.inj h
    exact .refl _
  · obtain ⟨now, -, rfl⟩ := Option.map_eq_some_iff.1 h
    have hstart : SameOwners s { s with exiting := s.exiting || exitingProgram } :=
      ⟨rfl, rfl, rfl, rfl, rfl, fun _ h => h, fun _ => ⟨rfl, rfl, rfl⟩⟩
    refine (collectLoop_rule (P := fun s' => s'.Owned ∧ s.Shrunk s') ?_ _ 0 _
      ⟨hstart.owned ho, ⟨rfl, rfl, fun _ hr _ => ⟨hr, rfl⟩⟩⟩).2
    rintro s₁ i r ⟨ho₁, hs₁⟩ hr hc
    have hrel := released_collectAt ho₁ hr hc
    exact ⟨hrel.owned ho₁, hs₁.trans (hrel.shrunk rfl rfl)⟩

theorem sameRing_updateName (name : Vector UInt8 16) (d : TraceData) : d.SameRing (d.updateName name) := by
  unfold TraceData.updateName
  split_ifs <;> exact ⟨rfl, rfl, rfl, rfl⟩

/-- A snapshot writes masks and names only. -/
theorem sameOwners_beginSnapshot {names : TraceRef → Vector UInt8 16}
    (h : s.step (.beginSnapshot names) = some s') : SameOwners s s' := by
  cases stepped_of_step h
  refine sameOwners_pauseTracing.trans ((sameOwners_onAll fun r d => ?_).trans
    ⟨rfl, rfl, rfl, rfl, rfl, fun _ h => h, fun _ => ⟨rfl, rfl, rfl⟩⟩)
  unfold TraceData.updateName
  split_ifs <;> exact ⟨rfl, rfl, rfl⟩

/-- Equal data, with equal memory and calls. -/
theorem sameBuffer_tracerAt {r : TraceRef} (hmem : s'.mem = s.mem) (hpending : s'.pending = s.pending)
    (hdata : (s.data r).SameRing (s'.data r)) : (s.tracerAt r).SameBuffer (s'.tracerAt r) := by
  cases r with
  | tls t => exact ⟨hdata, congrFun hpending t, fun a _ => congrFun hmem a⟩
  | copy n => exact ⟨hdata, rfl, fun a _ => congrFun hmem a⟩

end Process

/-! ## One step -/

/-- A thread that has just allocated a buffer for two entries or more. -/
def Tracer.IsFresh (tr : Tracer) : Prop :=
  ∃ (L : ℕ) (block : UInt64) (before : TraceData) (defaultLogBufSize : ℕ) (mem : Memory),
    5 ≤ L ∧ L ≤ 30 ∧ Allocates (fun _ _ => some block) L block ∧
      tr = .fresh (before.allocate defaultLogBufSize (fun _ _ => some block) L mem)

/-- The buffer of `r` is as its thread leaves it if it takes its steps alone. -/
structure History.Alone (h : History) (r : TraceRef) : Prop where
  fresh : (h.started r).IsFresh
  run : ∃ tr, runFrom Tracer.step (h.started r) (h.acts r) = some tr ∧
    tr.SameBuffer (h.process.tracerAt r)

namespace History
open Process
variable {h h' : History} {r r' : TraceRef}

theorem Alone.begin (hfresh : (h.process.tracerAt r).IsFresh)
    (hstarted : h.started r = h.process.tracerAt r) (hacts : h.acts r = []) : h.Alone r where
  fresh := hstarted ▸ hfresh
  run := ⟨h.process.tracerAt r, by rw [hstarted, hacts, runFrom], .refl _⟩

theorem Alone.same (ha : h.Alone r) (hstarted : h'.started r' = h.started r)
    (hacts : h'.acts r' = h.acts r)
    (hsame : (h.process.tracerAt r).SameBuffer (h'.process.tracerAt r')) : h'.Alone r' where
  fresh := hstarted ▸ ha.fresh
  run := by
    obtain ⟨tr, hrun, htr⟩ := ha.run
    exact ⟨tr, by rw [hstarted, hacts, hrun], htr.trans hsame⟩

theorem Alone.act (ha : h.Alone r) (hstarted : h'.started r = h.started r) {a : TraceAction}
    (hacts : h'.acts r = h.acts r ++ [a]) {tr' : Tracer}
    (hstep : (h.process.tracerAt r).step a = some tr')
    (hsame : tr'.SameBuffer (h'.process.tracerAt r)) : h'.Alone r where
  fresh := hstarted ▸ ha.fresh
  run := by
    obtain ⟨tr, hrun, htr⟩ := ha.run
    obtain ⟨tr₁, hstep, htr₁⟩ := htr.step hstep
    refine ⟨tr₁, ?_, htr₁.trans hsame⟩
    rw [hstarted, hacts, runFrom_append, hrun]
    simp [runFrom, hstep]

end History

namespace Process
variable {s s' : Process} {t : ℕ} {r : TraceRef}

/-- The logs of the sizes that are asked for. -/
structure RingLogs (s : Process) : Prop where
  default : s.defaultLogBufSize = 0 ∨ 5 ≤ s.defaultLogBufSize
  asked : ∀ t n, s.registration t = .allocating n → n = 0 ∨ 5 ≤ n

theorem RingLogs.logSize (h : s.RingLogs) {n : ℕ} (hn : s.registration t = .allocating n) :
    s.logSize n = 0 ∨ 5 ≤ s.logSize n := by
  unfold Process.logSize
  split_ifs with h0
  · exact h.default
  · exact h.asked t n hn

/-- A call writes to no word of another buffer. -/
theorem ThreadLaid.ne_slot (h : ThreadLaid True s t) (ho : s.Owned) (hne : r ≠ .tls t)
    (hr : s.Holder r) (hbuf : (s.data r).buf ≠ 0) {p : PendingTrace} (hp : s.pending t = some p)
    {a : UInt64} (ha : (s.data r).HasWord a) : a ≠ p.slot ∧ a ≠ p.slot + 8 := by
  have hown := h.writesOwn ho hp
  obtain ⟨-, L, hL, i, hi, hslot⟩ := h.writes trivial p hp
  have hblock := ho.bufLive r hr hbuf
  have hdiff : (s.data r).buf ≠ (s.data (.tls t)).buf := fun heq =>
    hne (ho.bufInj r _ hr (Or.inl hown.registered) heq hbuf)
  have hapart := hown.apart _ hblock hdiff
  have hbound := hL.buf_add_le
  have htwice : 2 ^ (L + 1) = 2 * 2 ^ L := by rw [Nat.pow_succ, Nat.mul_comm]
  have hnext : (p.slot + 8).toNat = p.slot.toNat + 8 := by
    have h8 : (8 : UInt64).toNat = 8 := rfl
    rw [UInt64.toNat_add, h8]
    exact Nat.mod_eq_of_lt (by omega)
  obtain ⟨hge, hlt⟩ := ha
  dsimp only at hapart
  constructor <;> rw [ne_eq, ← UInt64.toNat_inj] <;> omega

theorem mem_store {tr tr' : Tracer} (htr : tr.step .store = some tr') {a : UInt64}
    (ha : ∀ p, tr.pending = some p → a ≠ p.slot ∧ a ≠ p.slot + 8) : tr'.mem a = tr.mem a := by
  obtain ⟨slot, entry, st, rest, hp, rfl⟩ := Tracer.exists_of_store htr
  obtain ⟨hslot, hslot8⟩ := ha _ hp
  cases st with
  | func => exact Function.update_of_ne hslot _ _
  | cycle => exact Function.update_of_ne hslot8 _ _
  | pos => rfl

/-- What `allocate` leaves of a thread that gets a block. -/
theorem isFresh_allocate (mem : Memory) {n : ℕ} {b : UInt64} {d : TraceData}
    {buffers : Heap UInt64 UInt64} {defaultLogBufSize L : ℕ}
    (hL : (if n = 0 then defaultLogBufSize else n) = L) (h5 : 5 ≤ L) (h30 : L ≤ 30)
    (hb : FreshBlock buffers (1 <<< UInt64.ofNat L * 2) (1 <<< UInt64.ofNat L) b) :
    let r := d.allocate defaultLogBufSize (fun _ _ => some b) n mem
    (Tracer.fresh r).IsFresh ∧ r.1.buf = b ∧
      ∀ a : UInt64, a.toNat < b.toNat ∨ b.toNat + 2 ^ L ≤ a.toNat → r.2 a = mem a := by
  intro r
  have hr : r = d.allocate defaultLogBufSize (fun _ _ => some b) L mem := by
    have hL' : (if L = 0 then defaultLogBufSize else L) = L := if_neg (by omega)
    simp only [r, TraceData.allocate, hL, hL']
  have hlaid : TraceData.Laid
      ⟨b, ~~~(1 <<< UInt64.ofNat L), b, 1 <<< UInt64.ofNat L, 0, TraceData.zero.id, 0⟩ L :=
    hb.laid (by omega) h30 rfl rfl rfl rfl
  have halloc : Allocates (fun _ _ => some b) L b :=
    ⟨rfl, by rw [← Nat.pow_succ']; exact hlaid.align, hb.1⟩
  refine ⟨⟨L, b, d, defaultLogBufSize, mem, h5, h30, halloc, congrArg Tracer.fresh hr⟩, ?_, ?_⟩
  · rw [hr]
    simp [TraceData.allocate, show L ≠ 0 by omega]
  · intro a ha
    obtain ⟨haligned, -, -, hmem⟩ := allocate_eq halloc h5 h30 d defaultLogBufSize mem
    rw [← hr] at haligned hmem
    have hbuf : r.1.buf = b := by
      rw [hr]
      simp [TraceData.allocate, show L ≠ 0 by omega]
    have hN := TraceData.sixteen_mul_numSlots haligned
    have hpos := TraceData.numSlots_pos haligned
    have haddr := TraceData.toNat_slotAddr_add_eight haligned (i := r.1.numSlots - 1) (by omega)
    rw [hmem, Function.update_of_ne]
    rw [ne_eq, ← UInt64.toNat_inj, haddr, hbuf]
    omega

/-- The word that `allocate` writes lies in the new block. -/
theorem mem_allocateTrace (ho : s.Owned) (hlogs : s.RingLogs) {n : ℕ} {block : Option UInt64}
    (hn : s.registration t = .allocating n) (hok : s.OwnTrace (.allocate t block))
    (hblock : ∀ b, block = some b → FreshBlock s.buffers (s.blockSize n * 2) (s.blockSize n) b)
    (hr : s.Holder r) (hbuf : (s.data r).buf ≠ 0) {a : UInt64} (ha : (s.data r).HasWord a) :
    (s.allocateTrace t n block).mem a = s.mem a := by
  rcases TraceData.allocate_cases (s.data (.tls t)) s.defaultLogBufSize block n s.mem with
    ⟨-, hmem⟩ | ⟨b, rfl, hlog, -⟩
  · exact congrFun hmem a
  · simp only [OwnTrace, hn] at hok
    obtain ⟨-, h30⟩ := hok.resolve_left hlog
    have h5 := (hlogs.logSize hn).resolve_left hlog
    obtain ⟨-, -, hframe⟩ :=
      isFresh_allocate s.mem (d := s.data (.tls t)) rfl h5 h30 (hblock b rfl)
    obtain ⟨-, hapart⟩ := (hblock b rfl).2.2.2 _ (ho.bufLive r hr hbuf)
    obtain ⟨hge, hlt⟩ := ha
    refine hframe a ?_
    have hsize : (s.blockSize n).toNat = 2 ^ s.logSize n := TraceData.toNat_bufSize h30
    rw [hsize] at hapart
    dsimp only at hapart
    change _ ∨ b.toNat + 2 ^ s.logSize n ≤ _
    omega

end Process

namespace History
open Process
variable {h h' : History} {r : TraceRef}

/-- All buffers that have an owner are as their threads leave them alone. -/
def AllAlone (h : History) : Prop :=
  ∀ r, h.process.Holder r → (h.process.data r).buf ≠ 0 → h.Alone r

theorem AllAlone.shrunk (hall : h.AllAlone) (hs : h.process.Shrunk h'.process)
    (hstarted : h'.started = h.started) (hacts : h'.acts = h.acts) : h'.AllAlone := by
  intro r hr hbuf
  obtain ⟨hold, hdata⟩ := hs.holder r hr hbuf
  refine (hall r hold (hdata ▸ hbuf)).same (congrFun hstarted r) (congrFun hacts r) ?_
  refine sameBuffer_tracerAt hs.mem hs.pending ?_
  rw [hdata]
  exact .refl _

/-- Tracing is paused or resumed for all elements of `thread_traces`. -/
theorem AllAlone.addAll (hall : h.AllAlone) {a : TraceAction} {f : TraceData → TraceData}
    (hf : ∀ tr : Tracer, tr.step a = some { tr with data := f tr.data }) {s' : Process}
    (hholder : SameOwners h.process s') (hmem : s'.mem = h.process.mem)
    (hpending : s'.pending = h.process.pending)
    (hin : ∀ r ∈ h.process.threadTraces, (f (h.process.data r)).SameRing (s'.data r))
    (hout : ∀ r ∉ h.process.threadTraces, s'.data r = h.process.data r) :
    AllAlone { h.addAll a with process := s' } := by
  intro r hr hbuf
  have hbuf : (h.process.data r).buf ≠ 0 := by
    rw [← hholder.buf r]
    exact hbuf
  have hr := hall r (hholder.holder.1 hr) hbuf
  by_cases hin' : r ∈ h.process.threadTraces
  · refine hr.act rfl (if_pos hin') (hf _) ?_
    cases r with
    | tls t => exact ⟨hin _ hin', congrFun hpending t, fun a _ => congrFun hmem a⟩
    | copy n => exact ⟨hin _ hin', rfl, fun a _ => congrFun hmem a⟩
  · refine hr.same rfl (if_neg hin') (sameBuffer_tracerAt hmem hpending ?_)
    dsimp only
    rw [hout r hin']
    exact .refl _

/-- A thread takes a step. -/
theorem AllAlone.tracer (hall : h.AllAlone) {t : ℕ} {a : TraceAction} {tr : Tracer}
    (htr : (h.process.tracer t).step a = some tr)
    (hframe : ∀ r ≠ .tls t, h.process.Holder r → (h.process.data r).buf ≠ 0 →
      ∀ a, (h.process.data r).HasWord a → tr.mem a = h.process.mem a) :
    AllAlone { h.add (.tls t) a with process := h.process.withTracer t tr } := by
  obtain ⟨hbuf, hsize, hthread⟩ := Tracer.step_owner htr
  have hsame : SameOwners h.process (h.process.withTracer t tr) := sameOwners_withTracer hbuf hsize hthread
  intro r hr hbuf
  have hold : h.process.Holder r := hsame.holder.1 hr
  have hbuf : (h.process.data r).buf ≠ 0 := by
    rw [← hsame.buf r]
    exact hbuf
  by_cases hrt : r = .tls t
  · subst hrt
    refine (hall _ hold hbuf).act rfl (Function.update_self _ _ _) htr ?_
    have htracer : (h.process.withTracer t tr).tracer t = tr := by
      simp [Process.tracer, withTracer, write]
    change tr.SameBuffer ((h.process.withTracer t tr).tracer t)
    rw [htracer]
    exact .refl tr
  · refine (hall r hold hbuf).same rfl (Function.update_of_ne hrt _ _) ?_
    have hdata : (h.process.withTracer t tr).data r = h.process.data r := Function.update_of_ne hrt _ _
    have hring : (h.process.data r).SameRing ((h.process.withTracer t tr).data r) := by
      rw [hdata]
      exact .refl _
    cases r with
    | tls u =>
      have hut : u ≠ t := fun heq => hrt (by rw [heq])
      exact ⟨hring, Function.update_of_ne hut _ _, hframe _ hrt hold hbuf⟩
    | copy n => exact ⟨hring, rfl, hframe _ hrt hold hbuf⟩

/-- A thread allocates a buffer, or fails to. -/
theorem AllAlone.allocate (hall : h.AllAlone) (ho : h.process.Owned) (hlogs : h.process.RingLogs)
    {t n : ℕ} {block : Option UInt64} (hpending : h.process.pending t = none)
    (hn : h.process.registration t = .allocating n) (hok : h.process.OwnTrace (.allocate t block))
    (hblock : ∀ b, block = some b →
      FreshBlock h.process.buffers (h.process.blockSize n * 2) (h.process.blockSize n) b) :
    AllAlone { h.note (h.process.allocateTrace t n block) (.allocate t block) with
      process := h.process.allocateTrace t n block } := by
  obtain ⟨d, hd⟩ := @allocated_allocateTrace h.process t n block hblock
  have hself : (h.process.allocateTrace t n block).data (.tls t) = ((h.process.data (.tls t)).allocate
      h.process.defaultLogBufSize (fun _ _ => block) n h.process.mem).1 := Function.update_self _ _ _
  intro r hr hbuf
  by_cases hrt : r = .tls t
  · subst hrt
    rcases TraceData.allocate_cases (h.process.data (.tls t)) h.process.defaultLogBufSize block n
        h.process.mem with ⟨hnull, -⟩ | ⟨b, rfl, hlog, -⟩
    · refine absurd ?_ hbuf
      dsimp only
      rw [hself, hnull]
    · simp only [OwnTrace, hn] at hok
      obtain ⟨-, h30⟩ := hok.resolve_left hlog
      have h5 := (hlogs.logSize hn).resolve_left hlog
      obtain ⟨hfresh, -⟩ := isFresh_allocate h.process.mem (d := h.process.data (.tls t))
        rfl h5 h30 (hblock b rfl)
      refine .begin ?_ (Function.update_self _ _ _) (Function.update_self _ _ _)
      change ((h.process.allocateTrace t n (some b)).tracer t).IsFresh
      have htracer : (h.process.allocateTrace t n (some b)).tracer t = Tracer.fresh
          ((h.process.data (.tls t)).allocate h.process.defaultLogBufSize (fun _ _ => some b) n
            h.process.mem) := by
        rw [Process.tracer, hself, Tracer.fresh]
        exact congrArg _ hpending
      rw [htracer]
      exact hfresh
  · obtain ⟨-, hold⟩ := (hd.holder hr).resolve_left hrt
    have hdata : (h.process.allocateTrace t n block).data r = h.process.data r := hd.data_of_ne hrt
    have hne : (h.process.data r).buf ≠ 0 := by
      rw [← hdata]
      exact hbuf
    have hring : (h.process.data r).SameRing ((h.process.allocateTrace t n block).data r) := by
      rw [hdata]
      exact .refl _
    have hwords : ∀ a, (h.process.data r).HasWord a →
        (h.process.allocateTrace t n block).mem a = h.process.mem a := fun a =>
      mem_allocateTrace ho hlogs hn hok hblock hold hne
    refine (hall r hold hne).same (Function.update_of_ne hrt _ _) (Function.update_of_ne hrt _ _) ?_
    cases r with
    | tls u => exact ⟨hring, rfl, hwords⟩
    | copy m => exact ⟨hring, rfl, hwords⟩

/-- A thread is linked. -/
theorem AllAlone.link (hall : h.AllAlone) {t : ℕ} {self tid : UInt64}
    (hlinking : h.process.registration t = .linking) :
    AllAlone { h.note (h.process.linkTrace t self tid) (.link t self tid) with
      process := h.process.linkTrace t self tid } := by
  intro r hr hbuf
  by_cases hrt : r = .tls t
  · subst hrt
    have hself : (h.process.linkTrace t self tid).data (.tls t) = _ := Function.update_self _ _ _
    have hold : h.process.Holder (.tls t) := Or.inr ⟨t, rfl, hlinking⟩
    cases hpaused : h.process.tracingPaused with
    | true =>
      have hring : (h.process.data (.tls t)).pauseTracing.SameRing
          ((h.process.linkTrace t self tid).data (.tls t)) := by
        rw [hself, hpaused, if_pos rfl]
        exact ⟨rfl, rfl, rfl, rfl⟩
      have hbuf : (h.process.data (.tls t)).buf ≠ 0 := hring.buf ▸ hbuf
      refine (hall _ hold hbuf).act (a := .pause) ?_ ?_ rfl ⟨hring, rfl, fun _ _ => rfl⟩
      · simp [note, hpaused, add]
      · simp [note, hpaused, add]
    | false =>
      have hring : (h.process.data (.tls t)).SameRing
          ((h.process.linkTrace t self tid).data (.tls t)) := by
        rw [hself, hpaused]
        exact ⟨rfl, rfl, rfl, rfl⟩
      have hbuf : (h.process.data (.tls t)).buf ≠ 0 := hring.buf ▸ hbuf
      refine (hall _ hold hbuf).same ?_ ?_ ⟨hring, rfl, fun _ _ => rfl⟩
      · simp [note, hpaused]
      · simp [note, hpaused]
  · have hdata : (h.process.linkTrace t self tid).data r = h.process.data r :=
      Function.update_of_ne hrt _ _
    have hold : h.process.Holder r := by
      refine hr.imp (fun hmem => ?_) ?_
      · exact (List.mem_append.1 hmem).resolve_right (by simpa using hrt)
      · rintro ⟨u, rfl, hu⟩
        have hut : u ≠ t := fun heq => hrt (by rw [heq])
        exact ⟨u, rfl, (Function.update_of_ne hut _ _).symm.trans hu⟩
    have hbuf : (h.process.data r).buf ≠ 0 := by
      rw [← hdata]
      exact hbuf
    refine (hall r hold hbuf).same ?_ ?_ (sameBuffer_tracerAt rfl rfl (by rw [hdata]; exact .refl _))
    · simp only [note]
      split_ifs <;> rfl
    · simp only [note]
      split_ifs
      exacts [Function.update_of_ne hrt _ _, rfl]

/-- A thread returns, and a copy may get its buffer. -/
theorem AllAlone.unregister (hall : h.AllAlone) (ho : h.process.Owned) {t : ℕ} {name : Vector UInt8 16}
    {clock : ClockReading} {s' : Process} (ht : t ≠ 0) (hcall : h.process.mayCall t)
    (hs : h.process.unregisterThisThread t true name clock = some s') :
    AllAlone { h.note (s'.setPhase t .finishing) (.returnFromStart t name clock) with
      process := s'.setPhase t .finishing } := by
  obtain ⟨hrest, -⟩ := sameRest_unregisterThisThread hs
  have hmem := hrest.mem
  have hpending := hrest.pending
  obtain ⟨-, hidle, hnone⟩ := mayCall_iff.1 hcall
  have hnew : ∀ r, h.process.Holder r → r ≠ .copy h.process.numCopies := by
    intro r hr heq
    rcases heq ▸ hr with hmem | ⟨u, hu, -⟩
    · exact ho.not_mem_new hmem
    · cases hu
  -- what was there before is left alone
  have hold : ∀ r, h.process.Holder r → s'.data r = h.process.data r → (s'.data r).buf ≠ 0 →
      History.Alone { h.note (s'.setPhase t .finishing) (.returnFromStart t name clock) with
        process := s'.setPhase t .finishing } r := by
    intro r hr hdata hbuf
    refine (hall r hr (hdata ▸ hbuf)).same (Function.update_of_ne (hnew r hr) _ _)
      (Function.update_of_ne (hnew r hr) _ _) (sameBuffer_tracerAt hmem hpending ?_)
    change (h.process.data r).SameRing (s'.data r)
    rw [hdata]
    exact .refl _
  intro r hr hbuf
  rcases unregisterThisThread_cases hs with ⟨-, rfl⟩ | ⟨-, hrel⟩ | ⟨-, -, -, now, -, hhand⟩
  · exact hold r hr rfl hbuf
  · obtain ⟨hr, hdata⟩ := (hrel.shrunk hmem hpending).holder r hr hbuf
    exact hold r hr hdata hbuf
  · rcases hhand.holder ho ht hidle hr with rfl | ⟨hne, -, hr⟩
    · have hring : (h.process.data (.tls t)).SameRing
          { (h.process.data (.tls t)).updateName name with thread := 0, timeOfDeathMs := now } :=
        (sameRing_updateName _ _).trans ⟨rfl, rfl, rfl, rfl⟩
      have hcopy : (h.process.tracerAt (.tls t)).SameBuffer (s'.tracerAt (.copy h.process.numCopies)) := by
        refine ⟨?_, hnone.symm, fun a _ => congrFun hmem a⟩
        change (h.process.data (.tls t)).SameRing (s'.data (.copy h.process.numCopies))
        rw [hhand.data_new]
        exact hring
      refine (hall (.tls t) (Or.inl hhand.tls_mem) ?_).same (Function.update_self _ _ _)
        (Function.update_self _ _ _) hcopy
      rw [← hring.buf, ← hhand.data_new]
      exact hbuf
    · exact hold r hr (hhand.data_of_ne hne) hbuf

/-- **One step**: whoever takes it, every buffer is as its thread leaves it alone. -/
theorem alone_step {a : Action} (hall : h.AllAlone) (ho : h.process.Owned)
    (hlaid : ∀ t, ThreadLaid True h.process t) (hlogs : h.process.RingLogs) (hok : h.process.OwnTrace a)
    (hs : h.step a = some h') : h'.AllAlone := by
  obtain ⟨s', hstep, rfl⟩ := Option.map_eq_some_iff.1 hs
  have hquiet : h.process.Shrunk s' → h.note s' a = h →
      AllAlone { h.note s' a with process := s' } := fun hshrunk hnote =>
    hall.shrunk hshrunk (by rw [hnote]) (by rw [hnote])
  cases stepped_of_step hstep with
  | constructMain hmay honce =>
    exact hquiet (shrunk_setRegistration.trans ⟨rfl, rfl, fun _ hr _ => ⟨hr, rfl⟩⟩) rfl
  | createThread t hunborn => exact hquiet (shrunk_setPhase.trans shrunk_setRegistration) rfl
  | allocate t n block hasked hblock =>
    exact hall.allocate ho hlogs ((hlaid t).quiet (Or.inl (by simp [hasked]))) hasked hok hblock
  | link t self tid hlinking hfree hself => exact hall.link hlinking
  | ignoreThisThread t _ hmay hfree hs₁ => exact hquiet (shrunk_ignoreThisThread hs₁) rfl
  | setThreadLogBufSize t n s₁ hmay hfree hs₁ hsize =>
    exact hquiet ((shrunk_ignoreThisThread hs₁).trans shrunk_setRegistration) rfl
  | unsetThreadLogBufSize t n _ hmay hfree hs₁ hsize => exact hquiet (shrunk_ignoreThisThread hs₁) rfl
  | returnFromStart t name clock s₁ hmay hrunning ht hfree hs₁ => exact hall.unregister ho ht hmay hs₁
  | exitThread t | endThread t => exact hquiet shrunk_setPhase rfl
  | collectGarbage exitingProgram clock _ hfree hs₁ => exact hquiet (shrunk_collectGarbage ho hs₁) rfl
  | disableTracing hfree =>
    refine hall.addAll (f := TraceData.pauseTracing) (fun _ => rfl) sameOwners_pauseTracing rfl rfl ?_ ?_
    · exact fun r hr => (if_pos hr : h.process.pauseTracing.data r = _) ▸ .refl _
    · exact fun r hr => if_neg hr
  | enableTracing hfree =>
    refine hall.addAll (f := TraceData.resumeTracing) (fun _ => rfl) sameOwners_resumeTracing rfl rfl ?_ ?_
    · exact fun r hr => (if_pos hr : h.process.resumeTracing.data r = _) ▸ .refl _
    · exact fun r hr => if_neg hr
  | beginSnapshot names hfree =>
    refine hall.addAll (f := TraceData.pauseTracing) (fun _ => rfl) (sameOwners_beginSnapshot hstep)
      rfl rfl ?_ ?_
    · intro r hr
      have hpaused : h.process.pauseTracing.data r = (h.process.data r).pauseTracing := if_pos hr
      have hdata : (h.process.pauseTracing.onAll fun r d => d.updateName (names r)).data r =
          (h.process.pauseTracing.data r).updateName (names r) := if_pos hr
      change ((h.process.data r).pauseTracing).SameRing _
      rw [← hpaused]
      exact hdata ▸ sameRing_updateName _ _
    · intro r hr
      have hpaused : h.process.pauseTracing.data r = h.process.data r := if_neg hr
      have hdata : (h.process.pauseTracing.onAll fun r d => d.updateName (names r)).data r =
          h.process.pauseTracing.data r := if_neg hr
      exact hdata.trans hpaused
  | endSnapshot hlocked =>
    refine hall.addAll (f := TraceData.resumeTracing) (fun _ => rfl)
      (sameOwners_resumeTracing.trans ⟨rfl, rfl, rfl, rfl, rfl, fun _ h => h, fun _ => ⟨rfl, rfl, rfl⟩⟩)
      rfl rfl ?_ ?_
    · exact fun r hr => (if_pos hr : h.process.resumeTracing.data r = _) ▸ .refl _
    · exact fun r hr => if_neg hr
  | trace t call hmay =>
    have hnone : (h.process.tracer t).pending = none := (mayCall_iff.1 hmay).2.2
    exact hall.tracer (Tracer.step_enter hnone) fun r _ _ _ a _ => congrFun Tracer.mem_enter a
  | store t slot entry st rest hpending =>
    have htr := Tracer.step_store
      (show (h.process.tracer t).pending = some ⟨slot, entry, st :: rest⟩ from hpending)
    refine hall.tracer htr fun r hrt hr hbuf a ha => ?_
    exact mem_store htr fun p hp => (hlaid t).ne_slot ho hrt hr hbuf hp ha

end History

/-! ## Runs -/

namespace Process
variable {s s' s'' : Process}

/-- The sizes that are asked for from a step on are those of before, the default and those from
    `funtrace_set_thread_log_buf_size`. -/
structure AsksRings (s s' : Process) : Prop where
  default : s'.defaultLogBufSize = s.defaultLogBufSize
  asked : ∀ t n, s'.registration t = .allocating n →
    s.registration t = .allocating n ∨ n = 0 ∨ 5 ≤ n

theorem AsksRings.of_eq (hdefault : s'.defaultLogBufSize = s.defaultLogBufSize)
    (hreg : s'.registration = s.registration) : s.AsksRings s' :=
  ⟨hdefault, fun _ _ hn => Or.inl (hreg ▸ hn)⟩

theorem AsksRings.trans (h : s.AsksRings s') (h' : s'.AsksRings s'') : s.AsksRings s'' where
  default := h'.default.trans h.default
  asked t n hn := by
    rcases h'.asked t n hn with hn | hn
    · exact h.asked t n hn
    · exact Or.inr hn

theorem RingLogs.asks (h : s.RingLogs) (hs : s.AsksRings s') : s'.RingLogs where
  default := hs.default ▸ h.default
  asked t n hn := by
    rcases hs.asked t n hn with hn | hn
    · exact h.asked t n hn
    · exact hn

theorem asksRings_setRegistration {t : ℕ} {reg : Registration}
    (hreg : ∀ n, reg = .allocating n → n = 0 ∨ 5 ≤ n) : s.AsksRings (s.setRegistration t reg) where
  default := rfl
  asked u n hn := by
    by_cases hut : u = t
    · subst hut
      exact Or.inr (hreg n (by simpa [setRegistration] using hn))
    · exact Or.inl (by simpa [setRegistration, hut] using hn)

theorem SameRest.asksRings (h : SameRest s s') : s.AsksRings s' :=
  .of_eq h.defaultLogBufSize h.registration

/-- A thread that sets no size of its own asks for the default. -/
theorem asks_default {n : ℕ} (h : Registration.allocating 0 = .allocating n) : n = 0 ∨ 5 ≤ n := by
  cases h
  exact Or.inl rfl

theorem asksRings_step {a : Action} (h : s.step a = some s') : s.AsksRings s' := by
  cases stepped_of_step h with
  | constructMain hmay honce =>
    exact (asksRings_setRegistration fun _ => asks_default).trans (.of_eq rfl rfl)
  | createThread t hunborn =>
    have hphase : s.AsksRings (s.setPhase t .running) := .of_eq rfl rfl
    exact hphase.trans (asksRings_setRegistration fun _ => asks_default)
  | allocate t n block hasked hblock =>
    have hlinking : s.AsksRings (s.setRegistration t .linking) := asksRings_setRegistration (by simp)
    exact hlinking.trans (.of_eq rfl rfl)
  | link t self tid hlinking hfree hself =>
    have hlinked : s.AsksRings (s.setRegistration t .idle) := asksRings_setRegistration (by simp)
    exact hlinked.trans (.of_eq rfl rfl)
  | ignoreThisThread t _ hmay hfree hs₁ | unsetThreadLogBufSize t n _ hmay hfree hs₁ hsize =>
    exact (sameRest_unregisterThisThread hs₁).1.asksRings
  | setThreadLogBufSize t n s₁ hmay hfree hs₁ hsize =>
    refine (sameRest_unregisterThisThread hs₁).1.asksRings.trans (asksRings_setRegistration ?_)
    rintro m ⟨rfl⟩
    exact Or.inr (by omega)
  | returnFromStart t name clock s₁ hmay hrunning ht hfree hs₁ =>
    exact (sameRest_unregisterThisThread hs₁).1.asksRings.trans (.of_eq rfl rfl)
  | collectGarbage exitingProgram clock _ hfree hs₁ => exact (sameRest_collectGarbage hs₁).asksRings
  | exitThread | endThread | disableTracing | enableTracing | beginSnapshot | endSnapshot | trace
  | store => exact .of_eq rfl rfl

end Process

namespace History
open Process
variable {h h' : History}

/-- What every run keeps. -/
structure Kept (h : History) : Prop where
  owned : h.process.Owned
  laid : ∀ t, ThreadLaid True h.process t
  logs : h.process.RingLogs
  alone : h.AllAlone

theorem kept_init {pid : UInt64} {gcMaxAgeMs : ℤ} {defaultLogBufSize : ℕ} {mem : Memory}
    (hdefault : defaultLogBufSize = 0 ∨ 5 ≤ defaultLogBufSize) :
    (init pid gcMaxAgeMs defaultLogBufSize mem).Kept where
  owned := owned_init
  laid _ := threadLaid_init
  logs := ⟨hdefault, by simp [init, Process.init]⟩
  alone _ _ hbuf := absurd rfl hbuf

theorem Kept.step {a : Action} (hk : h.Kept) (hok : h.process.OwnTrace a) (hs : h.step a = some h') :
    h'.Kept := by
  have halone := alone_step hk.alone hk.owned hk.laid hk.logs hok hs
  obtain ⟨s', hstep, rfl⟩ := Option.map_eq_some_iff.1 hs
  exact ⟨(effect_step hk.owned hstep).owned hk.owned,
    fun t => threadLaid_step hk.owned (hk.laid t) (fun _ => hok) hstep,
    hk.logs.asks (asksRings_step hstep), halone⟩

theorem along_process {ok : Process → Action → Prop} : ∀ {acts : List Action} {h : History},
    Along Process.step ok h.process acts → Along step (fun h a => ok h.process a) h acts
  | [], _, _ => trivial
  | a :: acts, h, hok => by
    refine ⟨hok.1, ?_⟩
    cases hstep : h.step a with
    | none => trivial
    | some h' =>
      obtain ⟨s', hs, rfl⟩ := Option.map_eq_some_iff.1 hstep
      exact along_process (h := { h.note s' a with process := s' }) (hok.of_cons hs).2

theorem Kept.run {acts : List Action} (hk : h.Kept) (hok : Along Process.step OwnTrace h.process acts)
    (hrun : runFrom History.step h acts = some h') : h'.Kept :=
  run_invariant_along (fun _ _ _ hk hok hs => hk.step hok hs) hk (along_process hok) hrun

/-- The calls that are noted are those that were made. -/
def CallsFrom (calls : TraceCall → Prop) (h : History) : Prop :=
  ∀ r call, .enter call ∈ h.acts r → calls call

theorem CallsFrom.step {calls : TraceCall → Prop} {a : Action} (hc : h.CallsFrom calls)
    (ha : ∀ t call, a = .trace t call → calls call) (hs : h.step a = some h') : h'.CallsFrom calls := by
  obtain ⟨s', -, rfl⟩ := Option.map_eq_some_iff.1 hs
  have hupdate : ∀ r (acts : List TraceAction), (∀ call, .enter call ∈ acts → calls call) →
      ∀ r' call, .enter call ∈ Function.update h.acts r acts r' → calls call := by
    intro r acts hacts r' call hcall
    by_cases hr : r' = r
    · subst hr
      rw [Function.update_self] at hcall
      exact hacts call hcall
    · rw [Function.update_of_ne hr] at hcall
      exact hc r' call hcall
  have hadd : ∀ r a, (∀ call, a = .enter call → calls call) → (h.add r a).CallsFrom calls := by
    intro r a ha
    refine hupdate r _ fun call hcall => ?_
    rcases List.mem_append.1 hcall with hcall | hcall
    · exact hc r call hcall
    · exact ha call (List.mem_singleton.1 hcall).symm
  have haddAll : ∀ a, (∀ call, a ≠ .enter call) → (h.addAll a).CallsFrom calls := by
    intro a ha r call hcall
    rw [addAll] at hcall
    dsimp only at hcall
    split_ifs at hcall
    · rcases List.mem_append.1 hcall with hcall | hcall
      · exact hc r call hcall
      · exact absurd (List.mem_singleton.1 hcall).symm (ha call)
    · exact hc r call hcall
  cases a with
  | allocate t block => exact hupdate _ _ (by simp)
  | link t self tid =>
    intro r call hcall
    simp only [note] at hcall
    split_ifs at hcall
    · exact hadd _ _ (by simp) r call hcall
    · exact hc r call hcall
  | returnFromStart t name clock => exact hupdate _ _ (hc (.tls t))
  | disableTracing | beginSnapshot names => exact haddAll .pause (by simp)
  | enableTracing | endSnapshot => exact haddAll .resume (by simp)
  | trace t call =>
    refine hadd _ _ fun call' heq => ?_
    obtain rfl := TraceAction.enter.inj heq
    exact ha t _ rfl
  | store t => exact hadd _ _ (by simp)
  | constructMain | createThread t | ignoreThisThread t | setThreadLogBufSize t n | exitThread t
  | endThread t | collectGarbage exitingProgram clock => exact hc

end History

/-! ## Rings -/

namespace Tracer.SameBuffer
variable {tr tr' : Tracer} {L : ℕ}

theorem slots (h : tr.SameBuffer tr') (haligned : tr.data.Aligned L) :
    tr'.data.slots tr'.mem = tr.data.slots tr.mem := by
  have hsize := TraceData.sixteen_mul_numSlots haligned
  have hlen : tr.data.bufSize.toNat = 2 ^ L := by
    rw [haligned.size, TraceData.toNat_bufSize haligned.le_thirty]
  rw [TraceData.slots, TraceData.slots, h.ring.numSlots]
  refine List.map_congr_left fun i hi => ?_
  have hi := List.mem_range.1 hi
  have hlow := TraceData.toNat_slotAddr haligned hi.le
  have hhigh := TraceData.toNat_slotAddr_add_eight haligned hi
  rw [h.ring.slotAddr, Memory.entry, Memory.entry, h.words _ ⟨by omega, by omega⟩,
    h.words _ ⟨by omega, by omega⟩]

/-- The same buffer is the same ring. -/
theorem isCyclic (h : tr.SameBuffer tr') (haligned : tr.data.Aligned L) {init : List FunTraceEntry}
    {hne : init ≠ []} {mem₀ : Memory} {traced : List FunTraceEntry}
    (hc : IsCyclic L hne mem₀ tr traced) : IsCyclic L hne tr'.mem tr' traced where
  le_pos := by rw [h.ring.buf, h.ring.pos]; exact hc.le_pos
  pos_le := by rw [h.ring.buf, h.ring.pos]; exact hc.pos_le
  writes p hp := by
    rw [h.ring.buf]
    exact hc.writes p (h.pending ▸ hp)
  frame _ _ := rfl
  contents hp := by
    rw [h.ring.buf, h.ring.pos, h.slots haligned]
    exact hc.contents (h.pending ▸ hp)
  others i hi hother := by
    rw [h.slots haligned]
    refine hc.others i hi fun p hp => ?_
    rw [← h.ring.buf]
    exact hother p (h.pending.symm ▸ hp)
  last := by
    rw [h.slots haligned]
    exact hc.last

end Tracer.SameBuffer

theorem Recorder.Nonzero.run {r r' : Recorder} (hr : r.Nonzero) {acts : List TraceAction}
    (hcycles : ∀ call, .enter call ∈ acts → call.entry.cycle ≠ 0)
    (hrun : runFrom Recorder.step r acts = some r') : r'.Nonzero :=
  run_invariant (P := fun a => ∀ call, a = .enter call → call.entry.cycle ≠ 0)
    (fun _ _ _ hr ha hs => hr.step ha hs) hr (by rintro a ha call rfl; exact hcycles call ha) hrun

/-- What a thread holds that takes its steps alone, its buffer holds in the process. -/
theorem History.Alone.isCyclic {h : History} {r : TraceRef} (ha : h.Alone r)
    (hcycles : ∀ call, .enter call ∈ h.acts r → call.entry.cycle ≠ 0) :
    ∃ (L : ℕ) (rec : Recorder) (hne : (h.started r).data.slots (h.started r).mem ≠ []),
      runFrom Recorder.step Recorder.init (h.acts r) = some rec ∧
        IsCyclic L hne h.process.mem (h.process.tracerAt r) rec.traced := by
  obtain ⟨L, block, before, n, mem, h5, h30, halloc, hstarted⟩ := ha.fresh
  obtain ⟨tr, hrun, hsame⟩ := ha.run
  obtain ⟨hne, hinit, hholds⟩ := holds_allocate halloc h5 h30 before n mem
  simp only [← hstarted] at hne hinit hholds
  obtain ⟨rec, hrec, hholds⟩ := hholds.run hrun
  have hnonzero : rec.Nonzero :=
    Recorder.Nonzero.run ⟨by simp [Recorder.init], by simp [Recorder.init]⟩ hcycles hrec
  have hcyclic := hsame.isCyclic hholds.aligned (hholds.isCyclic hnonzero hinit)
  rw [Process.mem_tracerAt] at hcyclic
  exact ⟨L, rec, hne, hrec, hcyclic⟩

section
variable {pid : UInt64} {gcMaxAgeMs : ℤ} {defaultLogBufSize : ℕ} {mem : Memory} {acts : List Process.Action}

theorem History.kept_run (hdefault : defaultLogBufSize = 0 ∨ 5 ≤ defaultLogBufSize) {s : Process}
    (hok : Along Process.step Process.OwnTrace (.init pid gcMaxAgeMs defaultLogBufSize mem) acts)
    (hrun : runFrom Process.step (.init pid gcMaxAgeMs defaultLogBufSize mem) acts = some s) :
    ∃ h, runFrom History.step (.init pid gcMaxAgeMs defaultLogBufSize mem) acts = some h ∧
      h.process = s ∧ h.Kept := by
  have hproject := History.runFrom_process acts (.init pid gcMaxAgeMs defaultLogBufSize mem)
  obtain ⟨h, hh, rfl⟩ := Option.map_eq_some_iff.1 (hproject.trans hrun)
  exact ⟨h, hh, rfl, (History.kept_init hdefault).run hok hh⟩

/-- **Each thread traces as if it were alone.**  Whatever threads are created, register, trace,
    pause each other, finish and are collected, in any order, if none ends while it is registered:
    the buffer of each that has one, and of each copy of a finished one, is what it leaves if it
    takes its own steps alone, and so it is the ring of the events that it has traced; and the list
    points to these threads and copies only. -/
theorem alone_run (hdefault : defaultLogBufSize = 0 ∨ 5 ≤ defaultLogBufSize) {s : Process}
    (hcycles : ∀ t call, .trace t call ∈ acts → call.entry.cycle ≠ 0)
    (hok : Along Process.step (fun s a => s.OwnTrace a ∧ s.EndsUnregistered a)
      (.init pid gcMaxAgeMs defaultLogBufSize mem) acts)
    (hrun : runFrom Process.step (.init pid gcMaxAgeMs defaultLogBufSize mem) acts = some s) :
    (∀ r ∈ s.threadTraces, s.Alive r) ∧
    ∃ h, runFrom History.step (.init pid gcMaxAgeMs defaultLogBufSize mem) acts = some h ∧
      h.process = s ∧ ∀ r, s.Holder r → (s.data r).buf ≠ 0 →
        (∃ tr, runFrom Tracer.step (h.started r) (h.acts r) = some tr ∧
          tr.SameBuffer (s.tracerAt r)) ∧
        ∃ (L : ℕ) (rec : Recorder) (hne : (h.started r).data.slots (h.started r).mem ≠ []),
          runFrom Recorder.step Recorder.init (h.acts r) = some rec ∧
            IsCyclic L hne s.mem (s.tracerAt r) rec.traced := by
  obtain ⟨h, hh, rfl, hk⟩ := History.kept_run hdefault (hok.mono fun _ _ h => h.1) hrun
  have halive := hk.owned.forall_alive.2 (Process.endedGone_run Process.owned_init
    Process.endedGone_init (hok.mono fun _ _ h => h.2) hrun).gone
  have hcalls : h.CallsFrom fun call => call.entry.cycle ≠ 0 :=
    run_invariant (P := fun a => ∀ t call, a = .trace t call → call.entry.cycle ≠ 0)
      (fun _ _ _ hc ha hs => hc.step ha hs) (by simp [History.CallsFrom, History.init])
      (by rintro a ha t call rfl; exact hcycles t call ha) hh
  refine ⟨halive, h, hh, rfl, fun r hr hbuf => ?_⟩
  have halone := hk.alone r hr hbuf
  exact ⟨halone.run, halone.isCyclic (hcalls r)⟩

end

/-- Two threads trace at the same time, one of them more than its buffer holds while the other
    finishes. -/
def demoThreads : List Process.Action :=
  [.createThread 1, .allocate 1 (some 0x10000), .createThread 2, .allocate 2 (some 0x20000),
    .link 2 3 3, .link 1 2 2,
    .trace 1 (.fentry 0x1100 10), .trace 2 (.fentry 0x1200 11), .store 1, .store 2, .store 2, .store 1,
    .store 1, .trace 1 (.fentry 0x1300 20), .store 1, .store 2,
    .returnFromStart 2 (Vector.replicate 16 0) ⟨5000, 1000000⟩, .store 1, .endThread 2, .store 1,
    .trace 1 (.fexit false 0x1300 30), .store 1, .disableTracing, .store 1, .store 1, .enableTracing]

theorem alone_run_demo :
    ∃ s h, runFrom Process.step (.init 1 300 5 fun _ => 7) demoThreads = some s ∧
      (∀ r ∈ s.threadTraces, s.Alive r) ∧
      runFrom History.step (.init 1 300 5 fun _ => 7) demoThreads = some h ∧
      h.process = s ∧ ∀ r, s.Holder r → (s.data r).buf ≠ 0 →
        (∃ tr, runFrom Tracer.step (h.started r) (h.acts r) = some tr ∧
          tr.SameBuffer (s.tracerAt r)) ∧
        ∃ (L : ℕ) (rec : Recorder) (hne : (h.started r).data.slots (h.started r).mem ≠ []),
          runFrom Recorder.step Recorder.init (h.acts r) = some rec ∧
            IsCyclic L hne s.mem (s.tracerAt r) rec.traced := by
  have hsome : (runFrom Process.step (.init 1 300 5 fun _ => 7) demoThreads).isSome := by decide +kernel
  obtain ⟨s, hs⟩ := Option.isSome_iff_exists.1 hsome
  have hcycles : ∀ t call, .trace t call ∈ demoThreads → call.entry.cycle ≠ 0 := by
    intro t call hcall
    simp only [demoThreads, List.mem_cons, Process.Action.trace.injEq, reduceCtorEq, List.not_mem_nil,
      or_false, false_or] at hcall
    rcases hcall with ⟨-, rfl⟩ | ⟨-, rfl⟩ | ⟨-, rfl⟩ | ⟨-, rfl⟩ <;> decide
  obtain ⟨halive, h, hh⟩ := alone_run (Or.inr le_rfl) hcycles (by decide +kernel) hs
  exact ⟨s, h, hs, halive, hh⟩

end Funtrace
