/-
  A thread in a hook and its tracer.

  A thread of an instrumented program has the same trace data as a `Tracer`, which does a
  step for each of its stores.  A tracer has the time of an entry when the call begins, but
  a hook reads it later: so in a hook that traces there is a tracer for each time that it
  may still get (`Inside.on`).

  `After.step` is what an instruction does to the thread, and `Busy.step` what this is for
  its tracer.  Before its last instruction a hook has all registers back that it does not
  use as scratch registers (`Balanced`).
-/
import Funtrace.Proof.HookCode

namespace Funtrace
open X86

/-! ## A thread and its tracer -/

section
variable (tpoff : UInt64) (d : TraceData)

/-- The words of the trace data, which a program leaves alone. -/
def Traced (s : State) (a : UInt64) : Prop := s.Field tpoff a ∨ d.Word a

/-- The room on the stack that a hook needs; it is not in the trace data. -/
def HasRoom (s : State) : Prop := ∀ a, a = s.regs .rsp ∨ a = s.regs .rsp - 8 ∨ a = s.regs .rsp - 16 →
  ¬ Traced tpoff d s a

/-- The words that a hook may access. -/
structure Room (s : State) : Prop where
  apart : ∀ a, s.Field tpoff a → ¬ d.Word a
  stack : HasRoom tpoff d s
  slot : d.Word (slotOf tpoff s)
  slot_add : d.Word (slotOf tpoff s + 8)

/-- What an instrumented program promises. -/
def Thread.Allowed (t : Thread) : ThreadAction → Prop
  | .program s => s.fs = t.state.fs ∧ ∀ a, Traced tpoff d t.state a → s.mem a = t.state.mem a
  | .enter _ => HasRoom tpoff d t.state
  | .exec _ | .pause | .resume => True

end

/-- A tracer in a run. -/
structure Reached (start : Tracer) (L : ℕ) {init : List FunTraceEntry} (hne : init ≠ []) (mem₀ : Memory)
    (tr : Tracer) (r : Recorder) : Prop where
  run : ∃ acts, runFrom Tracer.step start acts = some tr
  holds : Holds L hne mem₀ tr r
  buf : tr.data.buf = start.data.buf
  bufSize : tr.data.bufSize = start.data.bufSize

section
variable {start : Tracer} {L : ℕ} {init : List FunTraceEntry} {hne : init ≠ []} {mem₀ : Memory}
  {tr tr' : Tracer} {r : Recorder}

theorem Tracer.data_step {a : TraceAction} (h : tr.step a = some tr') :
    tr'.data.buf = tr.data.buf ∧ tr'.data.bufSize = tr.data.bufSize := by
  cases a with
  | enter call =>
    unfold Tracer.step at h
    dsimp only at h
    split at h <;> cases h
    unfold Tracer.enter
    dsimp only
    split_ifs <;> exact ⟨rfl, rfl⟩
  | store =>
    unfold Tracer.step at h
    dsimp only at h
    split at h <;> cases h
    next slot entry st rest _ =>
    cases st <;> exact ⟨rfl, rfl⟩
  | pause =>
    cases h
    exact ⟨rfl, rfl⟩
  | resume =>
    cases h
    exact ⟨rfl, rfl⟩

theorem Reached.step (h : Reached start L hne mem₀ tr r) {a : TraceAction} (hs : tr.step a = some tr') :
    ∃ r', r.step a = some r' ∧ Reached start L hne mem₀ tr' r' := by
  obtain ⟨acts, hacts⟩ := h.run
  obtain ⟨r', hr', hholds⟩ := h.holds.step hs
  obtain ⟨hbuf, hsize⟩ := Tracer.data_step hs
  refine ⟨r', hr', ⟨acts ++ [a], ?_⟩, hholds, hbuf.trans h.buf, hsize.trans h.bufSize⟩
  rw [runFrom_append, hacts, Option.bind_some, runFrom, hs]
  rfl

theorem Reached.word (h : Reached start L hne mem₀ tr r) : tr.data.Word = start.data.Word := by
  funext a
  rw [TraceData.Word, TraceData.Word, TraceData.numSlots, TraceData.numSlots, h.bufSize]
  simp only [TraceData.slotAddr, h.buf]

end

/-! ## In a hook -/

namespace Hook

/-- The stores that are left to do before an instruction. -/
def storesFrom (hook : Hook) (k : ℕ) : List TraceStore :=
  (List.range' k (hook.last - k)).filterMap hook.storeAt

theorem storesFrom_succ {hook : Hook} {k : ℕ} (h : k < hook.last) :
    hook.storesFrom k = (hook.storeAt k).toList ++ hook.storesFrom (k + 1) := by
  obtain ⟨n, hn⟩ : ∃ n, hook.last - k = n + 1 := ⟨hook.last - k - 1, by omega⟩
  have hn' : hook.last - (k + 1) = n := by omega
  rw [storesFrom, storesFrom, hn, hn', List.range'_succ, List.filterMap_cons]
  cases hook.storeAt k <;> rfl

theorem storesFrom_two (hook : Hook) (returnAddress time : UInt64) :
    hook.storesFrom 2 = (hook.call returnAddress time).stores := by
  cases hook <;> rfl

theorem storesFrom_last (hook : Hook) : hook.storesFrom hook.last = [] := by
  rw [storesFrom, Nat.sub_self]
  rfl

end Hook

/-- A call of `trace` with some stores left to do. -/
def pendingOf (slot : UInt64) (entry : FunTraceEntry) (stores : List TraceStore) : Option PendingTrace :=
  if stores = [] then none else some ⟨slot, entry, stores⟩

section
variable (tpoff : UInt64) (start : Tracer) (L : ℕ) {init : List FunTraceEntry} (hne : init ≠ [])
  (mem₀ : Memory)

/-- The tracer of a thread that is in no traced call. -/
structure Idle (s : State) (log : List TraceCall) (tr : Tracer) (r : Recorder) : Prop where
  reached : Reached start L hne mem₀ tr r
  sees : Sees tpoff s tr
  pending : tr.pending = none
  done : r.done = log.map TraceCall.entry

/-- A hook that was entered in the state `s`, after `k` instructions; others may have written the
    mask since it was read. -/
def After (hook : Hook) (s : State) (time : UInt64) (k : ℕ) (s' : State) : Prop :=
  ∃ m, s' = (straight (hook.program tpoff) time k s).setMem (s.maskAddr tpoff) m

/-- The tracer of a thread in a hook that traces, if `rdtsc` gives that time. -/
structure Busy (hook : Hook) (s₁ : State) (log : List TraceCall) (time : UInt64) (k : ℕ) (s : State)
    (tr : Tracer) (r : Recorder) : Prop where
  reached : Reached start L hne mem₀ tr r
  sees : Sees tpoff s tr
  pending : tr.pending = pendingOf (slotOf tpoff s₁) (entryOf hook time s₁) (hook.storesFrom k)
  done : r.done =
    log.map TraceCall.entry ++ if hook.storesFrom k = [] then [entryOf hook time s₁] else []

/-- The state in which a hook reads the mask, or would have read it if it had been entered then. -/
def masked (s₀ : State) (m : UInt64) : State := s₀.setMem (s₀.maskAddr tpoff) m

/-- Where a thread is in a hook that it entered in the state `s₀`, after `k` instructions.  In the
    part that traces there is a tracer for each time that `rdtsc` may still give. -/
inductive Inside (hook : Hook) (s₀ : State) (k : ℕ) (t : Thread) : Prop where
  | first (m : UInt64) (tr : Tracer) (r : Recorder) (lt : k < 2)
    (state : t.state = straight (hook.program tpoff) 0 k (masked tpoff s₀ m))
    (idle : Idle tpoff start L hne mem₀ t.state t.log tr r)
  | off (m : UInt64) (tr : Tracer) (r : Recorder) (two_le : 2 ≤ k) (le_three : k ≤ 3)
    (slot : slotOf tpoff (masked tpoff s₀ m) = 0)
    (state : After tpoff hook (masked tpoff s₀ m) 0 k t.state)
    (idle : Idle tpoff start L hne mem₀ t.state t.log tr r)
  | on (m : UInt64) (log : List TraceCall) (times : Set UInt64) (two_le : 2 ≤ k)
    (le_last : k ≤ hook.last) (slot : slotOf tpoff (masked tpoff s₀ m) ≠ 0)
    (room : Room tpoff start.data (masked tpoff s₀ m))
    (nonempty : times.Nonempty) (all : k ≤ hook.rdtscPlace → times = Set.univ)
    (logged : ∀ time ∈ times, t.log = log ++ if k ≤ hook.rdtscPlace then [] else
      [hook.call ((masked tpoff s₀ m).mem (s₀.regs .rsp)) time])
    (state : ∀ time ∈ times, After tpoff hook (masked tpoff s₀ m) time k t.state)
    (busy : ∀ time ∈ times, ∃ tr r,
      Busy tpoff start L hne mem₀ hook (masked tpoff s₀ m) log time k t.state tr r)

end

/-! ## The mask -/

section
variable {tpoff : UInt64} {start : Tracer} {L : ℕ} {init : List FunTraceEntry} {hne : init ≠ []}
  {mem₀ : Memory} {hook : Hook} {s₀ s : State} {k : ℕ} {t : Thread} {log : List TraceCall}
  {tr : Tracer} {r : Recorder} {m time : UInt64}

theorem maskAddr_straight (k : ℕ) (s : State) :
    (straight (hook.program tpoff) time k s).maskAddr tpoff = s.maskAddr tpoff := by
  rw [State.maskAddr, fs_straight]
  rfl

theorem masked_masked (s : State) (m m' : UInt64) :
    masked tpoff (masked tpoff s m) m' = masked tpoff s m' :=
  State.setMem_setMem _ m m'

theorem masked_self (s : State) : masked tpoff s (s.mem (s.maskAddr tpoff)) = s := by
  simp only [masked, State.setMem, Function.update_eq_self]

/-- The first instruction does not read the mask. -/
theorem straight_masked (hk : k < 2) (s : State) (m : UInt64) :
    (straight (hook.program tpoff) 0 k s).setMem (s.maskAddr tpoff) m =
      straight (hook.program tpoff) 0 k (masked tpoff s m) := by
  have hfirst : (hook.program tpoff).code[0]? = some (.load (.fs tpoff) .r11) := by
    cases hook <;> rfl
  have hne : (Instr.load (.fs tpoff) .r11).accesses s ≠ some (s.maskAddr tpoff) := fun h =>
    posAddr_ne_maskAddr s (Option.some.inj h)
  interval_cases k
  · rfl
  · rw [straight_succ _ _ _ hfirst, straight_succ _ _ _ hfirst]
    exact (exec_setMem hne m 0 _ 0).symm

/-- Another thread pauses the thread of a tracer, or resumes it. -/
theorem Reached.setMask (h : Reached start L hne mem₀ tr r) (hm : m = 0 ∨ m = ~~~tr.data.bufSize) :
    ∃ r', r'.done = r.done ∧
      Reached start L hne mem₀ { tr with data := { tr.data with wraparoundMask := m } } r' := by
  rcases hm with rfl | rfl
  · obtain ⟨r', hr', hreached⟩ := h.step (a := .pause) rfl
    cases hr'
    exact ⟨{ r with paused := true }, rfl, hreached⟩
  · obtain ⟨r', hr', hreached⟩ := h.step (a := .resume) rfl
    cases hr'
    exact ⟨{ r with paused := false }, rfl, hreached⟩

theorem Idle.setMask (h : Idle tpoff start L hne mem₀ s log tr r)
    (hm : m = 0 ∨ m = ~~~s.mem (s.bufSizeAddr tpoff)) :
    ∃ tr' r', Idle tpoff start L hne mem₀ (s.setMem (s.maskAddr tpoff) m) log tr' r' := by
  rw [h.sees.bufSize] at hm
  obtain ⟨r', hdone, hreached⟩ := h.reached.setMask hm
  exact ⟨_, r', hreached, h.sees.setMask m, h.pending, hdone.trans h.done⟩

theorem Busy.setMask (h : Busy tpoff start L hne mem₀ hook s₀ log time k s tr r)
    (hm : m = 0 ∨ m = ~~~s.mem (s.bufSizeAddr tpoff)) :
    ∃ tr' r', Busy tpoff start L hne mem₀ hook s₀ log time k (s.setMem (s.maskAddr tpoff) m) tr' r' := by
  rw [h.sees.bufSize] at hm
  obtain ⟨r', hdone, hreached⟩ := h.reached.setMask hm
  exact ⟨_, r', hreached, h.sees.setMask m, h.pending, hdone.trans h.done⟩

theorem After.setMask (h : After tpoff hook s₀ time k s) (m : UInt64) :
    After tpoff hook s₀ time k (s.setMem (s.maskAddr tpoff) m) := by
  obtain ⟨m', rfl⟩ := h
  refine ⟨m, ?_⟩
  have haddr : ((straight (hook.program tpoff) time k s₀).setMem (s₀.maskAddr tpoff) m').maskAddr tpoff =
      s₀.maskAddr tpoff := maskAddr_straight k s₀
  rw [haddr, State.setMem_setMem]

/-- **Others pause and resume a thread** at any place of a hook. -/
theorem Inside.setMask (h : Inside tpoff start L hne mem₀ hook s₀ k t)
    (hm : m = 0 ∨ m = ~~~t.state.mem (t.state.bufSizeAddr tpoff)) :
    Inside tpoff start L hne mem₀ hook s₀ k
      { t with state := t.state.setMem (t.state.maskAddr tpoff) m } := by
  cases h with
  | first m' tr r lt state idle =>
    obtain ⟨tr', r', hidle⟩ := idle.setMask hm
    refine .first m tr' r' lt ?_ hidle
    have haddr : t.state.maskAddr tpoff = (masked tpoff s₀ m').maskAddr tpoff := by
      rw [state, maskAddr_straight]
    change t.state.setMem _ m = _
    rw [haddr, state, straight_masked lt, masked_masked]
  | off m' tr r two_le le_three slot state idle =>
    obtain ⟨tr', r', hidle⟩ := idle.setMask hm
    exact .off m' tr' r' two_le le_three slot (state.setMask m) hidle
  | on m' log times two_le le_last slot room nonempty all logged state busy =>
    refine .on m' log times two_le le_last slot room nonempty all logged
      (fun time htime => (state time htime).setMask m) fun time htime => ?_
    obtain ⟨tr, r, hbusy⟩ := busy time htime
    exact hbusy.setMask hm

end

/-! ## Instructions behind the test of the mask -/

section
variable {tpoff : UInt64} {hook : Hook} {s s₁ s' u u' : State} {d : TraceData} {k : ℕ}
  {time time' : UInt64} {instr : Instr} {a : UInt64}

theorem Hook.eq_rdtscPlace (h : (hook.code tpoff)[k]? = some .rdtsc) : k = hook.rdtscPlace := by
  have hlt : k < 17 := by
    have hlt := (List.getElem?_eq_some_iff.1 h).1
    cases hook with
    | fentry => exact Nat.lt_of_lt_of_le hlt (show 14 ≤ 17 by omega)
    | fexit clang => exact hlt
  cases hook <;> interval_cases k <;> first | rfl | cases h

/-- No instruction behind the test of the mask accesses it. -/
theorem Effect.accesses_ne (h : Effect tpoff hook time s k instr u u') (hroom : Room tpoff d s) :
    instr.accesses u ≠ some (s.maskAddr tpoff) := by
  intro ha
  have hfield : s.Field tpoff (s.maskAddr tpoff) := Or.inr (Or.inl rfl)
  rcases h.accesses _ ha with heq | heq | heq | hstack
  · exact posAddr_ne_maskAddr s heq.symm
  · exact hroom.apart _ hfield (heq ▸ hroom.slot)
  · exact hroom.apart _ hfield (heq ▸ hroom.slot_add)
  · exact hroom.stack _ hstack (Or.inl hfield)

/-- A hook does not change what is neither traced nor on its stack; nor what it has pushed, once it
    has pushed all. -/
theorem Effect.mem_eq (h : Effect tpoff hook time s k instr u u') (hroom : Room tpoff d s)
    (ha : ¬ Traced tpoff d s a)
    (hstack : hook.rdtscPlace ≤ k ∨ a ≠ s.regs .rsp - 8 ∧ a ≠ s.regs .rsp - 16) : u'.mem a = u.mem a := by
  have hmem := h.mem
  cases hst : hook.storeAt k with
  | some st =>
    rw [hst] at hmem
    have hne : a ≠ st.addr (s.posAddr tpoff) (slotOf tpoff s) := by
      rintro rfl
      cases st with
      | func => exact ha (Or.inr hroom.slot)
      | cycle => exact ha (Or.inr hroom.slot_add)
      | pos => exact ha (Or.inl (Or.inl rfl))
    rw [hmem, Function.update_of_ne hne]
  | none =>
    rw [hst] at hmem
    rcases hmem with hmem | ⟨hlt, v, hmem⟩
    · rw [hmem]
    · obtain ⟨h8, h16⟩ := hstack.resolve_left (Nat.not_le.2 hlt)
      rcases hmem with hmem | hmem
      · rw [hmem, Function.update_of_ne h8]
      · rw [hmem, Function.update_of_ne h16]

theorem mem_straight (hroom : Room tpoff d s) (hslot : slotOf tpoff s ≠ 0) (ha : ¬ Traced tpoff d s a)
    {j : ℕ} (h2 : 2 ≤ j) (hstack : hook.rdtscPlace ≤ j ∨ a ≠ s.regs .rsp - 8 ∧ a ≠ s.regs .rsp - 16)
    (hjk : j ≤ k) (hk : k ≤ hook.last) :
    (straight (hook.program tpoff) time k s).mem a = (straight (hook.program tpoff) time j s).mem a := by
  induction k, hjk using Nat.le_induction with
  | base => rfl
  | succ k hjk ih =>
    obtain ⟨instr, heffect⟩ := effect hslot time (h2.trans hjk) (Nat.lt_of_succ_le hk)
    rw [heffect.mem_eq hroom ha (hstack.imp_left fun h => h.trans hjk), ih (Nat.le_of_succ_le hk)]

/-- What an instruction does to the words that are traced. -/
def Moves (tpoff : UInt64) (d : TraceData) (hook : Hook) (s₁ : State) (time : UInt64) (k : ℕ)
    (s s' : State) : Prop :=
  match hook.storeAt k with
  | some st => s'.mem = Function.update s.mem (st.addr (s₁.posAddr tpoff) (slotOf tpoff s₁))
      (st.value (slotOf tpoff s₁) (entryOf hook time s₁))
  | none => ∀ a, Traced tpoff d s₁ a → s'.mem a = s.mem a

/-- **A step behind the test of the mask.**  The time is that of the step if this is `rdtsc`. -/
theorem After.step (h : After tpoff hook s₁ time k s) (hroom : Room tpoff d s₁)
    (hslot : slotOf tpoff s₁ ≠ 0) (h2 : 2 ≤ k) (hk : k < hook.last)
    (htime : time' = time ∨ k ≠ hook.rdtscPlace) :
    ∃ s' instr, X86.step (hook.program tpoff) s (.exec time') = some s' ∧ s.place = .inside k ∧
      (hook.code tpoff)[k]? = some instr ∧
      s'.place = (straight (hook.program tpoff) time (k + 1) s₁).place ∧
      After tpoff hook s₁ time (k + 1) s' ∧ Moves tpoff d hook s₁ time k s s' := by
  obtain ⟨m, rfl⟩ := h
  obtain ⟨instr, heffect⟩ := effect hslot time h2 hk
  have hne := heffect.accesses_ne hroom
  have hstep := step_straight (p := hook.program tpoff) (v := m) heffect.place heffect.code hne
  have htime' : X86.step (hook.program tpoff)
      ((straight (hook.program tpoff) time k s₁).setMem (s₁.maskAddr tpoff) m) (.exec time') =
      X86.step (hook.program tpoff)
        ((straight (hook.program tpoff) time k s₁).setMem (s₁.maskAddr tpoff) m) (.exec time) := by
    rcases htime with rfl | hk'
    · rfl
    · have hrdtsc : instr ≠ .rdtsc := fun heq => hk' (Hook.eq_rdtscPlace (heq ▸ heffect.code))
      have hplace : ((straight (hook.program tpoff) time k s₁).setMem (s₁.maskAddr tpoff) m).place =
          .inside k := heffect.place
      exact step_time (p := hook.program tpoff) hplace heffect.code hrdtsc time' time
  refine ⟨_, instr, htime'.trans hstep, heffect.place, heffect.code, rfl, ⟨m, rfl⟩, ?_⟩
  have hmem := heffect.mem
  unfold Moves
  cases hst : hook.storeAt k with
  | some st =>
    rw [hst] at hmem
    have hfield : s₁.Field tpoff (s₁.maskAddr tpoff) := Or.inr (Or.inl rfl)
    have hne : st.addr (s₁.posAddr tpoff) (slotOf tpoff s₁) ≠ s₁.maskAddr tpoff := by
      intro heq
      cases st with
      | func => exact hroom.apart _ hfield (heq ▸ hroom.slot)
      | cycle => exact hroom.apart _ hfield (heq ▸ hroom.slot_add)
      | pos => exact posAddr_ne_maskAddr s₁ heq
    simp only [State.setMem, hmem, Function.update_comm hne]
  | none =>
    rw [hst] at hmem
    intro a ha
    have hother {b v : UInt64} (hb : b = s₁.regs .rsp - 8 ∨ b = s₁.regs .rsp - 16) :
        Function.update (straight (hook.program tpoff) time k s₁).mem b v a =
          (straight (hook.program tpoff) time k s₁).mem a := by
      rw [Function.update_of_ne]
      rintro rfl
      exact hroom.stack _ (Or.inr hb) ha
    have hsame : (straight (hook.program tpoff) time (k + 1) s₁).mem a =
        (straight (hook.program tpoff) time k s₁).mem a := by
      rcases hmem with hmem | ⟨-, v, hmem | hmem⟩
      · rw [hmem]
      · rw [hmem, hother (Or.inl rfl)]
      · rw [hmem, hother (Or.inr rfl)]
    simp only [State.setMem, Function.update_apply, hsame]

end

/-! ## The tracer of a hook -/

section
variable {tpoff : UInt64} {start : Tracer} {L : ℕ} {init : List FunTraceEntry} {hne : init ≠ []}
  {mem₀ : Memory} {hook : Hook} {s₀ s₁ s s' : State} {k : ℕ} {t : Thread} {log : List TraceCall}
  {tr tr' : Tracer} {r r' : Recorder} {m time time' : UInt64}

theorem Reached.traced (h : Reached start L hne mem₀ tr r) {a : UInt64}
    (ha : s.Field tpoff a ∨ tr.data.Word a) : Traced tpoff start.data s a := by
  rw [h.word] at ha
  exact ha

/-- Nothing that is traced changes. -/
theorem Idle.congr (h : Idle tpoff start L hne mem₀ s log tr r) (hfs : s'.fs = s.fs)
    (hmem : ∀ a, Traced tpoff start.data s a → s'.mem a = s.mem a) :
    Idle tpoff start L hne mem₀ s' log tr r :=
  { h with sees := h.sees.congr hfs fun a ha => hmem a (h.reached.traced ha) }

theorem Busy.congr (h : Busy tpoff start L hne mem₀ hook s₁ log time k s tr r) (hfs : s'.fs = s.fs)
    (hmem : ∀ a, Traced tpoff start.data s a → s'.mem a = s.mem a) :
    Busy tpoff start L hne mem₀ hook s₁ log time k s' tr r :=
  { h with sees := h.sees.congr hfs fun a ha => hmem a (h.reached.traced ha) }

theorem Recorder.done_enter {call : TraceCall} (h : r.step (.enter call) = some r') : r'.done = r.done := by
  unfold Recorder.step at h
  dsimp only at h
  split at h <;> cases h
  unfold Recorder.enter
  split_ifs <;> rfl

/-- The slot is one of the buffer. -/
theorem Reached.room (h : Reached start L hne mem₀ tr r) (hsees : Sees tpoff s tr)
    (hstack : HasRoom tpoff start.data s) {p : PendingTrace} (hp : p ∈ tr.pending)
    (hslot : p.slot = slotOf tpoff s) : Room tpoff start.data s := by
  have hword := h.word
  have hnext := h.holds.next_lt
  have haddr := (h.holds.slot p hp).1
  refine ⟨fun a ha => hword ▸ hsees.apart a ha, hstack, ?_, ?_⟩
  · rw [← hword, ← hslot, haddr]
    exact ⟨_, hnext, Or.inl rfl⟩
  · rw [← hword, ← hslot, haddr]
    exact ⟨_, hnext, Or.inr rfl⟩

/-- A hook finds tracing on, and its tracer begins a call. -/
theorem Idle.enter (h : Idle tpoff start L hne mem₀ s log tr r) (hslot : slotOf tpoff s ≠ 0) (hook : Hook)
    (time : UInt64) (hstack : HasRoom tpoff start.data s) : Room tpoff start.data s ∧
    ∃ tr' r', Busy tpoff start L hne mem₀ hook s log time 2 s tr' r' := by
  have hslot' : slotOf tpoff s = tr.data.pos &&& tr.data.wraparoundMask := by
    rw [slotOf, h.sees.pos, h.sees.mask]
  have hstores := hook.storesFrom_two (s.mem (s.regs .rsp)) time
  have hsome : hook.storesFrom 2 ≠ [] := by cases hook <;> exact List.cons_ne_nil _ _
  set call := hook.call (s.mem (s.regs .rsp)) time with hcall
  have hstep : tr.step (.enter call) =
      some { tr with pending := some ⟨slotOf tpoff s, call.entry, call.stores⟩ } := by
    simp only [Tracer.step, h.pending, Tracer.enter, ← hslot', if_neg hslot]
  obtain ⟨r', hr', hreached⟩ := h.reached.step hstep
  have hsees : Sees tpoff s { tr with pending := some ⟨slotOf tpoff s, call.entry, call.stores⟩ } :=
    ⟨h.sees.pos, h.sees.mask, h.sees.bufSize, h.sees.words, h.sees.apart⟩
  refine ⟨hreached.room hsees hstack rfl rfl, _, r', hreached, hsees, ?_, ?_⟩
  · rw [pendingOf, if_neg hsome, hstores]
    rfl
  · rw [Recorder.done_enter hr', h.done, if_neg hsome, List.append_nil]

/-- **An instruction of a hook that traces**: its tracer does the store, if it is one. -/
theorem Busy.step (h : Busy tpoff start L hne mem₀ hook s₁ log time k s tr r)
    (hroom : Room tpoff start.data s₁) (hk : k < hook.last) (hfs : s.fs = s₁.fs) (hfs' : s'.fs = s₁.fs)
    (hmoves : Moves tpoff start.data hook s₁ time k s s') :
    ∃ tr' r', Busy tpoff start L hne mem₀ hook s₁ log time (k + 1) s' tr' r' := by
  have hstores := Hook.storesFrom_succ hk
  unfold Moves at hmoves
  cases hst : hook.storeAt k with
  | none =>
    rw [hst] at hmoves hstores
    have hsame : hook.storesFrom k = hook.storesFrom (k + 1) := hstores
    have hmem : ∀ a, Traced tpoff start.data s a → s'.mem a = s.mem a := fun a ha => by
      refine hmoves a ?_
      rwa [Traced, State.Field, State.posAddr, State.maskAddr, State.bufSizeAddr, hfs] at ha
    refine ⟨tr, r, Busy.congr ?_ (hfs'.trans hfs.symm) hmem⟩
    exact ⟨h.reached, h.sees, hsame ▸ h.pending, hsame ▸ h.done⟩
  | some st =>
    rw [hst] at hmoves hstores
    have hcons : hook.storesFrom k = st :: hook.storesFrom (k + 1) := hstores
    set slot := slotOf tpoff s₁
    set entry := entryOf hook time s₁
    set rest := hook.storesFrom (k + 1)
    have hsome : hook.storesFrom k ≠ [] := hcons ▸ List.cons_ne_nil _ _
    have hpending : tr.pending = some ⟨slot, entry, st :: rest⟩ := by
      rw [h.pending, pendingOf, if_neg hsome, hcons]
    have hstep : tr.step .store = some (tr.store slot entry st rest) := by
      simp only [Tracer.step, hpending]
    have hstep' : r.step .store = some (r.store entry rest) := by
      have hcurrent : r.current = some (entry, st :: rest) := by
        rw [h.reached.holds.current, hpending]
        rfl
      simp only [Recorder.step, hcurrent]
    obtain ⟨r', hr', hreached⟩ := h.reached.step hstep
    obtain rfl := Option.some.inj (hstep'.symm.trans hr')
    have haddr : s.posAddr tpoff = s₁.posAddr tpoff := by rw [State.posAddr, hfs]; rfl
    have hword := h.reached.word
    have hslot : tr.data.Word slot := hword ▸ hroom.slot
    have hsees := h.sees.store hslot (hword ▸ hroom.slot_add) entry st rest
    rw [haddr] at hsees
    refine ⟨_, _, hreached, hsees.congr (hfs'.trans hfs.symm) fun a _ => by rw [hmoves]; rfl, ?_, ?_⟩
    · rw [pendingOf]
      cases st <;> rfl
    · have hdone := h.done
      rw [if_neg hsome, List.append_nil] at hdone
      rw [Recorder.store]
      split_ifs with hrest
      · rw [hdone]
      · rw [List.append_nil, hdone]

end

/-! ## Returning -/

/-- The registers that a hook may change. -/
def Hook.scratch : Hook → List Reg
  | .fentry => [.rax, .r10, .r11]
  | .fexit _ => [.r10, .r11]

/-- **What a hook leaves as it is**: it returns to where it was called from, with all registers but
    the scratch registers, and all memory but the trace data and what is below the stack. -/
structure Returned (tpoff : UInt64) (d : TraceData) (hook : Hook) (s₀ s : State) : Prop where
  place : s.place = .returned (s₀.mem (s₀.regs .rsp))
  rsp : s.regs .rsp = s₀.regs .rsp + 8
  regs : ∀ r ∉ hook.scratch, r ≠ .rsp → s.regs r = s₀.regs r
  mem : ∀ a, ¬ Traced tpoff d s₀ a → a ≠ s₀.regs .rsp - 8 → a ≠ s₀.regs .rsp - 16 → s.mem a = s₀.mem a

/-- What holds before the last instruction. -/
structure Balanced (tpoff : UInt64) (d : TraceData) (hook : Hook) (s₀ s : State) : Prop where
  place : s.place = .inside hook.last
  fs : s.fs = s₀.fs
  regs : ∀ r ∉ hook.scratch, s.regs r = s₀.regs r
  mem : ∀ a, ¬ Traced tpoff d s₀ a → a ≠ s₀.regs .rsp - 8 → a ≠ s₀.regs .rsp - 16 → s.mem a = s₀.mem a

section
variable {tpoff : UInt64} {d : TraceData} {hook : Hook} {s s₀ : State} {time m : UInt64}

theorem rsp_notMem_scratch (hook : Hook) : .rsp ∉ hook.scratch := by
  cases hook <;> simp [Hook.scratch]

theorem rsp_ne_sub (a : UInt64) : a ≠ a - 8 ∧ a ≠ a - 16 ∧ a - 8 ≠ a - 16 := by
  refine ⟨?_, ?_, ?_⟩ <;> grind

theorem Balanced.ret (h : Balanced tpoff d hook s₀ s) (hstack : HasRoom tpoff d s₀) (time : UInt64) :
    ∃ s', X86.step (hook.program tpoff) s (.exec time) = some s' ∧ Returned tpoff d hook s₀ s' ∧
      s'.fs = s.fs ∧ s'.mem = s.mem := by
  have hcode : (hook.program tpoff).code[hook.last]? = some .ret := by cases hook <;> rfl
  have hstep : X86.step (hook.program tpoff) s (.exec time) = some (exec time 0 hook.last s .ret) := by
    simp only [X86.step, h.place, hcode, Option.map_some]
    rfl
  have hrsp : s.regs .rsp = s₀.regs .rsp := h.regs _ (rsp_notMem_scratch hook)
  obtain ⟨h8, h16, -⟩ := rsp_ne_sub (s₀.regs .rsp)
  have haddress := h.mem _ (hstack _ (Or.inl rfl)) h8 h16
  refine ⟨_, hstep, ⟨?_, ?_, fun r hr hne => ?_, h.mem⟩, rfl, rfl⟩
  · change Place.returned (s.mem (s.regs .rsp)) = _
    rw [hrsp, haddress]
  · change Function.update s.regs .rsp (s.regs .rsp + 8) .rsp = _
    rw [Function.update_self, hrsp]
  · change Function.update s.regs .rsp (s.regs .rsp + 8) r = _
    rw [Function.update_of_ne hne, h.regs r hr]

/-- The mask does not matter. -/
theorem Balanced.of_masked (h : Balanced tpoff d hook (masked tpoff s₀ m) s) (m' : UInt64) :
    Balanced tpoff d hook s₀ (s.setMem (s₀.maskAddr tpoff) m') := by
  refine ⟨h.place, h.fs, h.regs, fun a ha h8 h16 => ?_⟩
  have hne : a ≠ s₀.maskAddr tpoff := by
    rintro rfl
    exact ha (Or.inl (Or.inr (Or.inl rfl)))
  rw [State.mem_setMem_of_ne hne, h.mem a ha h8 h16, masked, State.mem_setMem_of_ne hne]

theorem Returned.setMask (h : Returned tpoff d hook s₀ s) (hfs : s.fs = s₀.fs) (m : UInt64) :
    Returned tpoff d hook s₀ (s.setMem (s.maskAddr tpoff) m) := by
  refine ⟨h.place, h.rsp, h.regs, fun a ha h8 h16 => ?_⟩
  have hne : a ≠ s.maskAddr tpoff := by
    rintro rfl
    refine ha (Or.inl (Or.inr (Or.inl ?_)))
    rw [State.maskAddr, hfs]
    rfl
  rw [State.mem_setMem_of_ne hne, h.mem a ha h8 h16]

theorem regs_fentry (hroom : Room tpoff d s) (hslot : slotOf tpoff s ≠ 0) {r : Reg}
    (hr : r ∉ Hook.scratch .fentry) :
    (straight (Hook.program tpoff .fentry) time 13 s).regs r = s.regs r := by
  set u := straight (Hook.program tpoff .fentry) time with hu
  have hrsp : (u 12 s).regs .rsp = s.regs .rsp - 8 := rfl
  have hpush : (u 5 s).mem = Function.update s.mem (s.regs .rsp - 8) (s.regs .rdx) := rfl
  have hrdx : (u 12 s).mem (s.regs .rsp - 8) = s.regs .rdx := by
    have hkeep : (u 12 s).mem (s.regs .rsp - 8) = (u 5 s).mem (s.regs .rsp - 8) :=
      mem_straight hroom hslot (hroom.stack _ (Or.inr (Or.inl rfl))) (by decide) (Or.inl le_rfl) (by decide)
        (by decide)
    rw [hkeep, hpush, Function.update_self]
  have hregs := congrArg State.regs
    (straight_succ (Hook.program tpoff .fentry) time s (k := 12) rfl)
  rw [regs_exec_pop, ← hu, hrsp, hrdx] at hregs
  rw [hregs]
  by_cases h1 : r = .rdx
  · rw [h1, Function.update_self]
  rw [Function.update_of_ne h1]
  by_cases h2 : r = .rsp
  · rw [h2, Function.update_self, UInt64.sub_add_cancel]
  rw [Function.update_of_ne h2]
  cases r <;> first | exact absurd (by decide) hr | exact absurd rfl h1 | exact absurd rfl h2 | rfl

theorem regs_fexit (hroom : Room tpoff d s) (hslot : slotOf tpoff s ≠ 0) (clang : Bool) {r : Reg}
    (hr : r ∉ Hook.scratch (.fexit clang)) :
    (straight (Hook.program tpoff (.fexit clang)) time 16 s).regs r = s.regs r := by
  set u := straight (Hook.program tpoff (.fexit clang)) time with hu
  have hsub := sub_eight_sub_eight (s.regs .rsp)
  have hadd : s.regs .rsp - 16 + 8 = s.regs .rsp - 8 := by rw [← hsub, UInt64.sub_add_cancel]
  have hrsp : (u 14 s).regs .rsp = s.regs .rsp - 8 - 8 := rfl
  have hpush : (u 6 s).mem = Function.update (Function.update s.mem (s.regs .rsp - 8) (s.regs .rdx))
      (s.regs .rsp - 8 - 8) (s.regs .rax) := rfl
  rw [hsub] at hrsp hpush
  have hkeep {a : UInt64} {k : ℕ} (ha : ¬ Traced tpoff d s a) (h6 : 6 ≤ k) (hk : k ≤ 16) :
      (u k s).mem a = (u 6 s).mem a :=
    mem_straight hroom hslot ha (by decide) (Or.inl le_rfl) h6 hk
  have hrax : (u 14 s).mem (s.regs .rsp - 16) = s.regs .rax := by
    rw [hkeep (hroom.stack _ (Or.inr (Or.inr rfl))) (by decide) (by decide), hpush, Function.update_self]
  have hrdx : (u 15 s).mem (s.regs .rsp - 8) = s.regs .rdx := by
    rw [hkeep (hroom.stack _ (Or.inr (Or.inl rfl))) (by decide) (by decide), hpush,
      Function.update_of_ne (rsp_ne_sub _).2.2, Function.update_self]
  have hregs := congrArg State.regs
    (straight_succ (Hook.program tpoff (.fexit clang)) time s (k := 14) rfl)
  rw [regs_exec_pop, ← hu, hrsp, hrax, hadd] at hregs
  have hregs' := congrArg State.regs
    (straight_succ (Hook.program tpoff (.fexit clang)) time s (k := 15) rfl)
  have hrsp' : (u 15 s).regs .rsp = s.regs .rsp - 8 := by
    rw [hregs, Function.update_of_ne (by decide), Function.update_self]
  rw [regs_exec_pop, ← hu, hrsp', hrdx, UInt64.sub_add_cancel, hregs] at hregs'
  rw [hregs']
  by_cases h1 : r = .rdx
  · rw [h1, Function.update_self]
  rw [Function.update_of_ne h1]
  by_cases h2 : r = .rsp
  · rw [h2, Function.update_self]
  rw [Function.update_of_ne h2]
  by_cases h3 : r = .rax
  · rw [h3, Function.update_self]
  rw [Function.update_of_ne h3, Function.update_of_ne h2]
  have hr' : r ≠ .r10 ∧ r ≠ .r11 := by simpa [Hook.scratch] using hr
  cases r <;> first | exact absurd rfl hr'.1 | exact absurd rfl hr'.2 | exact absurd rfl h1 |
    exact absurd rfl h2 | exact absurd rfl h3 | rfl

/-- A hook that has traced is about to return. -/
theorem balanced_straight (hroom : Room tpoff d s) (hslot : slotOf tpoff s ≠ 0) :
    Balanced tpoff d hook s (straight (hook.program tpoff) time hook.last s) := by
  refine ⟨by cases hook <;> rfl, fs_straight _, fun r hr => ?_, fun a ha h8 h16 => ?_⟩
  · cases hook with
    | fentry => exact regs_fentry hroom hslot hr
    | fexit clang => exact regs_fexit hroom hslot clang hr
  · have hlast : 2 ≤ hook.last := by cases hook <;> exact Nat.le_add_left 2 _
    have hpush : (straight (hook.program tpoff) time 2 s).mem = s.mem := by cases hook <;> rfl
    rw [mem_straight hroom hslot ha le_rfl (Or.inr ⟨h8, h16⟩) hlast le_rfl, hpush]

/-- So is one that has found tracing off. -/
theorem balanced_off (hslot : slotOf tpoff s = 0) :
    Balanced tpoff d hook s (straight (hook.program tpoff) time 3 s) := by
  have hplace : (straight (hook.program tpoff) time 3 s).place =
      .inside (if slotOf tpoff s == 0 then hook.last else 3) := by
    cases hook <;> rfl
  rw [beq_iff_eq.2 hslot, if_pos rfl] at hplace
  refine ⟨hplace, fs_straight _, fun r hr => ?_, fun a _ _ _ => ?_⟩
  · have hr' : r ≠ .r11 := by
      rintro rfl
      exact hr (by cases hook <;> simp [Hook.scratch])
    have hregs : (straight (hook.program tpoff) time 3 s).regs =
        Function.update (Function.update s.regs .r11 (s.mem (s.posAddr tpoff))) .r11
          (slotOf tpoff s) := by
      cases hook <;> rfl
    rw [hregs, Function.update_of_ne hr', Function.update_of_ne hr']
  · have hmem : (straight (hook.program tpoff) time 3 s).mem = s.mem := by cases hook <;> rfl
    rw [hmem]

end

end Funtrace
