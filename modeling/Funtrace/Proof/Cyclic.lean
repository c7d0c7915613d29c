/-
  The trace buffer is a ring.

  A buffer of `2 ^ L` bytes is aligned to twice its size, so clearing bit `L` of the
  position takes its end to its beginning and leaves every other position as it is
  (`and_not_bufSize`).  With this the machine of `TraceData.lean` simulates a recorder
  that knows nothing of memory: it notes the events of the calls that begin while
  tracing is not paused (`Recorder`).  `Holds` relates the two: the buffer is the ring
  that the events were pushed to, but for the slot of a call in progress.
-/
import Mathlib.Data.Nat.Bitwise
import Mathlib.Data.UInt
import Funtrace.Lib.Ring
import Funtrace.Lib.Run
import Funtrace.Runtime.TraceData

namespace Funtrace

/-! ## Wraparound -/

section
variable {L base x : ℕ}

theorem testBit_not_two_pow (i : ℕ) (hL : L < 64) :
    (2 ^ 64 - 1 - 2 ^ L).testBit i = (decide (i < 64) && !decide (L = i)) := by
  have hlt : 2 ^ L < 2 ^ 64 := Nat.pow_lt_pow_right (by decide) hL
  rw [Nat.sub_sub, Nat.add_comm, Nat.testBit_two_pow_sub_succ hlt, Nat.testBit_two_pow]

/-- Clearing bit `L` above a multiple of `2 ^ (L + 1)` takes `2 ^ L` to zero and leaves what is
    below it. -/
theorem and_not_two_pow (hL : L < 64) (hbase : base % 2 ^ (L + 1) = 0) (hx : x ≤ 2 ^ L)
    (hlt : base + x < 2 ^ 64) :
    (base + x) &&& (2 ^ 64 - 1 - 2 ^ L) = if x = 2 ^ L then base else base + x := by
  obtain ⟨q, rfl⟩ := Nat.dvd_of_mod_eq_zero hbase
  have hpow : 2 ^ L < 2 ^ (L + 1) := Nat.pow_lt_pow_right (by decide) (Nat.lt_succ_self L)
  refine Nat.eq_of_testBit_eq fun i => ?_
  have hbits : ∀ y ≤ 2 ^ L, (2 ^ (L + 1) * q + y).testBit i =
      if i < L + 1 then y.testBit i else q.testBit (i - (L + 1)) :=
    fun y hy => Nat.testBit_two_pow_mul_add q (by omega) i
  have hhigh : 64 ≤ i → (2 ^ (L + 1) * q + x).testBit i = false := fun hi =>
    Nat.testBit_lt_two_pow (Nat.lt_of_lt_of_le hlt (Nat.pow_le_pow_right (by decide) hi))
  rw [Nat.testBit_and, testBit_not_two_pow i hL]
  split_ifs with h
  · subst h
    have hzero := hbits 0 (Nat.zero_le _)
    rw [Nat.add_zero] at hzero
    rw [hzero, hbits _ le_rfl, Nat.testBit_two_pow]
    by_cases hi : i < L + 1
    · rw [if_pos hi, if_pos hi, Nat.zero_testBit]
      by_cases hLi : L = i <;> simp [hLi]
    · rw [if_neg hi, if_neg hi]
      rw [hbits _ le_rfl, if_neg hi] at hhigh
      by_cases h64 : i < 64
      · simp [h64, show L ≠ i by omega]
      · simp [hhigh (by omega)]
  · by_cases hLi : L = i
    · subst hLi
      rw [hbits x hx, if_pos (Nat.lt_succ_self L), Nat.testBit_lt_two_pow (by omega)]
      simp
    · by_cases h64 : i < 64
      · simp [h64, hLi]
      · simp [hhigh (by omega)]

end

/-! ## Addresses -/

namespace TraceData

/-- A buffer of `2 ^ L` bytes, as `allocate` makes it. -/
structure Aligned (d : TraceData) (L : ℕ) : Prop where
  five_le : 5 ≤ L
  le_thirty : L ≤ 30
  size : d.bufSize = 1 <<< UInt64.ofNat L
  align : d.buf.toNat % 2 ^ (L + 1) = 0
  nonzero : d.buf ≠ 0

theorem toNat_bufSize {L : ℕ} (h : L ≤ 30) : ((1 : UInt64) <<< UInt64.ofNat L).toNat = 2 ^ L := by
  have hlt : 2 ^ L < 2 ^ 64 := Nat.pow_lt_pow_right (by decide) (by omega)
  rw [UInt64.toNat_shiftLeft, UInt64.toNat_ofNat_of_lt' (by rw [UInt64.size]; omega),
    Nat.mod_eq_of_lt (show L < 64 by omega), UInt64.toNat_one, Nat.one_shiftLeft,
    Nat.mod_eq_of_lt hlt]

section
variable {d : TraceData} {L : ℕ} (h : d.Aligned L) {i j : ℕ}
include h

theorem sixteen_mul_numSlots : 16 * d.numSlots = 2 ^ L := by
  have hdvd : 16 ∣ 2 ^ L := Nat.pow_dvd_pow 2 (show 4 ≤ L by have := h.five_le; omega)
  rw [numSlots, h.size, toNat_bufSize h.le_thirty, Nat.mul_div_cancel' hdvd]

theorem numSlots_pos : 0 < d.numSlots := by
  have hsize := sixteen_mul_numSlots h
  have := Nat.two_pow_pos L
  omega

theorem buf_add_lt : d.buf.toNat + 2 * 2 ^ L ≤ 2 ^ 64 := by
  have hlt := d.buf.toNat_lt
  have hdvd : 2 ^ (L + 1) ∣ 2 ^ 64 :=
    Nat.pow_dvd_pow 2 (show L + 1 ≤ 64 by have := h.le_thirty; omega)
  have hbuf := Nat.dvd_of_mod_eq_zero h.align
  obtain ⟨a, ha⟩ := hdvd
  obtain ⟨b, hb⟩ := hbuf
  have htwice : 2 ^ (L + 1) = 2 * 2 ^ L := by rw [Nat.pow_succ, Nat.mul_comm]
  rw [htwice] at ha hb
  rw [ha, hb] at hlt ⊢
  have hab : b < a := Nat.lt_of_mul_lt_mul_left hlt
  calc 2 * 2 ^ L * b + 2 * 2 ^ L = 2 * 2 ^ L * (b + 1) := by rw [Nat.mul_succ]
    _ ≤ 2 * 2 ^ L * a := Nat.mul_le_mul_left _ hab

theorem toNat_slotAddr (hi : i ≤ d.numSlots) : (d.slotAddr i).toNat = d.buf.toNat + 16 * i := by
  have hsize := sixteen_mul_numSlots h
  have hpos := numSlots_pos h
  have hbuf := buf_add_lt h
  have hpow : 2 ^ L ≤ 2 ^ 30 := Nat.pow_le_pow_right (by decide) h.le_thirty
  have hmul : (sizeofTraceEntry * UInt64.ofNat i).toNat = 16 * i := by
    rw [UInt64.toNat_mul, UInt64.toNat_ofNat_of_lt' (by rw [UInt64.size]; omega)]
    exact Nat.mod_eq_of_lt (by change 16 * i < _; omega)
  rw [slotAddr, UInt64.toNat_add, hmul, Nat.mod_eq_of_lt (by omega)]

theorem toNat_slotAddr_add_eight (hi : i < d.numSlots) :
    (d.slotAddr i + 8).toNat = d.buf.toNat + 16 * i + 8 := by
  have hsize := sixteen_mul_numSlots h
  have hbuf := buf_add_lt h
  rw [UInt64.toNat_add, toNat_slotAddr h hi.le]
  exact Nat.mod_eq_of_lt (by change _ + 8 < _; omega)

theorem slotAddr_succ (hi : i < d.numSlots) :
    d.slotAddr i + sizeofTraceEntry = d.slotAddr (i + 1) := by
  have hsize := sixteen_mul_numSlots h
  have hbuf := buf_add_lt h
  rw [← UInt64.toNat_inj, UInt64.toNat_add, toNat_slotAddr h hi.le, toNat_slotAddr h hi]
  exact Nat.mod_eq_of_lt (by change _ + 16 < _; omega)

theorem last_eq : d.buf + (d.bufSize / sizeofTraceEntry - 1) * sizeofTraceEntry =
    d.slotAddr (d.numSlots - 1) := by
  have hpos := numSlots_pos h
  have hlt := d.bufSize.toNat_lt
  have hN : (d.bufSize / sizeofTraceEntry).toNat = d.numSlots := UInt64.toNat_div _ _
  have hlast : d.bufSize / sizeofTraceEntry - 1 = UInt64.ofNat (d.numSlots - 1) := by
    rw [← UInt64.toNat_inj, UInt64.toNat_sub_of_le _ _ (UInt64.le_iff_toNat_le.2 (hN ▸ hpos)), hN,
      UInt64.toNat_ofNat_of_lt' (by rw [UInt64.size, numSlots]; omega)]
    rfl
  rw [hlast, UInt64.mul_comm]
  rfl

theorem slotAddr_ne_zero (hi : i ≤ d.numSlots) : d.slotAddr i ≠ 0 := by
  have hne : d.buf.toNat ≠ 0 := fun h0 => h.nonzero (UInt64.toNat_inj.1 h0)
  rw [ne_eq, ← UInt64.toNat_inj, toNat_slotAddr h hi]
  change ¬ _ = 0
  omega

/-- **Wraparound**: the end of the buffer goes to its beginning. -/
theorem slotAddr_and_not (hi : i ≤ d.numSlots) :
    d.slotAddr i &&& ~~~d.bufSize = d.slotAddr (if i = d.numSlots then 0 else i) := by
  have hsize := sixteen_mul_numSlots h
  have hbuf := buf_add_lt h
  have hpos := numSlots_pos h
  have hL := h.le_thirty
  have hand := and_not_two_pow (by omega) h.align (show 16 * i ≤ 2 ^ L by omega) (by omega)
  have h64 : UInt64.size = 2 ^ 64 := rfl
  rw [← UInt64.toNat_inj, UInt64.toNat_and, UInt64.toNat_not, h.size, toNat_bufSize hL,
    toNat_slotAddr h hi, h64, hand]
  split_ifs with h₁ h₂ h₂
  · rw [toNat_slotAddr h (Nat.zero_le _), Nat.mul_zero, Nat.add_zero]
  · omega
  · omega
  · rw [toNat_slotAddr h hi]

theorem slotAddr_inj (hi : i < d.numSlots) (hj : j < d.numSlots)
    (heq : d.slotAddr i = d.slotAddr j) : i = j := by
  rw [← UInt64.toNat_inj, toNat_slotAddr h hi.le, toNat_slotAddr h hj.le] at heq
  omega

theorem slotAddr_ne_add_eight (hi : i < d.numSlots) (hj : j < d.numSlots) :
    d.slotAddr i ≠ d.slotAddr j + 8 := by
  rw [ne_eq, ← UInt64.toNat_inj, toNat_slotAddr h hi.le, toNat_slotAddr_add_eight h hj]
  omega

theorem slotAddr_add_eight_inj (hi : i < d.numSlots) (hj : j < d.numSlots)
    (heq : d.slotAddr i + 8 = d.slotAddr j + 8) : i = j := by
  rw [← UInt64.toNat_inj, toNat_slotAddr_add_eight h hi, toNat_slotAddr_add_eight h hj] at heq
  omega

end

end TraceData

/-! ## The recorder -/

/-- What a buffer is for: it notes the events of the calls that begin while tracing is on. -/
structure Recorder where
  paused : Bool
  done : List FunTraceEntry
  current : Option (FunTraceEntry × List TraceStore)

namespace Recorder

/-- Nothing is recorded yet. -/
def init : Recorder := ⟨false, [], none⟩

/-- A call begins; it is recorded unless tracing is paused. -/
def enter (r : Recorder) (call : TraceCall) : Recorder :=
  if r.paused then r else { r with current := some (call.entry, call.stores) }

/-- One store of the current call; with the last one the entry is done. -/
def store (r : Recorder) (entry : FunTraceEntry) (rest : List TraceStore) : Recorder :=
  if rest = [] then { r with done := r.done ++ [entry], current := none }
  else { r with current := some (entry, rest) }

/-- A step of the machine that records. -/
def step (r : Recorder) : TraceAction → Option Recorder
  | .enter call =>
    match r.current with
    | none => some (r.enter call)
    | some _ => none
  | .store =>
    match r.current with
    | some (entry, _ :: rest) => some (r.store entry rest)
    | _ => none
  | .pause => some { r with paused := true }
  | .resume => some { r with paused := false }

/-- The events traced so far; an event is traced once its cycle is stored. -/
def traced (r : Recorder) : List FunTraceEntry :=
  match r.current with
  | none => r.done
  | some (entry, stores) => if .cycle ∈ stores then r.done else r.done ++ [entry]

end Recorder

/-! ## The simulation -/

/-- The stores that are left in a call: those of the position last. -/
structure StoresLeft (stores : List TraceStore) : Prop where
  nodup : stores.Nodup
  last : stores.getLast? = some .pos

theorem storesLeft_stores (call : TraceCall) : StoresLeft call.stores := by
  cases call <;> exact ⟨by simp [TraceCall.stores], rfl⟩

theorem func_mem_stores (call : TraceCall) : .func ∈ call.stores := by
  cases call <;> simp [TraceCall.stores]

theorem cycle_mem_stores (call : TraceCall) : .cycle ∈ call.stores := by
  cases call <;> simp [TraceCall.stores]

theorem StoresLeft.tail {st : TraceStore} {rest : List TraceStore} (h : StoresLeft (st :: rest))
    (hst : st ≠ .pos) : rest ≠ [] ∧ StoresLeft rest ∧ st ∉ rest := by
  obtain ⟨hnotin, hnodup⟩ := List.nodup_cons.1 h.nodup
  have hne : rest ≠ [] := by
    rintro rfl
    exact hst (Option.some.inj h.last)
  refine ⟨hne, ⟨hnodup, ?_⟩, hnotin⟩
  rw [← h.last, List.getLast?_cons_of_ne_nil hne]

theorem StoresLeft.eq_nil {rest : List TraceStore} (h : StoresLeft (.pos :: rest)) : rest = [] := by
  by_contra hne
  have hlast := h.last
  rw [List.getLast?_cons_of_ne_nil hne] at hlast
  exact (List.nodup_cons.1 h.nodup).1 (List.mem_of_getLast? hlast)

/-- The ring to which some events were pushed. -/
def ringOf {init : List FunTraceEntry} (hne : init ≠ []) (events : List FunTraceEntry) :
    Ring FunTraceEntry :=
  (Ring.fresh init hne).pushAll events

section
variable (L : ℕ) {init : List FunTraceEntry} (hne : init ≠ []) (mem₀ : Memory)

/-- The buffer is the ring that the events were pushed to, but for the slot of a call in
    progress, which is written in part. -/
structure Holds (s : Tracer) (r : Recorder) : Prop where
  aligned : s.data.Aligned L
  length : init.length = s.data.numSlots
  mask : s.data.wraparoundMask = if r.paused then 0 else ~~~s.data.bufSize
  pos : s.data.pos = s.data.slotAddr (ringOf hne r.done).pos
  current : r.current = s.pending.map fun p => (p.entry, p.stores)
  slot : ∀ p ∈ s.pending, p.slot = s.data.slotAddr (ringOf hne r.done).next ∧ StoresLeft p.stores
  slots : ∀ i < s.data.numSlots, (s.pending.isSome → i ≠ (ringOf hne r.done).next) →
    (ringOf hne r.done).slots[i]? = some (s.mem.entry (s.data.slotAddr i))
  written : ∀ p ∈ s.pending, s.mem.entry p.slot =
    ⟨if .func ∈ p.stores then (ringOf hne r.done).oldest.address else p.entry.address,
      if .cycle ∈ p.stores then (ringOf hne r.done).oldest.cycle else p.entry.cycle⟩
  frame : ∀ a, (∀ i < s.data.numSlots, a ≠ s.data.slotAddr i ∧ a ≠ s.data.slotAddr i + 8) →
    s.mem a = mem₀ a

variable {L hne mem₀} {s : Tracer} {r : Recorder}

theorem Holds.length_ring (h : Holds L hne mem₀ s r) :
    (ringOf hne r.done).slots.length = s.data.numSlots :=
  (Ring.length_pushAll r.done _).trans h.length

theorem Holds.next_lt (h : Holds L hne mem₀ s r) : (ringOf hne r.done).next < s.data.numSlots :=
  h.length_ring ▸ (ringOf hne r.done).next_lt

/-- The mask in the code is the wraparound of the ring. -/
theorem Holds.masked_pos (h : Holds L hne mem₀ s r) (hp : r.paused = false) :
    s.data.pos &&& s.data.wraparoundMask = s.data.slotAddr (ringOf hne r.done).next := by
  have hle : (ringOf hne r.done).pos ≤ s.data.numSlots := h.length_ring ▸ (ringOf hne r.done).pos_le
  rw [h.pos, h.mask, hp, if_neg (by simp), TraceData.slotAddr_and_not h.aligned hle, Ring.next,
    h.length_ring]

/-- A call that is left early changes nothing, one that is not is about to write. -/
theorem Holds.enter (h : Holds L hne mem₀ s r) (hs : s.pending = none) (call : TraceCall) :
    Holds L hne mem₀ (s.enter call) (r.enter call) := by
  cases hp : r.paused with
  | true =>
    have hmask : s.data.wraparoundMask = 0 := by rw [h.mask, hp, if_pos rfl]
    have hs' : s.enter call = s := by simp [Tracer.enter, hmask]
    have hr' : r.enter call = r := by simp [Recorder.enter, hp]
    rwa [hs', hr']
  | false =>
    have hslot := h.masked_pos hp
    have hne0 := TraceData.slotAddr_ne_zero h.aligned h.next_lt.le
    have hs' : s.enter call = { s with
        pending := some ⟨s.data.slotAddr (ringOf hne r.done).next, call.entry, call.stores⟩ } := by
      simp [Tracer.enter, hslot, hne0]
    have hr' : r.enter call = { r with current := some (call.entry, call.stores) } := by
      simp [Recorder.enter, hp]
    have hfree : s.pending.isSome = false := by rw [hs]; rfl
    rw [hs', hr']
    refine ⟨h.aligned, h.length, h.mask, h.pos, rfl, ?_, fun i hi _ => h.slots i hi ?_, ?_, h.frame⟩
    · rintro p ⟨rfl⟩
      exact ⟨rfl, storesLeft_stores call⟩
    · simp [hfree]
    · rintro p ⟨rfl⟩
      have hold := h.slots _ h.next_lt (by simp [hfree])
      rw [Ring.getElem?_next] at hold
      rw [if_pos (func_mem_stores call), if_pos (cycle_mem_stores call)]
      exact (Option.some.inj hold).symm

/-- A store of a call in progress. -/
theorem Holds.store (h : Holds L hne mem₀ s r) {slot : UInt64} {entry : FunTraceEntry}
    {st : TraceStore} {rest : List TraceStore} (hs : s.pending = some ⟨slot, entry, st :: rest⟩) :
    Holds L hne mem₀ (s.store slot entry st rest) (r.store entry rest) := by
  obtain ⟨hslot, hleft⟩ := h.slot _ hs
  have hwritten := h.written _ hs
  have hnext := h.next_lt
  have hbusy : s.pending.isSome := by rw [hs]; rfl
  simp only [Memory.entry, FunTraceEntry.mk.injEq] at hslot hleft hwritten
  cases st with
  | func =>
    obtain ⟨hrest, hleft, hnot⟩ := hleft.tail (by decide)
    simp only [Tracer.store, Recorder.store, if_neg hrest]
    refine ⟨h.aligned, h.length, h.mask, h.pos, rfl, ?_, fun i hi hine => ?_, ?_, fun a ha => ?_⟩
    · rintro p ⟨rfl⟩
      exact ⟨hslot, hleft⟩
    · have hine := hine rfl
      rw [Memory.entry_update (hslot ▸ fun heq => hine (TraceData.slotAddr_inj h.aligned hi hnext heq))
        (hslot ▸ fun heq => TraceData.slotAddr_ne_add_eight h.aligned hnext hi heq.symm)]
      exact h.slots i hi fun _ => hine
    · rintro p ⟨rfl⟩
      have hcycle : slot + 8 ≠ slot :=
        hslot ▸ (TraceData.slotAddr_ne_add_eight h.aligned hnext hnext).symm
      simp only [Memory.entry, Function.update_self, Function.update_of_ne hcycle, hwritten.2,
        List.mem_cons, reduceCtorEq, false_or, if_neg hnot]
    · exact (Function.update_of_ne (hslot ▸ (ha _ hnext).1) _ _).trans (h.frame a ha)
  | cycle =>
    obtain ⟨hrest, hleft, hnot⟩ := hleft.tail (by decide)
    simp only [Tracer.store, Recorder.store, if_neg hrest]
    refine ⟨h.aligned, h.length, h.mask, h.pos, rfl, ?_, fun i hi hine => ?_, ?_, fun a ha => ?_⟩
    · rintro p ⟨rfl⟩
      exact ⟨hslot, hleft⟩
    · have hine := hine rfl
      rw [Memory.entry_update (hslot ▸ TraceData.slotAddr_ne_add_eight h.aligned hi hnext)
        (hslot ▸ fun heq => hine (TraceData.slotAddr_add_eight_inj h.aligned hi hnext heq))]
      exact h.slots i hi fun _ => hine
    · rintro p ⟨rfl⟩
      have hfunc : slot ≠ slot + 8 :=
        hslot ▸ TraceData.slotAddr_ne_add_eight h.aligned hnext hnext
      simp only [Memory.entry, Function.update_self, Function.update_of_ne hfunc, hwritten.1,
        List.mem_cons, reduceCtorEq, false_or, if_neg hnot]
    · exact (Function.update_of_ne (hslot ▸ (ha _ hnext).2) _ _).trans (h.frame a ha)
  | pos =>
    -- the call returns: its event is pushed
    obtain rfl := hleft.eq_nil
    have hring : ringOf hne (r.done ++ [entry]) = (ringOf hne r.done).push entry :=
      Ring.pushAll_append _ _ _
    simp only [Tracer.store, Recorder.store, if_true]
    refine ⟨⟨h.aligned.five_le, h.aligned.le_thirty, h.aligned.size, h.aligned.align,
      h.aligned.nonzero⟩, h.length, h.mask, ?_, rfl, by simp, fun i hi _ => ?_, by simp, h.frame⟩
    · rw [hring, hslot]
      exact TraceData.slotAddr_succ h.aligned hnext
    · rw [hring, Ring.push, List.getElem?_set]
      by_cases hinext : (ringOf hne r.done).next = i
      · subst hinext
        rw [if_pos rfl, if_pos (h.length_ring ▸ hi)]
        simp only [List.mem_singleton, reduceCtorEq, if_false] at hwritten
        exact congrArg some (hslot ▸ FunTraceEntry.ext hwritten.1.symm hwritten.2.symm)
      · rw [if_neg hinext]
        exact h.slots i hi fun _ => Ne.symm hinext

/-- **One step**: whatever the thread or those that pause it do, the recorder follows. -/
theorem Holds.step {s' : Tracer} (h : Holds L hne mem₀ s r) {a : TraceAction}
    (hs : s.step a = some s') : ∃ r', r.step a = some r' ∧ Holds L hne mem₀ s' r' := by
  cases a with
  | enter call =>
    cases hp : s.pending with
    | none =>
      simp only [Tracer.step, hp, Option.some.injEq] at hs
      subst hs
      exact ⟨r.enter call, by simp [Recorder.step, h.current, hp], h.enter hp call⟩
    | some p => simp [Tracer.step, hp] at hs
  | store =>
    cases hp : s.pending with
    | none => simp [Tracer.step, hp] at hs
    | some p =>
      obtain ⟨slot, entry, stores⟩ := p
      cases stores with
      | nil => simp [Tracer.step, hp] at hs
      | cons st rest =>
        simp only [Tracer.step, hp, Option.some.injEq] at hs
        subst hs
        exact ⟨r.store entry rest, by simp [Recorder.step, h.current, hp], h.store hp⟩
  | pause =>
    cases hs
    exact ⟨_, rfl, { h with aligned := { h.aligned with }, mask := rfl }⟩
  | resume =>
    cases hs
    exact ⟨_, rfl, { h with aligned := { h.aligned with }, mask := rfl }⟩

/-! ## The buffer -/

theorem ringOf_append (events : List FunTraceEntry) (e : FunTraceEntry) :
    ringOf hne (events ++ [e]) = (ringOf hne events).push e :=
  Ring.pushAll_append _ _ _

/-- The last slot has its first cycle until it is written. -/
theorem last_ringOf {events : List FunTraceEntry} (hinit : (init.getLast hne).cycle = 0)
    (hevents : ∀ e ∈ events, e.cycle ≠ 0) :
    ∀ e ∈ (ringOf hne events).slots.getLast?, e.cycle = 0 ↔ events.length < init.length := by
  intro e he
  rcases Nat.lt_or_ge events.length init.length with hlt | hge
  · have hslots := (Ring.slots_fresh hne hlt.le).1
    have hdrop : init.drop events.length ≠ [] := by simpa using hlt
    rw [ringOf, hslots, List.getLast?_append_of_ne_nil _ hdrop, List.getLast?_drop,
      if_neg (by omega), List.getLast?_eq_getLast_of_ne_nil hne] at he
    cases he
    simp [hinit, hlt]
  · have hmem := Ring.mem_of_mem_pushAll (Ring.fresh init hne) hge (List.mem_of_getLast? he)
    simp [hevents e hmem, Nat.not_lt.2 hge]

/-- A buffer of `2 ^ L` bytes that held `init` when it was allocated, after some events.  During
    a call its slot holds a part of an event; the other slots are as the events left them. -/
structure IsCyclic (L : ℕ) {init : List FunTraceEntry} (hne : init ≠ []) (mem₀ : Memory)
    (s : Tracer) (traced : List FunTraceEntry) : Prop where
  le_pos : s.data.buf.toNat ≤ s.data.pos.toNat
  pos_le : s.data.pos.toNat ≤ s.data.buf.toNat + 2 ^ L
  writes : ∀ p ∈ s.pending, ∃ i < 2 ^ L / 16, p.slot.toNat = s.data.buf.toNat + 16 * i
  frame : ∀ a : UInt64, a.toNat < s.data.buf.toNat ∨ s.data.buf.toNat + 2 ^ L ≤ a.toNat →
    s.mem a = mem₀ a
  contents : s.pending = none → ∃ p ≤ 2 ^ L / 16,
    s.data.pos.toNat = s.data.buf.toNat + 16 * p ∧
    (s.data.slots s.mem).drop p ++ (s.data.slots s.mem).take p =
      init.drop traced.length ++ traced.drop (traced.length - 2 ^ L / 16)
  others : ∀ i < 2 ^ L / 16, (∀ p ∈ s.pending, p.slot.toNat ≠ s.data.buf.toNat + 16 * i) →
    (s.data.slots s.mem)[i]? = (ringOf hne traced).slots[i]?
  last : ∀ e ∈ (s.data.slots s.mem).getLast?, e.cycle = 0 ↔ traced.length < 2 ^ L / 16

theorem Holds.numSlots_eq (h : Holds L hne mem₀ s r) : s.data.numSlots = 2 ^ L / 16 := by
  have := TraceData.sixteen_mul_numSlots h.aligned
  omega

/-- Outside of calls the buffer is the ring. -/
theorem Holds.slots_eq (h : Holds L hne mem₀ s r) (hs : s.pending = none) :
    s.data.slots s.mem = (ringOf hne r.done).slots := by
  refine List.ext_getElem? fun i => ?_
  rcases Nat.lt_or_ge i s.data.numSlots with hi | hi
  · rw [TraceData.getElem?_slots hi, h.slots i hi (by simp [hs])]
  · rw [List.getElem?_eq_none (by simpa [TraceData.slots] using hi),
      List.getElem?_eq_none (by rwa [h.length_ring])]

/-- During a call the other slots are as its event leaves them. -/
theorem Holds.others (h : Holds L hne mem₀ s r) {i : ℕ} (hi : i < s.data.numSlots)
    (hother : s.pending.isSome → i ≠ (ringOf hne r.done).next) :
    (s.data.slots s.mem)[i]? = (ringOf hne r.traced).slots[i]? := by
  rw [TraceData.getElem?_slots hi, ← h.slots i hi hother, Recorder.traced, h.current]
  cases hp : s.pending with
  | none => rfl
  | some p =>
    have hne := hother (by rw [hp]; rfl)
    simp only [Option.map_some]
    split_ifs with hcycle
    · rfl
    · rw [ringOf_append, Ring.push, List.getElem?_set_ne hne.symm]

/-- In every slot the cycle is that of the last event traced there. -/
theorem Holds.cycle_eq (h : Holds L hne mem₀ s r) {i : ℕ} (hi : i < s.data.numSlots) :
    (s.data.slots s.mem)[i]?.map FunTraceEntry.cycle =
      (ringOf hne r.traced).slots[i]?.map FunTraceEntry.cycle := by
  by_cases hother : s.pending.isSome → i ≠ (ringOf hne r.done).next
  · rw [h.others hi hother]
  · rw [Classical.not_imp, not_not] at hother
    obtain ⟨hbusy, rfl⟩ := hother
    obtain ⟨p, hp⟩ := Option.isSome_iff_exists.1 hbusy
    have hwritten := h.written p hp
    rw [(h.slot p hp).1] at hwritten
    rw [TraceData.getElem?_slots hi, hwritten, Recorder.traced, h.current, hp]
    simp only [Option.map_some]
    split_ifs with hcycle
    · rw [Ring.getElem?_next]
      rfl
    · rw [ringOf_append, Ring.push, List.getElem?_set_self (Ring.next_lt _)]
      rfl

/-- No event of a recorder has cycle zero. -/
structure Recorder.Nonzero (r : Recorder) : Prop where
  done : ∀ e ∈ r.done, e.cycle ≠ 0
  current : ∀ c ∈ r.current, c.1.cycle ≠ 0

theorem Recorder.Nonzero.traced (h : r.Nonzero) : ∀ e ∈ r.traced, e.cycle ≠ 0 := by
  intro e he
  unfold Recorder.traced at he
  cases hc : r.current with
  | none => exact h.done e (by simpa [hc] using he)
  | some c =>
    simp only [hc] at he
    split_ifs at he
    · exact h.done e he
    · rcases List.mem_append.1 he with he | he
      · exact h.done e he
      · rw [List.mem_singleton.1 he]
        exact h.current c hc

theorem Recorder.Nonzero.step {r' : Recorder} (h : r.Nonzero) {a : TraceAction}
    (ha : ∀ call, a = .enter call → call.entry.cycle ≠ 0) (hr : r.step a = some r') :
    r'.Nonzero := by
  cases a with
  | enter call =>
    cases hc : r.current with
    | some c => simp [Recorder.step, hc] at hr
    | none =>
      simp only [Recorder.step, hc, Option.some.injEq, Recorder.enter] at hr
      subst hr
      split_ifs
      · exact h
      · exact ⟨h.done, by rintro c ⟨rfl⟩; exact ha call rfl⟩
  | store =>
    cases hc : r.current with
    | none => simp [Recorder.step, hc] at hr
    | some c =>
      obtain ⟨e, stores⟩ := c
      cases stores with
      | nil => simp [Recorder.step, hc] at hr
      | cons st rest =>
        have he : e.cycle ≠ 0 := h.current _ hc
        simp only [Recorder.step, hc, Option.some.injEq, Recorder.store] at hr
        subst hr
        split_ifs
        · refine ⟨fun e' he' => ?_, by simp⟩
          rcases List.mem_append.1 he' with he' | he'
          · exact h.done e' he'
          · rw [List.mem_singleton.1 he']
            exact he
        · exact ⟨h.done, by rintro c ⟨rfl⟩; exact he⟩
  | pause => cases hr; exact ⟨h.done, h.current⟩
  | resume => cases hr; exact ⟨h.done, h.current⟩

theorem Holds.isCyclic (h : Holds L hne mem₀ s r) (hr : r.Nonzero)
    (hinit : (init.getLast hne).cycle = 0) : IsCyclic L hne mem₀ s r.traced := by
  have hN := h.numSlots_eq
  have hsize := TraceData.sixteen_mul_numSlots h.aligned
  have hle : (ringOf hne r.done).pos ≤ s.data.numSlots := h.length_ring ▸ (ringOf hne r.done).pos_le
  have hpos : s.data.pos.toNat = s.data.buf.toNat + 16 * (ringOf hne r.done).pos := by
    rw [h.pos, TraceData.toNat_slotAddr h.aligned hle]
  have hslot : ∀ p ∈ s.pending,
      p.slot.toNat = s.data.buf.toNat + 16 * (ringOf hne r.done).next := fun p hp => by
    rw [(h.slot p hp).1, TraceData.toNat_slotAddr h.aligned h.next_lt.le]
  refine ⟨by omega, by omega, fun p hp => ⟨_, hN ▸ h.next_lt, hslot p hp⟩, fun a ha => ?_,
    fun hs => ?_, fun i hi hother => ?_, fun e he => ?_⟩
  · refine h.frame a fun i hi => ?_
    rw [ne_eq, ne_eq, ← UInt64.toNat_inj, ← UInt64.toNat_inj,
      TraceData.toNat_slotAddr h.aligned hi.le, TraceData.toNat_slotAddr_add_eight h.aligned hi]
    omega
  · have htraced : r.traced = r.done := by simp [Recorder.traced, h.current, hs]
    refine ⟨(ringOf hne r.done).pos, hN ▸ hle, hpos, ?_⟩
    have hcontents := Ring.contents_pushAll r.done (Ring.fresh init hne)
    rw [Ring.contents_fresh, List.drop_append, h.length, hN] at hcontents
    rw [htraced, h.slots_eq hs]
    exact hcontents
  · rw [← hN] at hi
    refine h.others hi fun hbusy hinext => ?_
    obtain ⟨p, hp⟩ := Option.isSome_iff_exists.1 hbusy
    exact hother p hp (hinext ▸ hslot p hp)
  · have hpos := TraceData.numSlots_pos h.aligned
    have hlast := h.cycle_eq (i := s.data.numSlots - 1) (by omega)
    have hlen : (ringOf hne r.traced).slots.length = s.data.numSlots :=
      (Ring.length_pushAll r.traced _).trans h.length
    rw [List.getLast?_eq_getElem?, TraceData.length_slots] at he
    rw [he, ← hlen, ← List.getLast?_eq_getElem?] at hlast
    obtain ⟨e', he', hcycle⟩ := Option.map_eq_some_iff.1 hlast.symm
    rw [← hcycle, last_ringOf hinit hr.traced e' he', h.length, hN]

end

/-! ## Runs -/

section
variable {L : ℕ} {posixMemalign : UInt64 → UInt64 → Option UInt64} {entries : UInt64}

/-- What `posix_memalign` gives for a buffer of `2 ^ L` bytes. -/
structure Allocates (posixMemalign : UInt64 → UInt64 → Option UInt64) (L : ℕ) (entries : UInt64) :
    Prop where
  result : posixMemalign (1 <<< UInt64.ofNat L * 2) (1 <<< UInt64.ofNat L) = some entries
  align : entries.toNat % (2 * 2 ^ L) = 0
  nonzero : entries ≠ 0

/-- `allocate` makes an empty buffer, whose last cycle is zero. -/
theorem allocate_eq (h : Allocates posixMemalign L entries) (h5 : 5 ≤ L) (h30 : L ≤ 30)
    (d₀ : TraceData) (defaultLogBufSize : ℕ) (mem₀ : Memory) :
    let d := (d₀.allocate defaultLogBufSize posixMemalign L mem₀).1
    d.Aligned L ∧ d.pos = d.buf ∧ d.wraparoundMask = ~~~d.bufSize ∧
      (d₀.allocate defaultLogBufSize posixMemalign L mem₀).2 =
        Function.update mem₀ (d.slotAddr (d.numSlots - 1) + 8) 0 := by
  have hL : L ≠ 0 := by omega
  simp only [TraceData.allocate, if_neg hL, h.result]
  have haligned : TraceData.Aligned
      { d₀ with
        buf := entries, pos := entries, bufSize := 1 <<< UInt64.ofNat L
        wraparoundMask := ~~~(1 <<< UInt64.ofNat L) } L :=
    ⟨h5, h30, rfl, by rw [Nat.pow_succ, Nat.mul_comm]; exact h.align, h.nonzero⟩
  refine ⟨haligned, trivial, trivial, ?_⟩
  exact congrArg (fun a => Function.update mem₀ (a + 8) 0) (TraceData.last_eq haligned)

theorem holds_allocate (h : Allocates posixMemalign L entries) (h5 : 5 ≤ L) (h30 : L ≤ 30)
    (d₀ : TraceData) (defaultLogBufSize : ℕ) (mem₀ : Memory) :
    let s := Tracer.fresh (d₀.allocate defaultLogBufSize posixMemalign L mem₀)
    ∃ hne : s.data.slots s.mem ≠ [], ((s.data.slots s.mem).getLast hne).cycle = 0 ∧
      Holds L hne mem₀ s Recorder.init := by
  intro s
  obtain ⟨haligned, hpos, hmask, hmem⟩ := allocate_eq h h5 h30 d₀ defaultLogBufSize mem₀
  have haligned : s.data.Aligned L := haligned
  have hN := TraceData.numSlots_pos haligned
  have hne : s.data.slots s.mem ≠ [] := List.ne_nil_of_length_pos (by simpa using hN)
  have hmem : s.mem = Function.update mem₀ (s.data.slotAddr (s.data.numSlots - 1) + 8) 0 := hmem
  refine ⟨hne, ?_, haligned, TraceData.length_slots, hmask, ?_, rfl, by rintro p ⟨⟩,
    fun i hi _ => TraceData.getElem?_slots hi, by rintro p ⟨⟩, fun a ha => ?_⟩
  · have hlast : (s.data.slots s.mem).getLast? =
        some (s.mem.entry (s.data.slotAddr (s.data.numSlots - 1))) := by
      rw [List.getLast?_eq_getElem?, TraceData.length_slots,
        TraceData.getElem?_slots (by omega)]
    rw [List.getLast?_eq_getLast_of_ne_nil hne, Option.some.injEq] at hlast
    rw [hlast, hmem, Memory.entry]
    exact Function.update_self _ _ _
  · have hpos : s.data.pos = s.data.buf := hpos
    change s.data.pos = s.data.buf + sizeofTraceEntry * 0
    rw [hpos, UInt64.mul_zero, UInt64.add_zero]
  · rw [hmem, Function.update_of_ne (ha _ (by omega)).2]

theorem Holds.posIndex_eq {init : List FunTraceEntry} {hne : init ≠ []} {mem₀ : Memory} {s : Tracer}
    {r : Recorder} (h : Holds L hne mem₀ s r) : s.data.posIndex = (ringOf hne r.done).pos := by
  have hle : (ringOf hne r.done).pos ≤ s.data.numSlots := h.length_ring ▸ (ringOf hne r.done).pos_le
  have hpos := TraceData.toNat_slotAddr h.aligned hle
  rw [TraceData.posIndex, UInt64.toNat_div, h.pos, UInt64.toNat_sub_of_le _ _
    (UInt64.le_iff_toNat_le.2 (by omega)), hpos, Nat.add_sub_cancel_left]
  exact Nat.mul_div_cancel_left _ (by decide)

theorem Holds.run {init : List FunTraceEntry} {hne : init ≠ []} {mem₀ : Memory} {s s' : Tracer}
    {r : Recorder} (h : Holds L hne mem₀ s r) {acts : List TraceAction}
    (hrun : runFrom Tracer.step s acts = some s') :
    ∃ r', runFrom Recorder.step r acts = some r' ∧ Holds L hne mem₀ s' r' :=
  run_simulation (P := fun _ => True) (fun _ _ _ _ hR _ hs => hR.step hs) h (fun _ _ => trivial) hrun

/-- **The trace buffer is a ring.**  A buffer of `2 ^ L` bytes in which a thread traces calls,
    while others pause and resume tracing in between, is that of a recorder that takes the same
    steps. -/
theorem cyclic_run (h : Allocates posixMemalign L entries) (h5 : 5 ≤ L) (h30 : L ≤ 30)
    (d₀ : TraceData) (defaultLogBufSize : ℕ) (mem₀ : Memory) {acts : List TraceAction}
    (hcycles : ∀ call, .enter call ∈ acts → call.entry.cycle ≠ 0) {s : Tracer}
    (hrun : runFrom Tracer.step
      (Tracer.fresh (d₀.allocate defaultLogBufSize posixMemalign L mem₀)) acts = some s) :
    let start := Tracer.fresh (d₀.allocate defaultLogBufSize posixMemalign L mem₀)
    ∃ (r : Recorder) (hne : start.data.slots start.mem ≠ []),
      runFrom Recorder.step Recorder.init acts = some r ∧ IsCyclic L hne mem₀ s r.traced := by
  intro start
  obtain ⟨hne, hinit, hholds⟩ := holds_allocate h h5 h30 d₀ defaultLogBufSize mem₀
  have hstep : ∀ s r a s', Holds L hne mem₀ s r ∧ r.Nonzero →
      (∀ call, a = TraceAction.enter call → call.entry.cycle ≠ 0) → Tracer.step s a = some s' →
      ∃ r', Recorder.step r a = some r' ∧ Holds L hne mem₀ s' r' ∧ r'.Nonzero := by
    intro s r a s' hR ha hs
    obtain ⟨r', hr', hholds'⟩ := hR.1.step hs
    exact ⟨r', hr', hholds', hR.2.step ha hr'⟩
  obtain ⟨r, hr, hholds, hnonzero⟩ := run_simulation hstep
    ⟨hholds, by simp [Recorder.init], by simp [Recorder.init]⟩
    (fun a ha call hcall => hcycles call (hcall ▸ ha)) hrun
  exact ⟨r, hne, hr, hholds.isCyclic hnonzero hinit⟩

/-- Two slots, of which the first is overwritten; a call while tracing is paused is not traced,
    and one that began before is. -/
theorem cyclic_run_demo :
    let acts : List TraceAction :=
      [.enter (.fentry 0x1100 10), .store, .store, .store,
        .enter (.trace 0x1100 returnFlag 20), .store, .pause, .store, .store,
        .enter (.fentry 0x1200 30), .resume, .enter (.fexit false 0x1300 40), .store, .store]
    let start := Tracer.fresh
      (TraceData.allocate ⟨0, 0, 0, 0, 0, ⟨1, 1, Vector.replicate 16 0⟩, 0⟩ 20 (fun _ _ => some 64) 5 fun _ => 7)
    ∃ s, runFrom Tracer.step start acts = some s ∧
      ∃ (r : Recorder) (hne : start.data.slots start.mem ≠ []),
        runFrom Recorder.step Recorder.init acts = some r ∧
          IsCyclic 5 hne (fun _ => 7) s r.traced := by
  intro acts start
  have halloc : Allocates (fun _ _ => some 64) 5 64 := ⟨rfl, by decide, by decide⟩
  have hsome : (runFrom Tracer.step start acts).isSome := by decide +kernel
  obtain ⟨s, hs⟩ := Option.isSome_iff_exists.1 hsome
  refine ⟨s, hs, cyclic_run halloc le_rfl (by decide) _ _ _ (fun call hcall => ?_) hs⟩
  simp only [acts, List.mem_cons, TraceAction.enter.injEq, reduceCtorEq, List.not_mem_nil, or_false,
    false_or] at hcall
  rcases hcall with rfl | rfl | rfl | rfl <;> decide

end

end Funtrace
