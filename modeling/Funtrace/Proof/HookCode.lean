/-
  What the code of a hook does.

  Only the second instruction of a hook reads the mask, and there is one jump, which is out
  of the part that traces.  In this part most instructions change nothing but registers and
  the stack; the others are the stores that `trace` does (`effect`).
-/
import Mathlib.Tactic.IntervalCases
import Funtrace.Proof.Cyclic
import Funtrace.Runtime.Hooks

namespace Funtrace
open X86

/-! ## Arithmetic -/

section
variable (a : UInt64)

/-- `rdtsc` gives the time in two halves. -/
theorem or_halves : a &&& (0xffffffff : UInt64) ||| a >>> (32 : UInt64) <<< (32 : UInt64) = a := by
  rw [← UInt64.toNat_inj, UInt64.toNat_or, UInt64.toNat_and, UInt64.toNat_shiftLeft,
    UInt64.toNat_shiftRight]
  have hlt := a.toNat_lt
  have hlow : (0xffffffff : UInt64).toNat = 2 ^ 32 - 1 := rfl
  have hshift : (32 : UInt64).toNat % 64 = 32 := rfl
  have hhigh : a.toNat >>> 32 <<< 32 % 2 ^ 64 = 2 ^ 32 * (a.toNat / 2 ^ 32) := by
    rw [Nat.shiftRight_eq_div_pow, Nat.shiftLeft_eq, Nat.mul_comm, Nat.mod_eq_of_lt]
    omega
  rw [hlow, hshift, hhigh, Nat.and_two_pow_sub_one_eq_mod, Nat.lor_comm,
    ← Nat.two_pow_add_eq_or_of_lt (Nat.mod_lt _ (by omega))]
  exact Nat.div_add_mod a.toNat (2 ^ 32)

theorem add_sixteen_sub_eight : a + 16 + -8 = a + 8 := by
  rw [UInt64.add_assoc]
  rfl

theorem add_sixteen_sub_sixteen : a + 16 + -16 = a := by
  have hzero : (16 : UInt64) + -16 = 0 := rfl
  rw [UInt64.add_assoc, hzero, UInt64.add_zero]

theorem sub_eight_sub_eight : a - 8 - 8 = a - 16 := by
  rw [UInt64.sub_eq_add_neg, UInt64.sub_eq_add_neg, UInt64.sub_eq_add_neg, UInt64.add_assoc]
  rfl

end

/-! ## What others see -/

/-- The words of a buffer. -/
def TraceData.Word (d : TraceData) (a : UInt64) : Prop :=
  ∃ i < d.numSlots, a = d.slotAddr i ∨ a = d.slotAddr i + 8

section
variable (tpoff : UInt64)

/-- The fields of `g_thread_trace` that the hooks and those that pause a thread access. -/
def X86.State.Field (s : State) (a : UInt64) : Prop :=
  a = s.posAddr tpoff ∨ a = s.maskAddr tpoff ∨ a = s.bufSizeAddr tpoff

/-- A machine whose memory has a thread's `trace_data` and its buffer. -/
structure Sees (s : State) (tr : Tracer) : Prop where
  pos : s.mem (s.posAddr tpoff) = tr.data.pos
  mask : s.mem (s.maskAddr tpoff) = tr.data.wraparoundMask
  bufSize : s.mem (s.bufSizeAddr tpoff) = tr.data.bufSize
  words : ∀ a, tr.data.Word a → s.mem a = tr.mem a
  apart : ∀ a, s.Field tpoff a → ¬ tr.data.Word a

variable {tpoff} {s : State} {tr : Tracer}

theorem posAddr_ne_maskAddr (s : State) : s.posAddr tpoff ≠ s.maskAddr tpoff := by
  intro h
  have h : tpoff = 8 + tpoff := (UInt64.add_right_inj s.fs).1 h
  rw [UInt64.right_eq_add] at h
  exact absurd h (by decide)

theorem posAddr_ne_bufSizeAddr (s : State) : s.posAddr tpoff ≠ s.bufSizeAddr tpoff := by
  intro h
  have h : tpoff = 24 + tpoff := (UInt64.add_right_inj s.fs).1 h
  rw [UInt64.right_eq_add] at h
  exact absurd h (by decide)

theorem maskAddr_ne_bufSizeAddr (s : State) : s.maskAddr tpoff ≠ s.bufSizeAddr tpoff := by
  intro h
  have h : 8 + tpoff = 24 + tpoff := (UInt64.add_right_inj s.fs).1 h
  rw [UInt64.add_left_inj] at h
  exact absurd h (by decide)

/-- Only some words of memory matter. -/
theorem Sees.congr (h : Sees tpoff s tr) {s' : State} (hfs : s'.fs = s.fs)
    (hmem : ∀ a, s.Field tpoff a ∨ tr.data.Word a → s'.mem a = s.mem a) : Sees tpoff s' tr := by
  have hpos : s'.posAddr tpoff = s.posAddr tpoff := by rw [State.posAddr, hfs]; rfl
  have hmask : s'.maskAddr tpoff = s.maskAddr tpoff := by rw [State.maskAddr, hfs]; rfl
  have hsize : s'.bufSizeAddr tpoff = s.bufSizeAddr tpoff := by rw [State.bufSizeAddr, hfs]; rfl
  refine ⟨?_, ?_, ?_, fun a ha => ?_, fun a ha => ?_⟩
  · rw [hpos, hmem _ (Or.inl (Or.inl rfl)), h.pos]
  · rw [hmask, hmem _ (Or.inl (Or.inr (Or.inl rfl))), h.mask]
  · rw [hsize, hmem _ (Or.inl (Or.inr (Or.inr rfl))), h.bufSize]
  · rw [hmem a (Or.inr ha), h.words a ha]
  · rw [State.Field, hpos, hmask, hsize] at ha
    exact h.apart a ha

/-- Another thread writes the mask. -/
theorem Sees.setMask (h : Sees tpoff s tr) (m : UInt64) :
    Sees tpoff (s.setMem (s.maskAddr tpoff) m)
      { tr with data := { tr.data with wraparoundMask := m } } := by
  have hother {a : UInt64} (ha : a ≠ s.maskAddr tpoff) :
      (s.setMem (s.maskAddr tpoff) m).mem a = s.mem a := State.mem_setMem_of_ne ha m
  refine ⟨?_, ?_, ?_, fun a ha => ?_, h.apart⟩
  · exact (hother (posAddr_ne_maskAddr s)).trans h.pos
  · exact Function.update_self _ m s.mem
  · exact (hother (maskAddr_ne_bufSizeAddr s).symm).trans h.bufSize
  · refine (hother ?_).trans (h.words a ha)
    rintro rfl
    exact h.apart _ (Or.inr (Or.inl rfl)) ha

/-! ## The stores of a hook -/

/-- Where a store goes. -/
def TraceStore.addr (posAddr slot : UInt64) : TraceStore → UInt64
  | .func => slot
  | .cycle => slot + 8
  | .pos => posAddr

/-- What is stored. -/
def TraceStore.value (slot : UInt64) (entry : FunTraceEntry) : TraceStore → UInt64
  | .func => entry.address
  | .cycle => entry.cycle
  | .pos => slot + sizeofTraceEntry

/-- A store of the tracer and of a hook. -/
theorem Sees.store (h : Sees tpoff s tr) {slot : UInt64} (hslot : tr.data.Word slot)
    (hslot' : tr.data.Word (slot + 8)) (entry : FunTraceEntry) (st : TraceStore) (rest : List TraceStore) :
    Sees tpoff (s.setMem (st.addr (s.posAddr tpoff) slot) (st.value slot entry))
      (tr.store slot entry st rest) := by
  have hword (st : TraceStore) (hst : st ≠ .pos) (a : UInt64) (ha : s.Field tpoff a) :
      a ≠ st.addr (s.posAddr tpoff) slot := by
    rintro rfl
    cases st with
    | func => exact h.apart _ ha hslot
    | cycle => exact h.apart _ ha hslot'
    | pos => exact hst rfl
  have hother {a b v : UInt64} (hab : a ≠ b) : (s.setMem b v).mem a = s.mem a :=
    State.mem_setMem_of_ne hab v
  cases st with
  | pos =>
    refine ⟨Function.update_self _ _ s.mem, ?_, ?_, fun a ha => ?_, h.apart⟩
    · exact (hother (posAddr_ne_maskAddr s).symm).trans h.mask
    · exact (hother (posAddr_ne_bufSizeAddr s).symm).trans h.bufSize
    · refine (hother ?_).trans (h.words a ha)
      rintro rfl
      exact h.apart _ (Or.inl rfl) ha
  | func =>
    have hne := hword .func (by decide)
    refine ⟨(hother (hne _ (Or.inl rfl))).trans h.pos,
      (hother (hne _ (Or.inr (Or.inl rfl)))).trans h.mask,
      (hother (hne _ (Or.inr (Or.inr rfl)))).trans h.bufSize, fun a ha => ?_, h.apart⟩
    have hsame : (s.mem a) = tr.mem a := h.words a ha
    simp only [State.setMem, Tracer.store, TraceStore.addr, TraceStore.value, Function.update_apply, hsame]
  | cycle =>
    have hne := hword .cycle (by decide)
    refine ⟨(hother (hne _ (Or.inl rfl))).trans h.pos,
      (hother (hne _ (Or.inr (Or.inl rfl)))).trans h.mask,
      (hother (hne _ (Or.inr (Or.inr rfl)))).trans h.bufSize, fun a ha => ?_, h.apart⟩
    have hsame : (s.mem a) = tr.mem a := h.words a ha
    simp only [State.setMem, Tracer.store, TraceStore.addr, TraceStore.value, Function.update_apply, hsame]

end

/-! ## Instruction by instruction -/

namespace Hook

/-- The place of the last instruction, which returns. -/
def last : Hook → ℕ
  | .fentry => 13
  | .fexit _ => 16

/-- The place of `rdtsc` in the code of a hook. -/
def rdtscPlace : Hook → ℕ
  | .fentry => 5
  | .fexit _ => 6

/-- The instructions that do the stores of `trace`. -/
def storeAt : Hook → ℕ → Option TraceStore
  | .fentry, 8 => some .func
  | .fentry, 10 => some .cycle
  | .fentry, 11 => some .pos
  | .fexit _, 10 => some .cycle
  | .fexit _, 12 => some .func
  | .fexit _, 13 => some .pos
  | _, _ => none

end Hook

section
variable (tpoff : UInt64) (hook : Hook) (time : UInt64) (s : State)

/-- The slot that a hook writes to. -/
def slotOf : UInt64 := s.mem (s.posAddr tpoff) &&& s.mem (s.maskAddr tpoff)

/-- The entry that a hook writes. -/
def entryOf : FunTraceEntry := (hook.call (s.mem (s.regs .rsp)) time).entry

/-- What an instruction behind the test of the mask does: it changes nothing, or a word of the
    stack, or does a store of `trace`. -/
structure Effect (k : ℕ) (instr : Instr) (u u' : State) : Prop where
  code : (hook.code tpoff)[k]? = some instr
  place : u.place = .inside k
  fs : u.fs = s.fs ∧ u'.fs = s.fs
  accesses : ∀ a, instr.accesses u = some a → a = s.posAddr tpoff ∨ a = slotOf tpoff s ∨
    a = slotOf tpoff s + 8 ∨ a = s.regs .rsp ∨ a = s.regs .rsp - 8 ∨ a = s.regs .rsp - 16
  mem : match hook.storeAt k with
    | some st => u'.mem = Function.update u.mem (st.addr (s.posAddr tpoff) (slotOf tpoff s))
        (st.value (slotOf tpoff s) (entryOf hook time s))
    | none => u'.mem = u.mem ∨ k < hook.rdtscPlace ∧ ∃ v,
        u'.mem = Function.update u.mem (s.regs .rsp - 8) v ∨
          u'.mem = Function.update u.mem (s.regs .rsp - 16) v

end

/-- An instruction that does not access memory. -/
theorem Effect.of_mem_eq {tpoff : UInt64} {hook : Hook} {time : UInt64} {s u u' : State} {k : ℕ}
    {instr : Instr} (code : (hook.code tpoff)[k]? = some instr) (place : u.place = .inside k)
    (fs : u.fs = s.fs ∧ u'.fs = s.fs) (hnone : instr.accesses u = none) (hstore : hook.storeAt k = none)
    (hmem : u'.mem = u.mem) : Effect tpoff hook time s k instr u u' := by
  refine ⟨code, place, fs, fun a ha => ?_, ?_⟩
  · rw [hnone] at ha
    cases ha
  · rw [hstore]
    exact Or.inl hmem

theorem effect_fentry {tpoff : UInt64} {s : State} (hslot : slotOf tpoff s ≠ 0) (time : UInt64) {k : ℕ}
    (h2 : 2 ≤ k) (hk : k < 13) : ∃ instr, Effect tpoff .fentry time s k instr
      (straight (Hook.program tpoff .fentry) time k s)
      (straight (Hook.program tpoff .fentry) time (k + 1) s) := by
  set u := straight (Hook.program tpoff .fentry) time with hu
  interval_cases k
  · exact ⟨_, .of_mem_eq rfl rfl ⟨rfl, rfl⟩ rfl rfl rfl⟩
  · have hplace : (u 3 s).place = .inside (if slotOf tpoff s == 0 then 13 else 3) := rfl
    have haddr : s.regs .rsp + 0 = s.regs .rsp := UInt64.add_zero _
    rw [beq_eq_false_iff_ne.2 hslot] at hplace
    refine ⟨_, rfl, hplace, ⟨rfl, rfl⟩, ?_, Or.inl rfl⟩
    rintro a ⟨⟩
    exact Or.inr (Or.inr (Or.inr (Or.inl haddr)))
  · refine ⟨_, rfl, rfl, ⟨rfl, rfl⟩, ?_, Or.inr ⟨by decide, s.regs .rdx, Or.inl rfl⟩⟩
    rintro a ⟨⟩
    exact Or.inr (Or.inr (Or.inr (Or.inr (Or.inl rfl))))
  · exact ⟨_, .of_mem_eq rfl rfl ⟨rfl, rfl⟩ rfl rfl rfl⟩
  · exact ⟨_, .of_mem_eq rfl rfl ⟨rfl, rfl⟩ rfl rfl rfl⟩
  · exact ⟨_, .of_mem_eq rfl rfl ⟨rfl, rfl⟩ rfl rfl rfl⟩
  · have haddr : (u 8 s).regs .r11 + 0 = slotOf tpoff s := UInt64.add_zero _
    have hmem : (u 9 s).mem = Function.update (u 8 s).mem ((u 8 s).regs .r11 + 0) (s.mem (s.regs .rsp + 0)) :=
      rfl
    rw [haddr, UInt64.add_zero] at hmem
    refine ⟨_, rfl, rfl, ⟨rfl, rfl⟩, ?_, hmem⟩
    rintro a ⟨⟩
    exact Or.inr (Or.inl haddr)
  · exact ⟨_, .of_mem_eq rfl rfl ⟨rfl, rfl⟩ rfl rfl rfl⟩
  · have haddr : (u 10 s).regs .r11 + -8 = slotOf tpoff s + 8 := add_sixteen_sub_eight _
    have hrax : (u 10 s).regs .rax = time := or_halves time
    have hmem := congrArg State.mem
      (straight_succ (Hook.program tpoff .fentry) time s (k := 10) rfl)
    rw [mem_exec_store, addr_base, ← hu, haddr, hrax] at hmem
    refine ⟨_, rfl, rfl, ⟨rfl, rfl⟩, fun a ha => ?_, hmem⟩
    have ha : (u 10 s).regs .r11 + -8 = a := Option.some.inj ha
    exact Or.inr (Or.inr (Or.inl (ha.symm.trans haddr)))
  · have haddr : Operand.addr (u 11 s) (.fs tpoff) = s.posAddr tpoff := rfl
    have hr11 : (u 11 s).regs .r11 = slotOf tpoff s + sizeofTraceEntry := rfl
    have hmem := congrArg State.mem
      (straight_succ (Hook.program tpoff .fentry) time s (k := 11) rfl)
    rw [mem_exec_store, ← hu, haddr, hr11] at hmem
    refine ⟨_, rfl, rfl, ⟨rfl, rfl⟩, fun a ha => ?_, hmem⟩
    exact Or.inl (Option.some.inj ha).symm
  · refine ⟨_, rfl, rfl, ⟨rfl, rfl⟩, ?_, Or.inl rfl⟩
    rintro a ⟨⟩
    exact Or.inr (Or.inr (Or.inr (Or.inr (Or.inl rfl))))

theorem effect_fexit {tpoff : UInt64} {s : State} (hslot : slotOf tpoff s ≠ 0) (clang : Bool)
    (time : UInt64) {k : ℕ} (h2 : 2 ≤ k) (hk : k < 16) :
    ∃ instr, Effect tpoff (.fexit clang) time s k instr
      (straight (Hook.program tpoff (.fexit clang)) time k s)
      (straight (Hook.program tpoff (.fexit clang)) time (k + 1) s) := by
  set u := straight (Hook.program tpoff (.fexit clang)) time with hu
  interval_cases k
  · exact ⟨_, .of_mem_eq rfl rfl ⟨rfl, rfl⟩ rfl rfl rfl⟩
  · have hplace : (u 3 s).place = .inside (if slotOf tpoff s == 0 then 16 else 3) := rfl
    have haddr : s.regs .rsp + 0 = s.regs .rsp := UInt64.add_zero _
    rw [beq_eq_false_iff_ne.2 hslot] at hplace
    refine ⟨_, rfl, hplace, ⟨rfl, rfl⟩, ?_, Or.inl rfl⟩
    rintro a ⟨⟩
    exact Or.inr (Or.inr (Or.inr (Or.inl haddr)))
  · refine ⟨_, rfl, rfl, ⟨rfl, rfl⟩, ?_, Or.inr ⟨show 4 < 6 by decide, s.regs .rdx, Or.inl rfl⟩⟩
    rintro a ⟨⟩
    exact Or.inr (Or.inr (Or.inr (Or.inr (Or.inl rfl))))
  · have haddr := sub_eight_sub_eight (s.regs .rsp)
    have hmem : (u 6 s).mem = Function.update (u 5 s).mem (s.regs .rsp - 8 - 8) (s.regs .rax) := rfl
    rw [haddr] at hmem
    refine ⟨_, rfl, rfl, ⟨rfl, rfl⟩, ?_, Or.inr ⟨show 5 < 6 by decide, s.regs .rax, Or.inr hmem⟩⟩
    rintro a ⟨⟩
    exact Or.inr (Or.inr (Or.inr (Or.inr (Or.inr haddr))))
  · exact ⟨_, .of_mem_eq rfl rfl ⟨rfl, rfl⟩ rfl rfl rfl⟩
  · exact ⟨_, .of_mem_eq rfl rfl ⟨rfl, rfl⟩ rfl rfl rfl⟩
  · exact ⟨_, .of_mem_eq rfl rfl ⟨rfl, rfl⟩ rfl rfl rfl⟩
  · exact ⟨_, .of_mem_eq rfl rfl ⟨rfl, rfl⟩ rfl rfl rfl⟩
  · have hrax : (u 10 s).regs .rax = time := or_halves time
    have haddr : (u 10 s).regs .r11 + 8 = slotOf tpoff s + 8 := rfl
    have hmem := congrArg State.mem
      (straight_succ (Hook.program tpoff (.fexit clang)) time s (k := 10) rfl)
    rw [mem_exec_store, addr_base, ← hu, haddr, hrax] at hmem
    refine ⟨_, rfl, rfl, ⟨rfl, rfl⟩, ?_, hmem⟩
    rintro a ⟨⟩
    exact Or.inr (Or.inr (Or.inl rfl))
  · exact ⟨_, .of_mem_eq rfl rfl ⟨rfl, rfl⟩ rfl rfl rfl⟩
  · have haddr : (u 12 s).regs .r11 + -16 = slotOf tpoff s := add_sixteen_sub_sixteen _
    have hr10 : (u 12 s).regs .r10 = (entryOf (.fexit clang) time s).address := by
      have hload : (u 12 s).regs .r10 = s.mem (s.regs .rsp + 0) ||| 1 <<< funtraceReturnBit clang := rfl
      rw [hload, UInt64.add_zero]
      cases clang <;> rfl
    have hmem := congrArg State.mem
      (straight_succ (Hook.program tpoff (.fexit clang)) time s (k := 12) rfl)
    rw [mem_exec_store, addr_base, ← hu, haddr, hr10] at hmem
    refine ⟨_, rfl, rfl, ⟨rfl, rfl⟩, fun a ha => ?_, hmem⟩
    have ha : (u 12 s).regs .r11 + -16 = a := Option.some.inj ha
    exact Or.inr (Or.inl (ha.symm.trans haddr))
  · have haddr : Operand.addr (u 13 s) (.fs tpoff) = s.posAddr tpoff := rfl
    have hr11 : (u 13 s).regs .r11 = slotOf tpoff s + sizeofTraceEntry := rfl
    have hmem := congrArg State.mem
      (straight_succ (Hook.program tpoff (.fexit clang)) time s (k := 13) rfl)
    rw [mem_exec_store, ← hu, haddr, hr11] at hmem
    refine ⟨_, rfl, rfl, ⟨rfl, rfl⟩, fun a ha => ?_, hmem⟩
    exact Or.inl (Option.some.inj ha).symm
  · have haddr := sub_eight_sub_eight (s.regs .rsp)
    have hmem := congrArg State.mem
      (straight_succ (Hook.program tpoff (.fexit clang)) time s (k := 14) rfl)
    rw [mem_exec_pop, ← hu] at hmem
    refine ⟨_, rfl, rfl, ⟨rfl, rfl⟩, ?_, Or.inl hmem⟩
    rintro a ⟨⟩
    exact Or.inr (Or.inr (Or.inr (Or.inr (Or.inr haddr))))
  · have haddr : s.regs .rsp - 8 - 8 + 8 = s.regs .rsp - 8 := UInt64.sub_add_cancel _ _
    have hmem := congrArg State.mem
      (straight_succ (Hook.program tpoff (.fexit clang)) time s (k := 15) rfl)
    rw [mem_exec_pop, ← hu] at hmem
    refine ⟨_, rfl, rfl, ⟨rfl, rfl⟩, ?_, Or.inl hmem⟩
    rintro a ⟨⟩
    exact Or.inr (Or.inr (Or.inr (Or.inr (Or.inl haddr))))

/-- **Every instruction** behind the test of the mask, up to the last one. -/
theorem effect {tpoff : UInt64} {hook : Hook} {s : State} (hslot : slotOf tpoff s ≠ 0) (time : UInt64)
    {k : ℕ} (h2 : 2 ≤ k) (hk : k < hook.last) : ∃ instr, Effect tpoff hook time s k instr
      (straight (hook.program tpoff) time k s) (straight (hook.program tpoff) time (k + 1) s) := by
  cases hook with
  | fentry => exact effect_fentry hslot time h2 hk
  | fexit clang => exact effect_fexit hslot clang time h2 hk

end Funtrace
