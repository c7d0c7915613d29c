/-
  The hooks in assembly do what `trace` does.

  Every instruction of a hook takes a thread to its next place in the hook, with a tracer
  there, or back to the program (`Inside.exec`).  So a tracer follows every run of an
  instrumented program (`hooks_trace`), and a hook changes nothing that the program could
  see but its scratch registers (`hook_transparent`).
-/
import Funtrace.Proof.Hooks

namespace Funtrace
open X86

/-! ## Steps of a hook -/

section
variable {tpoff : UInt64} {start : Tracer} {L : ℕ} {init : List FunTraceEntry} {hne : init ≠ []}
  {mem₀ : Memory} {hook : Hook} {s₀ s s' : State} {k : ℕ} {t t' : Thread} {m time : UInt64}

theorem Thread.step_exec (hhook : t.hook = some hook) (hplace : t.state.place = .inside k)
    (hstep : X86.step (hook.program tpoff) t.state (.exec time) = some s') :
    t.step tpoff (.exec time) = some
      { state := s'
        hook :=
          match s'.place with
          | .returned _ => none
          | .inside _ | .called .. => some hook
        log :=
          if (hook.code tpoff)[k]? = some .rdtsc then t.log ++ [hook.call (t.state.regs .r10) time]
          else t.log } := by
  have hexec : t.step tpoff (.exec time) = t.execHook tpoff hook time := by
    simp only [Thread.step, hhook]
  rewrite [hexec, Thread.execHook, hstep, Option.map_some, hplace]
  rfl

/-- The address that a hook traces. -/
theorem r10_straight (time : UInt64) (s : State) :
    (straight (hook.program tpoff) time hook.rdtscPlace s).regs .r10 = s.mem (s.regs .rsp) := by
  have hadd : s.mem (s.regs .rsp + 0) = s.mem (s.regs .rsp) := by rw [UInt64.add_zero]
  cases hook <;> exact hadd

theorem place_straight {d : TraceData} (hroom : Room tpoff d s) (hslot : slotOf tpoff s ≠ 0) (h2 : 2 ≤ k)
    (hk : k ≤ hook.last) : (straight (hook.program tpoff) time k s).place = .inside k := by
  rcases Nat.lt_or_eq_of_le hk with hlt | rfl
  · obtain ⟨instr, heffect⟩ := effect hslot time h2 hlt
    exact heffect.place
  · exact (balanced_straight hroom hslot).place

theorem After.self (hook : Hook) (s : State) (time : UInt64) (k : ℕ) :
    After tpoff hook s time k (straight (hook.program tpoff) time k s) := by
  refine ⟨(straight (hook.program tpoff) time k s).mem (s.maskAddr tpoff), ?_⟩
  simp only [State.setMem, Function.update_eq_self]

variable (tpoff start L hne mem₀ hook s₀ k t') in
/-- After a step of a hook that has taken `k` before. -/
inductive Next : Prop where
  | inside (hook_eq : t'.hook = some hook) (lt : k < hook.last)
    (inside : Inside tpoff start L hne mem₀ hook s₀ (k + 1) t')
  | returned (hook_eq : t'.hook = none) (returned : Returned tpoff start.data hook s₀ t'.state)
    (fs : t'.state.fs = s₀.fs) (tr : Tracer) (r : Recorder)
    (idle : Idle tpoff start L hne mem₀ t'.state t'.log tr r)

/-- The last instruction. -/
theorem Next.of_balanced {tr : Tracer} {r : Recorder} (hhook : t.hook = some hook)
    (hstack : HasRoom tpoff start.data s₀) (hbalanced : Balanced tpoff start.data hook s₀ t.state)
    (hidle : Idle tpoff start L hne mem₀ t.state t.log tr r) :
    ∃ t', t.step tpoff (.exec time) = some t' ∧ Next tpoff start L hne mem₀ hook s₀ k t' := by
  obtain ⟨s', hstep, hreturned, hfs, hmem⟩ := hbalanced.ret hstack time
  have hlast : ¬ (hook.code tpoff)[hook.last]? = some .rdtsc := by
    cases hook <;> exact fun h => Instr.noConfusion (Option.some.inj h)
  refine ⟨_, Thread.step_exec hhook hbalanced.place hstep, ?_⟩
  rw [if_neg hlast, hreturned.place]
  exact .returned rfl hreturned (hfs.trans hbalanced.fs) tr r (hidle.congr hfs fun a _ => by rw [hmem])

/-- The first two instructions. -/
theorem Next.of_first {tr : Tracer} {r : Recorder} (hhook : t.hook = some hook)
    (hplace : s₀.place = .inside 0) (hstack : HasRoom tpoff start.data s₀) (hk : k < 2)
    (hstate : t.state = straight (hook.program tpoff) 0 k (masked tpoff s₀ m))
    (hidle : Idle tpoff start L hne mem₀ t.state t.log tr r) :
    ∃ t', t.step tpoff (.exec time) = some t' ∧ Next tpoff start L hne mem₀ hook s₀ k t' := by
  set s₁ := masked tpoff s₀ m with hs₁
  have hplace₁ : s₁.place = .inside 0 := hplace
  have hstack₁ : HasRoom tpoff start.data s₁ := hstack
  have hlast : k < hook.last := hk.trans_le (by cases hook <;> exact Nat.le_add_left 2 _)
  obtain ⟨instr, hcode, hrdtsc, hplace', hplace'', hmem, hmem'⟩ : ∃ instr,
      (hook.program tpoff).code[k]? = some instr ∧ instr ≠ .rdtsc ∧
        (straight (hook.program tpoff) 0 k s₁).place = .inside k ∧
        (straight (hook.program tpoff) 0 (k + 1) s₁).place = .inside (k + 1) ∧
        (straight (hook.program tpoff) 0 k s₁).mem = s₁.mem ∧
        (straight (hook.program tpoff) 0 (k + 1) s₁).mem = s₁.mem := by
    interval_cases k
    · refine ⟨.load (.fs tpoff) .r11, ?_, Instr.noConfusion, hplace₁, ?_, rfl, ?_⟩ <;> cases hook <;> rfl
    · refine ⟨.andLoad (.fs (8 + tpoff)) .r11, ?_, Instr.noConfusion, ?_, ?_, ?_, ?_⟩ <;>
        cases hook <;> rfl
  have hcode' : ¬ (hook.code tpoff)[k]? = some .rdtsc := fun h =>
    hrdtsc (Option.some.inj (hcode.symm.trans h))
  have hstep : X86.step (hook.program tpoff) t.state (.exec time) =
      some (straight (hook.program tpoff) 0 (k + 1) s₁) := by
    rw [hstate, step_time hplace' hcode hrdtsc time 0, step_straight_self hplace' hcode]
  have hidle₁ : Idle tpoff start L hne mem₀ s₁ t.log tr r := by
    refine hidle.congr ?_ fun a _ => ?_
    · rw [hstate, fs_straight]
    · rw [hstate, hmem]
  have hidle' : Idle tpoff start L hne mem₀ (straight (hook.program tpoff) 0 (k + 1) s₁) t.log tr r :=
    hidle₁.congr (fs_straight _) fun a _ => by rw [hmem']
  refine ⟨_, Thread.step_exec hhook (hstate ▸ hplace') hstep, ?_⟩
  rw [if_neg hcode', hplace'']
  refine .inside rfl hlast ?_
  rcases Nat.lt_or_eq_of_le (Nat.le_of_lt_succ hk) with hlt | rfl
  · exact .first m tr r (by omega) rfl hidle'
  · by_cases hslot : slotOf tpoff s₁ = 0
    · exact .off m tr r le_rfl (by omega) hslot (After.self hook s₁ 0 2) hidle'
    · have hpre : 2 ≤ hook.rdtscPlace := by cases hook <;> exact Nat.le_add_left 2 _
      obtain ⟨hroom, -⟩ := hidle₁.enter hslot hook 0 hstack₁
      have hsame (time : UInt64) : straight (hook.program tpoff) 0 2 s₁ =
          straight (hook.program tpoff) time 2 s₁ := by
        cases hook <;> rfl
      refine .on m t.log Set.univ le_rfl hlast hslot hroom Set.univ_nonempty (fun _ => rfl)
        (fun time _ => ?_) (fun time _ => ?_) fun time _ => ?_
      · rw [if_pos hpre, List.append_nil]
      · rw [hsame time]
        exact After.self hook s₁ time 2
      · obtain ⟨-, tr', r', hbusy⟩ := hidle₁.enter hslot hook time hstack₁
        exact ⟨tr', r', hbusy.congr (fs_straight _) fun a _ => by rw [hmem']⟩

/-- The part that does not trace: a jump to the last instruction. -/
theorem Next.of_off {tr : Tracer} {r : Recorder} (hhook : t.hook = some hook)
    (hstack : HasRoom tpoff start.data s₀) (h2 : 2 ≤ k) (h3 : k ≤ 3)
    (hslot : slotOf tpoff (masked tpoff s₀ m) = 0)
    (hstate : After tpoff hook (masked tpoff s₀ m) 0 k t.state)
    (hidle : Idle tpoff start L hne mem₀ t.state t.log tr r) :
    ∃ t', t.step tpoff (.exec time) = some t' ∧ Next tpoff start L hne mem₀ hook s₀ k t' := by
  set s₁ := masked tpoff s₀ m with hs₁
  obtain ⟨m', hstate⟩ := hstate
  rcases Nat.lt_or_eq_of_le h3 with hlt | rfl
  · obtain rfl : k = 2 := by omega
    have hcode : (hook.program tpoff).code[2]? = some (.je hook.last) := by cases hook <;> rfl
    have hcode' : ¬ (hook.code tpoff)[2]? = some .rdtsc := fun h =>
      Instr.noConfusion (Option.some.inj (hcode.symm.trans h))
    have hplace : (straight (hook.program tpoff) 0 2 s₁).place = .inside 2 := by cases hook <;> rfl
    have hplace' : t.state.place = .inside 2 := by rw [hstate]; exact hplace
    have haccess : (Instr.je hook.last).accesses (straight (hook.program tpoff) 0 2 s₁) ≠
        some (s₁.maskAddr tpoff) := Option.some_ne_none _ |>.symm
    have hmem : (straight (hook.program tpoff) 0 3 s₁).mem =
        (straight (hook.program tpoff) 0 2 s₁).mem := by
      cases hook <;> rfl
    have hstep : X86.step (hook.program tpoff) t.state (.exec time) =
        some ((straight (hook.program tpoff) 0 3 s₁).setMem (s₁.maskAddr tpoff) m') := by
      rw [step_time hplace' hcode Instr.noConfusion time 0, hstate, step_straight hplace hcode haccess]
    have hlast : ((straight (hook.program tpoff) 0 3 s₁).setMem (s₁.maskAddr tpoff) m').place =
        .inside hook.last := (balanced_off (d := start.data) hslot).place
    have hidle' : Idle tpoff start L hne mem₀
        ((straight (hook.program tpoff) 0 3 s₁).setMem (s₁.maskAddr tpoff) m') t.log tr r := by
      refine hidle.congr ?_ fun a _ => ?_
      · rw [hstate]
        exact (fs_straight 3).trans (fs_straight 2).symm
      · rw [hstate]
        simp only [State.setMem, hmem]
    refine ⟨_, Thread.step_exec hhook hplace' hstep, ?_⟩
    rw [if_neg hcode', hlast]
    exact .inside rfl (by cases hook <;> exact Nat.le_add_left 3 _)
      (.off m tr r (by omega) le_rfl hslot ⟨m', rfl⟩ hidle')
  · have hbalanced : Balanced tpoff start.data hook (masked tpoff s₀ m)
        (straight (hook.program tpoff) 0 3 (masked tpoff s₀ m)) := balanced_off hslot
    exact Next.of_balanced hhook hstack (hstate ▸ hbalanced.of_masked m') hidle

/-- **The part that traces.**  Once `rdtsc` has given a time, this is the tracer's. -/
theorem Next.of_on {log : List TraceCall} {times : Set UInt64} (hhook : t.hook = some hook)
    (hstack : HasRoom tpoff start.data s₀) (h2 : 2 ≤ k) (hk : k ≤ hook.last)
    (hslot : slotOf tpoff (masked tpoff s₀ m) ≠ 0) (hroom : Room tpoff start.data (masked tpoff s₀ m))
    (hsome : times.Nonempty) (hall : k ≤ hook.rdtscPlace → times = Set.univ)
    (hlogged : ∀ time ∈ times, t.log = log ++ if k ≤ hook.rdtscPlace then [] else
      [hook.call ((masked tpoff s₀ m).mem (s₀.regs .rsp)) time])
    (hstate : ∀ time ∈ times, After tpoff hook (masked tpoff s₀ m) time k t.state)
    (hbusy : ∀ time ∈ times, ∃ tr r,
      Busy tpoff start L hne mem₀ hook (masked tpoff s₀ m) log time k t.state tr r) (time : UInt64) :
    ∃ t', t.step tpoff (.exec time) = some t' ∧ Next tpoff start L hne mem₀ hook s₀ k t' := by
  set s₁ := masked tpoff s₀ m with hs₁
  have hpre : hook.rdtscPlace < hook.last := by cases hook <;> exact Nat.lt_of_sub_eq_succ rfl
  rcases Nat.lt_or_eq_of_le hk with hlt | rfl
  · -- the times that are left after this step
    set times' : Set UInt64 := if k = hook.rdtscPlace then {time} else times with htimes'
    have hsub : ∀ time' ∈ times', time' ∈ times ∧ (time = time' ∨ k ≠ hook.rdtscPlace) := by
      intro time' htime'
      rw [htimes'] at htime'
      split_ifs at htime' with heq
      · exact ⟨hall heq.le ▸ Set.mem_univ _, Or.inl (Set.mem_singleton_iff.1 htime').symm⟩
      · exact ⟨htime', Or.inr heq⟩
    have hsome' : times'.Nonempty := by
      rw [htimes']
      split_ifs
      · exact Set.singleton_nonempty time
      · exact hsome
    obtain ⟨time₁, htime₁⟩ := hsome'
    obtain ⟨htime₁', hor₁⟩ := hsub time₁ htime₁
    obtain ⟨s', instr, hstep, hplace, hcode, hplace', hafter, hmoves⟩ :=
      (hstate time₁ htime₁').step hroom hslot h2 hlt hor₁
    refine ⟨_, Thread.step_exec hhook hplace hstep, ?_⟩
    rw [hplace', place_straight hroom hslot (by omega) hlt]
    have hevery (time' : UInt64) (htime' : time' ∈ times') :
        After tpoff hook s₁ time' (k + 1) s' ∧ Moves tpoff start.data hook s₁ time' k t.state s' := by
      obtain ⟨hmem, hor⟩ := hsub time' htime'
      obtain ⟨s'', -, hstep', -, -, -, hafter', hmoves'⟩ :=
        (hstate time' hmem).step hroom hslot h2 hlt hor
      obtain rfl := Option.some.inj (hstep.symm.trans hstep')
      exact ⟨hafter', hmoves'⟩
    refine .inside rfl hlt (.on m log times' (by omega) hlt hslot hroom ⟨time₁, htime₁⟩ ?_ ?_
      (fun time' htime' => (hevery time' htime').1) fun time' htime' => ?_)
    · intro hle
      rw [htimes', if_neg (by omega), hall (by omega)]
    · intro time' htime'
      have hold := hlogged time' (hsub time' htime').1
      rcases Nat.lt_trichotomy k hook.rdtscPlace with hbefore | heq | hbehind
      · have hcode' : ¬ (hook.code tpoff)[k]? = some .rdtsc := fun h => by
          have := Hook.eq_rdtscPlace h
          omega
        have hbefore' : k + 1 ≤ hook.rdtscPlace := hbefore
        rw [if_pos hbefore.le, List.append_nil] at hold
        rw [if_neg hcode', if_pos hbefore', List.append_nil, hold]
      · have hcode' : (hook.code tpoff)[k]? = some .rdtsc := by
          rw [heq]
          cases hook <;> rfl
        obtain rfl : time = time' := by
          rw [htimes', if_pos heq] at htime'
          exact (Set.mem_singleton_iff.1 htime').symm
        have hr10 : t.state.regs .r10 = s₁.mem (s₀.regs .rsp) := by
          obtain ⟨m', hm'⟩ := hstate time (hsub time htime').1
          rw [hm', heq]
          exact r10_straight time s₁
        rw [if_pos (by omega), List.append_nil] at hold
        rw [if_pos hcode', if_neg (by omega), hold, hr10]
      · have hcode' : ¬ (hook.code tpoff)[k]? = some .rdtsc := fun h => by
          have := Hook.eq_rdtscPlace h
          omega
        rw [if_neg (by omega)] at hold
        rw [if_neg hcode', if_neg (by omega), hold]
    · obtain ⟨tr, r, hbusy⟩ := hbusy time' (hsub time' htime').1
      have hfs {k : ℕ} {s : State} (h : After tpoff hook s₁ time' k s) : s.fs = s₁.fs := by
        obtain ⟨m', rfl⟩ := h
        exact fs_straight k
      exact hbusy.step hroom hlt (hfs (hstate time' (hsub time' htime').1)) (hfs (hevery time' htime').1)
        (hevery time' htime').2
  · obtain ⟨time₁, htime₁⟩ := hsome
    obtain ⟨m', hm'⟩ := hstate time₁ htime₁
    have hbalanced : Balanced tpoff start.data hook (masked tpoff s₀ m)
        (straight (hook.program tpoff) time₁ hook.last (masked tpoff s₀ m)) := balanced_straight hroom hslot
    replace hbalanced := hbalanced.of_masked m'
    obtain ⟨tr, r, hbusy⟩ := hbusy time₁ htime₁
    have hold := hlogged time₁ htime₁
    have hpending := hbusy.pending
    have hdone := hbusy.done
    rw [hook.storesFrom_last, pendingOf, if_pos rfl] at hpending
    rw [hook.storesFrom_last, if_pos rfl] at hdone
    rw [if_neg (Nat.not_le.2 hpre)] at hold
    have hdone' : r.done = t.log.map TraceCall.entry := by
      rw [hdone, hold, List.map_append]
      rfl
    exact Next.of_balanced hhook hstack (hm' ▸ hbalanced) ⟨hbusy.reached, hbusy.sees, hpending, hdone'⟩

/-- **Every instruction of a hook.** -/
theorem Inside.exec (h : Inside tpoff start L hne mem₀ hook s₀ k t) (hhook : t.hook = some hook)
    (hplace : s₀.place = .inside 0) (hstack : HasRoom tpoff start.data s₀) (time : UInt64) :
    ∃ t', t.step tpoff (.exec time) = some t' ∧ Next tpoff start L hne mem₀ hook s₀ k t' := by
  cases h with
  | first m tr r lt state idle => exact Next.of_first hhook hplace hstack lt state idle
  | off m tr r two_le le_three slot state idle =>
    exact Next.of_off hhook hstack two_le le_three slot state idle
  | on m log times two_le le_last slot room nonempty all logged state busy =>
    exact Next.of_on hhook hstack two_le le_last slot room nonempty all logged state busy time

end

/-! ## Runs -/

section
variable {tpoff : UInt64} {start : Tracer} {L : ℕ} {init : List FunTraceEntry} {hne : init ≠ []}
  {mem₀ : Memory} {hook : Hook} {s₀ : State} {k : ℕ} {t t' : Thread} {a : ThreadAction}

variable (tpoff start L hne mem₀ t) in
/-- A thread of an instrumented program. -/
inductive Tracing : Prop where
  | program (hook_eq : t.hook = none) (tr : Tracer) (r : Recorder)
    (idle : Idle tpoff start L hne mem₀ t.state t.log tr r)
  | hook (hook : Hook) (s₀ : State) (k : ℕ) (hook_eq : t.hook = some hook)
    (place : s₀.place = .inside 0) (stack : HasRoom tpoff start.data s₀)
    (inside : Inside tpoff start L hne mem₀ hook s₀ k t)

/-- A hook begins. -/
theorem Inside.enter {tr : Tracer} {r : Recorder} (h : Idle tpoff start L hne mem₀ t.state t.log tr r)
    (hook : Hook) : Inside tpoff start L hne mem₀ hook (t.state.goto (.inside 0)) 0
      { t with state := t.state.goto (.inside 0), hook := some hook } := by
  refine .first (t.state.mem (t.state.maskAddr tpoff)) tr r Nat.zero_lt_two ?_
    (h.congr rfl fun _ _ => rfl)
  exact (masked_self (t.state.goto (.inside 0))).symm

/-- What others write. -/
theorem Thread.mask_cases (ha : a = .pause ∨ a = .resume) (hs : t.step tpoff a = some t') :
    ∃ m, (m = 0 ∨ m = ~~~t.state.mem (t.state.bufSizeAddr tpoff)) ∧
      t' = { t with state := t.state.setMem (t.state.maskAddr tpoff) m } := by
  rcases ha with rfl | rfl
  · exact ⟨0, Or.inl rfl, (Option.some.inj hs).symm⟩
  · exact ⟨_, Or.inr rfl, (Option.some.inj hs).symm⟩

theorem Tracing.setMask (h : Tracing tpoff start L hne mem₀ t) {m : UInt64}
    (hm : m = 0 ∨ m = ~~~t.state.mem (t.state.bufSizeAddr tpoff)) :
    Tracing tpoff start L hne mem₀ { t with state := t.state.setMem (t.state.maskAddr tpoff) m } := by
  cases h with
  | program hook_eq tr r idle =>
    obtain ⟨tr', r', hidle⟩ := idle.setMask hm
    exact .program hook_eq tr' r' hidle
  | hook hook s₀ k hook_eq place stack inside =>
    exact .hook hook s₀ k hook_eq place stack (inside.setMask hm)

/-- **One step** of the thread or of those that pause it. -/
theorem Tracing.step (h : Tracing tpoff start L hne mem₀ t) (hok : t.Allowed tpoff start.data a)
    (hs : t.step tpoff a = some t') : Tracing tpoff start L hne mem₀ t' := by
  cases a with
  | program s =>
    cases h with
    | program hook_eq tr r idle =>
      simp only [Thread.step, hook_eq, Option.some.injEq] at hs
      subst hs
      exact .program rfl tr r (idle.congr hok.1 hok.2)
    | hook hook s₀ k hook_eq place stack inside => simp [Thread.step, hook_eq] at hs
  | enter hook =>
    cases h with
    | program hook_eq tr r idle =>
      simp only [Thread.step, hook_eq, Option.some.injEq] at hs
      subst hs
      exact .hook hook (t.state.goto (.inside 0)) 0 rfl rfl hok (Inside.enter idle hook)
    | hook hook s₀ k hook_eq place stack inside => simp [Thread.step, hook_eq] at hs
  | exec time =>
    cases h with
    | program hook_eq tr r idle => simp [Thread.step, hook_eq] at hs
    | hook hook s₀ k hook_eq place stack inside =>
      obtain ⟨t'', ht'', hnext⟩ := inside.exec hook_eq place stack time
      obtain rfl := Option.some.inj (ht''.symm.trans hs)
      cases hnext with
      | inside hook_eq lt inside => exact .hook hook s₀ (k + 1) hook_eq place stack inside
      | returned hook_eq returned fs tr r idle => exact .program hook_eq tr r idle
  | pause =>
    obtain ⟨m, hm, rfl⟩ := Thread.mask_cases (Or.inl rfl) hs
    exact h.setMask hm
  | resume =>
    obtain ⟨m, hm, rfl⟩ := Thread.mask_cases (Or.inr rfl) hs
    exact h.setMask hm

/-- The thread sees what its tracer has done. -/
theorem Tracing.sees (h : Tracing tpoff start L hne mem₀ t) : ∃ tr r,
    Reached start L hne mem₀ tr r ∧ Sees tpoff t.state tr ∧
      (t.hook = none → tr.pending = none ∧ r.done = t.log.map TraceCall.entry) := by
  cases h with
  | program hook_eq tr r idle =>
    exact ⟨tr, r, idle.reached, idle.sees, fun _ => ⟨idle.pending, idle.done⟩⟩
  | hook hook s₀ k hook_eq place stack inside =>
    have hnot : t.hook ≠ none := by simp [hook_eq]
    cases inside with
    | first m tr r lt state idle => exact ⟨tr, r, idle.reached, idle.sees, fun h => absurd h hnot⟩
    | off m tr r two_le le_three slot state idle =>
      exact ⟨tr, r, idle.reached, idle.sees, fun h => absurd h hnot⟩
    | on m log times two_le le_last slot room nonempty all logged state busy =>
      obtain ⟨time, htime⟩ := nonempty
      obtain ⟨tr, r, hbusy⟩ := busy time htime
      exact ⟨tr, r, hbusy.reached, hbusy.sees, fun h => absurd h hnot⟩

/-- No call in the log has cycle zero. -/
def Thread.Nonzero (t : Thread) : Prop := ∀ call ∈ t.log, call.entry.cycle ≠ 0

theorem Hook.cycle_call (hook : Hook) (returnAddress cycle : UInt64) :
    (hook.call returnAddress cycle).entry.cycle = cycle := by
  cases hook <;> rfl

theorem Thread.Nonzero.step (h : t.Nonzero) (ha : ∀ time, a = .exec time → time ≠ 0)
    (hs : t.step tpoff a = some t') : t'.Nonzero := by
  cases a with
  | program s | enter hook =>
    cases hh : t.hook with
    | some hook => simp [Thread.step, hh] at hs
    | none =>
      simp only [Thread.step, hh, Option.some.injEq] at hs
      subst hs
      exact h
  | exec time =>
    cases hh : t.hook with
    | none => simp [Thread.step, hh] at hs
    | some hook =>
      simp only [Thread.step, hh, Thread.execHook, Option.map_eq_some_iff] at hs
      obtain ⟨s, -, rfl⟩ := hs
      unfold Thread.Nonzero
      dsimp only
      split
      · split_ifs
        · intro call hcall
          rcases List.mem_append.1 hcall with hcall | hcall
          · exact h call hcall
          · rw [List.mem_singleton.1 hcall, Hook.cycle_call]
            exact ha time rfl
        · exact h
      · exact h
      · exact h
  | pause =>
    obtain ⟨m, -, rfl⟩ := Thread.mask_cases (Or.inl rfl) hs
    exact h
  | resume =>
    obtain ⟨m, -, rfl⟩ := Thread.mask_cases (Or.inr rfl) hs
    exact h

variable (tpoff start L hne mem₀ hook s₀ t) in
/-- A thread that has entered a hook and made `k` steps in it. -/
inductive Entered (k : ℕ) : Prop where
  | inside (hook_eq : t.hook = some hook) (inside : Inside tpoff start L hne mem₀ hook s₀ k t)
  | returned (hook_eq : t.hook = none) (fs : t.state.fs = s₀.fs)
    (returned : Returned tpoff start.data hook s₀ t.state)

theorem Inside.le_last (h : Inside tpoff start L hne mem₀ hook s₀ k t) : k ≤ hook.last := by
  have hlast : 3 ≤ hook.last := by cases hook <;> exact Nat.le_add_left 3 _
  cases h with
  | first m tr r lt state idle => omega
  | off m tr r two_le le_three slot state idle => omega
  | on m log times two_le le_last slot room nonempty all logged state busy => exact le_last

theorem Entered.step (h : Entered tpoff start L hne mem₀ hook s₀ t k) (hplace : s₀.place = .inside 0)
    (hstack : HasRoom tpoff start.data s₀) (ha : a.inHook) (hs : t.step tpoff a = some t') :
    Entered tpoff start L hne mem₀ hook s₀ t' (if a.isExec then k + 1 else k) := by
  have hmask (ha : a = .pause ∨ a = .resume) : Entered tpoff start L hne mem₀ hook s₀ t' k := by
    obtain ⟨m, hm, rfl⟩ := Thread.mask_cases ha hs
    cases h with
    | inside hook_eq inside => exact .inside hook_eq (inside.setMask hm)
    | returned hook_eq fs returned => exact .returned hook_eq fs (returned.setMask fs m)
  cases a with
  | program s => cases ha
  | enter hook => cases ha
  | pause => exact hmask (Or.inl rfl)
  | resume => exact hmask (Or.inr rfl)
  | exec time =>
    cases h with
    | returned hook_eq fs returned => simp [Thread.step, hook_eq] at hs
    | inside hook_eq inside =>
      obtain ⟨t'', ht'', hnext⟩ := inside.exec hook_eq hplace hstack time
      obtain rfl := Option.some.inj (ht''.symm.trans hs)
      cases hnext with
      | inside hook_eq lt inside => exact .inside hook_eq inside
      | returned hook_eq returned fs tr r idle => exact .returned hook_eq fs returned

theorem Entered.run (hplace : s₀.place = .inside 0) (hstack : HasRoom tpoff start.data s₀) :
    ∀ {acts : List ThreadAction} {t t' : Thread} {k : ℕ}, Entered tpoff start L hne mem₀ hook s₀ t k →
      (∀ a ∈ acts, a.inHook) → runFrom (Thread.step tpoff) t acts = some t' →
      Entered tpoff start L hne mem₀ hook s₀ t' (k + acts.countP ThreadAction.isExec)
  | [], t, t', k, h, _, hrun => by
    obtain rfl := Option.some.inj hrun
    exact h
  | a :: acts, t, t', k, h, hacts, hrun => by
    obtain ⟨t₁, ht₁, hrun⟩ := runFrom_cons hrun
    obtain ⟨ha, hacts⟩ := List.forall_mem_cons.1 hacts
    have hrest := Entered.run hplace hstack (h.step hplace hstack ha ht₁) hacts hrun
    rw [List.countP_cons]
    split_ifs at hrest ⊢
    · rwa [Nat.add_assoc, Nat.add_comm 1] at hrest
    · exact hrest

end

/-! ## Instrumented programs -/

section
variable {posixMemalign : UInt64 → UInt64 → Option UInt64} {L : ℕ} {entries : UInt64}

theorem tracing_allocate (h : Allocates posixMemalign L entries) (h5 : 5 ≤ L) (h30 : L ≤ 30)
    (d₀ : TraceData) (defaultLogBufSize : ℕ) (mem₀ : Memory) {tpoff : UInt64} {s : State}
    (hsees : Sees tpoff s (.fresh (d₀.allocate defaultLogBufSize posixMemalign L mem₀))) :
    let start := Tracer.fresh (d₀.allocate defaultLogBufSize posixMemalign L mem₀)
    ∃ hne : start.data.slots start.mem ≠ [], ((start.data.slots start.mem).getLast hne).cycle = 0 ∧
      Tracing tpoff start L hne mem₀ ⟨s, none, []⟩ := by
  intro start
  obtain ⟨hne, hlast, hholds⟩ := holds_allocate h h5 h30 d₀ defaultLogBufSize mem₀
  exact ⟨hne, hlast, .program rfl start Recorder.init ⟨⟨⟨[], rfl⟩, hholds, rfl, rfl⟩, hsees, rfl, rfl⟩⟩

/-- A buffer of two slots for the examples, and a machine that has it: `g_thread_trace` is at 0x1000,
    and the stack at 0x2000. -/
def twoSlots : TraceData × Memory :=
  TraceData.allocate ⟨0, 0, 0, 0, 0, ⟨1, 1, Vector.replicate 16 0⟩, 0⟩ 20 (fun _ _ => some 64) 5
    fun _ => 7

/-- A thread with a buffer of two entries, about to run. -/
def machine : State where
  regs := fun r => if r = .rsp then 0x2000 else 5
  zf := false
  mem := fun a =>
    if a = 0x1000 then 64
    else if a = 0x1008 then ~~~32
    else if a = 0x1018 then 32
    else twoSlots.2 a
  fs := 0x1000
  place := .called "main" 0

theorem word_twoSlots {a : UInt64} (h : twoSlots.1.Word a) : a = 64 ∨ a = 72 ∨ a = 80 ∨ a = 88 := by
  obtain ⟨i, hi, ha⟩ := h
  have hi : i < 2 := hi
  interval_cases i
  · exact ha.imp_right fun ha => Or.inl ha
  · exact Or.inr (Or.inr ha)

theorem sees_machine : Sees 0 machine (.fresh twoSlots) := by
  refine ⟨by decide +kernel, by decide +kernel, by decide +kernel, fun a ha => ?_, fun a ha hword => ?_⟩
  · rcases word_twoSlots ha with rfl | rfl | rfl | rfl <;> rfl
  · rcases ha with rfl | rfl | rfl <;> exact absurd (word_twoSlots hword) (by decide)

theorem hasRoom_machine : HasRoom 0 twoSlots.1 machine := by
  intro a ha htraced
  have hfield (a : UInt64) (hlt : 0x1ff0 ≤ a) : ¬ Traced 0 twoSlots.1 machine a := by
    rintro ((rfl | rfl | rfl) | hword)
    · exact absurd hlt (by decide)
    · exact absurd hlt (by decide)
    · exact absurd hlt (by decide)
    · rcases word_twoSlots hword with rfl | rfl | rfl | rfl <;> exact absurd hlt (by decide)
  rcases ha with rfl | rfl | rfl <;> exact hfield _ (by decide) htraced

/-- **The hooks do what `trace` does.**  In every run of an instrumented program, whoever pauses
    and resumes its tracing, the trace data is that of a tracer, and between hooks the buffer is
    the ring of the entries for which the hooks have read a time. -/
theorem hooks_trace (h : Allocates posixMemalign L entries) (h5 : 5 ≤ L) (h30 : L ≤ 30)
    (d₀ : TraceData) (defaultLogBufSize : ℕ) (mem₀ : Memory) {tpoff : UInt64} {s : State}
    (hsees : Sees tpoff s (.fresh (d₀.allocate defaultLogBufSize posixMemalign L mem₀)))
    {acts : List ThreadAction} (htimes : ∀ time, .exec time ∈ acts → time ≠ 0)
    (hok : Along (Thread.step tpoff)
      (Thread.Allowed tpoff (d₀.allocate defaultLogBufSize posixMemalign L mem₀).1) ⟨s, none, []⟩ acts)
    {t : Thread} (hrun : runFrom (Thread.step tpoff) ⟨s, none, []⟩ acts = some t) :
    let start := Tracer.fresh (d₀.allocate defaultLogBufSize posixMemalign L mem₀)
    ∃ (steps : List TraceAction) (tr : Tracer), runFrom Tracer.step start steps = some tr ∧
      Sees tpoff t.state tr ∧ ∃ hne : start.data.slots start.mem ≠ [],
        t.hook = none → IsCyclic L hne mem₀ tr (t.log.map TraceCall.entry) := by
  intro start
  obtain ⟨hne, hlast, htracing⟩ := tracing_allocate h h5 h30 d₀ defaultLogBufSize mem₀ hsees
  have htracing := run_invariant_along (fun _ _ _ hI hok hs => Tracing.step hI hok hs) htracing hok hrun
  have htimes' : ∀ a ∈ acts, ∀ time, a = .exec time → time ≠ 0 := by
    rintro a ha time rfl
    exact htimes time ha
  have hnonzero : t.Nonzero :=
    run_invariant (fun _ _ _ hI ha hs => Thread.Nonzero.step hI ha hs) (by rintro call ⟨⟩) htimes' hrun
  obtain ⟨tr, r, hreached, hsees, hdone⟩ := htracing.sees
  obtain ⟨steps, hsteps⟩ := hreached.run
  refine ⟨steps, tr, hsteps, hsees, hne, fun hhook => ?_⟩
  obtain ⟨hpending, hdone⟩ := hdone hhook
  have hcurrent : r.current = none := by rw [hreached.holds.current, hpending]; rfl
  have htraced : r.traced = t.log.map TraceCall.entry := by simp only [Recorder.traced, hcurrent, hdone]
  rw [← htraced]
  refine hreached.holds.isCyclic ⟨fun e he => ?_, by simp [hcurrent]⟩ hlast
  rw [hdone] at he
  obtain ⟨call, hcall, rfl⟩ := List.mem_map.1 he
  exact hnonzero call hcall

/-- A hook that is paused before it reads the time. -/
theorem hooks_trace_demo :
    let times := List.replicate 5 (ThreadAction.exec 8)
    let acts := .enter .fentry ::
      (times ++ .pause :: .exec 9 :: times ++ [.exec 8, .resume, .exec 8, .exec 8])
    ∃ t, runFrom (Thread.step 0) ⟨machine, none, []⟩ acts = some t ∧
      ∃ (steps : List TraceAction) (tr : Tracer), runFrom Tracer.step (.fresh twoSlots) steps = some tr ∧
        Sees 0 t.state tr ∧ ∃ hne : twoSlots.1.slots twoSlots.2 ≠ [],
          t.hook = none → IsCyclic 5 hne (fun _ => 7) tr (t.log.map TraceCall.entry) := by
  intro times acts
  have hsome : (runFrom (Thread.step 0) ⟨machine, none, []⟩ acts).isSome := by decide +kernel
  obtain ⟨t, ht⟩ := Option.isSome_iff_exists.1 hsome
  have halloc : Allocates (fun _ _ => some 64) 5 64 := ⟨rfl, by decide, by decide⟩
  have htimes : ∀ time, .exec time ∈ acts → time ≠ 0 := by
    rintro time htime rfl
    simp [acts, times] at htime
  have hok : Along (Thread.step 0) (Thread.Allowed 0 twoSlots.1) ⟨machine, none, []⟩ acts := by
    refine ⟨hasRoom_machine, along_of_forall fun s a ha => ?_⟩
    have hall : ∀ a ∈ times ++ .pause :: .exec 9 :: times ++ [.exec 8, .resume, .exec 8, .exec 8],
        a.inHook := by decide
    have hin := hall a ha
    cases a with
    | program s => cases hin
    | enter hook => cases hin
    | exec time => trivial
    | pause => trivial
    | resume => trivial
  exact ⟨t, ht, hooks_trace halloc le_rfl (by decide) _ 20 _ sees_machine htimes hok ht⟩

/-- **A hook is transparent.**  It returns to where it was called from with the same registers but
    for its scratch registers, and with the same memory but for the trace data and what is below
    the stack, whoever pauses and resumes the thread meanwhile; and it does so within its length. -/
theorem hook_transparent (h : Allocates posixMemalign L entries) (h5 : 5 ≤ L) (h30 : L ≤ 30)
    (d₀ : TraceData) (defaultLogBufSize : ℕ) (mem₀ : Memory) {tpoff : UInt64} {s : State}
    (hsees : Sees tpoff s (.fresh (d₀.allocate defaultLogBufSize posixMemalign L mem₀)))
    {acts : List ThreadAction}
    (hok : Along (Thread.step tpoff)
      (Thread.Allowed tpoff (d₀.allocate defaultLogBufSize posixMemalign L mem₀).1) ⟨s, none, []⟩ acts)
    {t : Thread} (hrun : runFrom (Thread.step tpoff) ⟨s, none, []⟩ acts = some t)
    (hstack : HasRoom tpoff (d₀.allocate defaultLogBufSize posixMemalign L mem₀).1 t.state) {hook : Hook}
    {acts' : List ThreadAction} (hacts' : ∀ a ∈ acts', a.inHook) {t' : Thread}
    (hrun' : runFrom (Thread.step tpoff) t (.enter hook :: acts') = some t') :
    match t'.hook with
    | none => Returned tpoff (d₀.allocate defaultLogBufSize posixMemalign L mem₀).1 hook t.state t'.state
    | some hook' => hook' = hook ∧ acts'.countP ThreadAction.isExec ≤ hook.last ∧
        ∀ time, (t'.step tpoff (.exec time)).isSome := by
  obtain ⟨hne, hlast, htracing⟩ := tracing_allocate h h5 h30 d₀ defaultLogBufSize mem₀ hsees
  have htracing := run_invariant_along (fun _ _ _ hI hok hs => Tracing.step hI hok hs) htracing hok hrun
  obtain ⟨t₁, ht₁, hrun'⟩ := runFrom_cons hrun'
  cases htracing with
  | hook hook s₀ k hook_eq place stack inside => simp [Thread.step, hook_eq] at ht₁
  | program hook_eq tr r idle =>
    simp only [Thread.step, hook_eq, Option.some.injEq] at ht₁
    subst ht₁
    have hplace : (t.state.goto (.inside 0)).place = .inside 0 := rfl
    have hentered := Entered.run hplace hstack (.inside rfl (Inside.enter idle hook)) hacts' hrun'
    rw [Nat.zero_add] at hentered
    cases hentered with
    | returned hook_eq fs returned =>
      rw [hook_eq]
      exact ⟨returned.place, returned.rsp, returned.regs, returned.mem⟩
    | inside hook_eq inside =>
      rw [hook_eq]
      refine ⟨rfl, inside.le_last, fun time => ?_⟩
      obtain ⟨t'', ht'', -⟩ := inside.exec hook_eq rfl hstack time
      rw [ht'']
      rfl

/-- A hook that is paused in between. -/
theorem hook_transparent_demo :
    let times := List.replicate 8 (ThreadAction.exec 8)
    ∃ t', runFrom (Thread.step 0) ⟨machine, none, []⟩
        (.enter (.fexit true) :: (times ++ .pause :: times ++ [.resume, .exec 8])) = some t' ∧
      t'.hook = none ∧ Returned 0 twoSlots.1 (.fexit true) machine t'.state := by
  intro times
  have hsome : ((runFrom (Thread.step 0) ⟨machine, none, []⟩
      (.enter (.fexit true) :: (times ++ .pause :: times ++ [.resume, .exec 8]))).any fun t =>
        t.hook.isNone) := by decide +kernel
  obtain ⟨t', ht', hnone⟩ := (Option.any_eq_true _ _).1 hsome
  have hnone : t'.hook = none := Option.isNone_iff_eq_none.1 hnone
  have halloc : Allocates (fun _ _ => some 64) 5 64 := ⟨rfl, by decide, by decide⟩
  have hok : Along (Thread.step 0) (Thread.Allowed 0 twoSlots.1) ⟨machine, none, []⟩ [] := trivial
  have hreturned := hook_transparent halloc le_rfl (by decide) _ 20 _ sees_machine hok rfl hasRoom_machine
    (by decide) ht'
  rw [hnone] at hreturned
  exact ⟨t', ht', hnone, hreturned⟩

end

end Funtrace
