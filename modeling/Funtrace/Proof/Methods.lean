/-
  The two kinds of returns: an address in the returning function, or one in its caller.

  Some functions are traced and some are not.  The same run is logged either way, and
  decoded.  A return with the caller's address pops the top frame and looks for the
  caller on the stack: if that is traced it is on top, and if it is not no frame has its
  name.  So both logs make the decoder do the same (`agree_run`), but for thunks: an
  entry is ignored by its own address, which is the caller's thunk in one log and the
  returning one in the other (`Consistent`).
-/
import Mathlib.Tactic.Positivity
import Mathlib.Tactic.NormNum
import Funtrace.Proof.RealRun
import Funtrace.Proof.Caches
import Funtrace.Viz.Events

namespace Funtrace

/-- Where the address of a return lies. -/
inductive Method where
  | callee
  | caller

/-- What happens in a thread some of whose functions are traced; a return has what is logged by
    either method. -/
inductive MixedEvent (F : Type) where
  | call (func : F) (entry : FunTraceEntry)
  | ret (callee caller : FunTraceEntry)

section
variable {F : Type} (traced : F → Bool)

/-- The functions that are open, the innermost first. -/
def MixedEvent.effect : MixedEvent F → List F → List F
  | .call f _, S => f :: S
  | .ret _ _, S => S.tail

/-- The entry of the function that this method instruments. -/
def Method.pick : Method → FunTraceEntry → FunTraceEntry → FunTraceEntry
  | .callee, e, _ => e
  | .caller, _, e => e

/-- What an event logs: the calls and returns of traced functions. -/
def MixedEvent.logged (m : Method) : MixedEvent F → List F → List FunTraceEntry
  | .call f e, _ => if traced f then [e] else []
  | .ret callee caller, S => if S.head?.any traced then [m.pick callee caller] else []

/-- The entries that a run leaves. -/
def mixedLog (m : Method) : List (MixedEvent F) → List F → List FunTraceEntry
  | [], _ => []
  | ev :: evs, S => ev.logged traced m S ++ mixedLog m evs (ev.effect S)

variable (sym : UInt64 → SymInfo) (name : F → String)

/-- An event fits the functions that are open: what is logged has an address in the function, or in
    its immediate caller. -/
def MixedEvent.Legal : MixedEvent F → List F → Prop
  | .call f e, _ => traced f → e.isCall ∧ nameOf sym e = name f
  | .ret callee caller, S => ∃ f g S', S = f :: g :: S' ∧ (traced f →
      (callee.isRet ∧ callee.isRetWithCallerAddr = false ∧ nameOf sym callee = name f) ∧
      (caller.isRet ∧ caller.isRetWithCallerAddr = true ∧ nameOf sym caller = name g) ∧
      caller.cycle = callee.cycle)

/-- Each event is legal where it happens. -/
def LegalMixed : List (MixedEvent F) → List F → Prop
  | [], _ => True
  | ev :: evs, S => ev.Legal traced sym name S ∧ LegalMixed evs (ev.effect S)

/-- If one of a traced function that returns and its caller is a thunk, both are. -/
def MixedEvent.Fair : MixedEvent F → List F → Prop
  | .call _ _, _ => True
  | .ret _ _, S => ∀ f g S', S = f :: g :: S' → traced f → isThunk (name f) = isThunk (name g)

/-- Each event is fair where it happens. -/
def Consistent : List (MixedEvent F) → List F → Prop
  | [], _ => True
  | ev :: evs, S => ev.Fair traced name S ∧ Consistent evs (ev.effect S)

/-- Is a function on the decoder's stack while it is open? -/
def shown (f : F) : Bool := traced f && !isThunk (name f)

/-- The decoder's stack has the functions that are shown. -/
def Shows (stack : List FunTraceEntry) (S : List F) : Prop :=
  stack.map (nameOf sym) = (S.filter (shown traced name)).map name

/-- The entries that the decoder does not ignore. -/
def heeded (e : FunTraceEntry) : Bool := !isThunk (nameOf sym e)

variable {traced sym name} {earliest : UInt64} {d : Dec} {S : List F} {ev : MixedEvent F}

/-! ## One event -/

theorem Shows.push {e : FunTraceEntry} {f : F} (h : Shows traced sym name d.stack S)
    (hname : nameOf sym e = name f) (hf : shown traced name f = true) :
    Shows traced sym name (e :: d.stack) (f :: S) := by
  unfold Shows at h ⊢
  rw [List.map_cons, List.filter_cons_of_pos hf, List.map_cons, h, hname]

theorem Shows.skip {stack : List FunTraceEntry} {f : F} (hf : shown traced name f = false) :
    Shows traced sym name stack (f :: S) ↔ Shows traced sym name stack S := by
  unfold Shows
  rw [List.filter_cons_of_neg (by simp [hf])]

/-- A function that is shown is on top. -/
theorem Shows.top {stack : List FunTraceEntry} {f : F} (h : Shows traced sym name stack (f :: S))
    (hf : shown traced name f = true) :
    ∃ top rest, stack = top :: rest ∧ nameOf sym top = name f ∧ Shows traced sym name rest S := by
  unfold Shows at h
  rw [List.filter_cons_of_pos hf, List.map_cons] at h
  obtain ⟨top, rest, rfl, htop, hrest⟩ := List.map_eq_cons_iff.1 h
  exact ⟨top, rest, rfl, htop, hrest⟩

/-- **A caller's address** finds the caller on top, or no frame of its name. -/
theorem popCount_mixed (hname : Function.Injective name) {e top : FunTraceEntry}
    {rest : List FunTraceEntry} {g : F} (hret : e.isRet) (hw : e.isRetWithCallerAddr = true)
    (hg : nameOf sym e = name g)
    (h : Shows traced sym name rest (g :: S)) : popCount sym (top :: rest) e = 1 := by
  cases hshown : shown traced name g with
  | true =>
    obtain ⟨caller, rest', rfl, hcaller, -⟩ := h.top hshown
    refine popCount_ret hret ?_
    rw [if_pos hw]
    intro c hc
    obtain rfl := Option.some.inj hc
    exact hg.trans hcaller.symm
  | false =>
    have hnone : rest.all (fun f => decide (nameOf sym e ≠ nameOf sym f)) = true := by
      rw [List.all_eq_true]
      intro x hx
      have hmem : nameOf sym x ∈ rest.map (nameOf sym) := List.mem_map_of_mem hx
      rw [Shows.skip hshown] at h
      rw [show rest.map (nameOf sym) = _ from h] at hmem
      obtain ⟨y, hy, hxy⟩ := List.mem_map.1 hmem
      have hyshown := (List.mem_filter.1 hy).2
      refine decide_eq_true fun heq => ?_
      rw [hg, ← hxy] at heq
      rw [← hname heq, hshown] at hyshown
      cases hyshown
    rw [popCount_caller hret hw, if_pos hnone]

variable (earliest) in
/-- **A return** of a function that is shown pops its frame, by either method. -/
theorem handle_mixedRet (hname : Function.Injective name) {m : Method} {callee caller : FunTraceEntry}
    {f g : F} {S' : List F} (hS : S = f :: g :: S') (hlegal : (MixedEvent.ret callee caller).Legal traced sym name S)
    (hd : Shows traced sym name d.stack S) (hf : shown traced name f = true) :
    ∃ top rest, d.stack = top :: rest ∧
      Shows traced sym name rest (g :: S') ∧
      (handle sym earliest d (m.pick callee caller)).1.stack = rest ∧
      (handle sym earliest d (m.pick callee caller)).2 =
        [⟨symOf sym top, top.cycle, callee.cycle, 0⟩] := by
  subst hS
  obtain ⟨f', g', S'', heq, hentries⟩ := hlegal
  simp only [List.cons.injEq] at heq
  obtain ⟨rfl, rfl, rfl⟩ := heq
  have htraced : traced f = true := by
    unfold shown at hf
    rw [Bool.and_eq_true] at hf
    exact hf.1
  obtain ⟨⟨hret, hw, hown⟩, ⟨hret', hw', hcaller⟩, hcycle⟩ := hentries htraced
  obtain ⟨top, rest, hstack, htop, hrest⟩ := hd.top hf
  have hisRet : (m.pick callee caller).isRet := by cases m <;> assumption
  have hpick : (m.pick callee caller).cycle = callee.cycle := by
    cases m with
    | callee => rfl
    | caller => exact hcycle
  have hcount : popCount sym (top :: rest) (m.pick callee caller) = 1 := by
    cases m with
    | callee =>
      refine popCount_ret (f := top) hret ?_
      rw [if_neg (by simp [Method.pick, hw])]
      exact hown.trans htop.symm
    | caller => exact popCount_mixed hname hret' hw' hcaller hrest
  have hu : ¬ Unmatched sym (top :: rest) (m.pick callee caller) := by
    cases m with
    | callee => exact fun hu => hu.2.2.2 top List.mem_cons_self (hown.trans htop.symm)
    | caller => exact fun hu => hu.2.1 hw'
  have hcall : (m.pick callee caller).isCall = false := by simp [FunTraceEntry.isCall, hisRet]
  obtain ⟨hpop, -, hcalls⟩ :=
    @handle_pop sym earliest d (m.pick callee caller) hcall fun _ => by simp [hstack]
  rw [hstack, hcount] at hpop hcalls
  refine ⟨top, rest, hstack, hrest, hpop, ?_⟩
  rw [hcalls, repeated_eq_nil.2 hu, List.append_nil, firstExtra,
    if_neg (by simp [FunTraceEntry.isCatch_of_isRet hisRet]), hpick]
  rfl

/-- The calls that are written at the returns of a run without thunks. -/
def PlainCalls (calls : List FunctionCall) (frames log : List FunTraceEntry) : Prop :=
  ∀ c ∈ calls, c.extraNs = 0 ∧ (∃ f ∈ frames, c.callCycle = f.cycle) ∧ ∃ e ∈ log, c.returnCycle = e.cycle

variable (earliest) in
/-- **A fair event** is decoded alike by either method. -/
theorem handle_fair (hname : Function.Injective name) {stack : List FunTraceEntry}
    (hd : Shows traced sym name stack S) (hlegal : ev.Legal traced sym name S)
    (hfair : ev.Fair traced name S) : ∃ stack' calls,
      (∀ m d, d.stack = stack →
        let r := runEntries sym earliest d ((ev.logged traced m S).filter (heeded sym))
        r.1.stack = stack' ∧ r.1.numOrphanReturns = d.numOrphanReturns ∧ r.2 = calls) ∧
      Shows traced sym name stack' (ev.effect S) ∧
      stack'.reverse.Sublist (stack.reverse ++ ev.logged traced .callee S) ∧
      PlainCalls calls stack (ev.logged traced .callee S) := by
  have hnothing : (∀ m, (ev.logged traced m S).filter (heeded sym) = []) →
      Shows traced sym name stack (ev.effect S) → ∃ stack' calls,
      (∀ m d, d.stack = stack →
        let r := runEntries sym earliest d ((ev.logged traced m S).filter (heeded sym))
        r.1.stack = stack' ∧ r.1.numOrphanReturns = d.numOrphanReturns ∧ r.2 = calls) ∧
      Shows traced sym name stack' (ev.effect S) ∧
      stack'.reverse.Sublist (stack.reverse ++ ev.logged traced .callee S) ∧
      PlainCalls calls stack (ev.logged traced .callee S) := by
    intro hnone hshows
    refine ⟨stack, [], fun m d hstack => ?_, hshows, List.sublist_append_left _ _, fun c hc => by cases hc⟩
    rw [hnone m]
    exact ⟨hstack, rfl, rfl⟩
  cases ev with
  | call f e =>
    cases hf : traced f with
    | false =>
      refine hnothing (fun m => by simp [MixedEvent.logged, hf]) ((Shows.skip ?_).2 hd)
      simp [shown, hf]
    | true =>
      obtain ⟨hcall, hname'⟩ := hlegal hf
      cases hthunk : isThunk (name f) with
      | true =>
        refine hnothing (fun m => ?_) ((Shows.skip ?_).2 hd)
        · simp [MixedEvent.logged, hf, heeded, hname', hthunk]
        · simp [shown, hthunk]
      | false =>
        have hshown : shown traced name f = true := by simp [shown, hf, hthunk]
        refine ⟨e :: stack, [], fun m d hstack => ?_, ?_, ?_, fun c hc => by cases hc⟩
        · subst hstack
          simp [MixedEvent.logged, hf, heeded, hname', hthunk, runEntries, handle_call _ _ hcall]
        · exact Shows.push (d := ⟨stack, 0, ProcAddr2Sym.unknownSymbol⟩) hd hname' hshown
        · simp [MixedEvent.logged, hf]
  | ret callee caller =>
    obtain ⟨f, g, S', rfl, hentries⟩ := id hlegal
    cases hf : traced f with
    | false =>
      refine hnothing (fun m => by simp [MixedEvent.logged, hf]) ((Shows.skip ?_).1 hd)
      simp [shown, hf]
    | true =>
      obtain ⟨⟨-, -, hown⟩, ⟨-, -, hcaller⟩, -⟩ := hentries hf
      have hsame := hfair f g S' rfl hf
      cases hthunk : isThunk (name f) with
      | true =>
        rw [hthunk] at hsame
        refine hnothing (fun m => ?_) ((Shows.skip ?_).1 hd)
        · cases m with
          | callee => simp [MixedEvent.logged, hf, heeded, Method.pick, hown, hthunk]
          | caller => simp [MixedEvent.logged, hf, heeded, Method.pick, hcaller, ← hsame]
        · simp [shown, hthunk]
      | false =>
        rw [hthunk] at hsame
        have hshown : shown traced name f = true := by simp [shown, hf, hthunk]
        obtain ⟨top, rest, rfl, -, hrest⟩ := hd.top hshown
        refine ⟨rest, [⟨symOf sym top, top.cycle, callee.cycle, 0⟩], fun m d hstack => ?_, hrest, ?_, ?_⟩
        · have hlog : ((MixedEvent.ret callee caller).logged traced m (f :: g :: S')).filter (heeded sym) =
              [m.pick callee caller] := by
            cases m with
            | callee => simp [MixedEvent.logged, hf, heeded, Method.pick, hown, hthunk]
            | caller => simp [MixedEvent.logged, hf, heeded, Method.pick, hcaller, ← hsame]
          obtain ⟨top', rest', hstack', -, hpop, hcalls⟩ :=
            handle_mixedRet earliest hname (m := m) rfl hlegal (hstack ▸ hd) hshown
          obtain ⟨rfl, rfl⟩ := List.cons.inj (hstack.symm.trans hstack')
          rw [hlog]
          refine ⟨hpop, ?_, ?_⟩
          · simp only [runEntries]
            rw [handle_numOrphanReturns, if_neg (by simp [hstack]), add_zero]
          · simp only [runEntries, hcalls, List.append_nil]
        · rw [List.reverse_cons, List.append_assoc]
          exact List.sublist_append_left _ _
        · intro c hc
          obtain rfl := List.mem_singleton.1 hc
          refine ⟨rfl, ⟨top, List.mem_cons_self, rfl⟩, callee, ?_, rfl⟩
          simp [MixedEvent.logged, hf, Method.pick]

/-! ## A run -/

variable (earliest) in
/-- **A consistent run** is decoded alike by either method. -/
theorem agree_run (hname : Function.Injective name) : ∀ {evs : List (MixedEvent F)} {S : List F}
    {stack : List FunTraceEntry}, Shows traced sym name stack S → LegalMixed traced sym name evs S →
      Consistent traced name evs S → ∃ stack' calls, ∀ m d, d.stack = stack →
        let r := runEntries sym earliest d ((mixedLog traced m evs S).filter (heeded sym))
        r.1.stack = stack' ∧ r.2 = calls
  | [], S, stack, _, _, _ => ⟨stack, [], fun _ _ h => ⟨h, rfl⟩⟩
  | ev :: evs, S, stack, hd, ⟨hlegal, hrun⟩, ⟨hfair, hcons⟩ => by
    obtain ⟨stack₁, calls₁, hstep, hd₁, -⟩ := handle_fair earliest hname hd hlegal hfair
    obtain ⟨stack', calls, hrest⟩ := agree_run hname hd₁ hrun hcons
    refine ⟨stack', calls₁ ++ calls, fun m d hstack => ?_⟩
    obtain ⟨hs₁, -, hc₁⟩ := hstep m d hstack
    obtain ⟨hs, hc⟩ := hrest m _ hs₁
    rw [mixedLog, List.filter_append, runEntries_append]
    refine ⟨hs, ?_⟩
    dsimp only at hc hc₁ ⊢
    rw [hc, hc₁]

end

/-! ## Where calls lie -/

section
variable {sym : UInt64 → SymInfo} {earliest cycle cpuFreq timeBase : UInt64}

theorem mem_popCalls {c : FunctionCall} : ∀ {fs : List FunTraceEntry} {n : ℤ},
    c ∈ popCalls sym cycle n fs → c.returnCycle = cycle ∧ ∃ f ∈ fs, c.callCycle = f.cycle
  | f :: fs, n, hc => by
    rw [popCalls] at hc
    rcases List.mem_cons.1 hc with rfl | hc
    · exact ⟨rfl, f, List.mem_cons_self, rfl⟩
    · obtain ⟨hret, g, hg, hcall⟩ := mem_popCalls hc
      exact ⟨hret, g, List.mem_cons_of_mem f hg, hcall⟩

theorem handle_returnCycle {d : Dec} {e : FunTraceEntry} {c : FunctionCall}
    (hc : c ∈ (handle sym earliest d e).2) : c.returnCycle = e.cycle := by
  cases hcall : e.isCall with
  | true =>
    rw [handle_call _ _ hcall] at hc
    cases hc
  | false =>
    by_cases hd : e.isRet ∧ d.stack = []
    · obtain ⟨s, hcalls⟩ := handle_orphan_calls sym earliest hd.1 hd.2
      rw [hcalls] at hc
      rw [List.mem_singleton.1 hc]
    · rw [(handle_pop earliest hcall fun hr hs => hd ⟨hr, hs⟩).2.2] at hc
      rcases List.mem_append.1 hc with hc | hc
      · exact (mem_popCalls hc).1
      · exact (mem_popCalls (mem_popCalls_of_repeated hc)).1

/-- What is written for entries ends with one of them. -/
theorem runEntries_returnCycle {c : FunctionCall} : ∀ {es : List FunTraceEntry} {d : Dec},
    c ∈ (runEntries sym earliest d es).2 → ∃ e ∈ es, c.returnCycle = e.cycle
  | e :: es, d, hc => by
    rw [runEntries] at hc
    rcases List.mem_append.1 hc with hc | hc
    · exact ⟨e, List.mem_cons_self, handle_returnCycle hc⟩
    · obtain ⟨e', he', hret⟩ := runEntries_returnCycle hc
      exact ⟨e', List.mem_cons_of_mem e he', hret⟩

theorem extraCall_nonneg (c : FunctionCall) : 0 ≤ c.extraCall := by
  unfold FunctionCall.extraCall
  split_ifs <;> positivity

theorem extraRet_nonneg (c : FunctionCall) : 0 ≤ c.extraRet := by
  unfold FunctionCall.extraRet
  split_ifs <;> positivity

/-- No interval ends before its return. -/
theorem place_le_end (c : FunctionCall) :
    place cpuFreq timeBase c.returnCycle ≤ (c.interval cpuFreq timeBase).2 := by
  have hsum : (c.returnCycle - timeBase).toNat ≤
      (c.callCycle - timeBase).toNat + (c.returnCycle - c.callCycle).toNat := by
    have hret := c.returnCycle.toNat_lt
    have hcall := c.callCycle.toNat_lt
    have hbase := timeBase.toNat_lt
    rw [UInt64.toNat_sub, UInt64.toNat_sub, UInt64.toNat_sub]
    omega
  have hfreq : 0 ≤ FunctionCall.cyclesPerUs cpuFreq := by
    unfold FunctionCall.cyclesPerUs
    positivity
  have hplace : place cpuFreq timeBase c.returnCycle ≤ place cpuFreq timeBase c.callCycle +
      (c.returnCycle - c.callCycle).toNat / FunctionCall.cyclesPerUs cpuFreq := by
    unfold place
    rw [← add_div]
    refine div_le_div_of_nonneg_right ?_ hfreq
    exact_mod_cast hsum
  have hend : (c.interval cpuFreq timeBase).2 = place cpuFreq timeBase c.callCycle +
      (c.returnCycle - c.callCycle).toNat / FunctionCall.cyclesPerUs cpuFreq + c.extraRet := by
    simp only [FunctionCall.interval, FunctionCall.ts, FunctionCall.dur, place]
    ring
  have hextra := extraRet_nonneg c
  rw [hend]
  linarith

/-- No interval starts after its call. -/
theorem start_le_place (c : FunctionCall) :
    (c.interval cpuFreq timeBase).1 ≤ place cpuFreq timeBase c.callCycle := by
  have hextra := extraCall_nonneg c
  simp only [FunctionCall.interval, FunctionCall.ts, place]
  linarith

/-- **What is written later**, or for a frame under the top one, ends later than at a time before, or
    starts earlier than the top frame. -/
theorem later_interval (hfreq : cpuFreq ≠ 0) {latest r : UInt64} {d : Dec} {es : List FunTraceEntry}
    (hr : timeBase ≤ r) (hes : ∀ e ∈ es, r < e.cycle ∧ e.cycle ≤ latest) (hlatest : r ≤ latest)
    (hstack : ∀ f ∈ d.stack, timeBase ≤ f.cycle ∧ f.cycle ≤ r) {c : FunctionCall}
    (hc : c ∈ (runEntries sym earliest d es).2 ++
      fakeReturns sym latest (runEntries sym earliest d es).1.stack)
    (hend : (c.interval cpuFreq timeBase).2 = place cpuFreq timeBase r) :
    ∃ f ∈ d.stack.tail, (c.interval cpuFreq timeBase).1 ≤ place cpuFreq timeBase f.cycle := by
  have hlater : ∀ cycle, c.returnCycle = cycle → r < cycle → False := by
    rintro cycle rfl hlt
    have hle := @place_le_end cpuFreq timeBase c
    have hlt' := (place_lt_iff hfreq hr (UInt64.le_of_lt (UInt64.lt_of_le_of_lt hr hlt))).2 hlt
    rw [hend] at hle
    linarith
  rcases List.mem_append.1 hc with hc | hc
  · obtain ⟨e, he, hret⟩ := runEntries_returnCycle hc
    exact (hlater _ hret (hes e he).1).elim
  · rw [fakeReturns_eq, List.mem_reverse] at hc
    by_cases hlt : r < latest
    · exact (hlater _ (mem_popCalls hc).1 hlt).elim
    · -- At the end of the thread only the fake returns are left.
      obtain rfl := UInt64.le_antisymm hlatest (UInt64.not_lt.1 hlt)
      have hnil : es = [] := List.eq_nil_iff_forall_not_mem.2 fun e he =>
        absurd (UInt64.lt_of_lt_of_le (hes e he).1 (hes e he).2) (UInt64.lt_irrefl _)
      subst hnil
      rw [runEntries] at hc
      cases hd : d.stack with
      | nil =>
        rw [hd] at hc
        cases hc
      | cons top rest =>
        rw [hd, popCalls] at hc
        rcases List.mem_cons.1 hc with rfl | hc
        · obtain ⟨hbase, hle⟩ := hstack top (by rw [hd]; exact List.mem_cons_self)
          have hint := interval_pop cpuFreq (n := 1) (s := symOf sym top) hbase hle (by decide)
          rw [Nat.cast_one] at hint
          rw [hint] at hend
          norm_num at hend
        · obtain ⟨-, f, hf, hcall⟩ := mem_popCalls hc
          refine ⟨f, hf, ?_⟩
          rw [← hcall]
          exact start_le_place c

end

/-! ## Where the methods differ -/

/-- Entries of a thread at strictly increasing times. -/
structure Timed (earliest latest : UInt64) (es : List FunTraceEntry) : Prop where
  sorted : es.Pairwise (·.cycle < ·.cycle)
  nonzero : ∀ e ∈ es, e.cycle ≠ 0
  bounds : ∀ e ∈ es, earliest ≤ e.cycle ∧ e.cycle ≤ latest

theorem Timed.sublist {earliest latest : UInt64} {es es' : List FunTraceEntry}
    (h : Timed earliest latest es) (hsub : es'.Sublist es) : Timed earliest latest es' where
  sorted := h.sorted.sublist hsub
  nonzero e he := h.nonzero e (hsub.subset he)
  bounds e he := h.bounds e (hsub.subset he)

section
variable {F : Type} {traced : F → Bool} {sym : UInt64 → SymInfo} {name : F → String}
  {earliest latest cpuFreq timeBase : UInt64} {S : List F} {stack : List FunTraceEntry}
  {evs : List (MixedEvent F)}

theorem logged_cycles (m : Method) {ev : MixedEvent F} (hlegal : ev.Legal traced sym name S) :
    (ev.logged traced m S).map FunTraceEntry.cycle = (ev.logged traced .callee S).map FunTraceEntry.cycle := by
  cases ev with
  | call f e => rfl
  | ret callee caller =>
    obtain ⟨f, g, S', rfl, hentries⟩ := hlegal
    cases hf : traced f with
    | false => simp [MixedEvent.logged, hf]
    | true =>
      have hcycle := (hentries hf).2.2
      cases m with
      | callee => rfl
      | caller => simp [MixedEvent.logged, hf, Method.pick, hcycle]

/-- Both logs have the same times. -/
theorem mixedLog_cycles (m : Method) : ∀ {evs : List (MixedEvent F)} {S : List F},
    LegalMixed traced sym name evs S →
      (mixedLog traced m evs S).map FunTraceEntry.cycle =
        (mixedLog traced .callee evs S).map FunTraceEntry.cycle
  | [], _, _ => rfl
  | ev :: evs, S, ⟨hlegal, hrun⟩ => by
    rw [mixedLog, mixedLog, List.map_append, List.map_append, logged_cycles m hlegal,
      mixedLog_cycles m hrun]

theorem mem_mixedLog_cycle {m : Method} (hrun : LegalMixed traced sym name evs S) {e : FunTraceEntry}
    (he : e ∈ mixedLog traced m evs S) : ∃ e' ∈ mixedLog traced .callee evs S, e'.cycle = e.cycle := by
  have hmem := List.mem_map_of_mem (f := FunTraceEntry.cycle) he
  rw [mixedLog_cycles m hrun] at hmem
  exact List.mem_map.1 hmem

variable (traced sym earliest latest) in
/-- What is written for the rest of a thread. -/
def decodeMixed (m : Method) (d : Dec) (evs : List (MixedEvent F)) (S : List F) : List FunctionCall :=
  let r := runEntries sym earliest d ((mixedLog traced m evs S).filter (heeded sym))
  r.2 ++ fakeReturns sym latest r.1.stack

theorem decodeMixed_cons (m : Method) (d : Dec) (ev : MixedEvent F) (evs : List (MixedEvent F)) (S : List F) :
    decodeMixed traced sym earliest latest m d (ev :: evs) S =
      (runEntries sym earliest d ((ev.logged traced m S).filter (heeded sym))).2 ++
        decodeMixed traced sym earliest latest m
          (runEntries sym earliest d ((ev.logged traced m S).filter (heeded sym))).1 evs (ev.effect S) := by
  unfold decodeMixed
  rw [mixedLog, List.filter_append, runEntries_append, List.append_assoc]

variable (traced sym earliest latest cpuFreq timeBase) in
/-- The interval of a call that one method writes at a time, and the other does not. -/
structure OnlyBy (m m' : Method) (r : UInt64) (stack : List FunTraceEntry) (evs : List (MixedEvent F))
    (S : List F) (interval : ℚ × ℚ) : Prop where
  mem : ∀ d : Dec, d.stack = stack → d.numOrphanReturns = 0 →
    ∃ c ∈ decodeMixed traced sym earliest latest m d evs S,
      c.isComplete ∧ c.interval cpuFreq timeBase = interval
  ends : interval.2 = place cpuFreq timeBase r
  other : ∀ d : Dec, d.stack = stack → ∀ c ∈ decodeMixed traced sym earliest latest m' d evs S,
    c.interval cpuFreq timeBase ≠ interval

/-- **An entry that only one method heeds** makes a difference. -/
theorem onlyBy_skipped (hfreq : cpuFreq ≠ 0) (hbase : timeBase ≤ earliest) {m m' : Method}
    {ev : MixedEvent F} {e : FunTraceEntry} {interval : ℚ × ℚ}
    (hrun : LegalMixed traced sym name evs (ev.effect S)) (he : ev.logged traced .callee S = [e])
    (htimed : Timed earliest latest (stack.reverse ++ mixedLog traced .callee (ev :: evs) S))
    (hskipped : (ev.logged traced m' S).filter (heeded sym) = [])
    (hmem : ∀ d : Dec, d.stack = stack → d.numOrphanReturns = 0 →
      ∃ c ∈ (runEntries sym earliest d ((ev.logged traced m S).filter (heeded sym))).2,
        c.isComplete ∧ c.interval cpuFreq timeBase = interval)
    (hends : interval.2 = place cpuFreq timeBase e.cycle)
    (hstarts : ∀ f ∈ stack.tail, place cpuFreq timeBase f.cycle < interval.1) :
    OnlyBy traced sym earliest latest cpuFreq timeBase m m' e.cycle stack (ev :: evs) S interval where
  mem d hd horphans := by
    obtain ⟨c, hc, hinterval⟩ := hmem d hd horphans
    refine ⟨c, ?_, hinterval⟩
    rw [decodeMixed_cons]
    exact List.mem_append_left _ hc
  ends := hends
  other d hd c hc heq := by
    subst hd
    rw [decodeMixed_cons, hskipped] at hc
    rw [mixedLog, he] at htimed
    obtain ⟨-, hrest, hbefore⟩ := List.pairwise_append.1 htimed.sorted
    obtain ⟨hafter, -⟩ := List.pairwise_cons.1 hrest
    have hebounds := htimed.bounds e (by simp)
    have hlater : ∀ e' ∈ (mixedLog traced m' evs (ev.effect S)).filter (heeded sym),
        e.cycle < e'.cycle ∧ e'.cycle ≤ latest := by
      intro e' he'
      obtain ⟨e'', he'', hcycle⟩ := mem_mixedLog_cycle hrun (List.mem_of_mem_filter he')
      rw [← hcycle]
      exact ⟨hafter e'' he'', (htimed.bounds e'' (by simp [he''])).2⟩
    have hframes : ∀ f ∈ d.stack, timeBase ≤ f.cycle ∧ f.cycle ≤ e.cycle := by
      intro f hf
      refine ⟨UInt64.le_trans hbase (htimed.bounds f (by simp [hf])).1, UInt64.le_of_lt ?_⟩
      exact hbefore f (List.mem_reverse.2 hf) e List.mem_cons_self
    obtain ⟨f, hf, hle⟩ := later_interval hfreq (UInt64.le_trans hbase hebounds.1) hlater hebounds.2
      hframes hc ((congrArg Prod.snd heq).trans hends)
    rw [heq] at hle
    exact absurd (hstarts f hf) (not_lt.2 hle)

variable (sym) in
/-- The top frame, popped by a return. -/
theorem popped_top (hfreq : cpuFreq ≠ 0) (hbase : timeBase ≤ earliest) {top e : FunTraceEntry}
    {rest : List FunTraceEntry} (htimed : Timed earliest latest ((top :: rest).reverse ++ [e])) :
    (⟨symOf sym top, top.cycle, e.cycle, 0⟩ : FunctionCall).isComplete ∧
      (⟨symOf sym top, top.cycle, e.cycle, 0⟩ : FunctionCall).interval cpuFreq timeBase =
        (place cpuFreq timeBase top.cycle, place cpuFreq timeBase e.cycle) ∧
      ∀ f ∈ rest, place cpuFreq timeBase f.cycle < place cpuFreq timeBase top.cycle := by
  obtain ⟨hstack, -, hlast⟩ := List.pairwise_append.1 htimed.sorted
  have htop := UInt64.le_trans hbase (htimed.bounds top (by simp)).1
  have hle := UInt64.le_of_lt (hlast top (by simp) e (by simp))
  refine ⟨?_, ?_, fun f hf => ?_⟩
  · have htop0 := htimed.nonzero top (by simp)
    have he0 := htimed.nonzero e (by simp)
    simp [FunctionCall.isComplete, htop0, he0]
  · have hint := interval_pop cpuFreq (n := 0) (s := symOf sym top) htop hle (by decide)
    rw [Nat.cast_zero, Nat.cast_zero, zero_div, add_zero] at hint
    exact hint
  · rw [List.reverse_cons] at hstack
    have hlt := (List.pairwise_append.1 hstack).2.2 f (List.mem_reverse.2 hf) top (by simp)
    have hf' := UInt64.le_trans hbase (htimed.bounds f (by simp [hf])).1
    exact (place_lt_iff hfreq hf' htop).2 hlt

/-- **An unfair return** is written by one method only. -/
theorem differ_ret (hname : Function.Injective name) (hfreq : cpuFreq ≠ 0) (hbase : timeBase ≤ earliest)
    (hearliest : earliest ≠ 0) {ev : MixedEvent F} (hd : Shows traced sym name stack S)
    (hlegal : ev.Legal traced sym name S) (hrun : LegalMixed traced sym name evs (ev.effect S))
    (hunfair : ¬ ev.Fair traced name S)
    (htimed : Timed earliest latest (stack.reverse ++ mixedLog traced .callee (ev :: evs) S)) :
    ∃ m m' e interval, m ≠ m' ∧ e ∈ mixedLog traced .callee (ev :: evs) S ∧
      OnlyBy traced sym earliest latest cpuFreq timeBase m m' e.cycle stack (ev :: evs) S interval := by
  cases ev with
  | call f e => exact absurd trivial hunfair
  | ret callee caller =>
    obtain ⟨f, g, S', rfl, hentries⟩ := id hlegal
    obtain ⟨hf, hne⟩ : traced f = true ∧ isThunk (name f) ≠ isThunk (name g) := by
      by_contra hnot
      refine hunfair fun f' g' S'' heq hf => ?_
      simp only [List.cons.injEq] at heq
      obtain ⟨rfl, rfl, rfl⟩ := heq
      exact not_not.1 fun hne => hnot ⟨hf, hne⟩
    obtain ⟨⟨hret, hw, hown⟩, ⟨hret', hw', hcaller⟩, hcycle⟩ := hentries hf
    have hlogged : ∀ m, (MixedEvent.ret callee caller).logged traced m (f :: g :: S') =
        [m.pick callee caller] := fun m => by simp [MixedEvent.logged, hf]
    have hbefore : Timed earliest latest (stack.reverse ++ [callee]) := by
      refine htimed.sublist (List.Sublist.append_left ?_ _)
      rw [mixedLog, hlogged]
      exact List.sublist_append_left _ _
    have hmem : callee ∈ mixedLog traced .callee (.ret callee caller :: evs) (f :: g :: S') := by
      rw [mixedLog, hlogged]
      exact List.mem_append_left _ List.mem_cons_self
    cases hthunk : isThunk (name f) with
    | false =>
      -- The caller's address is ignored: it lies in a thunk.
      have hthunk' : isThunk (name g) = true := by simpa [hthunk] using hne.symm
      have hshown : shown traced name f = true := by simp [shown, hf, hthunk]
      obtain ⟨top, rest, rfl, -, -⟩ := hd.top hshown
      obtain ⟨hcomplete, hint, hstarts⟩ := popped_top sym hfreq hbase hbefore
      refine ⟨.callee, .caller, callee, _, by simp, hmem,
        onlyBy_skipped hfreq hbase hrun (hlogged .callee) htimed ?_ (fun d hstack _ => ?_)
          (congrArg Prod.snd hint) ?_⟩
      · rw [hlogged]
        simp [Method.pick, heeded, hcaller, hthunk']
      · obtain ⟨top', rest', hstack', -, -, hcalls⟩ :=
          handle_mixedRet earliest hname (m := .callee) rfl hlegal (hstack ▸ hd) hshown
        obtain ⟨rfl, rfl⟩ := List.cons.inj (hstack.symm.trans hstack')
        have hheeded : heeded sym callee = true := by simp [heeded, hown, hthunk]
        rw [Method.pick] at hcalls
        rw [hlogged, Method.pick, List.filter_cons_of_pos hheeded]
        simp only [runEntries]
        rw [hcalls]
        exact ⟨_, List.mem_singleton_self _, hcomplete, rfl⟩
      · rw [hint]
        exact hstarts
    | true =>
      -- The callee's address is ignored, but not the caller's.
      have hthunk' : isThunk (name g) = false := by simpa [hthunk] using hne.symm
      have hskipped : ((MixedEvent.ret callee caller).logged traced .callee (f :: g :: S')).filter
          (heeded sym) = [] := by
        rw [hlogged]
        simp [Method.pick, heeded, hown, hthunk]
      have hheeded : heeded sym caller = true := by simp [heeded, hcaller, hthunk']
      have hwritten : ∀ d, (runEntries sym earliest d (((MixedEvent.ret callee caller).logged traced .caller
          (f :: g :: S')).filter (heeded sym))).2 = (handle sym earliest d caller).2 := by
        intro d
        rw [hlogged, Method.pick, List.filter_cons_of_pos hheeded]
        simp [runEntries]
      cases stack with
      | nil =>
        have hle := (hbefore.bounds callee (by simp)).1
        have hnonzero := hbefore.nonzero callee (by simp)
        refine ⟨.caller, .callee, callee,
          (place cpuFreq timeBase earliest - 1 / 1000, place cpuFreq timeBase callee.cycle), by simp, hmem,
          onlyBy_skipped hfreq hbase hrun (hlogged .callee) htimed hskipped (fun d hstack horphans => ?_)
            rfl fun x hx => by cases hx⟩
        obtain ⟨s, hcalls⟩ := handle_orphan_calls sym earliest hret' hstack
        obtain ⟨hextra, hextra'⟩ := @FunctionCall.extra_of_neg ⟨s, earliest, caller.cycle,
          -(d.numOrphanReturns + 1)⟩ 1 (by simp [horphans]) (by decide)
        rw [hwritten, hcalls]
        refine ⟨_, List.mem_singleton_self _, ?_, ?_⟩
        · rw [hcycle]
          simp [FunctionCall.isComplete, hearliest, hnonzero]
        · rw [FunctionCall.interval_eq hbase (by rw [hcycle]; exact hle), hextra, hextra', add_zero,
            hcycle, Nat.cast_one]
      | cons top rest =>
        obtain ⟨hcomplete, hint, hstarts⟩ := popped_top sym hfreq hbase hbefore
        refine ⟨.caller, .callee, callee, _, by simp, hmem, onlyBy_skipped hfreq hbase hrun
          (hlogged .callee) htimed hskipped (fun d hstack _ => ?_) (congrArg Prod.snd hint) ?_⟩
        · refine ⟨⟨symOf sym top, top.cycle, callee.cycle, 0⟩, ?_, hcomplete, rfl⟩
          rw [hwritten]
          refine popCalls_subset_handle earliest d caller ?_
          rw [hstack, popCount_caller hret' hw', Nat.add_comm, List.take_succ_cons, popCalls, firstExtra,
            if_neg (by simp [FunTraceEntry.isCatch_of_isRet hret']), hcycle]
          exact List.mem_cons_self
        · rw [hint]
          exact hstarts

/-- **An inconsistent run** has a call that only one method writes. -/
theorem differ_run (hname : Function.Injective name) (hfreq : cpuFreq ≠ 0) (hbase : timeBase ≤ earliest)
    (hearliest : earliest ≠ 0) : ∀ {evs : List (MixedEvent F)} {S : List F} {stack : List FunTraceEntry},
    Shows traced sym name stack S → LegalMixed traced sym name evs S → ¬ Consistent traced name evs S →
    Timed earliest latest (stack.reverse ++ mixedLog traced .callee evs S) →
    ∃ m m' e interval, m ≠ m' ∧ e ∈ mixedLog traced .callee evs S ∧
      OnlyBy traced sym earliest latest cpuFreq timeBase m m' e.cycle stack evs S interval
  | [], _, _, _, _, hcons, _ => absurd trivial hcons
  | ev :: evs, S, stack, hd, ⟨hlegal, hrun⟩, hcons, htimed => by
    by_cases hfair : ev.Fair traced name S
    · have hrest : ¬ Consistent traced name evs (ev.effect S) := fun h => hcons ⟨hfair, h⟩
      obtain ⟨stack', calls, hstep, hd', hsub, hplain⟩ := handle_fair earliest hname hd hlegal hfair
      have htimed' : Timed earliest latest
          (stack'.reverse ++ mixedLog traced .callee evs (ev.effect S)) := by
        refine htimed.sublist ?_
        rw [mixedLog, ← List.append_assoc]
        exact hsub.append_right _
      obtain ⟨m, m', e, interval, hne, he, honly⟩ :=
        differ_run hname hfreq hbase hearliest hd' hrun hrest htimed'
      refine ⟨m, m', e, interval, hne, List.mem_append_right _ he, ⟨fun d hstack horphans => ?_,
        honly.ends, fun d hstack c hc => ?_⟩⟩
      · obtain ⟨hstack', horphans', -⟩ := hstep m d hstack
        obtain ⟨c, hc, hinterval⟩ := honly.mem _ hstack' (horphans'.trans horphans)
        refine ⟨c, ?_, hinterval⟩
        rw [decodeMixed_cons]
        exact List.mem_append_right _ hc
      · obtain ⟨hstack', -, hcalls⟩ := hstep m' d hstack
        rw [decodeMixed_cons] at hc
        rcases List.mem_append.1 hc with hc | hc
        · -- The call ends earlier than the one that makes the difference.
          rw [hcalls] at hc
          obtain ⟨hextra, ⟨f, hf, hcall⟩, e', he', hret⟩ := hplain c hc
          rw [mixedLog] at htimed
          obtain ⟨-, hlog, hbefore⟩ := List.pairwise_append.1 htimed.sorted
          have hlt := (List.pairwise_append.1 hlog).2.2 e' he' e he
          have hlt' := hbefore f (List.mem_reverse.2 hf) e' (List.mem_append_left _ he')
          have hf' := UInt64.le_trans hbase (htimed.bounds f (by simp [hf])).1
          have he'' := UInt64.le_trans hbase (htimed.bounds e' (by simp [he'])).1
          have hint := interval_pop cpuFreq (n := 0) (s := c.sym) hf' (UInt64.le_of_lt hlt') (by decide)
          rw [← hcall, ← hret, Nat.cast_zero, ← hextra] at hint
          intro heq
          have hends := honly.ends
          rw [← heq, hint, hret] at hends
          simp only [Nat.cast_zero, zero_div, add_zero] at hends
          have hplace := (place_lt_iff hfreq he''
            (UInt64.le_trans he'' (UInt64.le_of_lt hlt))).2 hlt
          rw [hends] at hplace
          exact lt_irrefl _ hplace
        · exact honly.other _ hstack' c hc
    · exact differ_ret hname hfreq hbase hearliest hd hlegal hrun hfair htimed

end

end Funtrace
