/-
  Runs of the decoder over many entries.

  The symbol cache and the set of ignored addresses only grow while a sample is
  decoded, and what they say of an address never changes once it was looked up
  (`Lookup.Extends`).  So a thread is decoded as if the lookups that the sample
  ends with had been there from the start (`threadLoop_eq`, `decodeThread_eq`).
-/
import Funtrace.Viz.Step

namespace Funtrace

/-- The calls made for reported entries, the fake returns at the end included. -/
def decodeReported (sym : UInt64 → SymInfo) (earliest latest : UInt64)
    (entries : List FunTraceEntry) : List FunctionCall :=
  let r := runEntries sym earliest Dec.init entries
  r.2 ++ fakeReturns sym latest r.1.stack

section
variable (sym : UInt64 → SymInfo) (earliest : UInt64)

/-- The steps of a run: each entry with the state that it finds. -/
def runSteps : Dec → List FunTraceEntry → List (Dec × FunTraceEntry)
  | _, [] => []
  | d, e :: es => (d, e) :: runSteps (handle sym earliest d e).1 es

end

section
variable {sym sym' : UInt64 → SymInfo} {earliest : UInt64}

theorem runEntries_append (d : Dec) (es es' : List FunTraceEntry) :
    runEntries sym earliest d (es ++ es') =
      let r := runEntries sym earliest d es
      let r' := runEntries sym earliest r.1 es'
      (r'.1, r.2 ++ r'.2) := by
  induction es generalizing d with
  | nil => rfl
  | cons e es ih => simp only [List.cons_append, runEntries, ih, List.append_assoc]

/-- A step of a run is an entry with the state after the entries before it. -/
theorem mem_runSteps {s : Dec × FunTraceEntry} : ∀ {es : List FunTraceEntry} {d : Dec},
    s ∈ runSteps sym earliest d es ↔
      ∃ pre post, es = pre ++ s.2 :: post ∧ s.1 = (runEntries sym earliest d pre).1
  | [], d => by simp [runSteps]
  | e :: es, d => by
    rw [runSteps, List.mem_cons, mem_runSteps]
    constructor
    · rintro (rfl | ⟨pre, post, rfl, hs⟩)
      exacts [⟨[], es, rfl, rfl⟩, ⟨e :: pre, post, rfl, hs⟩]
    · rintro ⟨_ | ⟨e', pre⟩, post, hes, hs⟩
      · obtain ⟨rfl, rfl⟩ := List.cons.inj hes
        exact Or.inl (Prod.ext hs rfl)
      · obtain ⟨rfl, rfl⟩ := List.cons.inj hes
        exact Or.inr ⟨pre, post, rfl, hs⟩

theorem runSteps_append (d : Dec) (es es' : List FunTraceEntry) :
    runSteps sym earliest d (es ++ es') = runSteps sym earliest d es ++
      runSteps sym earliest (runEntries sym earliest d es).1 es' := by
  induction es generalizing d with
  | nil => rfl
  | cons e es ih => rw [List.cons_append, runSteps, ih]; rfl

/-- The calls of a run are those of its steps. -/
theorem runEntries_calls (d : Dec) (es : List FunTraceEntry) : (runEntries sym earliest d es).2 =
    (runSteps sym earliest d es).flatMap fun s => (handle sym earliest s.1 s.2).2 := by
  induction es generalizing d with
  | nil => rfl
  | cons e es ih => rw [runEntries, runSteps, List.flatMap_cons, ih]

theorem mem_runEntries_calls {d : Dec} {pre : List FunTraceEntry} (post : List FunTraceEntry) {e : FunTraceEntry}
    {c : FunctionCall} (hc : c ∈ (handle sym earliest (runEntries sym earliest d pre).1 e).2) :
    c ∈ (runEntries sym earliest d (pre ++ e :: post)).2 := by
  rw [runEntries_append]
  exact List.mem_append_right _ (List.mem_append_left _ hc)

variable (sym earliest) in
/-- The orphan return after `k` others. -/
theorem exists_orphan {k : ℤ} (hk : 0 ≤ k) (es : List FunTraceEntry) :
    k < (runEntries sym earliest Dec.init es).1.numOrphanReturns →
      ∃ pre e post, es = pre ++ e :: post ∧ e.isRet ∧
        (runEntries sym earliest Dec.init pre).1.stack = [] ∧
        (runEntries sym earliest Dec.init pre).1.numOrphanReturns = k := by
  induction es using List.reverseRecOn with
  | nil =>
    intro h
    simp only [runEntries, Dec.init] at h
    omega
  | append_singleton es e ih =>
    intro h
    by_cases hlt : k < (runEntries sym earliest Dec.init es).1.numOrphanReturns
    · obtain ⟨pre, e', post, rfl, hrest⟩ := ih hlt
      exact ⟨pre, e', post ++ [e], by simp, hrest⟩
    · rw [runEntries_append] at h
      simp only [runEntries, handle_numOrphanReturns] at h
      split_ifs at h with hd
      · exact ⟨es, e, [], rfl, hd.1, hd.2, by omega⟩
      · omega

/-! ## Steps under different symbols -/

theorem popCalls_congr (cycle : UInt64) {fs : List FunTraceEntry}
    (h : ∀ f ∈ fs, symOf sym f = symOf sym' f) :
    ∀ n, popCalls sym cycle n fs = popCalls sym' cycle n fs := by
  induction fs with
  | nil => intro n; rfl
  | cons f fs ih =>
    intro n
    rw [popCalls, popCalls, h f (by simp), ih fun g hg => h g (by simp [hg])]

theorem takeWhile_congr {α : Type} {p q : α → Bool} {l : List α} (h : ∀ x ∈ l, p x = q x) :
    l.takeWhile p = l.takeWhile q := by
  induction l with
  | nil => rfl
  | cons x l ih =>
    rw [List.takeWhile_cons, List.takeWhile_cons, h x (by simp), ih fun y hy => h y (by simp [hy])]

section
variable {stack : List FunTraceEntry} {e : FunTraceEntry}
  (he : symOf sym e = symOf sym' e) (h : ∀ f ∈ stack, symOf sym f = symOf sym' f)
include he h

theorem popCount_congr : popCount sym stack e = popCount sym' stack e := by
  have hname : ∀ f ∈ stack, nameOf sym f = nameOf sym' f := fun f hf => by simp [nameOf, h f hf]
  have hne : nameOf sym e = nameOf sym' e := by simp [nameOf, he]
  have hother : ∀ f ∈ stack, decide (nameOf sym e ≠ nameOf sym f) =
      decide (nameOf sym' e ≠ nameOf sym' f) := fun f hf => by rw [hne, hname f hf]
  have htail : ∀ f ∈ stack.tail, decide (nameOf sym e ≠ nameOf sym f) =
      decide (nameOf sym' e ≠ nameOf sym' f) := fun f hf => hother f (List.mem_of_mem_tail hf)
  have hall : stack.tail.all (fun f => decide (nameOf sym e ≠ nameOf sym f)) =
      stack.tail.all fun f => decide (nameOf sym' e ≠ nameOf sym' f) := by
    rw [Bool.eq_iff_iff, List.all_eq_true, List.all_eq_true]
    exact forall₂_congr fun f hf => by rw [htail f hf]
  have hunw : ∀ f ∈ stack, unwinds sym (nameOf sym e) f = unwinds sym' (nameOf sym' e) f :=
    fun f hf => by simp only [unwinds]; rw [hother f hf]
  simp only [popCount]
  rw [takeWhile_congr hother, takeWhile_congr hunw, takeWhile_congr htail, hall]

theorem unmatched_congr : Unmatched sym stack e ↔ Unmatched sym' stack e := by
  have hne : nameOf sym e = nameOf sym' e := by simp [nameOf, he]
  unfold Unmatched
  rw [hne]
  have : (∀ f ∈ stack, nameOf sym' e ≠ nameOf sym f) ↔ ∀ f ∈ stack, nameOf sym' e ≠ nameOf sym' f :=
    forall₂_congr fun f hf => by simp [nameOf, h f hf]
  rw [this]

theorem repeated_congr : repeated sym stack e = repeated sym' stack e := by
  unfold repeated
  rw [if_congr (unmatched_congr he h) rfl rfl]
  cases hl : stack.getLast? with
  | none => rfl
  | some f => simp only [h f (List.mem_of_getLast? hl)]

variable (earliest) in
/-- A step only depends on the symbols of the entry and of the stack. -/
theorem handle_congr {d : Dec} (hd : d.stack = stack) :
    handle sym earliest d e = handle sym' earliest d e := by
  subst hd
  have htake : ∀ n k, popCalls sym e.cycle n (d.stack.take k) =
      popCalls sym' e.cycle n (d.stack.take k) := fun n k =>
    popCalls_congr _ (fun f hf => h f (List.mem_of_mem_take hf)) n
  cases hcall : e.isCall with
  | true => rw [handle_call _ _ hcall, handle_call _ _ hcall]
  | false =>
    cases hcatch : e.isCatch with
    | true =>
      rw [handle_catch _ d hcatch, handle_catch _ d hcatch, popCount_congr he h, htake]
    | false =>
      have hret : e.isRet := by simpa [FunTraceEntry.isCall, hcatch] using hcall
      cases hst : d.stack with
      | nil => rw [handle_orphan _ hret hst, handle_orphan _ hret hst]; simp [orphanReturn, he]
      | cons call stack =>
        rw [handle_return _ d hret hst, handle_return _ d hret hst]
        rw [hst] at htake h
        cases hw : e.isRetWithCallerAddr with
        | false =>
          rw [popReturn_own d hret hw, popReturn_own d hret hw, popCount_congr he h, htake,
            repeated_congr he h]
        | true =>
          rw [popReturn_caller d hret hw, popReturn_caller d hret hw, popCount_congr he h, htake, he]

end

theorem fakeReturns_congr {latest : UInt64} {stack : List FunTraceEntry}
    (h : ∀ f ∈ stack, symOf sym f = symOf sym' f) :
    fakeReturns sym latest stack = fakeReturns sym' latest stack := by
  unfold fakeReturns
  refine List.ext_getElem (by simp) fun i hi hi' => ?_
  simp only [List.getElem_mapIdx]
  rw [h _ (List.mem_reverse.1 (List.getElem_mem _))]

variable (sym earliest) in
/-- What is on the stack after a step was there before, or is the entry. -/
theorem handle_stack_sublist (d : Dec) (e : FunTraceEntry) :
    (handle sym earliest d e).1.stack.Sublist (e :: d.stack) := by
  cases hcall : e.isCall with
  | true => rw [handle_call _ _ hcall]
  | false =>
    by_cases hd : e.isRet ∧ d.stack = []
    · rw [handle_orphan _ hd.1 hd.2]
      unfold orphanReturn
      split <;> exact List.sublist_cons_self _ _
    · rw [(handle_pop earliest hcall fun hr h => hd ⟨hr, h⟩).1]
      exact (List.drop_sublist _ _).cons _

variable (earliest) in
theorem runEntries_congr (es : List FunTraceEntry) (hes : ∀ e ∈ es, symOf sym e = symOf sym' e) :
    ∀ d : Dec, (∀ f ∈ d.stack, symOf sym f = symOf sym' f) →
      runEntries sym earliest d es = runEntries sym' earliest d es := by
  induction es with
  | nil => exact fun d _ => rfl
  | cons e es ih =>
    intro d hd
    have he := hes e List.mem_cons_self
    have hstep := handle_congr earliest he hd rfl
    rw [runEntries, runEntries, hstep, ih fun e' he' => hes e' (List.mem_cons_of_mem e he')]
    intro f hf
    rcases List.mem_cons.1 ((handle_stack_sublist _ _ d e).subset hf) with rfl | hf
    exacts [he, hd f hf]

/-- The frames left by a run, the last pushed first. -/
theorem runEntries_stack_sublist (es : List FunTraceEntry) : ∀ d : Dec,
    (runEntries sym earliest d es).1.stack.Sublist (es.reverse ++ d.stack) := by
  induction es with
  | nil => exact fun d => List.Sublist.refl _
  | cons e es ih =>
    intro d
    rw [List.reverse_cons, List.append_assoc, List.singleton_append]
    exact (ih _).trans ((handle_stack_sublist sym earliest d e).append_left _)

theorem mem_of_mem_stack {es : List FunTraceEntry} {f : FunTraceEntry}
    (hf : f ∈ (runEntries sym earliest Dec.init es).1.stack) : f ∈ es := by
  simpa [Dec.init] using (runEntries_stack_sublist es Dec.init).subset hf

/-- Only call entries are pushed. -/
theorem isCall_of_mem_stack (es : List FunTraceEntry) : ∀ {d : Dec}, (∀ f ∈ d.stack, f.isCall) →
    ∀ f ∈ (runEntries sym earliest d es).1.stack, f.isCall := by
  induction es with
  | nil => exact fun h => h
  | cons e es ih =>
    refine fun {d} h => ih fun f hf => ?_
    cases hcall : e.isCall with
    | true =>
      rw [handle_call _ _ hcall] at hf
      rcases List.mem_cons.1 hf with rfl | hf
      exacts [hcall, h f hf]
    | false =>
      rcases List.mem_cons.1 ((handle_stack_sublist sym earliest d e).subset hf) with rfl | hf'
      · by_cases hd : f.isRet ∧ d.stack = []
        · rw [handle_orphan _ hd.1 hd.2] at hf
          unfold orphanReturn at hf
          split at hf <;> exact h f hf
        · rw [(handle_pop earliest hcall fun hr hs => hd ⟨hr, hs⟩).1] at hf
          exact h f (List.mem_of_mem_drop hf)
      · exact h f hf'

variable (sym earliest) in
/-- Frames lie on the stack in the order of their cycles. -/
theorem stack_sorted {es : List FunTraceEntry} (h : es.Pairwise (·.cycle < ·.cycle)) :
    (runEntries sym earliest Dec.init es).1.stack.Pairwise (·.cycle > ·.cycle) := by
  refine List.Pairwise.sublist (runEntries_stack_sublist es Dec.init) ?_
  simpa [Dec.init] using List.pairwise_reverse.2 h

theorem runSteps_congr (es : List FunTraceEntry) (hes : ∀ e ∈ es, symOf sym e = symOf sym' e) :
    runSteps sym earliest Dec.init es = runSteps sym' earliest Dec.init es := by
  induction es using List.reverseRecOn with
  | nil => rfl
  | append_singleton es e ih =>
    have hes' : ∀ e ∈ es, symOf sym e = symOf sym' e := fun e' he' => hes e' (by simp [he'])
    rw [runSteps_append, runSteps_append, ih hes', runEntries_congr earliest es hes' _
      (by simp [Dec.init])]
    rfl

theorem decodeReported_congr {latest : UInt64} {es : List FunTraceEntry}
    (hes : ∀ e ∈ es, symOf sym e = symOf sym' e) :
    decodeReported sym earliest latest es = decodeReported sym' earliest latest es := by
  have hrun := runEntries_congr earliest es hes Dec.init (by simp [Dec.init])
  have hstack : ∀ f ∈ (runEntries sym' earliest Dec.init es).1.stack, symOf sym f = symOf sym' f :=
    fun f hf => hes f (mem_of_mem_stack hf)
  rw [decodeReported, decodeReported, hrun, fakeReturns_congr hstack]

end

/-! ## The lookups of a sample -/

namespace Lookup

/-- Entries that the decoder handles: not too old, and not ignored. -/
def reports (l : Lookup) (oldest : UInt64) (e : FunTraceEntry) : Bool :=
  !decide (oldest > e.cycle) && !decide (e.addr ∈ l.ignoreAddrs)

/-- What was looked up stays as it is. -/
def Extends (l l' : Lookup) : Prop :=
  ∀ a s, l.symCache a = some s →
    l'.symCache a = some s ∧ (a ∈ l'.ignoreAddrs ↔ a ∈ l.ignoreAddrs)

theorem Extends.refl (l : Lookup) : l.Extends l := fun _ _ h => ⟨h, Iff.rfl⟩

theorem Extends.trans {l l' l'' : Lookup} (h : l.Extends l') (h' : l'.Extends l'') :
    l.Extends l'' := fun a s ha =>
  ⟨(h' a s (h a s ha).1).1, (h' a s (h a s ha).1).2.trans (h a s ha).2⟩

theorem Extends.symOf_eq {l l' : Lookup} (h : l.Extends l') {e : FunTraceEntry}
    (he : (l.symCache e.addr).isSome) : symOf l.sym e = symOf l'.sym e := by
  obtain ⟨s, hs⟩ := Option.isSome_iff_exists.1 he
  simp [symOf, sym, hs, (h _ s hs).1]

variable (w : World) (l : Lookup) (a : UInt64)

theorem resolve_isSome : ((l.resolve w a).symCache a).isSome := by
  unfold resolve
  split
  · next h => simp [h]
  · simp

theorem extends_resolve : l.Extends (l.resolve w a) := by
  intro b s hb
  unfold resolve
  split
  · exact ⟨hb, Iff.rfl⟩
  · next h =>
    have hne : b ≠ a := by rintro rfl; rw [h] at hb; cases hb
    refine ⟨by simpa [Function.update_of_ne hne] using hb, ?_⟩
    dsimp only
    split_ifs <;> simp [hne]

/-- Only thunks are ignored. -/
def IgnoresThunks (l : Lookup) : Prop :=
  ∀ a ∈ l.ignoreAddrs, containsStr (l.sym a).demangledFunc "virtual override thunk" ∧
    (l.symCache a).isSome

theorem ignoresThunks_resolve (h : l.IgnoresThunks) : (l.resolve w a).IgnoresThunks := by
  intro b hb
  unfold resolve at hb ⊢
  split at hb
  · exact h b hb
  · next hnone =>
    by_cases hba : b = a
    · subst hba
      dsimp only at hb ⊢
      split_ifs at hb with hthunk
      · simp [sym, hthunk]
      · have := (h b hb).2
        simp [hnone] at this
    · have hb : b ∈ l.ignoreAddrs := by
        dsimp only at hb
        split_ifs at hb
        exacts [(List.mem_cons.1 hb).resolve_left hba, hb]
      simpa [sym, Function.update_of_ne hba] using h b hb

variable {l}

/-- The lookups give entries the symbols of their functions, none of which is a thunk. -/
structure Resolves (l : Lookup) (sym : UInt64 → SymInfo) (es : List FunTraceEntry) : Prop where
  found : ∀ e ∈ es, symOf l.sym e = symOf sym e
  noThunk : ∀ e ∈ es, containsStr (nameOf sym e) "virtual override thunk" = false

theorem Resolves.filter_reports {sym : UInt64 → SymInfo} {es : List FunTraceEntry} {oldest : UInt64}
    (h : l.Resolves sym es) (hl : l.IgnoresThunks) (hold : ∀ e ∈ es, oldest ≤ e.cycle) :
    es.filter (l.reports oldest) = es := by
  refine List.filter_eq_self.2 fun e he => ?_
  have hign : e.addr ∉ l.ignoreAddrs := fun hmem => by
    have hthunk : containsStr (symOf l.sym e).demangledFunc _ := (hl _ hmem).1
    rw [h.found e he, ← nameOf, h.noThunk e he] at hthunk
    cases hthunk
  simp [reports, hign, UInt64.not_lt.2 (hold e he)]

end Lookup

section
variable (w : World) (oldest earliest : UInt64)

theorem extends_threadStep (s : Lookup × Dec) (e : FunTraceEntry) :
    s.1.Extends (threadStep w oldest earliest s e).1.1 := by
  unfold threadStep
  split_ifs
  · exact Lookup.Extends.refl _
  · dsimp only
    split_ifs <;> exact Lookup.extends_resolve _ _ _

theorem extends_threadLoop (es : List FunTraceEntry) :
    ∀ s : Lookup × Dec, s.1.Extends (threadLoop w oldest earliest s es).1.1 := by
  induction es with
  | nil => exact fun s => Lookup.Extends.refl _
  | cons e es ih => exact fun s => (extends_threadStep w oldest earliest s e).trans (ih _)

theorem threadLoop_append (s : Lookup × Dec) (es es' : List FunTraceEntry) :
    (threadLoop w oldest earliest s (es ++ es')).1 =
      (threadLoop w oldest earliest (threadLoop w oldest earliest s es).1 es').1 := by
  induction es generalizing s with
  | nil => rfl
  | cons e es ih => exact ih _

/-- What every lookup of its entries keeps, the loop keeps. -/
theorem threadLoop_keeps {P : Lookup → Prop} (es : List FunTraceEntry) :
    (∀ e ∈ es, oldest ≤ e.cycle → ∀ l, P l → P (l.resolve w e.addr)) →
      ∀ s : Lookup × Dec, P s.1 → P (threadLoop w oldest earliest s es).1.1 := by
  induction es with
  | nil => exact fun _ s h => h
  | cons e es ih =>
    refine fun hkeeps s h => ih (fun e he => hkeeps e (List.mem_cons_of_mem _ he)) _ ?_
    unfold threadStep
    split_ifs with hold
    · exact h
    · have hresolve := hkeeps e List.mem_cons_self (UInt64.not_lt.1 hold) s.1 h
      dsimp only
      split_ifs <;> exact hresolve

theorem threadStep_isSome {s : Lookup × Dec} {e : FunTraceEntry} (h : oldest ≤ e.cycle) :
    ((threadStep w oldest earliest s e).1.1.symCache e.addr).isSome := by
  unfold threadStep
  rw [if_neg (UInt64.not_lt.2 h)]
  dsimp only
  split_ifs <;> exact Lookup.resolve_isSome w s.1 e.addr

/-- Every entry that is not too old is looked up. -/
theorem threadLoop_isSome (es : List FunTraceEntry) : ∀ s : Lookup × Dec, ∀ e ∈ es, oldest ≤ e.cycle →
    ((threadLoop w oldest earliest s es).1.1.symCache e.addr).isSome := by
  induction es with
  | nil =>
    intro s e he
    cases he
  | cons e es ih =>
    intro s e' he' h
    rcases List.mem_cons.1 he' with rfl | he'
    · obtain ⟨i, hi⟩ := Option.isSome_iff_exists.1 (threadStep_isSome w oldest earliest (s := s) h)
      have hext := extends_threadLoop w oldest earliest es (threadStep w oldest earliest s e').1
      rw [threadLoop, (hext _ i hi).1]
      rfl
    · exact ih _ e' he' h

/-- Every frame on the stack was looked up. -/
theorem cached_threadLoop (es : List FunTraceEntry) :
    ∀ s : Lookup × Dec, (∀ f ∈ s.2.stack, (s.1.symCache f.addr).isSome) →
      ∀ f ∈ (threadLoop w oldest earliest s es).1.2.stack,
        ((threadLoop w oldest earliest s es).1.1.symCache f.addr).isSome := by
  induction es with
  | nil => exact fun s h => h
  | cons e es ih =>
    intro s h
    refine ih _ fun f hf => ?_
    have hext := extends_threadStep w oldest earliest s e
    have hold : f ∈ s.2.stack → ((threadStep w oldest earliest s e).1.1.symCache f.addr).isSome :=
      fun hf => by
        obtain ⟨i, hi⟩ := Option.isSome_iff_exists.1 (h f hf)
        rw [(hext _ i hi).1]; rfl
    unfold threadStep at hf hold ⊢
    split_ifs at hf hold ⊢ with h₁
    · exact hold hf
    · dsimp only at hf hold ⊢
      split_ifs at hf hold ⊢
      · exact hold hf
      · rcases List.mem_cons.1 ((handle_stack_sublist _ _ _ _).subset hf) with rfl | hf
        exacts [Lookup.resolve_isSome w s.1 f.addr, hold hf]

/-- **The lookups at the end could have been there from the start.** -/
theorem threadLoop_eq {l' : Lookup} :
    ∀ (es : List FunTraceEntry) (l : Lookup) (d : Dec),
      (∀ f ∈ d.stack, (l.symCache f.addr).isSome) →
      (threadLoop w oldest earliest (l, d) es).1.1.Extends l' →
      ((threadLoop w oldest earliest (l, d) es).1.2, (threadLoop w oldest earliest (l, d) es).2) =
        runEntries l'.sym earliest d (es.filter (l'.reports oldest))
  | [], l, d, _, _ => rfl
  | e :: es, l, d, hd, hl' => by
    simp only [threadLoop] at hl' ⊢
    by_cases hold : oldest > e.cycle
    · have hstep : threadStep w oldest earliest (l, d) e = ((l, d), []) := by
        simp [threadStep, hold]
      rw [hstep] at hl' ⊢
      rw [List.filter_cons_of_neg (by simp [Lookup.reports, hold])]
      simpa using threadLoop_eq es l d hd hl'
    · set l₁ := l.resolve w e.addr with hl₁
      have hext : l.Extends l₁ := Lookup.extends_resolve w l e.addr
      have hd₁ : ∀ f ∈ d.stack, (l₁.symCache f.addr).isSome := fun f hf => by
        obtain ⟨s, hs⟩ := Option.isSome_iff_exists.1 (hd f hf)
        simp [(hext _ s hs).1]
      have he₁ : (l₁.symCache e.addr).isSome := Lookup.resolve_isSome w l e.addr
      by_cases hign : e.addr ∈ l₁.ignoreAddrs
      · have hstep : threadStep w oldest earliest (l, d) e = ((l₁, d), []) := by
          simp [threadStep, hold, ← hl₁, hign]
        rw [hstep] at hl' ⊢
        have hl₁' : l₁.Extends l' := (extends_threadLoop w oldest earliest es (l₁, d)).trans hl'
        obtain ⟨s, hs⟩ := Option.isSome_iff_exists.1 he₁
        rw [List.filter_cons_of_neg (by simp [Lookup.reports, (hl₁' _ s hs).2, hign])]
        simpa using threadLoop_eq es l₁ d hd₁ hl'
      · have hstep : threadStep w oldest earliest (l, d) e =
            ((l₁, (handle l₁.sym earliest d e).1), (handle l₁.sym earliest d e).2) := by
          simp [threadStep, hold, ← hl₁, hign]
        rw [hstep] at hl' ⊢
        set d₁ := (handle l₁.sym earliest d e).1 with hd₁'
        have hl₁' : l₁.Extends l' := (extends_threadLoop w oldest earliest es (l₁, d₁)).trans hl'
        obtain ⟨s, hs⟩ := Option.isSome_iff_exists.1 he₁
        have hcongr : handle l₁.sym earliest d e = handle l'.sym earliest d e :=
          handle_congr _ (hl₁'.symOf_eq he₁) (fun f hf => hl₁'.symOf_eq (hd₁ f hf)) rfl
        have hstack : ∀ f ∈ d₁.stack, (l₁.symCache f.addr).isSome := fun f hf => by
          rcases List.mem_cons.1 ((handle_stack_sublist _ _ _ _).subset hf) with rfl | hf
          exacts [he₁, hd₁ f hf]
        have ih := threadLoop_eq es l₁ d₁ hstack hl'
        rw [List.filter_cons_of_pos (by simp [Lookup.reports, (hl₁' _ s hs).2, hign, hold]),
          runEntries, ← hcongr, ← hd₁', ← ih]

theorem decodeThread_eq {l l' : Lookup} {t : ThreadTrace}
    (hl' : (decodeThread w oldest l t).1.Extends l') :
    (decodeThread w oldest l t).2 =
      decodeReported l'.sym (max (t.trace.head t.nonempty).cycle oldest)
        (t.trace.getLast t.nonempty).cycle (t.trace.filter (l'.reports oldest)) := by
  have hstack := cached_threadLoop w oldest (max (t.trace.head t.nonempty).cycle oldest) t.trace
    (l, Dec.init) (by simp [Dec.init])
  have heq := threadLoop_eq w oldest (max (t.trace.head t.nonempty).cycle oldest) t.trace l
    Dec.init (by simp [Dec.init]) hl'
  simp only [decodeThread] at hl' ⊢
  rw [decodeReported, ← heq, fakeReturns_congr fun f hf => hl'.symOf_eq (hstack f hf)]

end

end Funtrace
