/-
  Nesting of the intervals that a thread's events occupy.

  The extra nanoseconds keep the intervals laminar as long as consecutive entries
  are further apart than one nanosecond per entry (`Spaced`): frames that one entry
  pops end one nanosecond after another, outer frames later, and orphan returns
  reach back one nanosecond more each.  What can go wrong is

  * a counter that does not fit into an `i32`, and
  * the last entry of the thread: the frames that it pops and the fake returns both
    start from its time, without regard to each other.

  `nested_handle` is the step, `nested_run` the run, and `laminar_iff` says that
  nothing else goes wrong.
-/
import Mathlib.Tactic.Positivity
import Funtrace.Lib.Laminar
import Funtrace.Viz.Events

namespace Funtrace

section
variable (cpuFreq timeBase : UInt64)

/-- The intervals of the complete events among some calls. -/
def intervals (calls : List FunctionCall) : Set (ℚ × ℚ) :=
  {I | ∃ c ∈ calls, c.isComplete ∧ c.interval cpuFreq timeBase = I}

/-- Where frames start; a frame at cycle zero is never written. -/
def starts (stack : List FunTraceEntry) : List ℚ :=
  (stack.filter (·.cycle != 0)).map fun f => place cpuFreq timeBase f.cycle

variable {cpuFreq timeBase}

@[simp] theorem intervals_nil : intervals cpuFreq timeBase [] = ∅ := by simp [intervals]

@[simp] theorem intervals_append (cs cs' : List FunctionCall) :
    intervals cpuFreq timeBase (cs ++ cs') =
      intervals cpuFreq timeBase cs ∪ intervals cpuFreq timeBase cs' := by
  ext I
  simp [intervals, or_and_right, exists_or]

theorem intervals_mono {cs cs' : List FunctionCall} (h : cs ⊆ cs') :
    intervals cpuFreq timeBase cs ⊆ intervals cpuFreq timeBase cs' := by
  rintro I ⟨c, hc, hI⟩
  exact ⟨c, h hc, hI⟩

theorem intervals_cons_complete {c : FunctionCall} (h : c.isComplete) (cs : List FunctionCall) :
    intervals cpuFreq timeBase (c :: cs) =
      insert (c.interval cpuFreq timeBase) (intervals cpuFreq timeBase cs) := by
  ext I
  simp only [intervals, Set.mem_ofPred_eq, List.mem_cons, Set.mem_insert_iff]
  constructor
  · rintro ⟨d, rfl | hd, hcomplete, rfl⟩
    exacts [Or.inl rfl, Or.inr ⟨d, hd, hcomplete, rfl⟩]
  · rintro (rfl | ⟨d, hd, hcomplete, rfl⟩)
    exacts [⟨c, Or.inl rfl, h, rfl⟩, ⟨d, Or.inr hd, hcomplete, rfl⟩]

theorem intervals_cons_incomplete {c : FunctionCall} (h : c.isComplete = false)
    (cs : List FunctionCall) :
    intervals cpuFreq timeBase (c :: cs) = intervals cpuFreq timeBase cs := by
  ext I
  simp [intervals, h]

theorem starts_cons {f : FunTraceEntry} (h : f.cycle ≠ 0) (stack : List FunTraceEntry) :
    starts cpuFreq timeBase (f :: stack) =
      place cpuFreq timeBase f.cycle :: starts cpuFreq timeBase stack := by
  simp [starts, h]

theorem starts_cons_zero {f : FunTraceEntry} (h : f.cycle = 0) (stack : List FunTraceEntry) :
    starts cpuFreq timeBase (f :: stack) = starts cpuFreq timeBase stack := by
  simp [starts, h]

theorem add_ns_le {m n : ℕ} (h : m ≤ n) (x : ℚ) : x + m / 1000 ≤ x + n / 1000 := by
  have : (m : ℚ) ≤ n := by exact_mod_cast h
  linarith

/-! ## Popping frames -/

section
variable {sym : UInt64 → SymInfo} {cycle : UInt64}

/-- **Popped frames** stay laminar with everything before, if their extra nanoseconds fit
    into an `i32`. -/
theorem nesting_popCalls {a B : ℚ} (rest : List FunTraceEntry) :
    ∀ (fs : List FunTraceEntry) {E : Set (ℚ × ℚ)} {b : ℚ} {n : ℕ},
      Nesting E (starts cpuFreq timeBase (fs ++ rest)) a b → b ≤ B →
      b ≤ place cpuFreq timeBase cycle + n / 1000 →
      (∀ f ∈ fs, timeBase ≤ f.cycle ∧ f.cycle ≤ cycle) →
      (∀ f ∈ fs.drop (2 ^ 31 - n), f.cycle = 0) →
      (∀ i < fs.length, place cpuFreq timeBase cycle + (n + i : ℕ) / 1000 ≤ B) →
      Nesting (E ∪ intervals cpuFreq timeBase (popCalls sym cycle n fs))
        (starts cpuFreq timeBase rest) a B
  | [], E, b, n, h, hB, _, _, _, _ => by
    simpa [popCalls] using h.mono le_rfl hB
  | f :: fs, E, b, n, h, hB, hb, hfs, hfit, hend => by
    obtain ⟨hbase, hle⟩ := hfs f List.mem_cons_self
    have hfs' : ∀ g ∈ fs, timeBase ≤ g.cycle ∧ g.cycle ≤ cycle :=
      fun g hg => hfs g (List.mem_cons_of_mem f hg)
    have hfit' : ∀ g ∈ fs.drop (2 ^ 31 - (n + 1)), g.cycle = 0 := fun g hg => hfit g <| by
      rcases Nat.lt_or_ge n (2 ^ 31) with hlt | hge
      · rw [show 2 ^ 31 - n = 2 ^ 31 - (n + 1) + 1 by omega, List.drop_succ_cons]
        exact hg
      · rw [show 2 ^ 31 - n = 0 by omega]
        exact List.mem_cons_of_mem f (List.mem_of_mem_drop hg)
    have hend' : ∀ i < fs.length, place cpuFreq timeBase cycle + (n + 1 + i : ℕ) / 1000 ≤ B :=
      fun i hi => by
        rw [show n + 1 + i = n + (i + 1) by omega]
        exact hend (i + 1) (by simpa using hi)
    have hstep := add_ns_le n.le_succ (place cpuFreq timeBase cycle)
    have hcast : (n : ℤ) + 1 = ((n + 1 : ℕ) : ℤ) := by push_cast; rfl
    rw [popCalls, hcast]
    by_cases hzero : f.cycle = 0
    · rw [List.cons_append, starts_cons_zero hzero] at h
      rw [intervals_cons_incomplete (by simp [FunctionCall.isComplete, hzero])]
      exact nesting_popCalls rest fs h hB (hb.trans hstep) hfs' hfit' hend'
    · have hn : n < 2 ^ 31 := by
        by_contra hn
        exact hzero (hfit f (by rw [show 2 ^ 31 - n = 0 by omega]; exact List.mem_cons_self))
      have hcycle : cycle ≠ 0 := by
        rintro rfl
        exact hzero (UInt64.le_antisymm hle (UInt64.zero_le))
      rw [List.cons_append, starts_cons hzero] at h
      rw [intervals_cons_complete (by simp [FunctionCall.isComplete, hzero, hcycle]),
        interval_pop cpuFreq hbase hle hn, Set.union_insert, ← Set.insert_union]
      have h0 := hend 0 (by simp)
      rw [Nat.add_zero] at h0
      exact nesting_popCalls rest fs (h.pop hb) h0 hstep hfs' hfit' hend'

end

/-! ## The run -/

/-- How far the call of the `n`-th orphan return is shifted back, in microseconds. -/
def reach (n : ℕ) : ℚ := if n < 2 ^ 31 then n / 1000 else (2 ^ 64 - 2 ^ 31) / 1000

theorem reach_le_succ (n : ℕ) : reach n ≤ reach (n + 1) := by
  unfold reach
  split_ifs with h h'
  · push_cast; linarith
  · have hn : (n : ℚ) < 2 ^ 31 := by exact_mod_cast h
    linarith
  · omega
  · exact le_rfl

variable (cpuFreq) in
theorem interval_orphan {s : SymInfo} {earliest cycle : UInt64} {n : ℕ}
    (hbase : timeBase ≤ earliest) (hcycle : earliest ≤ cycle) (hn : n < 2 ^ 31) :
    (⟨s, earliest, cycle, -((n : ℤ) + 1)⟩ : FunctionCall).interval cpuFreq timeBase =
      (place cpuFreq timeBase earliest - reach (n + 1), place cpuFreq timeBase cycle) := by
  have hextra : (⟨s, earliest, cycle, -((n : ℤ) + 1)⟩ : FunctionCall).extraCall = reach (n + 1) ∧
      (⟨s, earliest, cycle, -((n : ℤ) + 1)⟩ : FunctionCall).extraRet = 0 := by
    unfold reach
    split_ifs with h
    · exact FunctionCall.extra_of_neg (by push_cast; rfl) h
    · refine FunctionCall.extra_of_wrapped (Or.inr ?_)
      simp only
      omega
  rw [FunctionCall.interval_eq hbase hcycle, hextra.1, hextra.2, add_zero]

/-- The state `d` with the intervals `E` written so far, at time `b`. -/
structure Nested (cpuFreq timeBase earliest : UInt64) (E : Set (ℚ × ℚ)) (d : Dec) (b : ℚ) :
    Prop where
  nesting : ∃ n : ℕ, d.numOrphanReturns = n ∧
    Nesting E (starts cpuFreq timeBase d.stack) (place cpuFreq timeBase earliest - reach n) b
  frames : ∀ f ∈ d.stack, earliest ≤ f.cycle

section
variable (sym : UInt64 → SymInfo) (earliest : UInt64)

/-- Counters that fit into an `i32`.  Nothing is written for cycle zero. -/
structure CountersFit (d : Dec) (e : FunTraceEntry) : Prop where
  pops : ∀ f ∈ (d.stack.take (popCount sym d.stack e)).drop (2 ^ 31 - firstExtra e), f.cycle = 0
  orphans : e.isRet → d.stack = [] → earliest ≠ 0 → d.numOrphanReturns < 2 ^ 31

variable {sym earliest}

/-- **One entry** keeps the intervals laminar, if it comes later than all there is. -/
theorem nested_handle (hfreq : cpuFreq ≠ 0) {d : Dec} {e : FunTraceEntry} {E : Set (ℚ × ℚ)}
    {b B : ℚ} (h : Nested cpuFreq timeBase earliest E d b) (hbase : timeBase ≤ earliest)
    (he : earliest ≤ e.cycle) (hb : b < place cpuFreq timeBase e.cycle)
    (hB : place cpuFreq timeBase e.cycle ≤ B) (hfit : CountersFit sym earliest d e)
    (hend : ∀ i < (d.stack.take (popCount sym d.stack e)).length,
      place cpuFreq timeBase e.cycle + (firstExtra e + i : ℕ) / 1000 ≤ B) :
    Nested cpuFreq timeBase earliest
      (E ∪ intervals cpuFreq timeBase (handle sym earliest d e).2) (handle sym earliest d e).1 B := by
  obtain ⟨⟨n, hn, hnest⟩, hframes⟩ := h
  have hreach : 0 ≤ reach n := by unfold reach; split_ifs <;> positivity
  cases hcall : e.isCall with
  | true =>
    rw [handle_call _ _ hcall, intervals_nil, Set.union_empty]
    refine ⟨⟨n, hn, ?_⟩, fun f hf => ?_⟩
    · by_cases hzero : e.cycle = 0
      · rw [starts_cons_zero hzero]
        exact hnest.mono le_rfl (hb.le.trans hB)
      · rw [starts_cons hzero]
        have hle := (place_le_iff hfreq hbase (UInt64.le_trans hbase he)).2 he
        exact (hnest.push (by linarith) hb).mono le_rfl hB
    · rcases List.mem_cons.1 hf with rfl | hf
      exacts [he, hframes f hf]
  | false =>
    by_cases hd : e.isRet ∧ d.stack = []
    · -- an orphan return reaches around everything, unless its call cycle is zero
      have hstack : (handle sym earliest d e).1.stack = [] := by
        rw [handle_orphan _ hd.1 hd.2, orphanReturn]
        split <;> exact hd.2
      have hcount : (handle sym earliest d e).1.numOrphanReturns = (n + 1 : ℕ) := by
        rw [handle_numOrphanReturns, if_pos hd, hn]
        rfl
      obtain ⟨s, hcalls⟩ := handle_orphan_calls sym earliest hd.1 hd.2
      rw [hn] at hcalls
      rw [hd.2] at hnest
      refine ⟨⟨n + 1, hcount, ?_⟩, by simp [hstack]⟩
      rw [hstack, hcalls]
      have hback : place cpuFreq timeBase earliest - reach (n + 1) ≤
          place cpuFreq timeBase earliest - reach n := by linarith [reach_le_succ n]
      by_cases hzero : earliest = 0
      · rw [intervals_cons_incomplete (by simp [FunctionCall.isComplete, hzero]), intervals_nil,
          Set.union_empty]
        exact hnest.mono hback (hb.le.trans hB)
      · have hcycle : e.cycle ≠ 0 := by
          intro h0
          rw [h0] at he
          exact hzero (UInt64.le_antisymm he (UInt64.zero_le))
        have hlt := hfit.orphans hd.1 hd.2 hzero
        rw [intervals_cons_complete (by simp [FunctionCall.isComplete, hzero, hcycle]),
          interval_orphan cpuFreq hbase he (by omega), intervals_nil, Set.union_insert, Set.union_empty]
        exact (hnest.around hback hb.le).mono le_rfl hB
    · obtain ⟨hstack, hcount, hcalls⟩ :=
        @handle_pop sym earliest d e hcall fun hr h => hd ⟨hr, h⟩
      refine ⟨⟨n, hcount.trans hn, ?_⟩, fun f hf => hframes f ?_⟩
      · rw [hstack, hcalls, intervals_append,
          Set.union_eq_left.2 (intervals_mono fun c hc => mem_popCalls_of_repeated hc)]
        refine nesting_popCalls _ _ (by rwa [List.take_append_drop]) (hb.le.trans hB) ?_
          (fun f hf => ⟨?_, ?_⟩) hfit.pops hend
        · have : (0 : ℚ) ≤ (firstExtra e : ℕ) / 1000 := by positivity
          linarith
        · exact UInt64.le_trans hbase (hframes f (List.mem_of_mem_take hf))
        · have hf := List.mem_of_mem_take hf
          by_cases hzero : f.cycle = 0
          · rw [hzero]; exact UInt64.zero_le
          · have hmem : place cpuFreq timeBase f.cycle ∈ starts cpuFreq timeBase d.stack :=
              List.mem_map.2 ⟨f, List.mem_filter.2 ⟨hf, by simpa using hzero⟩, rfl⟩
            exact (place_le_iff hfreq (UInt64.le_trans hbase (hframes f hf))
              (UInt64.le_trans hbase he)).1 ((hnest.open_le _ hmem).trans hb.le)
      · rw [hstack] at hf
        exact List.mem_of_mem_drop hf

theorem Nested.mono {E : Set (ℚ × ℚ)} {d : Dec} {b B : ℚ}
    (h : Nested cpuFreq timeBase earliest E d b) (hB : b ≤ B) :
    Nested cpuFreq timeBase earliest E d B :=
  let ⟨n, hn, hnest⟩ := h.nesting
  ⟨⟨n, hn, hnest.mono le_rfl hB⟩, h.frames⟩

/-- **A run** keeps the intervals laminar, if its entries are more than `N` nanoseconds apart
    and there are no more than `N` of them. -/
theorem nested_run (hfreq : cpuFreq ≠ 0) (hbase : timeBase ≤ earliest) {N : ℕ} :
    ∀ (es : List FunTraceEntry) {d : Dec} {E : Set (ℚ × ℚ)} {b : ℚ},
      Nested cpuFreq timeBase earliest E d b →
      (∀ e ∈ es, earliest ≤ e.cycle ∧ b < place cpuFreq timeBase e.cycle) →
      (es.Pairwise fun e e' =>
        place cpuFreq timeBase e.cycle + N / 1000 < place cpuFreq timeBase e'.cycle) →
      d.stack.length + es.length ≤ N →
      (∀ s ∈ runSteps sym earliest d es, CountersFit sym earliest s.1 s.2) →
      ∃ b', Nested cpuFreq timeBase earliest
          (E ∪ intervals cpuFreq timeBase (runEntries sym earliest d es).2)
          (runEntries sym earliest d es).1 b' ∧
        ∀ x, b < x → (∀ e ∈ es, place cpuFreq timeBase e.cycle + N / 1000 < x) → b' < x
  | [], d, E, b, h, _, _, _, _ => ⟨b, by simpa [runEntries] using h, fun x hx _ => hx⟩
  | e :: es, d, E, b, h, hes, hgap, hlen, hfit => by
    obtain ⟨he, hb⟩ := hes e List.mem_cons_self
    obtain ⟨hgap₁, hgap⟩ := List.pairwise_cons.1 hgap
    have hN : (0 : ℚ) ≤ (N : ℚ) / 1000 := by positivity
    have hlen' : (handle sym earliest d e).1.stack.length + es.length ≤ N := by
      have := (handle_stack_sublist sym earliest d e).length_le
      simp only [List.length_cons] at this hlen
      omega
    have hstep := nested_handle (B := place cpuFreq timeBase e.cycle + N / 1000) hfreq h hbase he hb
      (by linarith) (hfit _ List.mem_cons_self) fun i hi => by
        have : firstExtra e + i ≤ N := by
          have := firstExtra_le_one e
          simp only [List.length_take, List.length_cons] at hi hlen
          omega
        exact add_ns_le this _
    obtain ⟨b', hrun, hb'⟩ := nested_run hfreq hbase es hstep
      (fun e' he' => ⟨(hes e' (List.mem_cons_of_mem e he')).1, hgap₁ e' he'⟩) hgap hlen'
      fun s hs => hfit s (List.mem_cons_of_mem _ hs)
    refine ⟨b', ?_, fun x hx hall => hb' x (hall e List.mem_cons_self)
      fun e' he' => hall e' (List.mem_cons_of_mem e he')⟩
    rw [runEntries, intervals_append, ← Set.union_assoc]
    exact hrun

end

/-! ## A thread -/

section
variable (sym : UInt64 → SymInfo) (earliest latest : UInt64)

/-- When the intervals written for a list of reported entries are laminar: the counters fit
    into an `i32`, and if the last entry is the last of the thread and pops frames that end
    more than a nanosecond after it, no frame is left. -/
structure Safe (es : List FunTraceEntry) : Prop where
  counters : ∀ s ∈ runSteps sym earliest Dec.init es, CountersFit sym earliest s.1 s.2
  opens : ∀ f ∈ (runEntries sym earliest Dec.init es).1.stack.drop (2 ^ 31 - 1), f.cycle = 0
  last : ∀ s ∈ (runSteps sym earliest Dec.init es).getLast?, s.2.cycle = latest →
    popCount sym s.1.stack s.2 + firstExtra s.2 ≤ 2 ∨
      ∀ f ∈ s.1.stack.drop (popCount sym s.1.stack s.2), f.cycle = 0

variable {sym earliest latest}

theorem intervals_popCalls_zero {fs : List FunTraceEntry} {cycle : UInt64}
    (h : ∀ f ∈ fs, f.cycle = 0) :
    ∀ n, intervals cpuFreq timeBase (popCalls sym cycle n fs) = ∅ := by
  induction fs with
  | nil => intro n; exact intervals_nil
  | cons f fs ih =>
    intro n
    rw [popCalls, intervals_cons_incomplete
      (by simp [FunctionCall.isComplete, h f List.mem_cons_self])]
    exact ih (fun g hg => h g (List.mem_cons_of_mem f hg)) _

theorem intervals_reverse (cs : List FunctionCall) :
    intervals cpuFreq timeBase cs.reverse = intervals cpuFreq timeBase cs := by
  simp [intervals]

theorem nested_init : Nested cpuFreq timeBase earliest ∅ Dec.init
    (place cpuFreq timeBase earliest - 1) where
  nesting := ⟨0, rfl, Nesting.empty _ _⟩
  frames := by simp [Dec.init]

/-- The fake returns, when what was written ends within a nanosecond of the last entry. -/
theorem laminar_fakeReturns {E : Set (ℚ × ℚ)} {d : Dec} {b : ℚ}
    (h : Nested cpuFreq timeBase earliest E d b)
    (hb : b ≤ place cpuFreq timeBase latest + (1 : ℕ) / 1000) (hbase : timeBase ≤ earliest)
    (hle : ∀ f ∈ d.stack, f.cycle ≤ latest) (hopens : ∀ f ∈ d.stack.drop (2 ^ 31 - 1), f.cycle = 0) :
    Laminar (E ∪ intervals cpuFreq timeBase (fakeReturns sym latest d.stack)) := by
  obtain ⟨⟨n, -, hnest⟩, hframes⟩ := h
  rw [fakeReturns_eq, intervals_reverse]
  refine (nesting_popCalls [] (n := 1)
    (B := place cpuFreq timeBase latest + ((1 + d.stack.length : ℕ) : ℚ) / 1000) d.stack
    (by rwa [List.append_nil]) (hb.trans ?_) hb
    (fun f hf => ⟨UInt64.le_trans hbase (hframes f hf), hle f hf⟩) hopens
    fun i hi => add_ns_le (by omega) _).laminar
  exact add_ns_le (by omega) _

/-- **The condition is enough.** -/
theorem laminar_of_safe (hfreq : cpuFreq ≠ 0) (hbase : timeBase ≤ earliest) {N : ℕ}
    {es : List FunTraceEntry} (hes : ∀ e ∈ es, earliest ≤ e.cycle ∧ e.cycle ≤ latest)
    (hlatest : ∀ e ∈ es, e.cycle = latest ∨
      place cpuFreq timeBase e.cycle + N / 1000 < place cpuFreq timeBase latest)
    (hgap : es.Pairwise fun e e' =>
      place cpuFreq timeBase e.cycle + N / 1000 < place cpuFreq timeBase e'.cycle)
    (hlen : es.length ≤ N) (hsafe : Safe sym earliest latest es) :
    Laminar (intervals cpuFreq timeBase (decodeReported sym earliest latest es)) := by
  have hN : (0 : ℚ) ≤ (N : ℚ) / 1000 := by positivity
  have hstart : ∀ e ∈ es, earliest ≤ e.cycle ∧
      place cpuFreq timeBase earliest - 1 < place cpuFreq timeBase e.cycle := fun e he => by
    have hle := (hes e he).1
    exact ⟨hle, by linarith [(place_le_iff hfreq hbase (UInt64.le_trans hbase hle)).2 hle]⟩
  have hframes : ∀ f ∈ (runEntries sym earliest Dec.init es).1.stack, f.cycle ≤ latest :=
    fun f hf => (hes f (mem_of_mem_stack hf)).2
  rw [decodeReported, intervals_append]
  rcases es.eq_nil_or_concat' with rfl | ⟨pre, e, rfl⟩
  · simp [runEntries, fakeReturns, Dec.init, Laminar]
  rcases hlatest e (by simp) with hlast | hlast
  · -- the last entry is the last of the thread
    obtain ⟨hgap, -, hgap'⟩ := List.pairwise_append.1 hgap
    have hfit : ∀ s ∈ runSteps sym earliest Dec.init pre, CountersFit sym earliest s.1 s.2 :=
      fun s hs => hsafe.counters s (by rw [runSteps_append]; exact List.mem_append_left _ hs)
    obtain ⟨b, hrun, hb⟩ := nested_run hfreq hbase pre nested_init
      (fun e' he' => hstart e' (List.mem_append_left _ he')) hgap
      (by simp [Dec.init] at hlen ⊢; omega) hfit
    rw [Set.empty_union] at hrun
    have hbe := hb _ (hstart e (by simp)).2 fun e' he' => hgap' e' he' e (by simp)
    have hfit : CountersFit sym earliest (runEntries sym earliest Dec.init pre).1 e :=
      hsafe.counters _ (by rw [runSteps_append]; exact List.mem_append_right _ List.mem_cons_self)
    have hend := hsafe.last ((runEntries sym earliest Dec.init pre).1, e)
      (by rw [runSteps_append]; simp [runSteps]) hlast
    rw [runEntries_append] at hframes ⊢
    have hopens := hsafe.opens
    rw [runEntries_append] at hopens
    simp only [runEntries, List.append_nil, intervals_append] at hframes hopens ⊢
    set d := (runEntries sym earliest Dec.init pre).1
    have hextra : ∀ i < (d.stack.take (popCount sym d.stack e)).length,
        firstExtra e + i < firstExtra e + popCount sym d.stack e := fun i hi => by
      rw [List.length_take] at hi
      omega
    by_cases hsmall : popCount sym d.stack e + firstExtra e ≤ 2
    · have hstep := nested_handle (B := place cpuFreq timeBase e.cycle + (1 : ℕ) / 1000) hfreq hrun
        hbase (hes e (by simp)).1 hbe (le_add_of_nonneg_right (by positivity)) hfit
        fun i hi => add_ns_le (by have := hextra i hi; omega) _
      exact laminar_fakeReturns hstep (by rw [hlast]) hbase hframes hopens
    · have hzero := hend.resolve_left hsmall
      have hstep := nested_handle
        (B := place cpuFreq timeBase e.cycle + ((firstExtra e + popCount sym d.stack e : ℕ) : ℚ) / 1000)
        hfreq hrun hbase (hes e (by simp)).1 hbe (le_add_of_nonneg_right (by positivity)) hfit
        fun i hi => add_ns_le (hextra i hi).le _
      have hpops : 1 < popCount sym d.stack e := by have := firstExtra_le_one e; omega
      have hleft : ∀ f ∈ (handle sym earliest d e).1.stack, f.cycle = 0 := fun f hf =>
        hzero f (by rwa [handle_stack_of_pops earliest hpops] at hf)
      rw [fakeReturns_eq, intervals_reverse, intervals_popCalls_zero hleft, Set.union_empty]
      exact hstep.nesting.choose_spec.2.laminar
  · obtain ⟨b, hrun, hb⟩ := nested_run hfreq hbase _ nested_init hstart hgap
      (by simpa [Dec.init] using hlen) hsafe.counters
    rw [Set.empty_union] at hrun
    have hbe := hb (place cpuFreq timeBase latest)
      (by linarith [(hstart e (by simp)).2]) fun e' he' => by
        rcases List.mem_append.1 he' with he' | he'
        · linarith [(List.pairwise_append.1 hgap).2.2 e' he' e (by simp)]
        · rwa [List.mem_singleton.1 he']
    exact laminar_fakeReturns hrun (by push_cast; linarith) hbase hframes hsafe.opens

/-! ### Overlaps -/

variable (cpuFreq timeBase sym) in
theorem mem_intervals_popCalls (cycle : UInt64) (fs : List FunTraceEntry) (n : ℕ) {i : ℕ}
    (hi : i < fs.length) (hcycle : fs[i].cycle ≤ cycle) (hzero : fs[i].cycle ≠ 0) :
    (⟨symOf sym fs[i], fs[i].cycle, cycle, (n + i : ℕ)⟩ : FunctionCall).interval cpuFreq timeBase ∈
      intervals cpuFreq timeBase (popCalls sym cycle n fs) := by
  have hlen : i < (popCalls sym cycle n fs).length := by simpa using hi
  have hne : cycle ≠ 0 := by
    rintro rfl
    exact hzero (UInt64.le_antisymm hcycle UInt64.zero_le)
  refine ⟨_, List.getElem_mem hlen, ?_, ?_⟩
  · rw [getElem_popCalls sym cycle fs n i hi hlen]
    simp [FunctionCall.isComplete, hzero, hne]
  · rw [getElem_popCalls sym cycle fs n i hi hlen]
    push_cast
    rfl

/-- Only the bottom frame can have cycle zero. -/
theorem cycle_ne_zero {fs : List FunTraceEntry} (hsorted : fs.Pairwise (·.cycle > ·.cycle))
    {i j : ℕ} (hij : i ≤ j) (hj : j < fs.length) (hzero : fs[j].cycle ≠ 0) :
    fs[i].cycle ≠ 0 := by
  rcases Nat.eq_or_lt_of_le hij with rfl | hlt
  · exact hzero
  · have hgt : fs[j].cycle < fs[i].cycle :=
      List.pairwise_iff_getElem.1 hsorted i j (by omega) hj hlt
    exact fun h0 => absurd (h0 ▸ hgt) (UInt64.not_lt.2 UInt64.zero_le)

variable (sym) in
/-- Popping so many frames that the counter wraps around breaks the nesting. -/
theorem fit_of_laminar (hfreq : cpuFreq ≠ 0) {cycle : UInt64} {fs : List FunTraceEntry} {n : ℕ}
    (hn : n ≤ 1) (hsorted : fs.Pairwise (·.cycle > ·.cycle))
    (hfs : ∀ f ∈ fs, timeBase ≤ f.cycle ∧ f.cycle ≤ cycle)
    (h : Laminar (intervals cpuFreq timeBase (popCalls sym cycle n fs))) :
    ∀ f ∈ fs.drop (2 ^ 31 - n), f.cycle = 0 := by
  -- `k + 1` is where the counter wraps around, `k` the frame before
  obtain ⟨k, hk⟩ : ∃ k, 2 ^ 31 - n = k + 1 := ⟨2 ^ 31 - n - 1, by omega⟩
  rw [hk]
  intro f hf
  by_contra hzero
  obtain ⟨j, hj, rfl⟩ := List.getElem_of_mem hf
  rw [List.length_drop] at hj
  rw [List.getElem_drop] at hzero
  have hlen : k + 1 < fs.length := by omega
  have hlen' : k < fs.length := by omega
  have hlt : fs[k + 1].cycle < fs[k].cycle :=
    List.pairwise_iff_getElem.1 hsorted k (k + 1) hlen' hlen (by omega)
  have hpos := cycle_ne_zero hsorted (show k + 1 ≤ k + 1 + j by omega) (by omega) hzero
  have hpos' := cycle_ne_zero hsorted (show k ≤ k + 1 + j by omega) (by omega) hzero
  obtain ⟨hbase, hle⟩ := hfs _ (List.getElem_mem hlen)
  obtain ⟨hbase', hle'⟩ := hfs _ (List.getElem_mem hlen')
  have hI := mem_intervals_popCalls cpuFreq timeBase sym cycle fs n hlen hle hpos
  have hJ := mem_intervals_popCalls cpuFreq timeBase sym cycle fs n hlen' hle' hpos'
  have hwrap : n + (k + 1) = 2 ^ 31 := by omega
  obtain ⟨hcall, hret⟩ := @FunctionCall.extra_of_wrapped
    ⟨symOf sym fs[k + 1], fs[k + 1].cycle, cycle, (n + (k + 1) : ℕ)⟩ (Or.inl (by simp [hwrap]))
  rw [FunctionCall.interval_eq hbase hle, hcall, hret] at hI
  rw [interval_pop cpuFreq hbase' hle' (by omega)] at hJ
  have hplace := (place_lt_iff hfreq hbase hbase').2 hlt
  have hplace' := (place_le_iff hfreq hbase' (UInt64.le_trans hbase' hle')).2 hle'
  have hextra : (1 : ℚ) ≤ ((n + k : ℕ) : ℚ) := by exact_mod_cast (by omega)
  refine not_fits ?_ ?_ ?_ (h _ hI _ hJ)
  · norm_num
    linarith
  · simpa using hplace'
  · simp only
    linarith

variable (sym) in
/-- So does an orphan return after `2 ^ 31` others. -/
theorem orphans_fit_of_laminar (hfreq : cpuFreq ≠ 0) (hbase : timeBase ≤ earliest)
    (es : List FunTraceEntry) (hes : ∀ e ∈ es, earliest ≤ e.cycle)
    (hsorted : es.Pairwise (·.cycle < ·.cycle)) (hzero : earliest ≠ 0)
    (h : Laminar (intervals cpuFreq timeBase (runEntries sym earliest Dec.init es).2)) :
    (runEntries sym earliest Dec.init es).1.numOrphanReturns ≤ 2 ^ 31 := by
  by_contra hlt
  obtain ⟨pre', e', post', rfl, hret', hstack', hnum'⟩ :=
    exists_orphan sym earliest (k := 2 ^ 31) (by norm_num) es (by omega)
  obtain ⟨pre, e, post, rfl, hret, hstack, hnum⟩ :=
    exists_orphan sym earliest (k := 0) le_rfl pre' (by omega)
  obtain ⟨s', hcall'⟩ := handle_orphan_calls sym earliest hret' hstack'
  obtain ⟨s, hcall⟩ := handle_orphan_calls sym earliest hret hstack
  rw [hnum'] at hcall'
  rw [hnum] at hcall
  have hc' := mem_runEntries_calls post' (by rw [hcall']; exact List.mem_singleton_self _)
  have hc := mem_runEntries_calls (post ++ e' :: post')
    (by rw [hcall]; exact List.mem_singleton_self _)
  rw [← List.cons_append, ← List.append_assoc] at hc
  have hle := hes e (by simp)
  have hle' := hes e' (by simp)
  have hlt : e.cycle < e'.cycle :=
    (List.pairwise_append.1 hsorted).2.2 e (by simp) e' List.mem_cons_self
  have hne : e.cycle ≠ 0 := fun h0 =>
    hzero (UInt64.le_antisymm (h0 ▸ hle) UInt64.zero_le)
  have hne' : e'.cycle ≠ 0 := fun h0 =>
    hzero (UInt64.le_antisymm (h0 ▸ hle') UInt64.zero_le)
  have hI : _ ∈ intervals cpuFreq timeBase _ :=
    ⟨_, hc, by simp [FunctionCall.isComplete, hzero, hne], rfl⟩
  have hJ : _ ∈ intervals cpuFreq timeBase _ :=
    ⟨_, hc', by simp [FunctionCall.isComplete, hzero, hne'], rfl⟩
  have hreach : (0 : ℚ) < reach (0 + 1) := by unfold reach; norm_num
  have hint := interval_orphan cpuFreq (s := s) (n := 0) hbase hle (by norm_num)
  obtain ⟨hextra, hextra'⟩ := @FunctionCall.extra_of_wrapped_neg
    ⟨s', earliest, e'.cycle, -(2 ^ 31 + 1)⟩ rfl
  rw [Nat.cast_zero] at hint
  rw [hint] at hI
  rw [FunctionCall.interval_eq hbase hle', hextra, hextra', sub_zero] at hJ
  have hbase' := UInt64.le_trans hbase hle
  have hplace := (place_le_iff hfreq hbase hbase').2 hle
  have hplace' := (place_lt_iff hfreq hbase' (UInt64.le_trans hbase hle')).2 hlt
  refine not_fits ?_ hplace ?_ (h _ hI _ hJ)
  · simp only
    linarith
  · norm_num
    linarith

variable (sym) in
/-- So does a last entry whose frames end after the fake return of a frame under them. -/
theorem last_of_laminar (hfreq : cpuFreq ≠ 0) {stack : List FunTraceEntry} {e : FunTraceEntry}
    (hsorted : stack.Pairwise (·.cycle > ·.cycle))
    (hstack : ∀ f ∈ stack, timeBase ≤ f.cycle ∧ f.cycle ≤ e.cycle)
    (h : Laminar (intervals cpuFreq timeBase
      (popCalls sym e.cycle (firstExtra e) (stack.take (popCount sym stack e)) ++
        fakeReturns sym e.cycle (stack.drop (popCount sym stack e))))) :
    popCount sym stack e + firstExtra e ≤ 2 ∨
      ∀ f ∈ stack.drop (popCount sym stack e), f.cycle = 0 := by
  by_contra hnot
  push Not at hnot
  obtain ⟨hmany, f, hf, hzero⟩ := hnot
  obtain ⟨j, hj, rfl⟩ := List.getElem_of_mem hf
  rw [List.length_drop] at hj
  rw [List.getElem_drop] at hzero
  -- the popped frame that ends two nanoseconds late, and the top of the rest
  set p := popCount sym stack e
  obtain ⟨q, hq⟩ : ∃ q, firstExtra e + q = 2 :=
    ⟨2 - firstExtra e, by have := firstExtra_le_one e; omega⟩
  have hp : p < stack.length := by omega
  have hqp : q < p := by omega
  have hlt : stack[p].cycle < stack[q].cycle :=
    List.pairwise_iff_getElem.1 hsorted q p (by omega) hp hqp
  have hpos := cycle_ne_zero hsorted (show p ≤ p + j by omega) (by omega) hzero
  have hpos' := cycle_ne_zero hsorted (show q ≤ p + j by omega) (by omega) hzero
  obtain ⟨hbase, hle⟩ := hstack _ (List.getElem_mem hp)
  obtain ⟨hbase', hle'⟩ := hstack _ (List.getElem_mem (show q < stack.length by omega))
  rw [intervals_append, fakeReturns_eq, intervals_reverse] at h
  have hI := mem_intervals_popCalls cpuFreq timeBase sym e.cycle (stack.drop p) 1 (i := 0)
    (by simp; omega) (by simpa using hle)
    (by simpa using hpos)
  have hJ := mem_intervals_popCalls cpuFreq timeBase sym e.cycle (stack.take p) (firstExtra e)
    (i := q) (by simp; omega)
    (by simpa using hle') (by simpa using hpos')
  simp only [List.getElem_drop, Nat.add_zero] at hI
  simp only [List.getElem_take, hq] at hJ
  rw [interval_pop cpuFreq hbase hle (by norm_num)] at hI
  rw [interval_pop cpuFreq hbase' hle' (by norm_num)] at hJ
  have hplace := (place_lt_iff hfreq hbase hbase').2 hlt
  have hplace' := (place_le_iff hfreq hbase' (UInt64.le_trans hbase' hle')).2 hle'
  refine not_fits hplace ?_ ?_ (h _ (Or.inr hI) _ (Or.inl hJ))
  · norm_num
    linarith
  · norm_num

/-- **The condition is necessary.** -/
theorem safe_of_laminar (hfreq : cpuFreq ≠ 0) (hbase : timeBase ≤ earliest)
    {es : List FunTraceEntry} (hes : ∀ e ∈ es, earliest ≤ e.cycle ∧ e.cycle ≤ latest)
    (hsorted : es.Pairwise (·.cycle < ·.cycle))
    (h : Laminar (intervals cpuFreq timeBase (decodeReported sym earliest latest es))) :
    Safe sym earliest latest es := by
  have hcalls : ∀ {cs : List FunctionCall},
      cs ⊆ (runEntries sym earliest Dec.init es).2 → Laminar (intervals cpuFreq timeBase cs) :=
    fun hcs => h.mono (intervals_mono fun c hc => List.mem_append_left _ (hcs hc))
  have hframes : ∀ f ∈ (runEntries sym earliest Dec.init es).1.stack,
      timeBase ≤ f.cycle ∧ f.cycle ≤ latest := fun f hf =>
    have hf := hes f (mem_of_mem_stack hf)
    ⟨UInt64.le_trans hbase hf.1, hf.2⟩
  refine ⟨fun s hs => ?_, ?_, fun s hs hlast => ?_⟩
  · obtain ⟨pre, post, rfl, hstate⟩ := mem_runSteps.1 hs
    obtain ⟨hpre, -, hlt⟩ := List.pairwise_append.1 hsorted
    have hstack := stack_sorted sym earliest hpre
    rw [hstate]
    refine ⟨fit_of_laminar sym hfreq (firstExtra_le_one s.2) (hstack.sublist (List.take_sublist _ _))
      (fun f hf => ?_) (hcalls fun c hc => mem_runEntries_calls _ (popCalls_subset_handle _ _ _ hc)),
      fun hret hd hzero => ?_⟩
    · have hf := mem_of_mem_stack (List.mem_of_mem_take hf)
      exact ⟨UInt64.le_trans hbase (hes f (by simp [hf])).1,
        UInt64.le_of_lt (hlt f hf s.2 List.mem_cons_self)⟩
    · have hsub : pre ++ [s.2] ⊆ pre ++ s.2 :: post := by simp
      have hnum := orphans_fit_of_laminar sym hfreq hbase (pre ++ [s.2])
        (fun e he => (hes e (hsub he)).1) (hsorted.sublist (by simp)) hzero
        (hcalls (by rw [runEntries_append, runEntries_append]; simp [runEntries]))
      rw [runEntries_append] at hnum
      simp only [runEntries, handle_numOrphanReturns, if_pos (And.intro hret hd)] at hnum
      omega
  · refine fit_of_laminar sym hfreq le_rfl (stack_sorted _ _ hsorted) hframes (h.mono ?_)
    rw [decodeReported, fakeReturns_eq, intervals_append, intervals_reverse]
    exact Set.subset_union_right
  · rcases es.eq_nil_or_concat' with rfl | ⟨pre, e, rfl⟩
    · simp [runSteps] at hs
    obtain rfl : ((runEntries sym earliest Dec.init pre).1, e) = s := by
      simpa [runSteps_append, runSteps] using hs
    obtain ⟨hpre, -, hlt⟩ := List.pairwise_append.1 hsorted
    rcases Nat.lt_or_ge 2 (popCount sym (runEntries sym earliest Dec.init pre).1.stack e +
      firstExtra e) with hmany | hsmall
    · have hpops : 1 < popCount sym (runEntries sym earliest Dec.init pre).1.stack e := by
        have := firstExtra_le_one e
        omega
      refine last_of_laminar sym hfreq (stack_sorted _ _ hpre) (fun f hf => ?_)
        (h.mono (intervals_mono fun c hc => ?_))
      · have hf := mem_of_mem_stack hf
        exact ⟨UInt64.le_trans hbase (hes f (by simp [hf])).1, UInt64.le_of_lt (hlt f hf e (by simp))⟩
      · rw [decodeReported, runEntries_append]
        simp only [runEntries, List.append_nil]
        rw [handle_stack_of_pops earliest hpops, ← hlast, List.append_assoc]
        refine List.mem_append_right _ ?_
        rcases List.mem_append.1 hc with hc | hc
        exacts [List.mem_append_left _ (popCalls_subset_handle _ _ _ hc), List.mem_append_right _ hc]
    · exact Or.inl hsmall

end

end

/-! ## Samples -/

/-- Consecutive timestamps are further apart than one nanosecond per entry. -/
def Spaced (cpuFreq : UInt64) (trace : List FunTraceEntry) : Prop :=
  cpuFreq ≠ 0 ∧ trace.IsChain fun e e' => e.cycle < e'.cycle ∧
    (trace.length / 1000 : ℚ) < (e'.cycle - e.cycle).toNat / FunctionCall.cyclesPerUs cpuFreq

instance (cpuFreq : UInt64) (trace : List FunTraceEntry) : Decidable (Spaced cpuFreq trace) := by
  unfold Spaced; infer_instance

instance (l : List (ℚ × ℚ)) : Decidable (Laminar {I | I ∈ l}) :=
  inferInstanceAs (Decidable (∀ I ∈ l, ∀ J ∈ l,
    (J.1 ≤ I.1 ∧ I.2 ≤ J.2) ∨ (I.1 ≤ J.1 ∧ J.2 ≤ I.2) ∨ (I.2 < J.1 ∨ J.2 < I.1)))

/-- In a spaced trace any two entries are that far apart. -/
theorem Spaced.pairwise {cpuFreq : UInt64} (timeBase : UInt64) {trace : List FunTraceEntry}
    (h : Spaced cpuFreq trace) : trace.Pairwise fun e e' => e.cycle < e'.cycle ∧
      (timeBase ≤ e.cycle → place cpuFreq timeBase e.cycle + trace.length / 1000 <
        place cpuFreq timeBase e'.cycle) := by
  have htrans : Trans
      (fun e e' : FunTraceEntry => e.cycle < e'.cycle ∧ (timeBase ≤ e.cycle →
        place cpuFreq timeBase e.cycle + trace.length / 1000 < place cpuFreq timeBase e'.cycle))
      (fun e e' : FunTraceEntry => e.cycle < e'.cycle ∧ (timeBase ≤ e.cycle →
        place cpuFreq timeBase e.cycle + trace.length / 1000 < place cpuFreq timeBase e'.cycle))
      (fun e e' : FunTraceEntry => e.cycle < e'.cycle ∧ (timeBase ≤ e.cycle →
        place cpuFreq timeBase e.cycle + trace.length / 1000 < place cpuFreq timeBase e'.cycle)) :=
    ⟨fun h h' => ⟨UInt64.lt_trans h.1 h'.1, fun hbase => by
      have hN : (0 : ℚ) ≤ (trace.length : ℚ) / 1000 := by positivity
      linarith [h.2 hbase, h'.2 (UInt64.le_trans hbase (UInt64.le_of_lt h.1))]⟩⟩
  refine List.isChain_iff_pairwise.1 (h.2.imp fun e e' hee' => ⟨hee'.1, fun hbase => ?_⟩)
  linarith [@place_sub cpuFreq timeBase _ _ hbase (UInt64.le_of_lt hee'.1), hee'.2]

namespace TraceConverter
variable (w : World) (c : TraceConverter) (sampleEntries : List ThreadTrace)
  (ftraceEvents : List FtraceEvent)

/-- What `Safe` says of the reported entries of a thread. -/
def SafeThread (t : ThreadTrace) : Prop :=
  let l := c.sampleLookup w sampleEntries ftraceEvents
  let oldest := c.oldestEvent sampleEntries ftraceEvents
  c.selects t → Safe l.sym (max (t.trace.head t.nonempty).cycle oldest)
    (t.trace.getLast t.nonempty).cycle (t.trace.filter (l.reports oldest))

/-- **Perfect nesting.**  If the timestamps of a thread are further apart than one nanosecond
    per entry, the intervals of its events are nested or disjoint iff the thread is safe. -/
theorem laminar_iff (i : Fin sampleEntries.length)
    (hspaced : Spaced c.cpuFreq (sampleEntries.get i).trace) :
    Laminar {I | I ∈ ((c.emitted w sampleEntries ftraceEvents).getD i []).map Prod.snd} ↔
      c.SafeThread w sampleEntries ftraceEvents (sampleEntries.get i) := by
  set t := sampleEntries.get i with ht
  set l := c.sampleLookup w sampleEntries ftraceEvents
  set oldest := c.oldestEvent sampleEntries ftraceEvents
  set timeBase := (c.thresholds sampleEntries ftraceEvents).2
  have hemitted : {I | I ∈ ((c.emitted w sampleEntries ftraceEvents).getD i []).map Prod.snd} =
      intervals c.cpuFreq timeBase (c.threadCalls l oldest t) := by
    rw [emitted, sampleCalls_eq]
    ext I
    simp [intervals, t, timeBase, l, oldest, and_assoc]
  rw [hemitted, threadCalls, SafeThread]
  split_ifs with hsel
  · have hpair := hspaced.pairwise timeBase
    have hsorted := hpair.imp fun {_ _} h => h.1
    have hbase : timeBase ≤ max (t.trace.head t.nonempty).cycle oldest :=
      UInt64.le_trans (c.timeBase_le_oldest _ _) (right_le_max _ _)
    have hreported : ∀ e ∈ t.trace.filter (l.reports oldest), e ∈ t.trace ∧ oldest ≤ e.cycle :=
      fun e he => by
        simp only [List.mem_filter, Lookup.reports, Bool.and_eq_true, Bool.not_eq_true',
          decide_eq_false_iff_not] at he
        exact ⟨he.1, UInt64.not_lt.1 he.2.1⟩
    have hbounds : ∀ e ∈ t.trace.filter (l.reports oldest),
        max (t.trace.head t.nonempty).cycle oldest ≤ e.cycle ∧
          e.cycle ≤ (t.trace.getLast t.nonempty).cycle := fun e he => by
      obtain ⟨he, hold⟩ := hreported e he
      exact ⟨max_le_of_le (t.head_le hsorted he) hold, t.le_last hsorted he⟩
    rw [imp_iff_right hsel]
    refine ⟨safe_of_laminar hspaced.1 hbase hbounds (hsorted.sublist List.filter_sublist),
      laminar_of_safe hspaced.1 hbase hbounds (fun e he => ?_) ?_ (List.length_filter_le _ _)⟩
    · obtain ⟨he, hold⟩ := hreported e he
      rcases t.eq_last_or_lt hpair he with rfl | hlt
      exacts [Or.inl rfl, Or.inr (hlt.2 (UInt64.le_trans (c.timeBase_le_oldest _ _) hold))]
    · refine (hpair.sublist List.filter_sublist).imp_of_mem fun {e e'} he _ h => h.2 ?_
      exact UInt64.le_trans (c.timeBase_le_oldest _ _) (hreported e he).2
  · simp [hsel, Laminar]

theorem laminar_iff_demo :
    let sample := [demoThread ⟨0x1100, 10⟩ [⟨0x1200, 20⟩, .traced 0x1200 returnFlag 30]]
    Laminar {I | I ∈ ((demoConverter.emitted demoWorld sample []).getD 0 []).map Prod.snd} ↔
      demoConverter.SafeThread demoWorld sample [] sample[0] :=
  laminar_iff demoWorld demoConverter _ [] ⟨0, by decide⟩ (by decide +kernel)

/-- A return of `g` that pops three frames and leaves `f`. -/
theorem not_laminar_last :
    let sample := [demoThread ⟨0x1100, 10⟩ [⟨0x1200, 20⟩, ⟨0x1300, 30⟩, ⟨0x1300, 40⟩,
      .traced 0x1200 returnFlag 50]]
    Spaced demoConverter.cpuFreq sample[0].trace ∧
      ¬ Laminar {I | I ∈ ((demoConverter.emitted demoWorld sample []).getD 0 []).map Prod.snd} := by
  decide +kernel

end TraceConverter

end Funtrace
