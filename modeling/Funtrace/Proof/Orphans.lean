/-
  Orphan returns that carry an address in the caller (XRay).

  Such a return does not say which function returns, but the return before it said
  where it returned to.  In a window of a run in which all functions are traced the
  entry before an orphan return is itself a return, into the function that returns next,
  so only the first entry of the window is of an unknown function (`orphans_named`).
-/
import Funtrace.Proof.Catches

namespace Funtrace

section
variable (sym : UInt64 → SymInfo)

/-- A call, or a return with an address in the immediate caller. -/
def Event.XRay : Event → List FunTraceEntry → Prop
  | .call e, _ => e.isCall
  | .ret e, S => e.isRetWithCallerAddr ∧ ∃ f S', S = f :: S' ∧ ∀ g ∈ S'.head?, symOf sym e = symOf sym g
  | .throw _ _, _ => False

/-- Each event is one of XRay where it happens. -/
def XRayRun : List Event → List FunTraceEntry → Prop
  | [], _ => True
  | ev :: evs, S => ev.XRay sym S ∧ XRayRun evs (ev.effect ev.entry S)

/-- A return whose call lies before the window. -/
structure Orphan where
  place : ℕ
  function : FunTraceEntry
  entry : FunTraceEntry

/-- The orphan that an event at place `i` is, in a window from `start` on. -/
def Event.orphan (start i : ℕ) : Event → List (ℕ × FunTraceEntry) → List Orphan
  | .ret e, (j, f) :: _ => if j < start then [⟨i, f, e⟩] else []
  | _, _ => []

/-- The returns of a run whose calls lie before the window. -/
def orphanReturns (start : ℕ) : List Event → ℕ → List (ℕ × FunTraceEntry) → List Orphan
  | [], _, _ => []
  | ev :: evs, i, S =>
    ev.orphan start i S ++ orphanReturns start evs (i + 1) (ev.effect (i, ev.entry) S)

/-- The call for the `n`-th orphan: under the symbol of its function, except at the start of
    the window. -/
def Orphan.call (start : ℕ) (earliest : UInt64) (n : ℕ) (o : Orphan) : FunctionCall :=
  ⟨if o.place = start then ProcAddr2Sym.unknownSymbol else symOf sym o.function, earliest,
    o.entry.cycle, -(n : ℤ)⟩

variable {sym} {earliest : UInt64} {pre win post : List Event}

/-! ## One event -/

theorem isRet_of_caller {e : FunTraceEntry} (h : e.isRetWithCallerAddr) : e.isRet := by
  have hcatch : e.isCatch = false := by
    rw [FunTraceEntry.isRetWithCallerAddr, Bool.and_eq_true] at h
    simpa using h.2
  rw [FunTraceEntry.isRet, h, hcatch, Bool.or_true]
  rfl

theorem legal_of_xray {ev : Event} {S : List FunTraceEntry} (h : ev.XRay sym S) : ev.Legal sym S := by
  cases ev with
  | call e => exact h
  | ret e =>
    obtain ⟨hcaller, f, S', rfl, hg⟩ := h
    refine ⟨isRet_of_caller hcaller, f, S', rfl, ?_⟩
    rw [if_pos hcaller]
    exact fun g hg' => congrArg SymInfo.demangledFunc (hg g hg')
  | throw n e => exact h.elim

/-- What is known before the event at place `i`: a window begins with nothing, after a call there
    is a frame, and after a return the function returned into. -/
def Announced (sym : UInt64 → SymInfo) (start i : ℕ) (d : Dec) (S : List (ℕ × FunTraceEntry)) : Prop :=
  (i = start ∧ d.expectingToReturnIntoSym = ProcAddr2Sym.unknownSymbol) ∨
    (start < i ∧ (d.stack ≠ [] ∨ ∀ p ∈ S.head?, d.expectingToReturnIntoSym = symOf sym p.2))

/-- **One event**: what it writes for an orphan, and what it announces. -/
theorem handle_xray {start i : ℕ} {d : Dec} {S : List (ℕ × FunTraceEntry)} {ev : Event} (n : ℕ)
    (htop : OnTop start d.stack S) (hev : ev.XRay sym (S.map Prod.snd))
    (hann : Announced sym start i d S) (hn : d.numOrphanReturns = n) :
    ((handle sym earliest d ev.entry).2.filter fun c => c.extraNs < 0) =
        (ev.orphan start i S).mapIdx (fun k o => o.call sym start earliest (n + k + 1)) ∧
      (handle sym earliest d ev.entry).1.numOrphanReturns = (n + (ev.orphan start i S).length : ℕ) ∧
      Announced sym start (i + 1) (handle sym earliest d ev.entry).1 (ev.effect (i, ev.entry) S) := by
  have hi : start < i + 1 := by
    rcases hann with ⟨rfl, -⟩ | ⟨hlt, -⟩
    · exact Nat.lt_succ_self i
    · exact Nat.lt_succ_of_lt hlt
  cases ev with
  | call e =>
    have he : e.isCall := hev
    rw [Event.entry, handle_call _ _ he]
    exact ⟨rfl, hn, Or.inr ⟨hi, Or.inl (List.cons_ne_nil _ _)⟩⟩
  | ret e =>
    obtain ⟨D, R, rfl, hd, hD, hR⟩ := htop
    have hlegal : Event.Legal sym (.ret e) (d.stack ++ R.map Prod.snd) := by
      rw [hd, ← List.map_append]
      exact legal_of_xray hev
    obtain ⟨hcaller, f, S', hS, hg⟩ := hev
    have htail : (D ++ R).tail.map Prod.snd = S' := by
      rw [List.map_tail, hS]
      rfl
    have hinto : ∀ p ∈ (D ++ R).tail.head?, symOf sym e = symOf sym p.2 := fun p hp =>
      hg p.2 (by rw [← htail, List.head?_map]; exact Option.mem_map_of_mem _ hp)
    cases D with
    | nil =>
      -- the call lies before the window
      obtain ⟨⟨j, f'⟩, R', rfl, rfl, -⟩ := List.map_eq_cons_iff.1 hS
      have hj : j < start := hR (j, f') List.mem_cons_self
      have horphan : Event.orphan start i (.ret e) ((j, f') :: R') = [⟨i, f', e⟩] := if_pos hj
      have hsym : d.expectingToReturnIntoSym =
          if i = start then ProcAddr2Sym.unknownSymbol else symOf sym f' := by
        rcases hann with ⟨rfl, hsym⟩ | ⟨hlt, hstack | hsym⟩
        · rw [hsym, if_pos rfl]
        · exact absurd hd hstack
        · rw [if_neg (Nat.ne_of_gt hlt)]
          exact hsym (j, f') rfl
      have hneg : -((n : ℤ) + 1) < 0 := by omega
      rw [Event.entry, handle_orphan _ (isRet_of_caller hcaller) hd, orphanReturn, if_pos hcaller,
        List.nil_append, horphan, hn]
      refine ⟨?_, rfl, Or.inr ⟨hi, Or.inr hinto⟩⟩
      rw [List.filter_cons_of_pos (by simpa using hneg), hsym]
      rfl
    | cons p D =>
      have hp : ¬ p.1 < start := Nat.not_lt.2 (hD p List.mem_cons_self)
      have horphan : Event.orphan start i (.ret e) (p :: D ++ R) = [] := if_neg hp
      obtain ⟨-, hcalls, -⟩ := handle_legal earliest hlegal
      rw [Event.written, if_neg (by simp [hd]), hd] at hcalls
      have hreturn := @handle_return sym earliest d e _ (isRet_of_caller hcaller) _ hd
      rw [horphan, hcalls, Event.entry, hreturn, popReturn]
      simp only [if_pos hcaller]
      exact ⟨rfl, hn, Or.inr ⟨hi, Or.inr hinto⟩⟩
  | throw m e => exact hev.elim

/-! ## The run -/

/-- **A run**: the orphans are written in their order, each under the symbol of its function. -/
theorem runEntries_xray {start : ℕ} : ∀ (win : List Event) {i n : ℕ} {d : Dec}
    {S : List (ℕ × FunTraceEntry)}, start ≤ i → OnTop start d.stack S →
      XRayRun sym win (S.map Prod.snd) → Announced sym start i d S → d.numOrphanReturns = n →
      (runEntries sym earliest d (win.map Event.entry)).2.filter (fun c => c.extraNs < 0) =
        (orphanReturns start win i S).mapIdx fun k o => o.call sym start earliest (n + k + 1)
  | [], _, _, _, _, _, _, _, _, _ => rfl
  | ev :: win, i, n, d, S, hi, htop, ⟨hev, hrun⟩, hann, hn => by
    obtain ⟨hcalls, hn', hann'⟩ := @handle_xray sym earliest start i d S ev n htop hev hann hn
    have htop' : OnTop start (handle sym earliest d ev.entry).1.stack (ev.effect (i, ev.entry) S) :=
      (run_legal [ev] hi htop ⟨legal_of_xray hev, trivial⟩).1
    rw [← effect_map Prod.snd (i, ev.entry)] at hrun
    have ih := runEntries_xray win (Nat.le_succ_of_le hi) htop' hrun hann' hn'
    rw [List.map_cons, runEntries, List.filter_append, hcalls, ih, orphanReturns, List.mapIdx_append]
    simp only [Nat.add_comm, Nat.add_left_comm]

theorem xrayRun_append {evs evs' : List Event} : ∀ {S : List FunTraceEntry},
    XRayRun sym (evs ++ evs') S → XRayRun sym evs S ∧ XRayRun sym evs' (stackAfter evs S) := by
  induction evs with
  | nil => exact fun {S} h => ⟨trivial, h⟩
  | cons ev evs ih =>
    intro S ⟨hev, hrun⟩
    obtain ⟨hrun, hrun'⟩ := ih hrun
    exact ⟨⟨hev, hrun⟩, hrun'⟩

theorem xrayRun_window (h : XRayRun sym (pre ++ win ++ post) []) :
    XRayRun sym win ((realStack pre 0 []).map Prod.snd) := by
  rw [List.append_assoc] at h
  rw [realStack_snd]
  exact (xrayRun_append (xrayRun_append h).2).1

theorem entry_mem_of_orphan {start : ℕ} {o : Orphan} : ∀ {win : List Event} {i : ℕ}
    {S : List (ℕ × FunTraceEntry)}, o ∈ orphanReturns start win i S → o.entry ∈ win.map Event.entry
  | ev :: win, i, S, ho => by
    rw [List.map_cons, List.mem_cons]
    rcases List.mem_append.1 ho with ho | ho
    · left
      unfold Event.orphan at ho
      split at ho
      · split_ifs at ho
        · rw [List.mem_singleton.1 ho]
          rfl
        · cases ho
      · cases ho
    · exact Or.inr (entry_mem_of_orphan ho)

/-- What is written for frames on the stack shifts no call. -/
theorem filter_popCalls (cycle : UInt64) : ∀ (fs : List FunTraceEntry) {n : ℤ}, 0 ≤ n →
    (popCalls sym cycle n fs).filter (fun c => c.extraNs < 0) = []
  | [], _, _ => rfl
  | f :: fs, n, hn => by
    have hnot : ¬ n < 0 := by omega
    rw [popCalls, List.filter_cons_of_neg (by simpa using hnot), filter_popCalls cycle fs (by omega)]

theorem filter_fakeReturns (latest : UInt64) (stack : List FunTraceEntry) :
    (fakeReturns sym latest stack).filter (fun c => c.extraNs < 0) = [] := by
  rw [fakeReturns_eq, List.filter_reverse, filter_popCalls latest stack (by decide)]
  rfl

end

/-! ## Samples -/

namespace TraceConverter
variable (w : World) (c : TraceConverter) (sampleEntries : List ThreadTrace)
  (ftraceEvents : List FtraceEvent)

/-- The entries of a thread that are not too old are the window `win` of a run in which all
    functions are traced. -/
structure IsXRayWindow (i : Fin sampleEntries.length) (sym : UInt64 → SymInfo)
    (pre win post : List Event) : Prop where
  selected : c.selects (sampleEntries.get i)
  window : (sampleEntries.get i).trace.filter (c.oldestEvent sampleEntries ftraceEvents ≤ ·.cycle) =
    win.map Event.entry
  run : XRayRun sym (pre ++ win ++ post) []
  found : ∀ ev ∈ win, symOf (c.sampleLookup w sampleEntries ftraceEvents).sym ev.entry = symOf sym ev.entry

/-- The orphans of a window are written in their order, each under the symbol of its function but
    for the first entry, and they are printed. -/
def OrphansNamed (i : Fin sampleEntries.length) (sym : UInt64 → SymInfo) (pre win : List Event) : Prop :=
  let earliest := max ((sampleEntries.get i).trace.head (sampleEntries.get i).nonempty).cycle
    (c.oldestEvent sampleEntries ftraceEvents)
  let orphans := ((c.sampleCalls w sampleEntries ftraceEvents).getD i []).filter fun call =>
    call.extraNs < 0
  orphans = ((orphanReturns pre.length win pre.length (realStack pre 0 [])).mapIdx fun k o =>
      o.call sym pre.length earliest (k + 1)) ∧
    ∀ call ∈ orphans, call.isComplete

section
variable {w c sampleEntries ftraceEvents} {i : Fin sampleEntries.length}
  {sym : UInt64 → SymInfo} {pre win post : List Event}

theorem IsXRayWindow.found_entry (h : c.IsXRayWindow w sampleEntries ftraceEvents i sym pre win post) :
    ∀ e ∈ win.map Event.entry,
      symOf (c.sampleLookup w sampleEntries ftraceEvents).sym e = symOf sym e := by
  intro e he
  obtain ⟨ev, hev, rfl⟩ := List.mem_map.1 he
  exact h.found ev hev

/-- Nothing of the window is ignored. -/
theorem IsXRayWindow.reported (h : c.IsXRayWindow w sampleEntries ftraceEvents i sym pre win post)
    (hthunk : ∀ ev ∈ win, containsStr (nameOf sym ev.entry) "virtual override thunk" = false) :
    (sampleEntries.get i).trace.filter ((c.sampleLookup w sampleEntries ftraceEvents).reports
      (c.oldestEvent sampleEntries ftraceEvents)) = win.map Event.entry := by
  have hkept : ∀ e ∈ win.map Event.entry,
      e.addr ∉ (c.sampleLookup w sampleEntries ftraceEvents).ignoreAddrs := by
    intro e he hign
    have hname : containsStr (symOf (c.sampleLookup w sampleEntries ftraceEvents).sym e).demangledFunc
        "virtual override thunk" = true := (c.ignoresThunks_sampleLookup w _ _ _ hign).1
    rw [h.found_entry e he] at hname
    obtain ⟨ev, hev, rfl⟩ := List.mem_map.1 he
    rw [← nameOf, hthunk ev hev] at hname
    cases hname
  rw [← List.filter_eq_self.2 fun e he => decide_eq_true (hkept e he), ← h.window, List.filter_filter]
  refine List.filter_congr fun e _ => ?_
  rw [Lookup.reports, Bool.and_comm, ← decide_not, ← decide_not]
  simp only [gt_iff_lt, UInt64.not_lt]

theorem IsXRayWindow.calls_eq (h : c.IsXRayWindow w sampleEntries ftraceEvents i sym pre win post)
    (hthunk : ∀ ev ∈ win, containsStr (nameOf sym ev.entry) "virtual override thunk" = false) :
    (c.sampleCalls w sampleEntries ftraceEvents).getD i [] =
      decodeReported sym (max ((sampleEntries.get i).trace.head (sampleEntries.get i).nonempty).cycle
          (c.oldestEvent sampleEntries ftraceEvents))
        ((sampleEntries.get i).trace.getLast (sampleEntries.get i).nonempty).cycle
        (win.map Event.entry) := by
  have hthread : (c.sampleCalls w sampleEntries ftraceEvents).getD i [] =
      c.threadCalls (c.sampleLookup w sampleEntries ftraceEvents)
        (c.oldestEvent sampleEntries ftraceEvents) (sampleEntries.get i) := by
    rw [sampleCalls_eq]
    simp
  rw [hthread, threadCalls, if_pos h.selected, h.reported hthunk]
  exact decodeReported_congr h.found_entry

theorem left_le_max (a b : UInt64) : a ≤ max a b := by
  rcases max_cases a b with ⟨hm, -⟩ | ⟨hm, h⟩ <;> rw [hm]
  exacts [UInt64.le_refl a, h]

/-- **Orphan returns** with addresses in the callers are named right, where nothing is a thunk
    and the times are not zero. -/
theorem orphans_named (h : c.IsXRayWindow w sampleEntries ftraceEvents i sym pre win post)
    (hthunk : ∀ ev ∈ win, containsStr (nameOf sym ev.entry) "virtual override thunk" = false)
    (hcycle : ∀ e ∈ (sampleEntries.get i).trace, e.cycle ≠ 0) :
    c.OrphansNamed w sampleEntries ftraceEvents i sym pre win := by
  have hrun := fun earliest => @runEntries_xray sym earliest pre.length win pre.length 0 Dec.init _
    le_rfl onTop_init (xrayRun_window h.run) (Or.inl ⟨rfl, rfl⟩) rfl
  simp only [Nat.zero_add] at hrun
  unfold OrphansNamed
  simp only [h.calls_eq hthunk, decodeReported, List.filter_append, filter_fakeReturns,
    List.append_nil, hrun]
  refine ⟨trivial, fun call hcall => ?_⟩
  obtain ⟨k, hk, rfl⟩ := List.mem_mapIdx.1 hcall
  have hentry := entry_mem_of_orphan (List.getElem_mem hk)
  rw [← h.window] at hentry
  have hreturn := hcycle _ (List.mem_of_mem_filter hentry)
  have hhead := hcycle _ (List.head_mem (sampleEntries.get i).nonempty)
  simp only [FunctionCall.isComplete, Orphan.call, bne_iff_ne, Bool.and_eq_true]
  refine ⟨hreturn, fun hzero => hhead (UInt64.le_zero_iff.1 ?_)⟩
  rw [← hzero]
  exact left_le_max _ _

end

/-- A run of `f`, which calls `g`, which calls `h` twice; the window begins with the first return
    of `h`. -/
def demoReturns : List Event :=
  [.ret (.traced 0x1200 returnWithCallerAddressFlag 40), .call ⟨0x1300, 50⟩,
    .ret (.traced 0x1200 returnWithCallerAddressFlag 60),
    .ret (.traced 0x1100 returnWithCallerAddressFlag 70),
    .ret (.traced 0x1800 returnWithCallerAddressFlag 80)]

theorem orphans_named_demo :
    let sample := [demoThread (.traced 0x1200 returnWithCallerAddressFlag 40)
      (demoReturns.tail.map Event.entry)]
    demoConverter.OrphansNamed demoWorld sample [] 0 (demoConverter.sampleLookup demoWorld sample []).sym
      [.call ⟨0x1100, 10⟩, .call ⟨0x1200, 20⟩, .call ⟨0x1300, 30⟩] demoReturns := by
  intro sample
  refine @orphans_named _ _ _ _ _ _ _ _ []
    { selected := by decide
      window := by decide +kernel
      run := ?_
      found := fun _ _ => rfl } (by decide +kernel) (by decide +kernel)
  have hcalls : ∀ e ∈ [⟨0x1100, 10⟩, ⟨0x1200, 20⟩, ⟨0x1300, 30⟩, ⟨0x1300, 50⟩],
      FunTraceEntry.isCall e := by decide
  refine ⟨hcalls _ (by simp), hcalls _ (by simp), hcalls _ (by simp), ⟨by decide, _, _, rfl, ?_⟩,
    hcalls _ (by simp), ⟨by decide, _, _, rfl, ?_⟩, ⟨by decide, _, _, rfl, ?_⟩,
    ⟨by decide, _, _, rfl, ?_⟩, trivial⟩
  · rintro g ⟨⟩
    decide +kernel
  · rintro g ⟨⟩
    decide +kernel
  · rintro g ⟨⟩
    decide +kernel
  · rintro g ⟨⟩

/-- A return into a thunk is ignored with the thunk, and the thunk's own return is the first that
    the decoder sees; and what ends at time zero is not printed. -/
theorem not_orphans_named :
    (let sample := [demoThread (.traced 0x1400 returnWithCallerAddressFlag 40)
        [.traced 0x1100 returnWithCallerAddressFlag 50]]
      let sym := (demoConverter.sampleLookup demoWorld sample []).sym
      let pre := [.call ⟨0x1100, 10⟩, .call ⟨0x1400, 20⟩, .call ⟨0x1200, 30⟩]
      let win := [.ret (.traced 0x1400 returnWithCallerAddressFlag 40),
        .ret (.traced 0x1100 returnWithCallerAddressFlag 50)]
      demoConverter.IsXRayWindow demoWorld sample [] 0 sym pre win [] ∧
        (∀ e ∈ (sample.get 0).trace, e.cycle ≠ 0) ∧
        ¬ demoConverter.OrphansNamed demoWorld sample [] 0 sym pre win) ∧
    (let sample := [demoThread (.traced 0x1800 returnWithCallerAddressFlag 0) []]
      let sym := (demoConverter.sampleLookup demoWorld sample []).sym
      let pre := [.call ⟨0x1100, 0⟩]
      let win := [.ret (.traced 0x1800 returnWithCallerAddressFlag 0)]
      demoConverter.IsXRayWindow demoWorld sample [] 0 sym pre win [] ∧
        (∀ ev ∈ win, containsStr (nameOf sym ev.entry) "virtual override thunk" = false) ∧
        ¬ demoConverter.OrphansNamed demoWorld sample [] 0 sym pre win) := by
  have hcalls : ∀ e ∈ [⟨0x1100, 10⟩, ⟨0x1400, 20⟩, ⟨0x1200, 30⟩, ⟨0x1100, 0⟩],
      FunTraceEntry.isCall e := by decide
  constructor
  · intro sample sym pre win
    refine ⟨⟨by decide, by decide +kernel, ?_, fun _ _ => rfl⟩, by decide +kernel, fun h => ?_⟩
    · refine ⟨hcalls _ (by simp), hcalls _ (by simp), hcalls _ (by simp),
        ⟨by decide, _, _, rfl, ?_⟩, ⟨by decide, _, _, rfl, ?_⟩, trivial⟩
      · rintro g ⟨⟩
        decide +kernel
      · rintro g ⟨⟩
        decide +kernel
    · exact absurd (congrArg List.length h.1) (by decide +kernel)
  · intro sample sym pre win
    refine ⟨⟨by decide, by decide +kernel, ?_, fun _ _ => rfl⟩, by decide +kernel, fun h => ?_⟩
    · refine ⟨hcalls _ (by simp), ⟨by decide, _, _, rfl, ?_⟩, trivial⟩
      rintro g ⟨⟩
    · exact absurd h.2 (by decide +kernel)

end TraceConverter

end Funtrace
