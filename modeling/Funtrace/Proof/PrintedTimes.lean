/-
  The times that are printed in the JSON file.

  `rat2dec` rounds halves away from zero.  The start and the duration of an event are
  rounded separately, so that its end is off by up to a unit of the last place
  (`rounded_times`); up to 5 GHz two cycles are two units apart (`place_add_le`).  The
  times of a window are where its entries are, or whole nanoseconds before or after it,
  as long as the `i32` counters do not wrap around: `printsTimes_iff`.
-/
import Funtrace.Proof.FtraceLines
import Funtrace.Proof.Nesting
import Funtrace.Proof.Rat2dec
import Funtrace.Proof.Spans
import Funtrace.Viz.JsonText

namespace Funtrace

/-! ## Times that are apart -/

/-- Two units of the last place that is printed. -/
def UnitsApart (x y : ℚ) : Prop := x + 2 / 10 ^ digits ≤ y ∨ y + 2 / 10 ^ digits ≤ x

theorem UnitsApart.symm {x y : ℚ} (h : UnitsApart x y) : UnitsApart y x := h.elim Or.inr Or.inl

/-- **Times that are apart** are printed in their order. -/
theorem UnitsApart.printed {x y x' y' : ℚ} (h : UnitsApart x y) (hx : Rounded digits x x')
    (hy : Rounded digits y y') : x' ≠ y' ∧ (x' < y' ↔ x < y) := by
  have hpos : (0 : ℚ) < 2 / 10 ^ digits := by unfold digits; norm_num
  rcases h with h | h
  · have hlt := lt_of_rounded hx hy h
    exact ⟨hlt.ne, iff_of_true hlt (by linarith)⟩
  · have hlt := lt_of_rounded hy hx h
    exact ⟨hlt.ne', iff_of_false hlt.not_gt (by linarith)⟩

section
variable {cpuFreq timeBase : UInt64}

/-- Up to 5 GHz, different cycles are apart. -/
theorem place_add_le (hfreq : cpuFreq ≠ 0) (hfast : cpuFreq ≤ 5000000000) {c c' : UInt64}
    (hbase : timeBase ≤ c) (h : c < c') :
    place cpuFreq timeBase c + 2 / 10 ^ digits ≤ place cpuFreq timeBase c' := by
  have hsub := @place_sub cpuFreq timeBase c c' hbase (UInt64.le_of_lt h)
  have hpos := cyclesPerUs_pos hfreq
  have hcycles : (1 : ℚ) ≤ (c' - c).toNat := by
    rw [UInt64.toNat_sub_of_le _ _ (UInt64.le_of_lt h)]
    have hlt := UInt64.lt_iff_toNat_lt.1 h
    exact_mod_cast (by omega : 1 ≤ c'.toNat - c.toNat)
  have hrate : FunctionCall.cyclesPerUs cpuFreq ≤ 5000 := by
    have hle : (cpuFreq.toNat : ℚ) ≤ 5000000000 := by exact_mod_cast UInt64.le_iff_toNat_le.1 hfast
    rw [FunctionCall.cyclesPerUs]
    linarith
  have hdist : (2 : ℚ) / 10 ^ digits ≤ (c' - c).toNat / FunctionCall.cyclesPerUs cpuFreq := by
    rw [le_div_iff₀ hpos]
    unfold digits
    norm_num
    linarith
  linarith

theorem reach_add_le {m n : ℕ} (h : m < n) (hn : n ≤ 2 ^ 31) : reach m + 1 / 1000 ≤ reach n := by
  have hm : m < 2 ^ 31 := by omega
  have hcast : (m : ℚ) + 1 ≤ n := by exact_mod_cast h
  rw [reach, if_pos hm, reach]
  split_ifs with hlt
  · linarith
  · have hle : (m : ℚ) + 1 ≤ 2 ^ 31 := by exact_mod_cast (by omega : m + 1 ≤ 2 ^ 31)
    linarith

end

/-! ## Times of a window -/

section
variable {sym : UInt64 → SymInfo} {F : Forest FunTraceEntry} {t : ThreadTrace}
  {cpuFreq timeBase : UInt64} {u v : FunTraceEntry × FunTraceEntry}

/-- Where an invocation starts on the time line of a window. -/
def Forest.start (F : Forest FunTraceEntry) (t : ThreadTrace) (cpuFreq timeBase : UInt64)
    (v : FunTraceEntry × FunTraceEntry) : ℚ :=
  if v.1 ∈ t.trace then place cpuFreq timeBase v.1.cycle
  else place cpuFreq timeBase (t.trace.head t.nonempty).cycle - reach (F.orphanRank t.trace v)

/-- Where it ends. -/
def Forest.finish (F : Forest FunTraceEntry) (t : ThreadTrace) (cpuFreq timeBase : UInt64)
    (v : FunTraceEntry × FunTraceEntry) : ℚ :=
  if v.2 ∈ t.trace then place cpuFreq timeBase v.2.cycle
  else place cpuFreq timeBase (t.trace.getLast t.nonempty).cycle + F.openRank t.trace v / 1000

/-- Calls and returns of different invocations have different timestamps. -/
theorem cycles_ne (hF : Recorded sym F) (hu : u ∈ F.invs) (hv : v ∈ F.invs) :
    u.1.cycle ≠ v.2.cycle ∧ (u ≠ v → u.1.cycle ≠ v.1.cycle ∧ u.2.cycle ≠ v.2.cycle) := by
  have hult : u.1.cycle < u.2.cycle := Forest.rel_ret hF.sorted hu
  have hvlt : v.1.cycle < v.2.cycle := Forest.rel_ret hF.sorted hv
  simp only [ne_eq, ← UInt64.toNat_inj, UInt64.lt_iff_toNat_lt] at hult hvlt ⊢
  rcases Forest.trichotomy hF.sorted hu hv with rfl | h | h | h | h
  · exact ⟨by omega, fun hne => absurd rfl hne⟩
  · obtain ⟨hcall, hret⟩ := h.rel hF.sorted
    simp only [UInt64.lt_iff_toNat_lt] at hcall hret
    exact ⟨by omega, fun _ => by omega⟩
  · obtain ⟨hcall, hret⟩ := h.rel hF.sorted
    simp only [UInt64.lt_iff_toNat_lt] at hcall hret
    exact ⟨by omega, fun _ => by omega⟩
  · simp only [UInt64.lt_iff_toNat_lt] at h
    exact ⟨by omega, fun _ => by omega⟩
  · simp only [UInt64.lt_iff_toNat_lt] at h
    exact ⟨by omega, fun _ => by omega⟩

theorem unitsApart_of_ne (hfreq : cpuFreq ≠ 0) (hfast : cpuFreq ≤ 5000000000) {c c' : UInt64}
    (hc : timeBase ≤ c) (hc' : timeBase ≤ c') (h : c ≠ c') :
    UnitsApart (place cpuFreq timeBase c) (place cpuFreq timeBase c') := by
  rcases UInt64.lt_or_lt_of_ne h with hlt | hlt
  exacts [Or.inl (place_add_le hfreq hfast hc hlt), Or.inr (place_add_le hfreq hfast hc' hlt)]

theorem two_units_le : (2 : ℚ) / 10 ^ digits ≤ 1 / 1000 := by unfold digits; norm_num

section
variable (hF : Recorded sym F) (hwin : t.trace <:+: F.log) (hfreq : cpuFreq ≠ 0)
  (hfast : cpuFreq ≤ 5000000000) (hbase : timeBase ≤ (t.trace.head t.nonempty).cycle)

include hF hwin hfreq hbase in
/-- Where a start lies. -/
theorem start_cases (hv : v ∈ F.invocations t.trace) :
    (timeBase ≤ v.1.cycle ∧ F.start t cpuFreq timeBase v = place cpuFreq timeBase v.1.cycle ∧
      place cpuFreq timeBase (t.trace.head t.nonempty).cycle ≤ place cpuFreq timeBase v.1.cycle ∧
      place cpuFreq timeBase v.1.cycle ≤ place cpuFreq timeBase (t.trace.getLast t.nonempty).cycle) ∨
    (v ∈ F.orphans t.trace ∧ F.start t cpuFreq timeBase v =
      place cpuFreq timeBase (t.trace.head t.nonempty).cycle - reach (F.orphanRank t.trace v)) := by
  obtain ⟨-, -, hlast, hcall, -⟩ := invocation_bounds hF hwin hv
  by_cases hmem : v.1 ∈ t.trace
  · have hle := hcall.1 hmem
    have hv₁ := UInt64.le_trans hbase hle
    refine Or.inl ⟨hv₁, if_pos hmem, (place_le_iff hfreq hbase hv₁).2 hle, ?_⟩
    exact (place_le_iff hfreq hv₁ (UInt64.le_trans hv₁ hlast)).2 hlast
  · exact Or.inr ⟨orphan_of_not_mem hv hmem, if_neg hmem⟩

include hF hwin hfreq hbase in
/-- Where an end lies. -/
theorem finish_cases (hv : v ∈ F.invocations t.trace) :
    (timeBase ≤ v.2.cycle ∧ F.finish t cpuFreq timeBase v = place cpuFreq timeBase v.2.cycle ∧
      place cpuFreq timeBase (t.trace.head t.nonempty).cycle ≤ place cpuFreq timeBase v.2.cycle ∧
      place cpuFreq timeBase v.2.cycle ≤ place cpuFreq timeBase (t.trace.getLast t.nonempty).cycle) ∨
    (v ∈ F.opened t.trace ∧ F.finish t cpuFreq timeBase v =
      place cpuFreq timeBase (t.trace.getLast t.nonempty).cycle + F.openRank t.trace v / 1000) := by
  obtain ⟨-, hhead, -, -, hret⟩ := invocation_bounds hF hwin hv
  have hv₂ := UInt64.le_trans hbase hhead
  by_cases hmem : v.2 ∈ t.trace
  · have hle := hret.1 hmem
    refine Or.inl ⟨hv₂, if_pos hmem, (place_le_iff hfreq hbase hv₂).2 hhead, ?_⟩
    exact (place_le_iff hfreq hv₂ (UInt64.le_trans hv₂ hle)).2 hle
  · exact Or.inr ⟨opened_of_not_mem hv hmem, if_neg hmem⟩

include hF in
theorem orphanRank_le (horphans : (F.orphans t.trace).length ≤ 2 ^ 31) :
    ∀ v ∈ F.orphans t.trace, F.orphanRank t.trace v ≤ 2 ^ 31 := fun v hv =>
  Nat.lt_succ_iff.1 (rank_lt (orphanRank_getElem hF) (Nat.lt_succ_of_le horphans) v hv)

/-- Orphans start at least a nanosecond before the window. -/
theorem le_reach_orphanRank (hrank : F.orphanRank t.trace v ≤ 2 ^ 31) :
    1 / 1000 ≤ reach (F.orphanRank t.trace v) := by
  have hzero : reach 0 = 0 := by simp [reach]
  have hle : reach 0 + 1 / 1000 ≤ reach (F.orphanRank t.trace v) :=
    reach_add_le (Nat.succ_pos _) hrank
  linarith

include hF hwin hfreq hfast hbase in
theorem start_apart_finish (hu : u ∈ F.invocations t.trace) (hv : v ∈ F.invocations t.trace)
    (horphans : (F.orphans t.trace).length ≤ 2 ^ 31) :
    UnitsApart (F.start t cpuFreq timeBase u) (F.finish t cpuFreq timeBase v) := by
  have hunits := two_units_le
  have hrank : (1 : ℚ) / 1000 ≤ F.openRank t.trace v / 1000 := by
    have hle : (1 : ℚ) ≤ F.openRank t.trace v := by exact_mod_cast Nat.succ_pos _
    linarith
  have hheadLast := (place_le_iff hfreq hbase (UInt64.le_trans hbase
    (window_bounds hF hwin (List.getLast_mem t.nonempty)).1)).2
      (window_bounds hF hwin (List.getLast_mem t.nonempty)).1
  rcases start_cases hF hwin hfreq hbase hu with ⟨hbaseᵤ, hstart, -, hlast⟩ | ⟨horphan, hstart⟩
  · rcases finish_cases hF hwin hfreq hbase hv with ⟨hbaseᵥ, hfinish, -, -⟩ | ⟨-, hfinish⟩
    · rw [hstart, hfinish]
      exact unitsApart_of_ne hfreq hfast hbaseᵤ hbaseᵥ
        (cycles_ne hF ((F.mem_invocations _).1 hu).1 ((F.mem_invocations _).1 hv).1).1
    · exact Or.inl (by rw [hstart, hfinish]; linarith)
  · have hreach := le_reach_orphanRank (orphanRank_le hF horphans u horphan)
    rcases finish_cases hF hwin hfreq hbase hv with ⟨-, hfinish, hhead, -⟩ | ⟨-, hfinish⟩
    · exact Or.inl (by rw [hstart, hfinish]; linarith)
    · exact Or.inl (by rw [hstart, hfinish]; linarith)

include hF hwin hfreq hfast hbase in
theorem start_apart_start (hu : u ∈ F.invocations t.trace) (hv : v ∈ F.invocations t.trace)
    (hne : u ≠ v) (horphans : (F.orphans t.trace).length ≤ 2 ^ 31) :
    UnitsApart (F.start t cpuFreq timeBase u) (F.start t cpuFreq timeBase v) := by
  have hunits := two_units_le
  have hfit := orphanRank_le hF horphans
  obtain ⟨hcalls, hrets⟩ :=
    (cycles_ne hF ((F.mem_invocations _).1 hu).1 ((F.mem_invocations _).1 hv).1).2 hne
  rcases start_cases hF hwin hfreq hbase hu with ⟨hbaseᵤ, hstartᵤ, hheadᵤ, -⟩ | ⟨horphanᵤ, hstartᵤ⟩
  · rcases start_cases hF hwin hfreq hbase hv with ⟨hbaseᵥ, hstartᵥ, -, -⟩ | ⟨horphanᵥ, hstartᵥ⟩
    · rw [hstartᵤ, hstartᵥ]
      exact unitsApart_of_ne hfreq hfast hbaseᵤ hbaseᵥ hcalls
    · have hreach := le_reach_orphanRank (hfit v horphanᵥ)
      exact Or.inr (by rw [hstartᵤ, hstartᵥ]; linarith)
  · rcases start_cases hF hwin hfreq hbase hv with ⟨-, hstartᵥ, hheadᵥ, -⟩ | ⟨horphanᵥ, hstartᵥ⟩
    · have hreach := le_reach_orphanRank (hfit u horphanᵤ)
      exact Or.inl (by rw [hstartᵤ, hstartᵥ]; linarith)
    · rw [hstartᵤ, hstartᵥ]
      rcases UInt64.lt_or_lt_of_ne hrets with hlt | hlt
      · have hreach := reach_add_le (orphanRank_lt horphanᵤ hlt) (hfit v horphanᵥ)
        exact Or.inr (by linarith)
      · have hreach := reach_add_le (orphanRank_lt horphanᵥ hlt) (hfit u horphanᵤ)
        exact Or.inl (by linarith)

include hF hwin hfreq hfast hbase in
theorem finish_apart_finish (hu : u ∈ F.invocations t.trace) (hv : v ∈ F.invocations t.trace)
    (hne : u ≠ v) : UnitsApart (F.finish t cpuFreq timeBase u) (F.finish t cpuFreq timeBase v) := by
  have hunits := two_units_le
  have hpos (v : FunTraceEntry × FunTraceEntry) : (1 : ℚ) ≤ F.openRank t.trace v := by
    exact_mod_cast Nat.succ_pos _
  have hposᵤ := hpos u
  have hposᵥ := hpos v
  have hsucc {u v : FunTraceEntry × FunTraceEntry}
      (hlt : F.openRank t.trace u < F.openRank t.trace v) :
      (F.openRank t.trace u : ℚ) + 1 ≤ F.openRank t.trace v := by exact_mod_cast hlt
  obtain ⟨hcalls, hrets⟩ :=
    (cycles_ne hF ((F.mem_invocations _).1 hu).1 ((F.mem_invocations _).1 hv).1).2 hne
  rcases finish_cases hF hwin hfreq hbase hu with ⟨hbaseᵤ, hfinishᵤ, -, hlastᵤ⟩ | ⟨hopenᵤ, hfinishᵤ⟩
  · rcases finish_cases hF hwin hfreq hbase hv with ⟨hbaseᵥ, hfinishᵥ, -, -⟩ | ⟨-, hfinishᵥ⟩
    · rw [hfinishᵤ, hfinishᵥ]
      exact unitsApart_of_ne hfreq hfast hbaseᵤ hbaseᵥ hrets
    · exact Or.inl (by rw [hfinishᵤ, hfinishᵥ]; linarith)
  · rcases finish_cases hF hwin hfreq hbase hv with ⟨-, hfinishᵥ, -, hlastᵥ⟩ | ⟨hopenᵥ, hfinishᵥ⟩
    · exact Or.inr (by rw [hfinishᵤ, hfinishᵥ]; linarith)
    · rw [hfinishᵤ, hfinishᵥ]
      rcases UInt64.lt_or_lt_of_ne hcalls with hlt | hlt
      · have hrank := hsucc (openRank_lt hopenᵥ hlt)
        exact Or.inr (by linarith)
      · have hrank := hsucc (openRank_lt hopenᵤ hlt)
        exact Or.inl (by linarith)

/-! ### Intervals -/

include hF hwin hbase in
/-- **The interval of a call**, if the counters do not wrap around in it. -/
theorem interval_callIn (hv : v ∈ F.invocations t.trace)
    (horphan : v ∈ F.orphans t.trace → F.orphanRank t.trace v ≤ 2 ^ 31)
    (hopen : v ∈ F.opened t.trace → F.openRank t.trace v < 2 ^ 31) :
    (Forest.callIn sym F t v).interval cpuFreq timeBase =
      (F.start t cpuFreq timeBase v, F.finish t cpuFreq timeBase v) := by
  by_cases hcall : v.1 ∈ t.trace
  · have hspan : (Forest.callIn sym F t v).interval cpuFreq timeBase = F.span t cpuFreq timeBase v := by
      by_cases hret : v.2 ∈ t.trace
      · exact interval_inside hF hwin hbase hv hcall hret
      · have hopened := opened_of_not_mem hv hret
        exact (interval_opened hF hwin hbase hopened).1 (hopen hopened)
    rw [hspan, Forest.span, Forest.start, Forest.finish, if_pos hcall, if_pos hcall]
  · have hmem := orphan_of_not_mem hv hcall
    obtain ⟨-, -, hret⟩ : v ∈ F.invs ∧ v.1 ∉ t.trace ∧ v.2 ∈ t.trace := by
      simpa [Forest.orphans] using hmem
    obtain ⟨n, hn⟩ : ∃ n, F.orphanRank t.trace v = n + 1 := ⟨_, rfl⟩
    have hrank := horphan hmem
    obtain ⟨-, hhead, -⟩ := invocation_bounds hF hwin hv
    have hc : Forest.callIn sym F t v = ⟨symOf sym v.2, (t.trace.head t.nonempty).cycle, v.2.cycle,
        -((n : ℤ) + 1)⟩ := by
      simp [Forest.callIn, Forest.callOf, hcall, hn]
    rw [hc, interval_orphan cpuFreq hbase hhead (by omega), Forest.start, Forest.finish,
      if_neg hcall, if_pos hret, hn]

end

end

/-! ## Samples -/

namespace FunctionCall

/-- The start and the end of an event, each of them exact and as it is printed. -/
def times (cpuFreq timeBase : UInt64) (c : FunctionCall) : List (ℚ × ℚ) :=
  let ts := decimalValue (rat2dec (c.ts cpuFreq timeBase) digits)
  let dur := decimalValue (rat2dec (c.dur cpuFreq) digits)
  [((c.interval cpuFreq timeBase).1, ts), ((c.interval cpuFreq timeBase).2, ts + dur)]

theorem dur_nonneg (cpuFreq : UInt64) (c : FunctionCall) : 0 ≤ c.dur cpuFreq := by
  have hcall : 0 ≤ c.extraCall := by
    unfold extraCall
    split_ifs <;> positivity
  have hret : 0 ≤ c.extraRet := by
    unfold extraRet
    split_ifs <;> positivity
  have hrate : 0 ≤ cyclesPerUs cpuFreq := by
    unfold cyclesPerUs
    positivity
  unfold dur
  positivity

/-- **What is printed** is less than a unit of the last place below the exact time, and at most
    one above it. -/
theorem rounded_times (cpuFreq timeBase : UInt64) (c : FunctionCall) :
    ∀ p ∈ c.times cpuFreq timeBase, Rounded digits p.1 p.2 := by
  unfold times
  rw [decimalValue_rat2dec, decimalValue_rat2dec]
  simp only [List.forall_mem_cons, List.not_mem_nil, false_imp_iff, implies_true, and_true]
  exact ⟨rounded_roundTo _ _, rounded_add _ _ (c.dur_nonneg cpuFreq)⟩

end FunctionCall

namespace TraceConverter
variable (w : World) (c : TraceConverter) (sampleEntries : List ThreadTrace)
  (ftraceEvents : List FtraceEvent)

/-- The calls of a thread for which there are events. -/
def completeCalls (i : ℕ) : List FunctionCall :=
  ((c.sampleCalls w sampleEntries ftraceEvents).getD i []).filter FunctionCall.isComplete

/-- The starts and ends of a thread's events. -/
def times (i : ℕ) : List (ℚ × ℚ) :=
  (c.completeCalls w sampleEntries ftraceEvents i).flatMap
    (FunctionCall.times c.cpuFreq (c.thresholds sampleEntries ftraceEvents).2)

/-- The times of a thread are printed in order, and ftrace events where the calls of the same
    time start. -/
structure PrintsTimes (ftraceText : String) (i : ℕ) : Prop where
  different : ((c.times w sampleEntries ftraceEvents i).map Prod.snd).Nodup
  sameOrder : ∀ p ∈ c.times w sampleEntries ftraceEvents i,
    ∀ q ∈ c.times w sampleEntries ftraceEvents i, p.2 < q.2 ↔ p.1 < q.1
  ftrace : ∀ shifted,
    { c with timeBase := (c.thresholds sampleEntries ftraceEvents).2 }.shiftedFtrace ftraceText
      ftraceEvents = some shifted →
    ∀ ev ∈ shifted, ∀ call ∈ c.completeCalls w sampleEntries ftraceEvents i,
      -- the call has not been made up for an orphan return
      0 ≤ call.extraNs → ev.timestamp = call.callCycle →
      ∃ before text after, ev.line = before ++ text ++ after ∧
        c.fixts (c.thresholds sampleEntries ftraceEvents).2 ev.timestamp = some text ∧
        decimalValue text * 10 ^ 6 = decimalValue (rat2dec
          (call.ts c.cpuFreq (c.thresholds sampleEntries ftraceEvents).2) digits)

variable {w c sampleEntries ftraceEvents} {i : Fin sampleEntries.length} {sym : UInt64 → SymInfo}
  {F : Forest FunTraceEntry}

/-- The calls of a window. -/
theorem IsForestWindow.completeCalls (h : c.IsForestWindow w sampleEntries ftraceEvents i sym F) :
    c.completeCalls w sampleEntries ftraceEvents i =
      (F.invocations (sampleEntries.get i).trace).map
        (Forest.callIn sym F (sampleEntries.get i)) := by
  have hsorted : (sampleEntries.get i).trace.Pairwise (·.cycle < ·.cycle) :=
    h.recorded.sorted.sublist h.window.sublist
  have hold := h.oldest_le
  have hcalls := threadCalls_resolved (selects_default h.noOption _) h.resolves fun e he =>
    UInt64.le_trans hold ((sampleEntries.get i).head_le hsorted he)
  rw [max_eq_of_le hold, decodeReported_window h.recorded h.window] at hcalls
  rw [TraceConverter.completeCalls, hcalls]
  refine List.filter_eq_self.2 fun call hcall => ?_
  obtain ⟨v, hv, rfl⟩ := List.mem_map.1 hcall
  exact isComplete_callIn h.recorded h.window ((F.mem_invocations _).1 hv).1

theorem IsForestWindow.times (h : c.IsForestWindow w sampleEntries ftraceEvents i sym F) :
    c.times w sampleEntries ftraceEvents i =
      (F.invocations (sampleEntries.get i).trace).flatMap fun v =>
        (Forest.callIn sym F (sampleEntries.get i) v).times c.cpuFreq
          (c.thresholds sampleEntries ftraceEvents).2 := by
  rw [TraceConverter.times, h.completeCalls, List.flatMap_map]

/-- The invocations of a window are listed once. -/
theorem nodup_invocations {win : List FunTraceEntry} (hF : Recorded sym F) :
    (F.invocations win).Nodup := by
  have hinvs : F.invs.Nodup := (Forest.invs_sorted hF.sorted).imp fun {u v} hlt heq => by
    rw [heq] at hlt
    exact UInt64.lt_irrefl _ hlt
  refine List.nodup_append.2 ⟨hinvs.filter _, List.nodup_reverse.2 (hinvs.filter _), ?_⟩
  rintro u hu v hv rfl
  simp only [Forest.returning, Forest.opened, List.mem_reverse, List.mem_filter,
    decide_eq_true_eq] at hu hv
  exact hv.2.2 hu.2

/-- **The times are printed in order**, if the counters do not wrap around. -/
theorem IsForestWindow.printed (h : c.IsForestWindow w sampleEntries ftraceEvents i sym F)
    (hfast : c.cpuFreq ≤ 5000000000)
    (horphans : (F.orphans (sampleEntries.get i).trace).length ≤ 2 ^ 31)
    (hopened : (F.opened (sampleEntries.get i).trace).length < 2 ^ 31) :
    ((c.times w sampleEntries ftraceEvents i).map Prod.snd).Nodup ∧
      ∀ p ∈ c.times w sampleEntries ftraceEvents i,
        ∀ q ∈ c.times w sampleEntries ftraceEvents i, p.2 < q.2 ↔ p.1 < q.1 := by
  obtain ⟨t, ht⟩ : ∃ t, sampleEntries.get i = t := ⟨_, rfl⟩
  obtain ⟨base, hbase⟩ : ∃ base, (c.thresholds sampleEntries ftraceEvents).2 = base := ⟨_, rfl⟩
  have hle : base ≤ (t.trace.head t.nonempty).cycle := by
    rw [← hbase, ← ht]
    exact UInt64.le_trans (c.timeBase_le_oldest _ _) h.oldest_le
  have hwin := h.window
  rw [h.times]
  rw [ht] at horphans hopened hwin
  simp only [ht, hbase]
  -- two times of one invocation, and times of different invocations
  have hrounded (v : FunTraceEntry × FunTraceEntry) :
      ∀ p ∈ (Forest.callIn sym F t v).times c.cpuFreq base, Rounded digits p.1 p.2 :=
    FunctionCall.rounded_times _ _ _
  have hinterval : ∀ v ∈ F.invocations t.trace, (Forest.callIn sym F t v).interval c.cpuFreq base =
      (F.start t c.cpuFreq base v, F.finish t c.cpuFreq base v) := fun v hv =>
    interval_callIn h.recorded hwin hle hv (orphanRank_le h.recorded horphans v)
      (rank_lt (openRank_getElem h.recorded hwin) hopened v)
  have hexact : ∀ v ∈ F.invocations t.trace,
      ∀ p ∈ (Forest.callIn sym F t v).times c.cpuFreq base,
        p.1 = F.start t c.cpuFreq base v ∨ p.1 = F.finish t c.cpuFreq base v := by
    intro v hv p hp
    simp only [FunctionCall.times, hinterval v hv, List.mem_cons, List.not_mem_nil, or_false] at hp
    rcases hp with rfl | rfl
    exacts [Or.inl rfl, Or.inr rfl]
  have hapart : ∀ u ∈ F.invocations t.trace, ∀ v ∈ F.invocations t.trace, u ≠ v →
      ∀ p ∈ (Forest.callIn sym F t u).times c.cpuFreq base,
        ∀ q ∈ (Forest.callIn sym F t v).times c.cpuFreq base, UnitsApart p.1 q.1 := by
    intro u hu v hv hne p hp q hq
    rcases hexact u hu p hp with hp | hp <;> rcases hexact v hv q hq with hq | hq <;> rw [hp, hq]
    · exact start_apart_start h.recorded hwin h.freq hfast hle hu hv hne horphans
    · exact start_apart_finish h.recorded hwin h.freq hfast hle hu hv horphans
    · exact (start_apart_finish h.recorded hwin h.freq hfast hle hv hu horphans).symm
    · exact finish_apart_finish h.recorded hwin h.freq hfast hle hu hv hne
  have hown : ∀ v ∈ F.invocations t.trace, ∃ p q : ℚ × ℚ,
      (Forest.callIn sym F t v).times c.cpuFreq base = [p, q] ∧ UnitsApart p.1 q.1 := by
    intro v hv
    refine ⟨_, _, rfl, ?_⟩
    rw [hinterval v hv]
    exact start_apart_finish h.recorded hwin h.freq hfast hle hv hv horphans
  constructor
  · rw [List.map_flatMap, List.nodup_flatMap]
    constructor
    · intro v hv
      obtain ⟨p, q, hpq, hdist⟩ := hown v hv
      have hr := hrounded v
      rw [hpq] at hr ⊢
      have hne := (hdist.printed (hr p (by simp)) (hr q (by simp))).1
      simpa using hne
    · refine (nodup_invocations h.recorded).imp_of_mem fun {u v} hu hv hne => ?_
      rintro x hxu hxv
      obtain ⟨p, hp, rfl⟩ := List.mem_map.1 hxu
      obtain ⟨q, hq, hpq⟩ := List.mem_map.1 hxv
      exact ((hapart u hu v hv hne p hp q hq).printed (hrounded u p hp) (hrounded v q hq)).1 hpq.symm
  · intro p hp q hq
    obtain ⟨u, hu, hp⟩ := List.mem_flatMap.1 hp
    obtain ⟨v, hv, hq⟩ := List.mem_flatMap.1 hq
    by_cases hne : u = v
    · subst hne
      obtain ⟨a, b, hab, hdist⟩ := hown u hu
      have hr := hrounded u
      rw [hab] at hp hq hr
      have hprinted := hdist.printed (hr a (by simp)) (hr b (by simp))
      have hprinted' := hdist.symm.printed (hr b (by simp)) (hr a (by simp))
      simp only [List.mem_cons, List.not_mem_nil, or_false] at hp hq
      rcases hp with rfl | rfl <;> rcases hq with rfl | rfl
      exacts [iff_of_false (lt_irrefl _) (lt_irrefl _), hprinted.2, hprinted'.2,
        iff_of_false (lt_irrefl _) (lt_irrefl _)]
    · exact ((hapart u hu v hv hne p hp q hq).printed (hrounded u p hp) (hrounded v q hq)).2

/-- **The instants of ftrace**: seconds with ten digits are microseconds with four. -/
theorem decimalValue_fixts {c : TraceConverter} {timeBase ts : UInt64} {text : String}
    (h : c.fixts timeBase ts = some text) :
    decimalValue text * 10 ^ 6 = roundTo digits (place c.cpuFreq timeBase ts) := by
  unfold fixts at h
  split_ifs at h
  obtain rfl := Option.some.inj h
  have hseconds : ((ts - timeBase).toNat / c.cpuFreq.toNat : ℚ) =
      place c.cpuFreq timeBase ts / 10 ^ 6 := by
    rw [place, FunctionCall.cyclesPerUs]
    field_simp
    norm_num
  have hplaces : 10 = 6 + digits := rfl
  rw [decimalValue_rat2dec, hseconds, hplaces, roundTo_div]

theorem IsForestWindow.ftrace (h : c.IsForestWindow w sampleEntries ftraceEvents i sym F)
    (horphans : (F.orphans (sampleEntries.get i).trace).length ≤ 2 ^ 31)
    (hopened : (F.opened (sampleEntries.get i).trace).length < 2 ^ 31) {call : FunctionCall}
    (hcall : call ∈ c.completeCalls w sampleEntries ftraceEvents i) (hextra : 0 ≤ call.extraNs) :
    call.ts c.cpuFreq (c.thresholds sampleEntries ftraceEvents).2 =
      place c.cpuFreq (c.thresholds sampleEntries ftraceEvents).2 call.callCycle := by
  have hle : (c.thresholds sampleEntries ftraceEvents).2 ≤
      ((sampleEntries.get i).trace.head (sampleEntries.get i).nonempty).cycle :=
    UInt64.le_trans (c.timeBase_le_oldest _ _) h.oldest_le
  rw [h.completeCalls] at hcall
  obtain ⟨v, hv, rfl⟩ := List.mem_map.1 hcall
  have hstart : v.1 ∈ (sampleEntries.get i).trace := by
    by_contra hnot
    simp only [Forest.callIn, Forest.callOf, if_pos hnot, Forest.orphanRank] at hextra
    push_cast at hextra
    omega
  have hcycle : (Forest.callIn sym F (sampleEntries.get i) v).callCycle = v.1.cycle := by
    simp only [Forest.callIn, Forest.callOf, hstart, not_true_eq_false, if_false]
    split_ifs <;> rfl
  have hinterval := congrArg Prod.fst (@interval_callIn sym F _ c.cpuFreq _ v h.recorded h.window hle
    hv (orphanRank_le h.recorded horphans v) (rank_lt (openRank_getElem h.recorded h.window) hopened v))
  rw [hcycle]
  exact hinterval.trans (if_pos hstart)

/-! ### Counters that wrap around -/

/-- Times of different events are different, before they are rounded. -/
theorem IsForestWindow.exact_ne (h : c.IsForestWindow w sampleEntries ftraceEvents i sym F)
    {ftraceText : String} (hprints : c.PrintsTimes w sampleEntries ftraceEvents ftraceText i)
    {u v : FunTraceEntry × FunTraceEntry} (hu : u ∈ F.invocations (sampleEntries.get i).trace)
    (hv : v ∈ F.invocations (sampleEntries.get i).trace) (hne : u ≠ v) {p q : ℚ × ℚ}
    (hp : p ∈ (Forest.callIn sym F (sampleEntries.get i) u).times c.cpuFreq
      (c.thresholds sampleEntries ftraceEvents).2)
    (hq : q ∈ (Forest.callIn sym F (sampleEntries.get i) v).times c.cpuFreq
      (c.thresholds sampleEntries ftraceEvents).2) : p.1 ≠ q.1 := by
  obtain ⟨hdifferent, horder, -⟩ := hprints
  rw [h.times] at hdifferent horder
  rw [List.map_flatMap, List.nodup_flatMap] at hdifferent
  have hsymm : Std.Symm (Function.onFun List.Disjoint fun v =>
      ((Forest.callIn sym F (sampleEntries.get i) v).times c.cpuFreq
        (c.thresholds sampleEntries ftraceEvents).2).map Prod.snd) :=
    ⟨fun _ _ hd => List.Disjoint.symm hd⟩
  have hdisjoint := hdifferent.2.forall hu hv hne
  have hpq := horder p (List.mem_flatMap.2 ⟨u, hu, hp⟩) q (List.mem_flatMap.2 ⟨v, hv, hq⟩)
  have hqp := horder q (List.mem_flatMap.2 ⟨v, hv, hq⟩) p (List.mem_flatMap.2 ⟨u, hu, hp⟩)
  intro heq
  rw [heq] at hpq hqp
  rcases lt_trichotomy p.2 q.2 with hlt | hsame | hlt
  · exact lt_irrefl _ (hpq.1 hlt)
  · exact hdisjoint (List.mem_map_of_mem hp) (hsame ▸ List.mem_map_of_mem hq)
  · exact lt_irrefl _ (hqp.1 hlt)

theorem fst_mem_times (cpuFreq timeBase : UInt64) (call : FunctionCall) :
    ∃ p ∈ call.times cpuFreq timeBase, p.1 = (call.interval cpuFreq timeBase).1 :=
  ⟨_, List.mem_cons_self, rfl⟩

theorem snd_mem_times (cpuFreq timeBase : UInt64) (call : FunctionCall) :
    ∃ p ∈ call.times cpuFreq timeBase, p.1 = (call.interval cpuFreq timeBase).2 :=
  ⟨_, List.mem_cons_of_mem _ List.mem_cons_self, rfl⟩

/-- The `2 ^ 31 + 1`-st orphan would start where the window does. -/
theorem IsForestWindow.orphans_le (h : c.IsForestWindow w sampleEntries ftraceEvents i sym F)
    {ftraceText : String} (hprints : c.PrintsTimes w sampleEntries ftraceEvents ftraceText i) :
    (F.orphans (sampleEntries.get i).trace).length ≤ 2 ^ 31 := by
  obtain ⟨t, ht⟩ : ∃ t, sampleEntries.get i = t := ⟨_, rfl⟩
  obtain ⟨base, hbase⟩ : ∃ base, (c.thresholds sampleEntries ftraceEvents).2 = base := ⟨_, rfl⟩
  have hne := @IsForestWindow.exact_ne w c sampleEntries ftraceEvents i sym F h ftraceText hprints
  have hle := UInt64.le_trans (c.timeBase_le_oldest sampleEntries ftraceEvents) h.oldest_le
  have hwin := h.window
  have hF := h.recorded
  rw [ht] at hle hwin
  simp only [ht, hbase] at hne hle ⊢
  by_contra hmany
  have hN : 2 ^ 31 + 1 ≤ (F.orphans t.trace).length := by omega
  obtain ⟨v, hv, hrank⟩ := exists_rank_eq (orphanRank_getElem hF) (by norm_num) hN
  obtain ⟨hvmem, hvcall, hvret⟩ : v ∈ F.invs ∧ v.1 ∉ t.trace ∧ v.2 ∈ t.trace := by
    simpa [Forest.orphans] using hv
  have hvin := (F.mem_invocations t.trace).2 ⟨hvmem, Or.inr hvret⟩
  obtain ⟨hv₁₂, hvhead, -, hv₁, hv₂⟩ := invocation_bounds hF hwin hvin
  have hvstart : ((Forest.callIn sym F t v).interval c.cpuFreq base).1 =
      place c.cpuFreq base (t.trace.head t.nonempty).cycle := by
    have hcall : Forest.callIn sym F t v =
        ⟨symOf sym v.2, (t.trace.head t.nonempty).cycle, v.2.cycle, -(2 ^ 31 + 1)⟩ := by
      simp [Forest.callIn, Forest.callOf, hvcall, hrank]
    obtain ⟨hextra, -⟩ := @FunctionCall.extra_of_wrapped_neg (Forest.callIn sym F t v) (by rw [hcall])
    rw [FunctionCall.interval, FunctionCall.ts, hextra, hcall, sub_zero]
    rfl
  obtain ⟨p, hp, hpstart⟩ := fst_mem_times c.cpuFreq base (Forest.callIn sym F t v)
  -- the invocation of the window's first entry has a time there as well
  obtain ⟨u, hu, hfirst⟩ := Forest.exists_of_mem_log (hwin.subset (List.head_mem t.nonempty))
  rcases hfirst with hfirst | hfirst
  · have hucall : u.1 ∈ t.trace := hfirst ▸ List.head_mem t.nonempty
    have huin := (F.mem_invocations t.trace).2 ⟨hu, Or.inl hucall⟩
    obtain ⟨hu₁₂, -, -, -, hu₂⟩ := invocation_bounds hF hwin huin
    have huret : u.2 ∈ t.trace := by
      have hvhead' : v.1.cycle < u.1.cycle := by
        rw [← hfirst]
        exact UInt64.not_le.1 fun hle => hvcall (hv₁.2 hle)
      rw [hfirst] at hvhead
      have hvlast := hv₂.1 hvret
      rw [hu₂]
      simp only [UInt64.lt_iff_toNat_lt, UInt64.le_iff_toNat_le] at *
      rcases Forest.trichotomy hF.sorted hu hvmem with rfl | hin | hin | hfar | hfar
      · exact absurd hucall hvcall
      · have hrel := (hin.rel hF.sorted).2
        rw [UInt64.lt_iff_toNat_lt] at hrel
        omega
      · have hrel := (hin.rel hF.sorted).1
        rw [UInt64.lt_iff_toNat_lt] at hrel
        omega
      · rw [UInt64.lt_iff_toNat_lt] at hfar
        omega
      · rw [UInt64.lt_iff_toNat_lt] at hfar
        omega
    obtain ⟨q, hq, hqstart⟩ := fst_mem_times c.cpuFreq base (Forest.callIn sym F t u)
    refine hne hvin huin (fun heq => hvcall (heq ▸ hucall)) hp hq ?_
    rw [hpstart, hvstart, hqstart, interval_inside hF hwin hle huin hucall huret, Forest.span,
      if_pos hucall, hfirst]
  · have huret : u.2 ∈ t.trace := hfirst ▸ List.head_mem t.nonempty
    have huin := (F.mem_invocations t.trace).2 ⟨hu, Or.inr huret⟩
    obtain ⟨hu₁₂, -, -, hu₁, -⟩ := invocation_bounds hF hwin huin
    have hucall : u.1 ∉ t.trace := fun hmem => by
      have hle := hu₁.1 hmem
      rw [hfirst] at hle
      exact UInt64.not_le.2 hu₁₂ hle
    have hurank : F.orphanRank t.trace u = 1 := by
      rw [Forest.orphanRank, List.countP_eq_zero.2]
      intro x hx
      obtain ⟨hxmem, -, hxret⟩ : x ∈ F.invs ∧ x.1 ∉ t.trace ∧ x.2 ∈ t.trace := by
        simpa [Forest.orphans] using hx
      have hhead := (window_bounds hF hwin hxret).1
      rw [hfirst] at hhead
      simpa using hhead
    obtain ⟨q, hq, hqend⟩ := snd_mem_times c.cpuFreq base (Forest.callIn sym F t u)
    have hqspan := (@interval_orphans sym F t c.cpuFreq base u hF hwin hle
      (orphan_of_not_mem huin hucall)).1 (by omega)
    refine hne hvin huin (fun heq => ?_) hp hq ?_
    · rw [heq, hurank] at hrank
      omega
    · rw [hpstart, hvstart, hqend, hqspan, Forest.span, if_pos huret, hfirst]

/-- The `2 ^ 31`-st open invocation would end where the window does. -/
theorem IsForestWindow.opened_lt (h : c.IsForestWindow w sampleEntries ftraceEvents i sym F)
    {ftraceText : String} (hprints : c.PrintsTimes w sampleEntries ftraceEvents ftraceText i) :
    (F.opened (sampleEntries.get i).trace).length < 2 ^ 31 := by
  have horphans := h.orphans_le hprints
  obtain ⟨t, ht⟩ : ∃ t, sampleEntries.get i = t := ⟨_, rfl⟩
  obtain ⟨base, hbase⟩ : ∃ base, (c.thresholds sampleEntries ftraceEvents).2 = base := ⟨_, rfl⟩
  have hne := @IsForestWindow.exact_ne w c sampleEntries ftraceEvents i sym F h ftraceText hprints
  have hle := UInt64.le_trans (c.timeBase_le_oldest sampleEntries ftraceEvents) h.oldest_le
  have hwin := h.window
  have hF := h.recorded
  rw [ht] at hle hwin
  simp only [ht, hbase] at hne hle horphans ⊢
  by_contra hmany
  obtain ⟨v, hv, hrank⟩ :=
    exists_rank_eq (openRank_getElem hF hwin) (by norm_num) (not_lt.1 hmany)
  obtain ⟨hvmem, hvcall, hvret⟩ : v ∈ F.invs ∧ v.1 ∈ t.trace ∧ v.2 ∉ t.trace := by
    simpa [Forest.opened] using hv
  have hvin := (F.mem_invocations t.trace).2 ⟨hvmem, Or.inl hvcall⟩
  obtain ⟨hv₁₂, -, hvlast, hv₁, -⟩ := invocation_bounds hF hwin hvin
  have hvend : ((Forest.callIn sym F t v).interval c.cpuFreq base).2 =
      place c.cpuFreq base (t.trace.getLast t.nonempty).cycle := by
    have hcall : Forest.callIn sym F t v =
        ⟨symOf sym v.1, v.1.cycle, (t.trace.getLast t.nonempty).cycle, 2 ^ 31⟩ := by
      simp [Forest.callIn, Forest.callOf, hvcall, hvret, hrank]
    obtain ⟨-, hextra⟩ :=
      @FunctionCall.extra_of_wrapped (Forest.callIn sym F t v) (Or.inl (by rw [hcall]))
    rw [hcall] at hextra ⊢
    rw [FunctionCall.interval_eq (UInt64.le_trans hle (hv₁.1 hvcall)) hvlast, hextra, add_zero]
  obtain ⟨p, hp, hpend⟩ := snd_mem_times c.cpuFreq base (Forest.callIn sym F t v)
  -- the invocation of the window's last entry has a time there as well
  obtain ⟨u, hu, hlast⟩ := Forest.exists_of_mem_log (hwin.subset (List.getLast_mem t.nonempty))
  rcases hlast with hlast | hlast
  · have hucall : u.1 ∈ t.trace := hlast ▸ List.getLast_mem t.nonempty
    have huin := (F.mem_invocations t.trace).2 ⟨hu, Or.inl hucall⟩
    obtain ⟨hu₁₂, -, -, -, hu₂⟩ := invocation_bounds hF hwin huin
    have huret : u.2 ∉ t.trace := fun hmem => by
      have hle := hu₂.1 hmem
      rw [hlast] at hle
      exact UInt64.not_le.2 hu₁₂ hle
    have hurank : F.openRank t.trace u = 1 := by
      rw [Forest.openRank, List.countP_eq_zero.2]
      intro x hx
      obtain ⟨hxmem, hxcall, -⟩ : x ∈ F.invs ∧ x.1 ∈ t.trace ∧ x.2 ∉ t.trace := by
        simpa [Forest.opened] using hx
      have hxlast := (window_bounds hF hwin hxcall).2
      rw [hlast] at hxlast
      simpa using hxlast
    obtain ⟨q, hq, hqstart⟩ := fst_mem_times c.cpuFreq base (Forest.callIn sym F t u)
    have hqspan := (@interval_opened sym F t c.cpuFreq base u hF hwin hle
      (opened_of_not_mem huin huret)).1 (by omega)
    refine hne hvin huin (fun heq => ?_) hp hq ?_
    · rw [heq, hurank] at hrank
      omega
    · rw [hpend, hvend, hqstart, hqspan, Forest.span, if_pos hucall, hlast]
  · have huret : u.2 ∈ t.trace := hlast ▸ List.getLast_mem t.nonempty
    have huin := (F.mem_invocations t.trace).2 ⟨hu, Or.inr huret⟩
    obtain ⟨q, hq, hqend⟩ := snd_mem_times c.cpuFreq base (Forest.callIn sym F t u)
    have hqspan := @interval_callIn sym F t c.cpuFreq base u hF hwin hle huin
      (orphanRank_le hF horphans u) fun hopen => by
        have hnot : u.2 ∉ t.trace := by
          have hopen : u ∈ F.invs ∧ u.1 ∈ t.trace ∧ u.2 ∉ t.trace := by
            simpa [Forest.opened] using hopen
          exact hopen.2.2
        exact absurd huret hnot
    refine hne hvin huin (fun heq => hvret (heq ▸ huret)) hp hq ?_
    rw [hpend, hvend, hqend, hqspan, Forest.finish, if_pos huret, hlast]

/-- **Printed times.**  For a window of a forest and up to 5 GHz, the starts and ends of the
    events are printed as different numbers in their order, and ftrace events where the calls of
    the same time start, iff at most `2 ^ 31` invocations only return in the window and fewer
    than `2 ^ 31` are only called in it. -/
theorem printsTimes_iff {ftraceText : String}
    (h : c.IsForestWindow w sampleEntries ftraceEvents i sym F) (hfast : c.cpuFreq ≤ 5000000000)
    (hraw : c.rawFtrace ftraceText = some ftraceEvents) :
    c.PrintsTimes w sampleEntries ftraceEvents ftraceText i ↔
      (F.orphans (sampleEntries.get i).trace).length ≤ 2 ^ 31 ∧
        (F.opened (sampleEntries.get i).trace).length < 2 ^ 31 := by
  constructor
  · exact fun hprints => ⟨h.orphans_le hprints, h.opened_lt hprints⟩
  · rintro ⟨horphans, hopened⟩
    obtain ⟨hdifferent, horder⟩ := h.printed hfast horphans hopened
    refine ⟨hdifferent, horder, fun shifted hshifted ev hev call hcall hextra htime => ?_⟩
    have hraw' : { c with timeBase := (c.thresholds sampleEntries ftraceEvents).2 }.rawFtrace
        ftraceText = some ftraceEvents := hraw
    obtain ⟨before, text, after, hline, htext⟩ := line_shiftedFtrace hraw' hshifted hev
    have htext : c.fixts (c.thresholds sampleEntries ftraceEvents).2 ev.timestamp = some text := htext
    refine ⟨before, text, after, hline, htext, ?_⟩
    rw [decimalValue_fixts htext, decimalValue_rat2dec, htime,
      h.ftrace horphans hopened hcall hextra]

/-- `f` calls `g`, which calls `h`; the window begins with the call of `h`, at the time of an
    event of ftrace. -/
theorem printsTimes_iff_demo :
    let ret (address cycle : UInt64) := FunTraceEntry.traced address returnFlag cycle
    let F := Forest.call ⟨0x1100, 10⟩
      (.call ⟨0x1200, 20⟩ (.call ⟨0x1300, 30⟩ .nil (ret 0x1300 40) .nil) (ret 0x1200 50) .nil)
      (ret 0x1100 60) .nil
    let t := demoThread ⟨0x1300, 30⟩ [ret 0x1300 40, ret 0x1200 50]
    let text := "a-1 [0] 30: sched_switch"
    let ftraceEvents := [⟨30, "a-1 [0] 0.0000000300: sched_switch"⟩]
    (F.orphans t.trace).length = 1 ∧ demoConverter.PrintsTimes demoWorld [t] ftraceEvents text 0 := by
  intro ret F t text ftraceEvents
  have hwin : demoConverter.IsForestWindow demoWorld [t] ftraceEvents ⟨0, Nat.one_pos⟩
      (demoConverter.sampleLookup demoWorld [t] ftraceEvents).sym F :=
    { noOption := rfl
      freq := by decide
      recorded := ⟨by decide +kernel, by decide +kernel, by decide +kernel⟩
      window := by decide +kernel
      resolves := ⟨fun _ _ => rfl, by decide +kernel⟩ }
  have hraw : demoConverter.rawFtrace text = some ftraceEvents := by decide +kernel
  exact ⟨by decide +kernel,
    (printsTimes_iff hwin (by decide) hraw).2 ⟨by decide +kernel, by decide +kernel⟩⟩

/-- `f` calling itself `2 ^ 31 + 1` times: the outermost call is printed to start at the first
    entry of the window, where the innermost one ends. -/
theorem not_printsTimes :
    let n := 2 ^ 31
    let sample := [returnsThread n]
    let sym := (demoConverter.sampleLookup demoWorld sample []).sym
    demoConverter.IsForestWindow demoWorld sample [] ⟨0, Nat.one_pos⟩ sym (recursion (n + 1) 1) ∧
      demoConverter.cpuFreq ≤ 5000000000 ∧ demoConverter.rawFtrace "" = some [] ∧
      ¬ demoConverter.PrintsTimes demoWorld sample [] "" 0 := by
  intro n sample sym
  have hwin : demoConverter.IsForestWindow demoWorld sample [] ⟨0, Nat.one_pos⟩ sym
      (recursion (n + 1) 1) := isForestWindow_recursion (by norm_num [n])
  refine ⟨hwin, by decide, by decide +kernel, fun hprints => ?_⟩
  have hlen : ((recursion (n + 1) 1).orphans (returnsThread n).trace).length ≤ 2 ^ 31 :=
    hwin.orphans_le hprints
  rw [trace_returnsThread, orphans_recursion, length_recursion] at hlen
  omega

end TraceConverter

end Funtrace
