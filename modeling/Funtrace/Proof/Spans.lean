/-
  The intervals of a window of a well-nested run.

  An invocation whose call and return both lie in the window has its own interval.
  One that only returns there starts a number of nanoseconds before the window, one
  that is only called there ends a number of nanoseconds after it (`Forest.span`);
  the numbers are chosen such that the intervals lie as the invocations do
  (`span_nests`).

  The decoder counts these nanoseconds in an `i32`, so it gives the intervals iff
  neither count reaches `2 ^ 31` (`emitted_window_iff`).
-/
import Mathlib.Tactic.Positivity
import Funtrace.Lib.Laminar
import Funtrace.Proof.Windows

namespace Funtrace

/-- The interval of an invocation whose call or return lies in a window. -/
def Forest.span (F : Forest FunTraceEntry) (t : ThreadTrace) (cpuFreq timeBase : UInt64)
    (v : FunTraceEntry × FunTraceEntry) : ℚ × ℚ :=
  (if v.1 ∈ t.trace then place cpuFreq timeBase v.1.cycle
    else place cpuFreq timeBase (t.trace.head t.nonempty).cycle - F.orphanRank t.trace v / 1000,
   if v.2 ∈ t.trace then place cpuFreq timeBase v.2.cycle
    else place cpuFreq timeBase (t.trace.getLast t.nonempty).cycle + F.openRank t.trace v / 1000)

theorem countP_lt_of_mem {α : Type} {p q : α → Bool} {l : List α} (h : ∀ x ∈ l, p x → q x) {x : α}
    (hx : x ∈ l) (hp : p x = false) (hq : q x) : l.countP p < l.countP q := by
  obtain ⟨before, after, rfl⟩ := List.append_of_mem hx
  have hbefore : before.countP p ≤ before.countP q :=
    List.countP_mono_left fun y hy => h y (by simp [hy])
  have hafter : after.countP p ≤ after.countP q :=
    List.countP_mono_left fun y hy => h y (by simp [hy])
  rw [List.countP_append, List.countP_append, List.countP_cons_of_neg (by simp [hp]),
    List.countP_cons_of_pos hq]
  omega

section
variable {sym : UInt64 → SymInfo} {F : Forest FunTraceEntry} {t : ThreadTrace}
  {cpuFreq timeBase : UInt64} {u v : FunTraceEntry × FunTraceEntry}

/-! ## Nesting -/

/-- Of two orphans, the one that returns later has the higher rank. -/
theorem orphanRank_lt (hu : u ∈ F.orphans t.trace) (hlt : u.2.cycle < v.2.cycle) :
    F.orphanRank t.trace u < F.orphanRank t.trace v := by
  refine Nat.succ_lt_succ (countP_lt_of_mem (fun x _ hx => ?_) hu ?_ (by simpa using hlt))
  · exact decide_eq_true (UInt64.lt_trans (of_decide_eq_true hx) hlt)
  · exact decide_eq_false (UInt64.lt_irrefl _)

/-- Of two open invocations, the one that was called earlier has the higher rank. -/
theorem openRank_lt (hu : u ∈ F.opened t.trace) (hlt : v.1.cycle < u.1.cycle) :
    F.openRank t.trace u < F.openRank t.trace v := by
  refine Nat.succ_lt_succ (countP_lt_of_mem (fun x _ hx => ?_) hu ?_ (by simpa using hlt))
  · exact decide_eq_true (UInt64.lt_trans hlt (of_decide_eq_true hx))
  · exact decide_eq_false (UInt64.lt_irrefl _)

theorem rank_div_lt {m n : ℕ} (h : m < n) : (m : ℚ) / 1000 < n / 1000 := by
  have hlt : (m : ℚ) < n := Nat.cast_lt.2 h
  linarith

section
variable (hF : Recorded sym F) (hwin : t.trace <:+: F.log) (hfreq : cpuFreq ≠ 0)
  (hbase : timeBase ≤ (t.trace.head t.nonempty).cycle)

include hF hwin in
theorem window_bounds {e : FunTraceEntry} (he : e ∈ t.trace) :
    (t.trace.head t.nonempty).cycle ≤ e.cycle ∧ e.cycle ≤ (t.trace.getLast t.nonempty).cycle :=
  (mem_window_iff hF.sorted hwin (hwin.subset he)).1 he

include hF hwin in
/-- The timestamps of an invocation in a window: a call or return outside lies before or after. -/
theorem invocation_bounds (hv : v ∈ F.invocations t.trace) :
    v.1.cycle < v.2.cycle ∧ (t.trace.head t.nonempty).cycle ≤ v.2.cycle ∧
      v.1.cycle ≤ (t.trace.getLast t.nonempty).cycle ∧
      (v.1 ∈ t.trace ↔ (t.trace.head t.nonempty).cycle ≤ v.1.cycle) ∧
      (v.2 ∈ t.trace ↔ v.2.cycle ≤ (t.trace.getLast t.nonempty).cycle) := by
  obtain ⟨hmem, hin⟩ := (F.mem_invocations t.trace).1 hv
  have hlt : v.1.cycle < v.2.cycle := Forest.rel_ret hF.sorted hmem
  rw [mem_window_iff hF.sorted hwin (Forest.mem_log hmem).1,
    mem_window_iff hF.sorted hwin (Forest.mem_log hmem).2] at hin ⊢
  simp only [UInt64.lt_iff_toNat_lt, UInt64.le_iff_toNat_le] at hin hlt ⊢
  omega

theorem orphan_of_not_mem (hv : v ∈ F.invocations t.trace) (hcall : v.1 ∉ t.trace) :
    v ∈ F.orphans t.trace := by
  obtain ⟨hmem, hin⟩ := (F.mem_invocations t.trace).1 hv
  exact List.mem_filter.2 ⟨hmem, by simpa using ⟨hcall, hin.resolve_left hcall⟩⟩

theorem opened_of_not_mem (hv : v ∈ F.invocations t.trace) (hret : v.2 ∉ t.trace) :
    v ∈ F.opened t.trace := by
  obtain ⟨hmem, hin⟩ := (F.mem_invocations t.trace).1 hv
  exact List.mem_filter.2 ⟨hmem, by simpa using ⟨hin.resolve_right hret, hret⟩⟩

include hF hwin hfreq hbase in
/-- An invocation made inside another one has its interval inside. -/
theorem span_inside (hu : u ∈ F.invocations t.trace) (hv : v ∈ F.invocations t.trace)
    (hin : F.Inside u v) :
    (F.span t cpuFreq timeBase v).1 < (F.span t cpuFreq timeBase u).1 ∧
      (F.span t cpuFreq timeBase u).2 < (F.span t cpuFreq timeBase v).2 := by
  obtain ⟨hcall, hret⟩ := hin.rel hF.sorted
  obtain ⟨hu₁₂, hufirst, hulast, hu₁, hu₂⟩ := invocation_bounds hF hwin hu
  obtain ⟨hv₁₂, hvfirst, hvlast, hv₁, hv₂⟩ := invocation_bounds hF hwin hv
  have hpos (n : ℕ) : (0 : ℚ) < (n + 1 : ℕ) / 1000 := by positivity
  constructor
  · by_cases hvcall : v.1 ∈ t.trace
    · have hle := hv₁.1 hvcall
      have hle' := UInt64.le_trans hle (UInt64.le_of_lt hcall)
      rw [Forest.span, Forest.span, if_pos hvcall, if_pos (hu₁.2 hle')]
      exact (place_lt_iff hfreq (UInt64.le_trans hbase hle) (UInt64.le_trans hbase hle')).2 hcall
    · by_cases hucall : u.1 ∈ t.trace
      · have hle := (place_le_iff hfreq hbase (UInt64.le_trans hbase (hu₁.1 hucall))).2 (hu₁.1 hucall)
        have := hpos ((F.orphans t.trace).countP (·.2.cycle < v.2.cycle))
        rw [Forest.span, Forest.span, if_neg hvcall, if_pos hucall, Forest.orphanRank]
        linarith
      · have hrank := rank_div_lt (orphanRank_lt (orphan_of_not_mem hu hucall) hret)
        rw [Forest.span, Forest.span, if_neg hvcall, if_neg hucall]
        linarith
  · by_cases hvret : v.2 ∈ t.trace
    · have hle := hv₂.1 hvret
      have hle' := UInt64.le_trans (UInt64.le_of_lt hret) hle
      rw [Forest.span, Forest.span, if_pos hvret, if_pos (hu₂.2 hle')]
      exact (place_lt_iff hfreq (UInt64.le_trans hbase hufirst)
        (UInt64.le_trans hbase hvfirst)).2 hret
    · have hlast : timeBase ≤ (t.trace.getLast t.nonempty).cycle :=
        UInt64.le_trans hbase (window_bounds hF hwin (List.getLast_mem t.nonempty)).1
      by_cases huret : u.2 ∈ t.trace
      · have hle := (place_le_iff hfreq (UInt64.le_trans hbase hufirst) hlast).2 (hu₂.1 huret)
        have := hpos ((F.opened t.trace).countP (v.1.cycle < ·.1.cycle))
        rw [Forest.span, Forest.span, if_neg hvret, if_pos huret, Forest.openRank]
        linarith
      · have hrank := rank_div_lt (openRank_lt (opened_of_not_mem hu huret) hcall)
        rw [Forest.span, Forest.span, if_neg hvret, if_neg huret]
        linarith

include hF hwin hfreq hbase in
/-- An invocation that follows another one has its interval after it. -/
theorem span_follows (hu : u ∈ F.invocations t.trace) (hv : v ∈ F.invocations t.trace)
    (hlt : u.2.cycle < v.1.cycle) :
    (F.span t cpuFreq timeBase u).2 < (F.span t cpuFreq timeBase v).1 := by
  obtain ⟨hu₁₂, hufirst, hulast, hu₁, hu₂⟩ := invocation_bounds hF hwin hu
  obtain ⟨hv₁₂, hvfirst, hvlast, hv₁, hv₂⟩ := invocation_bounds hF hwin hv
  have hle := UInt64.le_trans hufirst (UInt64.le_of_lt hlt)
  rw [Forest.span, Forest.span, if_pos (hu₂.2 (UInt64.le_trans (UInt64.le_of_lt hlt) hvlast)),
    if_pos (hv₁.2 hle)]
  exact (place_lt_iff hfreq (UInt64.le_trans hbase hufirst) (UInt64.le_trans hbase hle)).2 hlt

include hF hwin hfreq hbase in
theorem span_le (hv : v ∈ F.invocations t.trace) :
    (F.span t cpuFreq timeBase v).1 ≤ (F.span t cpuFreq timeBase v).2 := by
  obtain ⟨hv₁₂, hvfirst, hvlast, hv₁, hv₂⟩ := invocation_bounds hF hwin hv
  have hpos (n : ℕ) : (0 : ℚ) ≤ n / 1000 := by positivity
  have hlast : timeBase ≤ (t.trace.getLast t.nonempty).cycle :=
    UInt64.le_trans hbase (window_bounds hF hwin (List.getLast_mem t.nonempty)).1
  have hstart : ∃ c, timeBase ≤ c ∧ c ≤ v.2.cycle ∧ c ≤ (t.trace.getLast t.nonempty).cycle ∧
      (F.span t cpuFreq timeBase v).1 ≤ place cpuFreq timeBase c := by
    by_cases hcall : v.1 ∈ t.trace
    · exact ⟨v.1.cycle, UInt64.le_trans hbase (hv₁.1 hcall), UInt64.le_of_lt hv₁₂, hvlast,
        by rw [Forest.span, if_pos hcall]⟩
    · refine ⟨(t.trace.head t.nonempty).cycle, hbase, hvfirst,
        (window_bounds hF hwin (List.getLast_mem t.nonempty)).1, ?_⟩
      rw [Forest.span, if_neg hcall]
      linarith [hpos (F.orphanRank t.trace v)]
  obtain ⟨c, hc, hcret, hclast, hle⟩ := hstart
  refine hle.trans ?_
  by_cases hret : v.2 ∈ t.trace
  · rw [Forest.span, if_pos hret]
    exact (place_le_iff hfreq hc (UInt64.le_trans hc hcret)).2 hcret
  · have := (place_le_iff hfreq hc hlast).2 hclast
    rw [Forest.span, if_neg hret]
    linarith [hpos (F.openRank t.trace v)]

include hF hwin hfreq hbase in
/-- **The intervals lie as the invocations do**: nested or disjoint, and nested iff they are. -/
theorem span_nests (hu : u ∈ F.invocations t.trace) (hv : v ∈ F.invocations t.trace) :
    Fits (F.span t cpuFreq timeBase u) (F.span t cpuFreq timeBase v) ∧
      (Within (F.span t cpuFreq timeBase u) (F.span t cpuFreq timeBase v) ↔
        u = v ∨ F.Inside u v) := by
  have hu' := ((F.mem_invocations t.trace).1 hu).1
  have hv' := ((F.mem_invocations t.trace).1 hv).1
  have hule := span_le hF hwin hfreq hbase hu
  have hvle := span_le hF hwin hfreq hbase hv
  have hwithin : u = v ∨ F.Inside u v →
      Within (F.span t cpuFreq timeBase u) (F.span t cpuFreq timeBase v) := by
    rintro (rfl | hin)
    · exact ⟨le_rfl, le_rfl⟩
    · obtain ⟨hlo, hhi⟩ := span_inside hF hwin hfreq hbase hu hv hin
      exact ⟨hlo.le, hhi.le⟩
  rcases Forest.trichotomy hF.sorted hu' hv' with h | h | h | h | h
  · exact ⟨Or.inl (hwithin (Or.inl h)), fun _ => Or.inl h, hwithin⟩
  · exact ⟨Or.inl (hwithin (Or.inr h)), fun _ => Or.inr h, hwithin⟩
  · obtain ⟨hlo, hhi⟩ := span_inside hF hwin hfreq hbase hv hu h
    exact ⟨Or.inr (Or.inl ⟨hlo.le, hhi.le⟩), fun hw => absurd hw.1 (not_le.2 hlo), hwithin⟩
  · have hlt := span_follows hF hwin hfreq hbase hu hv h
    exact ⟨Or.inr (Or.inr (Or.inl hlt)),
      fun hw => absurd (hw.1.trans hule) (not_le.2 hlt), hwithin⟩
  · have hlt := span_follows hF hwin hfreq hbase hv hu h
    exact ⟨Or.inr (Or.inr (Or.inr hlt)),
      fun hw => absurd (hule.trans hw.2) (not_le.2 hlt), hwithin⟩

end

/-! ## Counters -/

section
variable {α : Type} {l : List α} {rank : α → ℕ} {N : ℕ}

theorem rank_lt (hrank : ∀ i (hi : i < l.length), rank l[i] = i + 1) (hN : l.length < N) :
    ∀ v ∈ l, rank v < N := by
  intro v hv
  obtain ⟨i, hi, rfl⟩ := List.getElem_of_mem hv
  rw [hrank i hi]
  omega

theorem exists_rank_eq (hrank : ∀ i (hi : i < l.length), rank l[i] = i + 1) (hpos : 0 < N)
    (hN : N ≤ l.length) : ∃ v ∈ l, rank v = N :=
  ⟨l[N - 1], List.getElem_mem _, by rw [hrank]; omega⟩

end

theorem orphanRank_getElem (hF : Recorded sym F) (i : ℕ) (hi : i < (F.orphans t.trace).length) :
    F.orphanRank t.trace (F.orphans t.trace)[i] = i + 1 := by
  have hsorted : (F.orphans t.trace).Pairwise fun u v => u.2.cycle < v.2.cycle :=
    (Forest.invs_sorted hF.sorted).sublist List.filter_sublist
  exact congrArg (· + 1) (countP_getElem (fun _ _ h => UInt64.lt_asymm h) hsorted hi)

theorem openRank_getElem (hF : Recorded sym F) (hwin : t.trace <:+: F.log) (i : ℕ)
    (hi : i < (F.opened t.trace).length) :
    F.openRank t.trace (F.opened t.trace)[i] = i + 1 :=
  congrArg (· + 1) (countP_getElem (fun _ _ h => UInt64.lt_asymm h) (opened_sorted hF hwin) hi)

variable (sym F t) in
/-- The call written for an invocation in a window. -/
def Forest.callIn (v : FunTraceEntry × FunTraceEntry) : FunctionCall :=
  F.callOf t.trace sym (t.trace.head t.nonempty).cycle (t.trace.getLast t.nonempty).cycle v

section
variable (hF : Recorded sym F) (hwin : t.trace <:+: F.log)
  (hbase : timeBase ≤ (t.trace.head t.nonempty).cycle)

include hF hwin hbase in
theorem interval_inside (hv : v ∈ F.invocations t.trace) (hcall : v.1 ∈ t.trace)
    (hret : v.2 ∈ t.trace) :
    (Forest.callIn sym F t v).interval cpuFreq timeBase = F.span t cpuFreq timeBase v := by
  obtain ⟨hv₁₂, -, -, hv₁, -⟩ := invocation_bounds hF hwin hv
  have hc : Forest.callIn sym F t v = ⟨symOf sym v.1, v.1.cycle, v.2.cycle, (0 : ℕ)⟩ := by
    simp [Forest.callIn, Forest.callOf, hcall, hret]
  rw [hc, interval_pop cpuFreq (UInt64.le_trans hbase (hv₁.1 hcall)) (UInt64.le_of_lt hv₁₂)
    (by norm_num), Forest.span, if_pos hcall, if_pos hret]
  simp

include hF hwin hbase in
/-- An orphan gets its interval, until its rank reaches `2 ^ 31`. -/
theorem interval_orphans (hv : v ∈ F.orphans t.trace) :
    (F.orphanRank t.trace v < 2 ^ 31 →
      (Forest.callIn sym F t v).interval cpuFreq timeBase = F.span t cpuFreq timeBase v) ∧
    (F.orphanRank t.trace v = 2 ^ 31 →
      (Forest.callIn sym F t v).interval cpuFreq timeBase ≠ F.span t cpuFreq timeBase v) := by
  obtain ⟨hmem, hcall, hret⟩ : v ∈ F.invs ∧ v.1 ∉ t.trace ∧ v.2 ∈ t.trace := by
    simpa [Forest.orphans] using hv
  obtain ⟨-, hvfirst, -⟩ := invocation_bounds hF hwin ((F.mem_invocations _).2 ⟨hmem, Or.inr hret⟩)
  have hc : Forest.callIn sym F t v = ⟨symOf sym v.2, (t.trace.head t.nonempty).cycle, v.2.cycle,
      -(F.orphanRank t.trace v : ℤ)⟩ := by
    simp [Forest.callIn, Forest.callOf, hcall]
  rw [hc, FunctionCall.interval_eq hbase hvfirst, Forest.span, if_neg hcall, if_pos hret]
  constructor
  · intro hlt
    obtain ⟨hextra, hzero⟩ := @FunctionCall.extra_of_neg ⟨_, _, v.2.cycle, _⟩ _ rfl hlt
    rw [hextra, hzero, add_zero]
  · intro heq
    obtain ⟨hextra, hzero⟩ := @FunctionCall.extra_of_wrapped ⟨symOf sym v.2,
      (t.trace.head t.nonempty).cycle, v.2.cycle, -(F.orphanRank t.trace v : ℤ)⟩ (Or.inr (by rw [heq]; rfl))
    rw [hextra, hzero, heq]
    intro hfst
    have hfst := congrArg Prod.fst hfst
    norm_num at hfst

include hF hwin hbase in
/-- So does an open invocation. -/
theorem interval_opened (hv : v ∈ F.opened t.trace) :
    (F.openRank t.trace v < 2 ^ 31 →
      (Forest.callIn sym F t v).interval cpuFreq timeBase = F.span t cpuFreq timeBase v) ∧
    (F.openRank t.trace v = 2 ^ 31 →
      (Forest.callIn sym F t v).interval cpuFreq timeBase ≠ F.span t cpuFreq timeBase v) := by
  obtain ⟨hmem, hcall, hret⟩ : v ∈ F.invs ∧ v.1 ∈ t.trace ∧ v.2 ∉ t.trace := by
    simpa [Forest.opened] using hv
  obtain ⟨-, -, hvlast, hv₁, -⟩ :=
    invocation_bounds hF hwin ((F.mem_invocations _).2 ⟨hmem, Or.inl hcall⟩)
  have hc : Forest.callIn sym F t v = ⟨symOf sym v.1, v.1.cycle, (t.trace.getLast t.nonempty).cycle,
      F.openRank t.trace v⟩ := by
    simp [Forest.callIn, Forest.callOf, hcall, hret]
  rw [hc, FunctionCall.interval_eq (UInt64.le_trans hbase (hv₁.1 hcall)) hvlast, Forest.span,
    if_pos hcall, if_neg hret]
  constructor
  · intro hlt
    obtain ⟨hzero, hextra⟩ := @FunctionCall.extra_of_nonneg ⟨_, v.1.cycle, _, _⟩ _ rfl hlt
    rw [hextra, hzero, sub_zero]
  · intro heq
    obtain ⟨hextra, hzero⟩ := @FunctionCall.extra_of_wrapped ⟨symOf sym v.1,
      v.1.cycle, (t.trace.getLast t.nonempty).cycle, F.openRank t.trace v⟩ (Or.inl (by rw [heq]; rfl))
    rw [hextra, hzero, heq]
    intro hsnd
    have hsnd := congrArg Prod.snd hsnd
    norm_num at hsnd

include hF hwin hbase in
/-- **The counters fit** iff the calls have the intervals of the invocations. -/
theorem interval_callIn_iff :
    (∀ v ∈ F.invocations t.trace,
      (Forest.callIn sym F t v).interval cpuFreq timeBase = F.span t cpuFreq timeBase v) ↔
      (F.orphans t.trace).length < 2 ^ 31 ∧ (F.opened t.trace).length < 2 ^ 31 := by
  constructor
  · intro h
    constructor
    · by_contra hlen
      obtain ⟨v, hv, hrank⟩ := exists_rank_eq (orphanRank_getElem hF) (by norm_num) (not_lt.1 hlen)
      have hv' : v ∈ F.invs ∧ v.1 ∉ t.trace ∧ v.2 ∈ t.trace := by simpa [Forest.orphans] using hv
      exact (interval_orphans hF hwin hbase hv).2 hrank
        (h v ((F.mem_invocations _).2 ⟨hv'.1, Or.inr hv'.2.2⟩))
    · by_contra hlen
      obtain ⟨v, hv, hrank⟩ :=
        exists_rank_eq (openRank_getElem hF hwin) (by norm_num) (not_lt.1 hlen)
      have hv' : v ∈ F.invs ∧ v.1 ∈ t.trace ∧ v.2 ∉ t.trace := by simpa [Forest.opened] using hv
      exact (interval_opened hF hwin hbase hv).2 hrank
        (h v ((F.mem_invocations _).2 ⟨hv'.1, Or.inl hv'.2.1⟩))
  · rintro ⟨horphans, hopened⟩ v hv
    by_cases hcall : v.1 ∈ t.trace
    · by_cases hret : v.2 ∈ t.trace
      · exact interval_inside hF hwin hbase hv hcall hret
      · have hv := opened_of_not_mem hv hret
        exact (interval_opened hF hwin hbase hv).1 (rank_lt (openRank_getElem hF hwin) hopened v hv)
    · have hv := orphan_of_not_mem hv hcall
      exact (interval_orphans hF hwin hbase hv).1 (rank_lt (orphanRank_getElem hF) horphans v hv)

end

theorem isComplete_callIn (hF : Recorded sym F) (hwin : t.trace <:+: F.log) (hv : v ∈ F.invs) :
    (Forest.callIn sym F t v).isComplete := by
  have hhead := hF.nonzero _ (hwin.subset (List.head_mem t.nonempty))
  have hlast := hF.nonzero _ (hwin.subset (List.getLast_mem t.nonempty))
  have hcall := hF.nonzero _ (Forest.mem_log hv).1
  have hret := hF.nonzero _ (Forest.mem_log hv).2
  unfold Forest.callIn Forest.callOf
  split_ifs <;> simp [FunctionCall.isComplete, *]

theorem sym_callIn (hF : Recorded sym F) (hv : v ∈ F.invs) :
    (Forest.callIn sym F t v).sym = symOf sym v.1 := by
  unfold Forest.callIn Forest.callOf
  split_ifs
  exacts [rfl, rfl, (hF.logged v hv).same.symm]

/-- The events of a window are those of its invocations iff the counters fit. -/
theorem events_window_iff (hF : Recorded sym F) (hwin : t.trace <:+: F.log)
    (hbase : timeBase ≤ (t.trace.head t.nonempty).cycle) :
    ((decodeReported sym (t.trace.head t.nonempty).cycle (t.trace.getLast t.nonempty).cycle
        t.trace).filter FunctionCall.isComplete).map
          (fun call => (call.sym, call.interval cpuFreq timeBase)) =
      (F.invocations t.trace).map (fun v => (symOf sym v.1, F.span t cpuFreq timeBase v)) ↔
    (F.orphans t.trace).length < 2 ^ 31 ∧ (F.opened t.trace).length < 2 ^ 31 := by
  have hinvs : ∀ v ∈ F.invocations t.trace, v ∈ F.invs := fun v hv =>
    ((F.mem_invocations t.trace).1 hv).1
  have hcalls : decodeReported sym (t.trace.head t.nonempty).cycle
      (t.trace.getLast t.nonempty).cycle t.trace =
        (F.invocations t.trace).map (Forest.callIn sym F t) := decodeReported_window hF hwin _ _
  have hcomplete : ((F.invocations t.trace).map (Forest.callIn sym F t)).filter
      FunctionCall.isComplete = (F.invocations t.trace).map (Forest.callIn sym F t) := by
    refine List.filter_eq_self.2 fun c hc => ?_
    obtain ⟨v, hv, rfl⟩ := List.mem_map.1 hc
    exact isComplete_callIn hF hwin (hinvs v hv)
  rw [hcalls, hcomplete, List.map_map, List.map_inj_left, ← @interval_callIn_iff sym F t cpuFreq timeBase hF hwin hbase]
  refine forall₂_congr fun v hv => ?_
  simp only [Function.comp_apply, Prod.mk.injEq, sym_callIn hF (hinvs v hv), true_and]

end

/-! ## Samples -/

namespace TraceConverter
variable {w : World} {c : TraceConverter} {sampleEntries : List ThreadTrace}
  {ftraceEvents : List FtraceEvent} {i : Fin sampleEntries.length} {sym : UInt64 → SymInfo}
  {F : Forest FunTraceEntry}

variable (w c sampleEntries ftraceEvents i sym F) in
/-- The entries of a thread are a window of the log of a forest, all of whose addresses resolve;
    no option is given. -/
structure IsForestWindow : Prop where
  noOption : c.args = Cli.default
  freq : c.cpuFreq ≠ 0
  recorded : Recorded sym F
  window : (sampleEntries.get i).trace <:+: F.log
  resolves : (c.sampleLookup w sampleEntries ftraceEvents).Resolves sym (sampleEntries.get i).trace

theorem IsForestWindow.oldest_le (h : c.IsForestWindow w sampleEntries ftraceEvents i sym F) :
    c.oldestEvent sampleEntries ftraceEvents ≤
      ((sampleEntries.get i).trace.head (sampleEntries.get i).nonempty).cycle :=
  oldest_le_head h.noOption (List.getElem_mem _)

/-- The events of a thread are those of its invocations iff the counters fit. -/
theorem IsForestWindow.emitted_iff (h : c.IsForestWindow w sampleEntries ftraceEvents i sym F) :
    (c.emitted w sampleEntries ftraceEvents).getD i [] =
      (F.invocations (sampleEntries.get i).trace).map (fun v => (symOf sym v.1,
        F.span (sampleEntries.get i) c.cpuFreq (c.thresholds sampleEntries ftraceEvents).2 v)) ↔
    (F.orphans (sampleEntries.get i).trace).length < 2 ^ 31 ∧
      (F.opened (sampleEntries.get i).trace).length < 2 ^ 31 := by
  have hsorted : (sampleEntries.get i).trace.Pairwise (·.cycle < ·.cycle) :=
    h.recorded.sorted.sublist h.window.sublist
  have hold := h.oldest_le
  have hcalls := threadCalls_resolved (selects_default h.noOption _) h.resolves fun e he =>
    UInt64.le_trans hold ((sampleEntries.get i).head_le hsorted he)
  rw [max_eq_of_le hold] at hcalls
  have hemitted : (c.emitted w sampleEntries ftraceEvents).getD i [] =
      (((c.sampleCalls w sampleEntries ftraceEvents).getD i []).filter FunctionCall.isComplete).map
        fun call => (call.sym, call.interval c.cpuFreq (c.thresholds sampleEntries ftraceEvents).2) := by
    simp [emitted, sampleCalls_eq]
  rw [hemitted, hcalls]
  exact events_window_iff h.recorded h.window (UInt64.le_trans (c.timeBase_le_oldest _ _) hold)

/-- **Windows of well-nested runs.**  For a window of a forest the decoder emits one event for
    each invocation whose call or return lies in the window, and the events are nested as the
    invocations are, iff fewer than `2 ^ 31` invocations only return in the window and fewer
    than `2 ^ 31` are only called in it. -/
theorem decodes_window_iff (h : c.IsForestWindow w sampleEntries ftraceEvents i sym F) :
    let t := sampleEntries.get i
    let span := F.span t c.cpuFreq (c.thresholds sampleEntries ftraceEvents).2
    ((c.emitted w sampleEntries ftraceEvents).getD i [] =
        (F.invocations t.trace).map (fun v => (symOf sym v.1, span v)) ∧
      ∀ u ∈ F.invocations t.trace, ∀ v ∈ F.invocations t.trace,
        Fits (span u) (span v) ∧ (Within (span u) (span v) ↔ u = v ∨ F.Inside u v)) ↔
    (F.orphans t.trace).length < 2 ^ 31 ∧ (F.opened t.trace).length < 2 ^ 31 := by
  intro t span
  have hnests : ∀ u ∈ F.invocations t.trace, ∀ v ∈ F.invocations t.trace,
      Fits (span u) (span v) ∧ (Within (span u) (span v) ↔ u = v ∨ F.Inside u v) :=
    fun u hu v hv => span_nests h.recorded h.window h.freq
      (UInt64.le_trans (c.timeBase_le_oldest _ _) h.oldest_le) hu hv
  rw [and_iff_left hnests]
  exact h.emitted_iff

/-- `f` calls `g`, which calls `h`; then `f` calls `g` again.  The window begins with the call of
    `h` and ends with the second call of `g`. -/
theorem decodes_window_iff_demo :
    let ret (address cycle : UInt64) := FunTraceEntry.traced address returnFlag cycle
    let F := Forest.call ⟨0x1100, 10⟩
      (.call ⟨0x1200, 20⟩ (.call ⟨0x1300, 30⟩ .nil (ret 0x1300 40) .nil) (ret 0x1200 50) .nil)
      (ret 0x1100 60)
      (.call ⟨0x1100, 70⟩ (.call ⟨0x1200, 80⟩ .nil (ret 0x1200 90) .nil) (ret 0x1100 100) .nil)
    let t := demoThread ⟨0x1300, 30⟩ [ret 0x1300 40, ret 0x1200 50, ret 0x1100 60, ⟨0x1100, 70⟩,
      ⟨0x1200, 80⟩]
    let sym := (demoConverter.sampleLookup demoWorld [t] []).sym
    let span := F.span t demoConverter.cpuFreq (demoConverter.thresholds [t] []).2
    ((demoConverter.emitted demoWorld [t] []).getD 0 [] =
        (F.invocations t.trace).map (fun v => (symOf sym v.1, span v)) ∧
      ∀ u ∈ F.invocations t.trace, ∀ v ∈ F.invocations t.trace,
        Fits (span u) (span v) ∧ (Within (span u) (span v) ↔ u = v ∨ F.Inside u v)) ↔
    (F.orphans t.trace).length < 2 ^ 31 ∧ (F.opened t.trace).length < 2 ^ 31 := by
  intro ret F t sym span
  have hwin : demoConverter.IsForestWindow demoWorld [t] [] ⟨0, Nat.one_pos⟩ sym F :=
    { noOption := rfl
      freq := by decide
      recorded := ⟨by decide +kernel, by decide +kernel, by decide +kernel⟩
      window := by decide +kernel
      resolves := ⟨fun _ _ => rfl, by decide +kernel⟩ }
  exact decodes_window_iff hwin

/-! ## Deep recursion

A function that calls itself `n` times, with the returns as the window. -/

/-- A call of `f()` at this cycle. -/
def callAt (k : ℕ) : FunTraceEntry := ⟨0x1100, .ofNat k⟩

/-- A return from it. -/
def retAt (k : ℕ) : FunTraceEntry := .traced 0x1100 returnFlag (.ofNat k)

theorem addr_retAt (k : ℕ) : (retAt k).addr = 0x1100 := by
  change (0x1100 ||| returnFlag) &&& addressMask = 0x1100
  decide

/-- `n` nested invocations, the first called at `k`. -/
def recursion : ℕ → ℕ → Forest FunTraceEntry
  | 0, _ => .nil
  | n + 1, k => .call (callAt k) (recursion n (k + 1)) (retAt (k + 2 * n + 1)) .nil

theorem log_recursion : ∀ n k, (recursion n k).log =
    (List.range' k n).map callAt ++ (List.range' (k + n) n).map retAt
  | 0, _ => rfl
  | n + 1, k => by
    have hlast : (List.range' (k + (n + 1)) (n + 1)).map retAt =
        (List.range' (k + 1 + n) n).map retAt ++ [retAt (k + 2 * n + 1)] := by
      rw [List.range'_concat, List.map_append, show k + (n + 1) + 1 * n = k + 2 * n + 1 by omega,
        show k + (n + 1) = k + 1 + n by omega]
      rfl
    rw [recursion, Forest.log, log_recursion n (k + 1), hlast, List.range'_succ, List.map_cons,
      List.cons_append, ← List.append_assoc]
    rfl

theorem cycles_recursion (n k : ℕ) : (recursion n k).log.map FunTraceEntry.cycle =
    (List.range' k (n + n)).map UInt64.ofNat := by
  have hrange := @List.range'_append k n n 1
  rw [Nat.one_mul] at hrange
  rw [log_recursion, ← hrange, List.map_append, List.map_append, List.map_map, List.map_map]
  rfl

theorem mem_recursion : ∀ {n k : ℕ} {v : FunTraceEntry × FunTraceEntry},
    v ∈ (recursion n k).invs → v.1.address = 0x1100 ∧ v.2.address = 0x1100 ||| returnFlag
  | n + 1, k, v, hv => by
    rcases List.mem_append.1 hv with hv | hv
    · exact mem_recursion hv
    · obtain rfl := List.mem_singleton.1 hv
      exact ⟨rfl, rfl⟩

theorem length_recursion : ∀ n k, (recursion n k).invs.length = n
  | 0, _ => rfl
  | n + 1, k => by
    rw [recursion, Forest.invs, List.length_append, length_recursion]
    rfl

/-- A recursion is logged properly as long as the timestamps last. -/
theorem recorded_recursion {sym : UInt64 → SymInfo} {n k : ℕ} (hk : 0 < k)
    (hn : k + (n + n) ≤ 2 ^ 64) : Recorded sym (recursion n k) where
  logged v hv := by
    obtain ⟨hcall, hret⟩ := mem_recursion hv
    refine ⟨?_, ?_, ?_, congrArg sym ?_⟩
    · simp only [FunTraceEntry.isCall, FunTraceEntry.isRet, FunTraceEntry.isRetWithCallerAddr,
        FunTraceEntry.isCatch, hcall]
      decide
    · simp only [FunTraceEntry.isRet, FunTraceEntry.isRetWithCallerAddr, FunTraceEntry.isCatch, hret]
      decide
    · simp only [FunTraceEntry.isRetWithCallerAddr, FunTraceEntry.isCatch, hret]
      decide
    · simp only [FunTraceEntry.addr, hcall, hret]
      decide
  sorted := by
    have hcycles : ((recursion n k).log.map FunTraceEntry.cycle).Pairwise (· < ·) := by
      rw [cycles_recursion, List.pairwise_map]
      refine (@List.pairwise_lt_range' k (n + n) 1 Nat.one_pos).imp_of_mem fun {a b} ha hb hab => ?_
      rw [List.mem_range'_1] at ha hb
      rw [UInt64.lt_iff_toNat_lt, UInt64.toNat_ofNat_of_lt' (Nat.lt_of_lt_of_le ha.2 hn),
        UInt64.toNat_ofNat_of_lt' (Nat.lt_of_lt_of_le hb.2 hn)]
      exact hab
    exact List.pairwise_map.1 hcycles
  nonzero e he := by
    have hmem := List.mem_map_of_mem (f := FunTraceEntry.cycle) he
    rw [cycles_recursion] at hmem
    obtain ⟨a, ha, hae⟩ := List.mem_map.1 hmem
    rw [List.mem_range'_1] at ha
    rw [← hae, ne_eq, ← UInt64.toNat_inj, UInt64.toNat_ofNat_of_lt' (Nat.lt_of_lt_of_le ha.2 hn)]
    exact Nat.ne_of_gt (Nat.lt_of_lt_of_le hk ha.1)

/-- All the invocations only return in the window of the returns. -/
theorem orphans_recursion (n k : ℕ) :
    (recursion n k).orphans ((List.range' (k + n) n).map retAt) = (recursion n k).invs := by
  refine List.filter_eq_self.2 fun v hv => ?_
  obtain ⟨hcall, hret⟩ := mem_recursion hv
  have hlog := (Forest.mem_log hv).2
  rw [log_recursion] at hlog
  have hne : (0x1100 : UInt64) ≠ 0x1100 ||| returnFlag := by decide
  have hnot : v.1 ∉ (List.range' (k + n) n).map retAt := fun hmem => by
    obtain ⟨a, -, ha⟩ := List.mem_map.1 hmem
    exact hne (hcall.symm.trans (congrArg FunTraceEntry.address ha).symm)
  have hin : v.2 ∈ (List.range' (k + n) n).map retAt := by
    refine (List.mem_append.1 hlog).resolve_left fun hmem => ?_
    obtain ⟨a, -, ha⟩ := List.mem_map.1 hmem
    exact hne ((congrArg FunTraceEntry.address ha).trans hret)
  exact decide_eq_true ⟨hnot, hin⟩

/-- The first thread's first entry is looked up before anything else. -/
theorem extends_first {t : ThreadTrace} {ts : List ThreadTrace} (hargs : c.args = Cli.default) :
    (c.lookup.resolve w (t.trace.head t.nonempty).addr).Extends
      (c.sampleLookup w (t :: ts) ftraceEvents) := by
  have hloop := c.extends_loopAfter w (t :: ts) ftraceEvents (i := ⟨0, Nat.zero_lt_succ _⟩)
    (selects_default hargs _) 1
  have hold : c.oldestEvent (t :: ts) ftraceEvents ≤ (t.trace.head t.nonempty).cycle :=
    oldest_le_head hargs List.mem_cons_self
  have htake : t.trace.take 1 = [t.trace.head t.nonempty] := by
    obtain ⟨e, es, hes⟩ := List.exists_cons_of_ne_nil t.nonempty
    simp [hes]
  have hresolve : (c.loopAfter w (t :: ts) ftraceEvents ⟨0, Nat.zero_lt_succ _⟩ 1).1.1 =
      c.lookup.resolve w (t.trace.head t.nonempty).addr := by
    have hget : (t :: ts).get ⟨0, Nat.zero_lt_succ _⟩ = t := rfl
    simp only [loopAfter, hget, List.take_zero, htake, threadLoop,
      threadStep, decodeThreads, if_neg (UInt64.not_lt.2 hold)]
    split_ifs <;> rfl
  rwa [hresolve] at hloop

/-- The returns of `n + 1` nested invocations. -/
def returnsThread (n : ℕ) : ThreadTrace :=
  demoThread (retAt (n + 2)) ((List.range' (n + 3) n).map retAt)

theorem trace_returnsThread (n : ℕ) :
    (returnsThread n).trace = (List.range' (1 + (n + 1)) (n + 1)).map retAt := by
  rw [show 1 + (n + 1) = n + 2 by omega, List.range'_succ]
  rfl

theorem isForestWindow_recursion {n : ℕ} (hn : 1 + (n + 1 + (n + 1)) ≤ 2 ^ 64) :
    demoConverter.IsForestWindow demoWorld [returnsThread n] [] ⟨0, Nat.one_pos⟩
      (demoConverter.sampleLookup demoWorld [returnsThread n] []).sym (recursion (n + 1) 1) where
  noOption := rfl
  freq := by decide
  recorded := recorded_recursion Nat.one_pos hn
  window := by
    refine ⟨(List.range' 1 (n + 1)).map callAt, [], ?_⟩
    rw [List.append_nil, log_recursion]
    exact congrArg _ (trace_returnsThread n)
  resolves := by
    refine ⟨fun _ _ => rfl, fun e he => ?_⟩
    have he : e ∈ (List.range' (1 + (n + 1)) (n + 1)).map retAt := trace_returnsThread n ▸ he
    obtain ⟨k, -, rfl⟩ := List.mem_map.1 he
    -- every return has the address that is looked up first
    have hfirst := @extends_first demoWorld demoConverter [] (returnsThread n) [] rfl
    have hhead : (returnsThread n).trace.head (returnsThread n).nonempty = retAt (n + 2) := rfl
    rw [hhead, addr_retAt] at hfirst
    have hsym := hfirst.symOf_eq (e := retAt k)
      (by rw [addr_retAt]; exact Lookup.resolve_isSome _ _ _)
    rw [nameOf, ← hsym, symOf, addr_retAt]
    decide +kernel

/-- `f` calling itself `2 ^ 31` times: the orphan counter wraps around at the outermost return. -/
theorem not_decodes_window :
    let n := 2 ^ 31 - 1
    let sample := [returnsThread n]
    let sym := (demoConverter.sampleLookup demoWorld sample []).sym
    let F := recursion (n + 1) 1
    demoConverter.IsForestWindow demoWorld sample [] ⟨0, Nat.one_pos⟩ sym F ∧
      (demoConverter.emitted demoWorld sample []).getD 0 [] ≠
        (F.invocations (returnsThread n).trace).map (fun v => (symOf sym v.1,
          F.span (returnsThread n) demoConverter.cpuFreq
            (demoConverter.thresholds sample []).2 v)) := by
  intro n sample sym F
  have hwin : demoConverter.IsForestWindow demoWorld sample [] ⟨0, Nat.one_pos⟩ sym F :=
    isForestWindow_recursion (by norm_num [n])
  refine ⟨hwin, fun hemitted => ?_⟩
  have hlen : (F.orphans (returnsThread n).trace).length < 2 ^ 31 := (hwin.emitted_iff.1 hemitted).1
  rw [trace_returnsThread, orphans_recursion, length_recursion] at hlen
  omega

end TraceConverter

end Funtrace
