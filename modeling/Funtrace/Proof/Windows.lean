/-
  Windows of well-nested runs.

  The log of a forest of invocations is a legal run that ends with the stack it
  began with (`legalRun_events`, `stackAfter_events`).  What a cyclic buffer keeps of
  it is a window, and the decoder writes one call for each invocation whose entry or
  return lies there (`decodeReported_window`): the returns in their order, those
  without a call each reaching back one nanosecond more; then what is still open,
  from the outermost, each ending one nanosecond later than the next.

-/
import Funtrace.Lib.Forest
import Funtrace.Proof.RealRun
import Funtrace.Viz.Events

namespace Funtrace

/-! ## Invocations that return -/

/-- The invocation that an event ends, if any. -/
def Event.finished : Event → List FunTraceEntry → List (FunTraceEntry × FunTraceEntry)
  | .ret e, f :: _ => [(f, e)]
  | _, _ => []

/-- The invocations that return in a run that finds the frames `S` open. -/
def returned : List Event → List FunTraceEntry → List (FunTraceEntry × FunTraceEntry)
  | [], _ => []
  | ev :: evs, S => ev.finished S ++ returned evs (ev.effect ev.entry S)

theorem returned_append (evs evs' : List Event) : ∀ S : List FunTraceEntry,
    returned (evs ++ evs') S = returned evs S ++ returned evs' (stackAfter evs S) := by
  induction evs with
  | nil => exact fun S => rfl
  | cons ev evs ih =>
    intro S
    rw [List.cons_append, returned, ih, returned, stackAfter, List.append_assoc]

theorem ret_mem_of_returned {evs : List Event} : ∀ {S : List FunTraceEntry}
    {v : FunTraceEntry × FunTraceEntry}, v ∈ returned evs S → v.2 ∈ evs.map Event.entry := by
  induction evs with
  | nil => intro S v hv; cases hv
  | cons ev evs ih =>
    intro S v hv
    rw [List.map_cons, List.mem_cons]
    rcases List.mem_append.1 hv with hv | hv
    · left
      cases ev with
      | call e => cases hv
      | throw n e => cases hv
      | ret e =>
        cases S with
        | nil => cases hv
        | cons f S => rw [List.mem_singleton.1 hv]; rfl
    · exact Or.inr (ih hv)

theorem mem_effect_entry {ev : Event} {S : List FunTraceEntry} {f : FunTraceEntry}
    (hf : f ∈ ev.effect ev.entry S) : f = ev.entry ∨ f ∈ S := mem_effect hf

theorem call_mem_of_returned {evs : List Event} : ∀ {S : List FunTraceEntry}
    {v : FunTraceEntry × FunTraceEntry}, v ∈ returned evs S →
      v.1 ∈ S ∨ v.1 ∈ evs.map Event.entry := by
  induction evs with
  | nil => intro S v hv; cases hv
  | cons ev evs ih =>
    intro S v hv
    rw [List.map_cons, List.mem_cons]
    rcases List.mem_append.1 hv with hv | hv
    · left
      cases ev with
      | call e => cases hv
      | throw n e => cases hv
      | ret e =>
        cases S with
        | nil => cases hv
        | cons f S => rw [List.mem_singleton.1 hv]; exact List.mem_cons_self
    · rcases ih hv with h | h
      · rcases mem_effect_entry h with h | h
        exacts [Or.inr (Or.inl h), Or.inl h]
      · exact Or.inr (Or.inr h)

theorem mem_of_mem_stackAfter {evs : List Event} : ∀ {S : List FunTraceEntry} {f : FunTraceEntry},
    f ∈ stackAfter evs S → f ∈ S ∨ f ∈ evs.map Event.entry := by
  induction evs with
  | nil => exact fun hf => Or.inl hf
  | cons ev evs ih =>
    intro S f hf
    rw [List.map_cons, List.mem_cons]
    rcases ih hf with h | h
    · rcases mem_effect_entry h with h | h
      exacts [Or.inr (Or.inl h), Or.inl h]
    · exact Or.inr (Or.inr h)

/-! ## Logs of forests -/

section
variable (sym : UInt64 → SymInfo)

/-- An invocation logged by a call and a return that both lie in its function. -/
structure Logged (v : FunTraceEntry × FunTraceEntry) : Prop where
  call : v.1.isCall
  ret : v.2.isRet
  own : v.2.isRetWithCallerAddr = false
  same : symOf sym v.1 = symOf sym v.2

instance (v : FunTraceEntry × FunTraceEntry) : Decidable (Logged sym v) :=
  decidable_of_iff
    (v.1.isCall ∧ v.2.isRet ∧ v.2.isRetWithCallerAddr = false ∧ symOf sym v.1 = symOf sym v.2)
    ⟨fun ⟨hcall, hret, hown, hsame⟩ => ⟨hcall, hret, hown, hsame⟩, fun h => ⟨h.1, h.2, h.3, h.4⟩⟩

/-- A call, or a return with an address in the returning function. -/
def Event.Plain : Event → Prop
  | .call _ => True
  | .ret e => e.isRetWithCallerAddr = false
  | .throw _ _ => False

/-- The calls and returns as events of a run. -/
def Forest.events : Forest FunTraceEntry → List Event
  | .nil => []
  | .call e f r g => .call e :: (f.events ++ .ret r :: g.events)

theorem Forest.events_entry : ∀ F : Forest FunTraceEntry, F.events.map Event.entry = F.log
  | .nil => rfl
  | .call e f r g => by
    rw [events, log, List.map_cons, List.map_append, List.map_cons, events_entry f, events_entry g]
    rfl

theorem stackAfter_events : ∀ (F : Forest FunTraceEntry) (S : List FunTraceEntry),
    stackAfter F.events S = S
  | .nil, S => rfl
  | .call e f r g, S => by
    rw [Forest.events, stackAfter, stackAfter_append, stackAfter_events f, stackAfter,
      stackAfter_events g]
    rfl

theorem returned_events : ∀ (F : Forest FunTraceEntry) (S : List FunTraceEntry),
    returned F.events S = F.invs
  | .nil, S => rfl
  | .call e f r g, S => by
    rw [Forest.events, returned, returned_append, returned_events f, stackAfter_events, returned,
      returned_events g]
    rfl

variable {sym}

theorem legalRun_events : ∀ {F : Forest FunTraceEntry} (S : List FunTraceEntry),
    (∀ v ∈ F.invs, Logged sym v) → LegalRun sym F.events S
  | .nil, S, _ => trivial
  | .call e f r g, S, h => by
    have hf : ∀ v ∈ f.invs, Logged sym v := fun v hv => h v (List.mem_append_left _ hv)
    have hg : ∀ v ∈ g.invs, Logged sym v := fun v hv =>
      h v (List.mem_append_right _ (List.mem_cons_of_mem _ hv))
    obtain ⟨hcall, hret, hown, hsame⟩ := h (e, r) (List.mem_append_right _ List.mem_cons_self)
    refine ⟨hcall, legalRun_append.2 ⟨legalRun_events _ hf, ?_⟩⟩
    rw [stackAfter_events]
    refine ⟨⟨hret, e, S, rfl, ?_⟩, legalRun_events _ hg⟩
    rw [if_neg (by simpa using hown), nameOf, nameOf]
    exact congrArg _ hsame.symm

theorem plain_events : ∀ {F : Forest FunTraceEntry}, (∀ v ∈ F.invs, Logged sym v) →
    ∀ ev ∈ F.events, ev.Plain
  | .call e f r g, h, ev, hev => by
    have hf : ∀ v ∈ f.invs, Logged sym v := fun v hv => h v (List.mem_append_left _ hv)
    have hg : ∀ v ∈ g.invs, Logged sym v := fun v hv =>
      h v (List.mem_append_right _ (List.mem_cons_of_mem _ hv))
    simp only [Forest.events, List.mem_cons, List.mem_append] at hev
    rcases hev with rfl | hev | rfl | hev
    exacts [trivial, plain_events hf ev hev,
      (h (e, r) (List.mem_append_right _ List.mem_cons_self)).own, plain_events hg ev hev]

end

/-! ## The decoder in a window -/

section
variable (sym : UInt64 → SymInfo) (first : UInt64) (win : List FunTraceEntry)

/-- What is written for invocations that return after `n` orphan returns. -/
def returnCalls : ℕ → List (FunTraceEntry × FunTraceEntry) → List FunctionCall
  | _, [] => []
  | n, (e, r) :: vs =>
    if e ∈ win then ⟨symOf sym e, e.cycle, r.cycle, 0⟩ :: returnCalls n vs
    else ⟨symOf sym r, first, r.cycle, -((n : ℤ) + 1)⟩ :: returnCalls (n + 1) vs

variable {sym first win}

variable (first) in
/-- One event: what is written for it is what `returnCalls` has for the invocation it ends. -/
theorem written_plain {ev : Event} {d : Dec} {R : List FunTraceEntry} {n : ℕ}
    (hn : d.numOrphanReturns = n) (hD : ∀ f ∈ d.stack, f ∈ win) (hR : ∀ f ∈ R, f ∉ win)
    (hplain : ev.Plain) (hlegal : ev.Legal sym (d.stack ++ R)) :
    ∃ n' : ℕ, (handle sym first d ev.entry).1.numOrphanReturns = n' ∧
      ∀ vs, ev.written sym first d ++ returnCalls sym first win n' vs =
        returnCalls sym first win n (ev.finished (d.stack ++ R) ++ vs) := by
  cases ev with
  | throw k e => exact hplain.elim
  | call e =>
    have hcall : e.isCall := hlegal
    have hnum := @handle_numOrphanReturns sym first d e
    rw [if_neg (by simp [FunTraceEntry.isRet_of_isCall hcall]), hn, add_zero] at hnum
    exact ⟨n, hnum, fun vs => rfl⟩
  | ret e =>
    have hown : e.isRetWithCallerAddr = false := hplain
    obtain ⟨hret, f, S, hS, -⟩ := hlegal
    have hnum := @handle_numOrphanReturns sym first d e
    cases hd : d.stack with
    | nil =>
      -- the invocation was called before the window
      rw [hd, List.nil_append] at hS
      have hf : f ∉ win := hR f (by rw [hS]; exact List.mem_cons_self)
      rw [if_pos ⟨hret, hd⟩, hn] at hnum
      refine ⟨n + 1, hnum.trans (by push_cast; rfl), fun vs => ?_⟩
      rw [List.nil_append, hS]
      simp [Event.written, Event.finished, returnCalls, hd, hf, orphanReturn, hown, hn]
    | cons g D =>
      have hg : g ∈ win := hD g (by rw [hd]; exact List.mem_cons_self)
      rw [if_neg (by simp [hd]), hn, add_zero] at hnum
      refine ⟨n, hnum, fun vs => ?_⟩
      simp [Event.written, Event.finished, returnCalls, hd, hg, popCalls]

/-- **The decoder in a window**: its stack stays on top of the real one, and it writes the
    invocations that return. -/
theorem runEntries_window : ∀ (evs : List Event) {d : Dec} {R : List FunTraceEntry} {n : ℕ},
    d.numOrphanReturns = n → (∀ f ∈ d.stack, f ∈ win) → (∀ f ∈ R, f ∉ win) →
    (∀ ev ∈ evs, ev.entry ∈ win ∧ ev.Plain) → LegalRun sym evs (d.stack ++ R) →
    (∃ m, stackAfter evs (d.stack ++ R) =
        (runEntries sym first d (evs.map Event.entry)).1.stack ++ R.drop m) ∧
      (∀ f ∈ (runEntries sym first d (evs.map Event.entry)).1.stack, f ∈ win) ∧
      (runEntries sym first d (evs.map Event.entry)).2 =
        returnCalls sym first win n (returned evs (d.stack ++ R))
  | [], d, R, n, _, hD, _, _, _ => ⟨⟨0, rfl⟩, hD, rfl⟩
  | ev :: evs, d, R, n, hn, hD, hR, hevs, hrun => by
    obtain ⟨hlegal, hrun⟩ := hrun
    obtain ⟨hmem, hplain⟩ := hevs ev List.mem_cons_self
    obtain ⟨hstack, hwritten, -⟩ := handle_legal first hlegal
    obtain ⟨n', hn', hcalls⟩ := written_plain first hn hD hR hplain hlegal
    obtain ⟨k, hk⟩ := effect_append ev.entry ev d.stack R
    have hD' : ∀ f ∈ (handle sym first d ev.entry).1.stack, f ∈ win := fun f hf => by
      rw [hstack] at hf
      rcases mem_effect_entry hf with rfl | hf
      exacts [hmem, hD f hf]
    rw [hk, ← hstack] at hrun
    obtain ⟨⟨m, hfinal⟩, hwin, hrest⟩ := runEntries_window evs hn' hD'
      (fun f hf => hR f (List.mem_of_mem_drop hf)) (fun ev' h => hevs ev' (List.mem_cons_of_mem _ h))
      hrun
    rw [List.map_cons, runEntries, stackAfter, returned, hk, ← hstack, ← hcalls, ← hwritten, ← hrest]
    exact ⟨⟨k + m, by rw [hfinal, List.drop_drop]⟩, hwin, rfl⟩

end

/-! ## Windows of a forest -/

/-- The number of elements that come before one in a sorted list. -/
theorem countP_before {α : Type} {R : α → α → Prop} [DecidableRel R] {p : α → Bool}
    (hR : ∀ a b, R a b → ¬ R b a) {before after : List α} {v : α}
    (h : (before ++ v :: after).Pairwise R) :
    (before ++ v :: after).countP (fun u => p u && decide (R u v)) = before.countP p := by
  obtain ⟨-, hv, hbefore⟩ := List.pairwise_append.1 h
  have hafter : (v :: after).countP (fun u => p u && decide (R u v)) = 0 := by
    refine List.countP_eq_zero.2 fun u hu => ?_
    have hnot : ¬ R u v := by
      rcases List.mem_cons.1 hu with rfl | hu
      exacts [fun h => hR u u h h, hR v u ((List.pairwise_cons.1 hv).1 u hu)]
    simp [hnot]
  rw [List.countP_append, hafter, Nat.add_zero]
  refine List.countP_congr fun u hu => ?_
  simp [hbefore u hu v List.mem_cons_self]

theorem countP_getElem {α : Type} {R : α → α → Prop} [DecidableRel R]
    (hR : ∀ a b, R a b → ¬ R b a) {l : List α} (h : l.Pairwise R) {i : ℕ} (hi : i < l.length) :
    l.countP (fun u => decide (R u l[i])) = i := by
  have hsplit : l = l.take i ++ l[i] :: l.drop (i + 1) := by simp
  have hcount := @countP_before α R _ (fun _ => true) hR (l.take i) (l.drop (i + 1)) l[i] (hsplit ▸ h)
  rw [← hsplit, List.countP_true, List.length_take, Nat.min_eq_left hi.le] at hcount
  simpa using hcount

/-- A forest logged by strictly increasing, nonzero timestamps. -/
structure Recorded (sym : UInt64 → SymInfo) (F : Forest FunTraceEntry) : Prop where
  logged : ∀ v ∈ F.invs, Logged sym v
  sorted : F.log.Pairwise (·.cycle < ·.cycle)
  nonzero : ∀ e ∈ F.log, e.cycle ≠ 0

namespace Forest
variable (F : Forest FunTraceEntry) (win : List FunTraceEntry)

/-- The invocations that return in a window. -/
def returning : List (FunTraceEntry × FunTraceEntry) := F.invs.filter (·.2 ∈ win)

/-- Those among them that were called before it. -/
def orphans : List (FunTraceEntry × FunTraceEntry) :=
  F.invs.filter fun v => v.1 ∉ win ∧ v.2 ∈ win

/-- The invocations called in the window that are open at its end, the last called first. -/
def opened : List (FunTraceEntry × FunTraceEntry) :=
  F.invs.filter fun v => v.1 ∈ win ∧ v.2 ∉ win

/-- The invocations whose call or return lies in a window, as the decoder lists them. -/
def invocations : List (FunTraceEntry × FunTraceEntry) :=
  F.returning win ++ (F.opened win).reverse

theorem mem_invocations {v : FunTraceEntry × FunTraceEntry} :
    v ∈ F.invocations win ↔ v ∈ F.invs ∧ (v.1 ∈ win ∨ v.2 ∈ win) := by
  simp only [invocations, returning, opened, List.mem_append, List.mem_reverse, List.mem_filter,
    decide_eq_true_eq]
  by_cases h : v.2 ∈ win <;> simp [h]

/-- An orphan return is the `orphanRank`-th one. -/
def orphanRank (v : FunTraceEntry × FunTraceEntry) : ℕ :=
  (F.orphans win).countP (·.2.cycle < v.2.cycle) + 1

/-- One more than the number of invocations open above an open one. -/
def openRank (v : FunTraceEntry × FunTraceEntry) : ℕ :=
  (F.opened win).countP (v.1.cycle < ·.1.cycle) + 1

/-- The call of `write_function_call_event` for an invocation. -/
def callOf (sym : UInt64 → SymInfo) (first last : UInt64) (v : FunTraceEntry × FunTraceEntry) :
    FunctionCall :=
  if v.1 ∉ win then ⟨symOf sym v.2, first, v.2.cycle, -(F.orphanRank win v : ℤ)⟩
  else if v.2 ∉ win then ⟨symOf sym v.1, v.1.cycle, last, F.openRank win v⟩
  else ⟨symOf sym v.1, v.1.cycle, v.2.cycle, 0⟩

end Forest

section
variable {sym : UInt64 → SymInfo} {F : Forest FunTraceEntry} {win : List FunTraceEntry}

/-- In a sorted log a window is what lies between its first and its last timestamp. -/
theorem mem_window_iff {log : List FunTraceEntry} (hsorted : log.Pairwise (·.cycle < ·.cycle))
    {t : ThreadTrace} (hwin : t.trace <:+: log) {e : FunTraceEntry} (he : e ∈ log) :
    e ∈ t.trace ↔ (t.trace.head t.nonempty).cycle ≤ e.cycle ∧
      e.cycle ≤ (t.trace.getLast t.nonempty).cycle := by
  obtain ⟨pre, post, rfl⟩ := hwin
  obtain ⟨hwin, -, hpost⟩ := List.pairwise_append.1 hsorted
  obtain ⟨-, hwin, hpre⟩ := List.pairwise_append.1 hwin
  constructor
  · exact fun he => ⟨t.head_le hwin he, t.le_last hwin he⟩
  · rintro ⟨hhead, hlast⟩
    rcases List.mem_append.1 he with he | he
    · rcases List.mem_append.1 he with he | he
      · exact absurd (hpre e he _ (List.head_mem t.nonempty)) (UInt64.not_lt.2 hhead)
      · exact he
    · have hlt := hpost _ (List.mem_append_right pre (List.getLast_mem t.nonempty)) e he
      exact absurd hlt (UInt64.not_lt.2 hlast)

/-- What is open at the end of a window returns after it, unless it stays open. -/
theorem returned_opened : ∀ {evs : List Event} {S : List FunTraceEntry},
    (∀ ev ∈ evs, ev.entry ∉ win ∧ ev.Plain) →
    ((returned evs S).filter (·.1 ∈ win)).map Prod.fst ++ (stackAfter evs S).filter (· ∈ win) =
      S.filter (· ∈ win)
  | [], S, _ => rfl
  | ev :: evs, S, h => by
    obtain ⟨hmem, hplain⟩ := h ev List.mem_cons_self
    have ih := @returned_opened evs (ev.effect ev.entry S) fun ev' h' => h ev' (List.mem_cons_of_mem _ h')
    rw [returned, stackAfter, List.filter_append, List.map_append, List.append_assoc, ih]
    cases ev with
    | throw n e => exact hplain.elim
    | call e =>
      have he : e ∉ win := hmem
      simp [Event.finished, Event.effect, Event.entry, he]
    | ret e =>
      cases S with
      | nil => rfl
      | cons f S =>
        by_cases hf : f ∈ win <;> simp [Event.finished, Event.effect, hf]

/-- **What the decoder finds in a window** of a forest: the invocations that return in the
    window are written, those opened in it are on its stack at the end. -/
theorem runEntries_forest (hF : Recorded sym F) (hwin : win <:+: F.log) (first : UInt64) :
    (runEntries sym first Dec.init win).2 = returnCalls sym first win 0 (F.returning win) ∧
      (runEntries sym first Dec.init win).1.stack = (F.opened win).map Prod.fst := by
  obtain ⟨pre, post, hlog⟩ := hwin
  rw [← F.events_entry] at hlog
  obtain ⟨evs, evsQ, hevs, hpre, rfl⟩ := List.map_eq_append_iff.1 hlog.symm
  obtain ⟨evsP, evsW, rfl, rfl, rfl⟩ := List.map_eq_append_iff.1 hpre
  set win := evsW.map Event.entry with hwin
  set S₁ := stackAfter evsP [] with hS₁
  set S₂ := stackAfter evsW S₁ with hS₂
  have hplain : ∀ ev ∈ evsP ++ evsW ++ evsQ, ev.Plain := hevs ▸ plain_events hF.logged
  have hlegal : LegalRun sym evsW S₁ := by
    have hlegal := legalRun_events [] hF.logged
    rw [hevs] at hlegal
    exact (legalRun_append.1 (legalRun_append.1 hlegal).1).2
  have hinvs : F.invs = returned evsP [] ++ returned evsW S₁ ++ returned evsQ S₂ := by
    rw [← returned_events F [], hevs, returned_append, returned_append, stackAfter_append]
  have hclosed : stackAfter evsQ S₂ = [] := by
    have hstack := stackAfter_events F []
    rwa [hevs, stackAfter_append, stackAfter_append] at hstack
  -- timestamps increase, so the entries outside the window differ from those inside
  have hsorted := hF.sorted
  rw [← F.events_entry, hevs, List.map_append, List.map_append] at hsorted
  obtain ⟨hPW, -, hPWQ⟩ := List.pairwise_append.1 hsorted
  have hP : ∀ e ∈ evsP.map Event.entry, e ∉ win := fun e he he' =>
    UInt64.lt_irrefl _ ((List.pairwise_append.1 hPW).2.2 e he e he')
  have hQ : ∀ e ∈ evsQ.map Event.entry, e ∉ win := fun e he he' =>
    UInt64.lt_irrefl _ (hPWQ e (List.mem_append_right _ he') e he)
  have hS₁win : ∀ f ∈ S₁, f ∉ win := fun f hf => by
    rcases mem_of_mem_stackAfter hf with hf | hf
    exacts [absurd hf List.not_mem_nil, hP f hf]
  obtain ⟨⟨m, hfinal⟩, hstack, hcalls⟩ := runEntries_window evsW (d := Dec.init) (n := 0) rfl
    (by simp [Dec.init]) hS₁win (fun ev hev => ⟨List.mem_map_of_mem hev, hplain ev (by simp [hev])⟩)
    hlegal
  have hbefore : ∀ v ∈ returned evsP [], v.1 ∉ win ∧ v.2 ∉ win := fun v hv =>
    ⟨(call_mem_of_returned hv).elim (fun h => absurd h List.not_mem_nil) (hP _),
      hP _ (ret_mem_of_returned hv)⟩
  have hin : ∀ v ∈ returned evsW S₁, v.2 ∈ win := fun v hv => ret_mem_of_returned hv
  have hafter : ∀ v ∈ returned evsQ S₂, v.2 ∉ win := fun v hv => hQ _ (ret_mem_of_returned hv)
  constructor
  · have hreturning : F.returning win = returned evsW S₁ := by
      rw [Forest.returning, hinvs, List.filter_append, List.filter_append,
        List.filter_eq_nil_iff.2 fun v hv => by simp [(hbefore v hv).2],
        List.filter_eq_self.2 fun v hv => by simp [hin v hv],
        List.filter_eq_nil_iff.2 fun v hv => by simp [hafter v hv]]
      simp
    rw [hcalls, hreturning]
    rfl
  · have hopened : F.opened win = (returned evsQ S₂).filter (·.1 ∈ win) := by
      rw [Forest.opened, hinvs, List.filter_append, List.filter_append,
        List.filter_eq_nil_iff.2 fun v hv => by simp [(hbefore v hv).1],
        List.filter_eq_nil_iff.2 fun v hv => by simp [hin v hv], List.nil_append, List.nil_append]
      exact List.filter_congr fun v hv => by simp [hafter v hv]
    have hboth := @returned_opened win evsQ S₂ fun ev hev =>
      ⟨hQ _ (List.mem_map_of_mem hev), hplain ev (by simp [hev])⟩
    have hopen : S₂.filter (· ∈ win) = (runEntries sym first Dec.init win).1.stack := by
      have hfinal : S₂ = (runEntries sym first Dec.init win).1.stack ++ S₁.drop m := hfinal
      rw [hfinal, List.filter_append, List.filter_eq_self.2 fun f hf => by simpa using hstack f hf,
        List.filter_eq_nil_iff.2 fun f hf => by simpa using hS₁win f (List.mem_of_mem_drop hf),
        List.append_nil]
    rw [hclosed, List.filter_nil, List.append_nil, hopen] at hboth
    rw [hopened, hboth]

theorem ret_sorted (hF : Recorded sym F) : (F.returning win).Pairwise fun u v => u.2.cycle < v.2.cycle :=
  (Forest.invs_sorted hF.sorted).sublist List.filter_sublist

/-- The invocations that are open at the end of a window lie inside each other. -/
theorem opened_sorted (hF : Recorded sym F) {t : ThreadTrace} (hwin : t.trace <:+: F.log) :
    (F.opened t.trace).Pairwise fun u v => v.1.cycle < u.1.cycle := by
  refine ((Forest.invs_sorted hF.sorted).sublist List.filter_sublist).imp_of_mem
    fun {u v} hu hv hlt => ?_
  simp only [Forest.opened, List.mem_filter, decide_eq_true_eq] at hu hv
  obtain ⟨hu, hu₁, hu₂⟩ := hu
  obtain ⟨hv, hv₁, hv₂⟩ := hv
  rcases Forest.trichotomy hF.sorted hu hv with rfl | hin | hin | hfar | hfar
  · exact absurd hlt (UInt64.lt_irrefl _)
  · exact (hin.rel hF.sorted).1
  · exact absurd (hin.rel hF.sorted).2 (UInt64.lt_asymm hlt)
  · -- the return of `u` lies between two entries of the window
    rw [mem_window_iff hF.sorted hwin (Forest.mem_log hu).1] at hu₁
    rw [mem_window_iff hF.sorted hwin (Forest.mem_log hu).2] at hu₂
    rw [mem_window_iff hF.sorted hwin (Forest.mem_log hv).1] at hv₁
    have hcall := Forest.rel_ret hF.sorted hu
    exact absurd ⟨UInt64.le_trans hu₁.1 (UInt64.le_of_lt hcall),
      UInt64.le_trans (UInt64.le_of_lt hfar) hv₁.2⟩ hu₂
  · have hcall := UInt64.lt_trans hfar (Forest.rel_ret hF.sorted hu)
    exact absurd hcall (UInt64.lt_asymm hlt)

/-- The rank of an orphan return counts those before it. -/
theorem orphanRank_eq (hF : Recorded sym F) {before after : List (FunTraceEntry × FunTraceEntry)}
    {v : FunTraceEntry × FunTraceEntry} (h : F.returning win = before ++ v :: after) :
    F.orphanRank win v = before.countP (·.1 ∉ win) + 1 := by
  have hsorted : (F.returning win).Pairwise fun u v => u.2.cycle < v.2.cycle := ret_sorted hF
  have horphans : F.orphans win = (F.returning win).filter (·.1 ∉ win) := by
    rw [Forest.orphans, Forest.returning, List.filter_filter]
    exact List.filter_congr fun v _ => by simp
  rw [h] at hsorted horphans
  rw [Forest.orphanRank, horphans, List.countP_filter,
    ← countP_before (fun _ _ h => UInt64.lt_asymm h) hsorted]
  congr 1
  exact List.countP_congr fun u _ => by simp [and_comm]

theorem openRank_eq (hF : Recorded sym F) {t : ThreadTrace} (hwin : t.trace <:+: F.log)
    {before after : List (FunTraceEntry × FunTraceEntry)} {v : FunTraceEntry × FunTraceEntry}
    (h : F.opened t.trace = before ++ v :: after) : F.openRank t.trace v = before.length + 1 := by
  have hsorted := opened_sorted hF hwin
  have hlt : before.length < (F.opened t.trace).length := by
    rw [h, List.length_append, List.length_cons]
    omega
  have hcount := countP_getElem (fun _ _ h => UInt64.lt_asymm h) hsorted hlt
  have hv : (F.opened t.trace)[before.length] = v := by simp [h]
  rw [hv] at hcount
  rw [Forest.openRank, hcount]

theorem returnCalls_eq (hF : Recorded sym F) (first last : UInt64) :
    ∀ {before after : List (FunTraceEntry × FunTraceEntry)}, F.returning win = before ++ after →
      returnCalls sym first win (before.countP (·.1 ∉ win)) after =
        after.map (F.callOf win sym first last)
  | before, [], _ => rfl
  | before, v :: after, h => by
    have hv : v.2 ∈ win := by
      have hv : v ∈ F.returning win := by rw [h]; simp
      simpa using (List.mem_filter.1 hv).2
    have ih := @returnCalls_eq hF first last (before ++ [v]) after (by rw [h]; simp)
    rw [returnCalls, List.map_cons, ← ih, List.countP_append, Forest.callOf, orphanRank_eq hF h]
    by_cases hcall : v.1 ∈ win
    · simp [hcall, hv]
    · simp [hcall]

theorem popCalls_opened (hF : Recorded sym F) {t : ThreadTrace} (hwin : t.trace <:+: F.log)
    (first last : UInt64) :
    ∀ {before after : List (FunTraceEntry × FunTraceEntry)}, F.opened t.trace = before ++ after →
      popCalls sym last (before.length + 1) (after.map Prod.fst) =
        after.map (F.callOf t.trace sym first last)
  | before, [], _ => rfl
  | before, v :: after, h => by
    have hv : v.1 ∈ t.trace ∧ v.2 ∉ t.trace := by
      have hv : v ∈ F.opened t.trace := by rw [h]; simp
      simpa using (List.mem_filter.1 hv).2
    have ih := @popCalls_opened hF t hwin first last (before ++ [v]) after (by rw [h]; simp)
    rw [List.length_append, List.length_singleton, Nat.cast_add, Nat.cast_one] at ih
    rw [List.map_cons, popCalls, List.map_cons, ← ih, Forest.callOf, openRank_eq hF hwin h]
    simp [hv.1, hv.2]

/-- **The calls written for a window** of a forest: one for each invocation in it. -/
theorem decodeReported_window (hF : Recorded sym F) {t : ThreadTrace} (hwin : t.trace <:+: F.log)
    (first last : UInt64) : decodeReported sym first last t.trace =
      (F.invocations t.trace).map (F.callOf t.trace sym first last) := by
  obtain ⟨hcalls, hstack⟩ := runEntries_forest hF hwin first
  have hreturn := returnCalls_eq hF first last (List.nil_append (F.returning t.trace)).symm
  have hopen := popCalls_opened hF hwin first last (List.nil_append (F.opened t.trace)).symm
  rw [decodeReported, hcalls, hstack, fakeReturns_eq, Forest.invocations, List.map_append,
    List.map_reverse, ← hreturn, ← hopen]
  rfl

end

end Funtrace
