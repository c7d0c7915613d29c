/-
  Runs of a traced thread, and the decoder that follows them.

  A run is a list of events: a call, a return, or an exception that unwinds some
  frames and is caught by the frame under them.  Each event logs one entry.  The
  real stack (`realStack`) knows where in the log each of its frames was called;
  `LegalRun` says that every event fits the real stack, as it does when all
  functions are traced.

  The decoder sees a window of the log only.  After each entry its stack is the
  real stack without the frames that were called before the window
  (`handle_legal`, the step; `run_legal`, the run).
-/
import Funtrace.Viz.Runs

namespace Funtrace

/-- What happens in a traced thread, with the entry that is logged. -/
inductive Event where
  | call (entry : FunTraceEntry)
  | ret (entry : FunTraceEntry)
  | throw (unwound : ℕ) (entry : FunTraceEntry)

namespace Event

/-- The entry of an event. -/
def entry : Event → FunTraceEntry
  | call e => e
  | ret e => e
  | throw _ e => e

/-- The effect of an event on a stack, `x` being the frame that a call pushes. -/
def effect {α : Type} (x : α) : Event → List α → List α
  | call _, S => x :: S
  | ret _, S => S.tail
  | throw n _, S => S.drop n

end Event

/-- The stack after some events. -/
def stackAfter : List Event → List FunTraceEntry → List FunTraceEntry
  | [], S => S
  | ev :: evs, S => stackAfter evs (ev.effect ev.entry S)

/-- The real stack after some events, the first of them at place `i` of the log. -/
def realStack : List Event → ℕ → List (ℕ × FunTraceEntry) → List (ℕ × FunTraceEntry)
  | [], _, S => S
  | ev :: evs, i, S => realStack evs (i + 1) (ev.effect (i, ev.entry) S)

section
variable (sym : UInt64 → SymInfo)

/-- Does an event fit the stack that it finds?  A return is logged with an address in the
    returning function, or with one in its caller.  An exception leaves frames that log no
    return, and is caught by the first frame of the catcher's name. -/
def Event.Legal : Event → List FunTraceEntry → Prop
  | .call e, _ => e.isCall
  | .ret e, S => e.isRet ∧ ∃ f S', S = f :: S' ∧
      if e.isRetWithCallerAddr then ∀ g ∈ S'.head?, nameOf sym e = nameOf sym g
      else nameOf sym e = nameOf sym f
  | .throw n e, S => e.isCatch ∧ (∃ f ∈ S[n]?, nameOf sym e = nameOf sym f) ∧
      ∀ f ∈ S.take n, f.returnsUponThrow = false ∧ nameOf sym e ≠ nameOf sym f

/-- A run in which every event fits. -/
def LegalRun : List Event → List FunTraceEntry → Prop
  | [], _ => True
  | ev :: evs, S => ev.Legal sym S ∧ LegalRun evs (ev.effect ev.entry S)

/-- The frames that an event takes off a stack. -/
def Event.popped {α : Type} : Event → List α → List α
  | .call _, _ => []
  | .ret _, S => S.take 1
  | .throw n _, S => S.take n

/-- What the decoder writes for an event: frames that leave its stack, or an orphan return. -/
def Event.written (earliest : UInt64) (d : Dec) (ev : Event) : List FunctionCall :=
  match ev with
  | .call _ => []
  | .ret e => if d.stack = [] then (orphanReturn sym earliest d e).2
      else popCalls sym e.cycle 0 (d.stack.take 1)
  | .throw n e => popCalls sym e.cycle 1 (d.stack.take n)

variable {sym} {earliest : UInt64}

/-! ## One event -/

/-- A return that fits pops one frame. -/
theorem popCount_ret {e f : FunTraceEntry} {S : List FunTraceEntry} (hret : e.isRet)
    (h : if e.isRetWithCallerAddr then ∀ g ∈ S.head?, nameOf sym e = nameOf sym g
      else nameOf sym e = nameOf sym f) : popCount sym (f :: S) e = 1 := by
  cases hw : e.isRetWithCallerAddr with
  | false =>
    rw [hw, if_neg (by simp)] at h
    rw [popCount_own hret hw, List.takeWhile_cons_of_neg (by simp [h])]
    rfl
  | true =>
    rw [hw, if_pos rfl] at h
    rw [popCount_caller hret hw]
    cases S with
    | nil => rfl
    | cons g S =>
      have hg : nameOf sym e = nameOf sym g := h g rfl
      rw [if_neg (by simp [hg]), List.takeWhile_cons_of_neg (by simp [hg])]
      rfl

/-- A catch pops the frames that the exception left. -/
theorem takeWhile_unwinds {e : FunTraceEntry} {n : ℕ} {D R : List FunTraceEntry}
    (hcatcher : ∃ f ∈ (D ++ R)[n]?, nameOf sym e = nameOf sym f)
    (hleft : ∀ f ∈ (D ++ R).take n, f.returnsUponThrow = false ∧ nameOf sym e ≠ nameOf sym f) :
    D.takeWhile (unwinds sym (nameOf sym e)) = D.take n := by
  have hunwinds : ∀ f ∈ D.take n, unwinds sym (nameOf sym e) f = true := fun f hf => by
    have hf : f ∈ (D ++ R).take n := by
      rw [List.take_append]
      exact List.mem_append_left _ hf
    simp [unwinds, (hleft f hf).1, (hleft f hf).2]
  rcases Nat.lt_or_ge n D.length with hlt | hge
  · obtain ⟨f, hf, hname⟩ := hcatcher
    obtain rfl : D[n] = f := by
      rw [List.getElem?_append_left hlt, List.getElem?_eq_getElem hlt] at hf
      exact Option.some.inj hf
    conv_lhs => rw [← List.take_append_drop n D, List.drop_eq_getElem_cons hlt]
    exact takeWhile_split _ hunwinds (by simp [unwinds, hname])
  · rw [List.take_of_length_le hge] at hunwinds ⊢
    exact List.takeWhile_eq_self_iff.2 hunwinds

variable (earliest) in
/-- **The decoder follows an event** if its stack is the top of the real stack. -/
theorem handle_legal {d : Dec} {R : List FunTraceEntry} {ev : Event}
    (h : ev.Legal sym (d.stack ++ R)) :
    (handle sym earliest d ev.entry).1.stack = ev.effect ev.entry d.stack ∧
    (handle sym earliest d ev.entry).2 = ev.written sym earliest d ∧
    ¬ Unmatched sym d.stack ev.entry := by
  cases ev with
  | call e =>
    have he : e.isCall := h
    refine ⟨?_, ?_, fun hu => ?_⟩
    · simp [Event.entry, Event.effect, handle_call _ _ he]
    · simp [Event.entry, Event.written, handle_call _ _ he]
    · have hret := hu.1
      simp [Event.entry, FunTraceEntry.isRet_of_isCall he] at hret
  | ret e =>
    obtain ⟨hret, f, S, hS, hcase⟩ := h
    have hcall : e.isCall = false := by simp [FunTraceEntry.isCall, hret]
    simp only [Event.entry, Event.effect, Event.written]
    cases hd : d.stack with
    | nil =>
      rw [handle_orphan _ hret hd, if_pos rfl]
      refine ⟨?_, rfl, fun hu => hu.2.2.1 rfl⟩
      unfold orphanReturn
      split <;> exact hd
    | cons f' D =>
      rw [hd] at hS
      obtain ⟨rfl, rfl⟩ := List.cons.inj hS
      have hcase' : if e.isRetWithCallerAddr then ∀ g ∈ D.head?, nameOf sym e = nameOf sym g
          else nameOf sym e = nameOf sym f' := by
        split_ifs at hcase ⊢
        · cases D with
          | nil => simp
          | cons g D => exact hcase
        · exact hcase
      have hu : ¬ Unmatched sym (f' :: D) e := fun hu => by
        rw [if_neg hu.2.1] at hcase'
        exact hu.2.2.2 f' List.mem_cons_self hcase'
      obtain ⟨hstack, -, hcalls⟩ :=
        @handle_pop sym earliest d e hcall fun _ => by simp [hd]
      rw [hd, popCount_ret hret hcase'] at hstack hcalls
      refine ⟨hstack, ?_, hu⟩
      rw [hcalls, repeated_eq_nil.2 hu, List.append_nil, if_neg (by simp), firstExtra,
        if_neg (by simp [FunTraceEntry.isCatch_of_isRet hret])]
      rfl
  | throw n e =>
    obtain ⟨hcatch, hcatcher, hleft⟩ := h
    have htake := takeWhile_unwinds hcatcher hleft
    have hcount : popCount sym d.stack e = min n d.stack.length := by
      rw [popCount, if_pos hcatch, htake, List.length_take]
    have hu : ¬ Unmatched sym d.stack e := fun hu => by
      have hret := hu.1
      simp [FunTraceEntry.isRet_of_isCatch hcatch] at hret
    simp only [Event.entry, Event.effect, Event.written]
    rw [handle_catch earliest d hcatch, hcount]
    refine ⟨?_, ?_, hu⟩
    · rcases Nat.le_total n d.stack.length with hle | hle
      · rw [Nat.min_eq_left hle]
      · rw [Nat.min_eq_right hle, List.drop_of_length_le le_rfl, List.drop_of_length_le hle]
    · rw [← List.take_eq_take_min]

/-! ## The run -/

theorem effect_map {α β : Type} (f : α → β) (x : α) (ev : Event) (S : List α) :
    (ev.effect x S).map f = ev.effect (f x) (S.map f) := by
  cases ev <;> simp [Event.effect]

/-- Under the frames that an event takes, a stack stays as it is. -/
theorem effect_append {α : Type} (x : α) (ev : Event) (D R : List α) :
    ∃ k, ev.effect x (D ++ R) = ev.effect x D ++ R.drop k := by
  cases ev with
  | call e => exact ⟨0, rfl⟩
  | ret e =>
    cases D with
    | nil => exact ⟨1, by simp [Event.effect]⟩
    | cons f D => exact ⟨0, rfl⟩
  | throw n e => exact ⟨n - D.length, by simp [Event.effect, List.drop_append]⟩

theorem mem_effect {α : Type} {x p : α} {ev : Event} {S : List α} (hp : p ∈ ev.effect x S) :
    p = x ∨ p ∈ S := by
  cases ev with
  | call e => exact List.mem_cons.1 hp
  | ret e => exact Or.inr (List.mem_of_mem_tail hp)
  | throw n e => exact Or.inr (List.mem_of_mem_drop hp)

/-- The frames of the real stack that were called at `start` or later. -/
def since (start : ℕ) (S : List (ℕ × FunTraceEntry)) : List FunTraceEntry :=
  (S.filter (start ≤ ·.1)).map Prod.snd

theorem since_append {start : ℕ} {D R : List (ℕ × FunTraceEntry)} (hD : ∀ p ∈ D, start ≤ p.1)
    (hR : ∀ p ∈ R, p.1 < start) : since start (D ++ R) = D.map Prod.snd := by
  rw [since, List.filter_append, List.filter_eq_self.2 fun p hp => by simpa using hD p hp,
    List.filter_eq_nil_iff.2 fun p hp => by simpa using hR p hp, List.append_nil]

/-- The real stack `S` with the decoder's stack on top, its frames being those called at `start`
    or later. -/
def OnTop (start : ℕ) (stack : List FunTraceEntry) (S : List (ℕ × FunTraceEntry)) : Prop :=
  ∃ D R, S = D ++ R ∧ stack = D.map Prod.snd ∧ (∀ p ∈ D, start ≤ p.1) ∧ ∀ p ∈ R, p.1 < start

theorem OnTop.since_eq {start : ℕ} {stack : List FunTraceEntry} {S : List (ℕ × FunTraceEntry)}
    (h : OnTop start stack S) : stack = since start S := by
  obtain ⟨D, R, rfl, rfl, hD, hR⟩ := h
  exact (since_append hD hR).symm

theorem OnTop.since_take {start n : ℕ} {stack : List FunTraceEntry}
    {S : List (ℕ × FunTraceEntry)} (h : OnTop start stack S) :
    stack.take n = since start (S.take n) := by
  obtain ⟨D, R, rfl, rfl, hD, hR⟩ := h
  rw [List.take_append, since_append (fun p hp => hD p (List.mem_of_mem_take hp))
    fun p hp => hR p (List.mem_of_mem_take hp), List.map_take]

/-- **The decoder follows a run**: its stack stays on top of the real one. -/
theorem run_legal {start : ℕ} : ∀ (win : List Event) {i : ℕ} {d : Dec}
    {S : List (ℕ × FunTraceEntry)}, start ≤ i → OnTop start d.stack S →
      LegalRun sym win (S.map Prod.snd) →
      OnTop start (runEntries sym earliest d (win.map Event.entry)).1.stack (realStack win i S) ∧
        ∀ s ∈ runSteps sym earliest d (win.map Event.entry), ¬ Unmatched sym s.1.stack s.2
  | [], _, _, _, _, h, _ => ⟨h, by simp [runSteps]⟩
  | ev :: win, i, d, S, hi, ⟨D, R, hS, hd, hD, hR⟩, hrun => by
    obtain ⟨hlegal, hrun⟩ := hrun
    rw [hS, List.map_append, ← hd] at hlegal
    obtain ⟨hstack, -, hu⟩ := handle_legal earliest hlegal
    obtain ⟨k, hk⟩ := effect_append (i, ev.entry) ev D R
    rw [← effect_map Prod.snd (i, ev.entry)] at hrun
    have htop : OnTop start (handle sym earliest d ev.entry).1.stack
        (ev.effect (i, ev.entry) S) := by
      refine ⟨_, _, hS ▸ hk, ?_, fun p hp => ?_, fun p hp => hR p (List.mem_of_mem_drop hp)⟩
      · rw [hstack, hd, effect_map]
      · rcases mem_effect hp with rfl | hp
        exacts [hi, hD p hp]
    obtain ⟨hfinal, hsteps⟩ := run_legal win (i := i + 1) (by omega) htop hrun
    refine ⟨hfinal, fun s hs => ?_⟩
    rcases List.mem_cons.1 hs with rfl | hs
    exacts [hu, hsteps s hs]

/-! ## Splitting a run -/

theorem realStack_append (evs evs' : List Event) : ∀ (i : ℕ) (S : List (ℕ × FunTraceEntry)),
    realStack (evs ++ evs') i S = realStack evs' (i + evs.length) (realStack evs i S) := by
  induction evs with
  | nil => exact fun i S => rfl
  | cons ev evs ih =>
    intro i S
    rw [List.cons_append, realStack, ih, realStack, List.length_cons, Nat.add_right_comm,
      Nat.add_assoc]

theorem stackAfter_append (evs evs' : List Event) : ∀ S : List FunTraceEntry,
    stackAfter (evs ++ evs') S = stackAfter evs' (stackAfter evs S) := by
  induction evs with
  | nil => exact fun S => rfl
  | cons ev evs ih => exact fun S => ih _

theorem realStack_snd (evs : List Event) : ∀ (i : ℕ) (S : List (ℕ × FunTraceEntry)),
    (realStack evs i S).map Prod.snd = stackAfter evs (S.map Prod.snd) := by
  induction evs with
  | nil => exact fun i S => rfl
  | cons ev evs ih =>
    intro i S
    rw [realStack, ih, effect_map]
    rfl

theorem legalRun_append {evs evs' : List Event} : ∀ {S : List FunTraceEntry},
    LegalRun sym (evs ++ evs') S ↔ LegalRun sym evs S ∧ LegalRun sym evs' (stackAfter evs S) := by
  induction evs with
  | nil => exact fun {S} => ⟨fun h => ⟨trivial, h⟩, fun h => h.2⟩
  | cons ev evs ih =>
    intro S
    rw [List.cons_append, LegalRun, LegalRun, ih, and_assoc]
    rfl

/-- Frames were called at the places of the run. -/
theorem lt_of_mem_realStack (evs : List Event) : ∀ {i : ℕ} {S : List (ℕ × FunTraceEntry)},
    (∀ p ∈ S, p.1 < i) → ∀ p ∈ realStack evs i S, p.1 < i + evs.length := by
  induction evs with
  | nil => exact fun h => h
  | cons ev evs ih =>
    intro i S h p hp
    have hlt := ih (i := i + 1) (fun q hq => ?_) p hp
    · rw [List.length_cons]
      omega
    · rcases mem_effect hq with rfl | hq
      · exact Nat.lt_succ_self i
      · exact Nat.lt_succ_of_lt (h q hq)

end

end Funtrace
