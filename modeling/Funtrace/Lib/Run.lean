/-
  Runs of a machine with a partial step function.

  A step is `none` where the action is not enabled.  An invariant that each step
  keeps holds after every run (`run_invariant`; `run_invariant_along` if only some
  steps keep it), and two machines that keep step with each other do so over whole
  runs (`run_simulation`).
-/
import Mathlib.Algebra.Group.Hom.Defs
import Mathlib.Algebra.Group.Nat.Defs

namespace Funtrace

section
variable {S T A : Type} (step : S → A → Option S)

/-- The state after some actions, if they are enabled one after the other. -/
def runFrom : S → List A → Option S
  | s, [] => some s
  | s, a :: as =>
    match step s a with
    | none => none
    | some s' => runFrom s' as

variable {step}

theorem runFrom_cons {s s' : S} {a : A} {as : List A} (h : runFrom step s (a :: as) = some s') :
    ∃ t, step s a = some t ∧ runFrom step t as = some s' := by
  unfold runFrom at h
  split at h
  · cases h
  · next t ht => exact ⟨t, ht, h⟩

theorem runFrom_append (as bs : List A) : ∀ s : S,
    runFrom step s (as ++ bs) = (runFrom step s as).bind fun t => runFrom step t bs := by
  induction as with
  | nil => exact fun s => rfl
  | cons a as ih =>
    intro s
    simp only [List.cons_append, runFrom]
    cases step s a with
    | none => rfl
    | some t => exact ih t

/-- **What every step keeps** holds after every run. -/
theorem run_invariant {I : S → Prop} {P : A → Prop}
    (hstep : ∀ s a s', I s → P a → step s a = some s' → I s') :
    ∀ {as : List A} {s s' : S}, I s → (∀ a ∈ as, P a) → runFrom step s as = some s' → I s'
  | [], s, s', hs, _, h => by cases h; exact hs
  | a :: as, s, s', hs, hP, h => by
    obtain ⟨t, ht, h⟩ := runFrom_cons h
    exact run_invariant hstep (hstep s a t hs (hP a List.mem_cons_self) ht)
      (fun b hb => hP b (List.mem_cons_of_mem a hb)) h

/-- Every step of a run is taken in a state that allows it. -/
def Along (step : S → A → Option S) (ok : S → A → Prop) : S → List A → Prop
  | _, [] => True
  | s, a :: as =>
    ok s a ∧ match step s a with
      | none => True
      | some s' => Along step ok s' as

instance Along.decidable {ok : S → A → Prop} [∀ s a, Decidable (ok s a)] :
    ∀ s as, Decidable (Along step ok s as)
  | _, [] => isTrue trivial
  | s, a :: as =>
    have : Decidable (match step s a with
        | none => True
        | some s' => Along step ok s' as) :=
      match step s a with
      | none => isTrue trivial
      | some s' => decidable s' as
    inferInstanceAs (Decidable (_ ∧ _))

theorem Along.of_cons {ok : S → A → Prop} {s s' : S} {a : A} {as : List A}
    (h : Along step ok s (a :: as)) (hs : step s a = some s') : ok s a ∧ Along step ok s' as := by
  unfold Along at h
  rwa [hs] at h

theorem along_and {ok ok' : S → A → Prop} :
    ∀ {as : List A} {s : S}, Along step ok s as → Along step ok' s as →
      Along step (fun s a => ok s a ∧ ok' s a) s as
  | [], _, _, _ => trivial
  | a :: as, s, h, h' => by
    unfold Along at h h' ⊢
    refine ⟨⟨h.1, h'.1⟩, ?_⟩
    cases hs : step s a with
    | none => trivial
    | some s' =>
      rw [hs] at h h'
      exact along_and h.2 h'.2

theorem Along.mono {ok ok' : S → A → Prop} (himp : ∀ s a, ok s a → ok' s a) :
    ∀ {as : List A} {s : S}, Along step ok s as → Along step ok' s as
  | [], _, _ => trivial
  | a :: as, s, h => by
    unfold Along at h ⊢
    refine ⟨himp s a h.1, ?_⟩
    cases hs : step s a with
    | none => trivial
    | some s' =>
      rw [hs] at h
      exact h.2.mono himp

theorem along_singleton {ok : S → A → Prop} {s : S} {a : A} : Along step ok s [a] ↔ ok s a := by
  unfold Along
  cases step s a <;> simp [Along]

theorem along_of_forall {ok : S → A → Prop} :
    ∀ {as : List A} {s : S}, (∀ s, ∀ a ∈ as, ok s a) → Along step ok s as
  | [], _, _ => trivial
  | a :: as, s, h => by
    refine ⟨h s a List.mem_cons_self, ?_⟩
    cases step s a with
    | none => trivial
    | some s' => exact along_of_forall fun s b hb => h s b (List.mem_cons_of_mem a hb)

theorem along_append {ok : S → A → Prop} (as bs : List A) : ∀ s : S,
    Along step ok s (as ++ bs) ↔
      Along step ok s as ∧ ∀ t, runFrom step s as = some t → Along step ok t bs := by
  induction as with
  | nil =>
    intro s
    simp [Along, runFrom]
  | cons a as ih =>
    intro s
    simp only [List.cons_append, Along, runFrom]
    cases step s a with
    | none => simp
    | some s' => simp [ih, and_assoc]

/-- **What every allowed step keeps** holds after every run of allowed steps. -/
theorem run_invariant_along {I : S → Prop} {ok : S → A → Prop}
    (hstep : ∀ s a s', I s → ok s a → step s a = some s' → I s') :
    ∀ {as : List A} {s s' : S}, I s → Along step ok s as → runFrom step s as = some s' → I s'
  | [], s, s', hs, _, h => by cases h; exact hs
  | a :: as, s, s', hs, hok, h => by
    obtain ⟨t, ht, h⟩ := runFrom_cons h
    obtain ⟨ha, hok⟩ := hok.of_cons ht
    exact run_invariant_along hstep (hstep s a t hs ha ht) hok h

/-- What the steps of a run amount to, where `f` says it of a step. -/
def sumAlong (step : S → A → Option S) (f : S → A → ℕ) : S → List A → ℕ
  | _, [] => 0
  | s, a :: as =>
    f s a + match step s a with
      | none => 0
      | some s' => sumAlong step f s' as

theorem sumAlong_append (f : S → A → ℕ) (bs : List A) : ∀ {as : List A} {s s' : S},
    runFrom step s as = some s' →
      sumAlong step f s (as ++ bs) = sumAlong step f s as + sumAlong step f s' bs
  | [], s, s', h => by
    obtain rfl := Option.some.inj h
    simp [sumAlong]
  | a :: as, s, s', h => by
    obtain ⟨t, ht, h⟩ := runFrom_cons h
    simp only [List.cons_append, sumAlong, ht]
    rw [sumAlong_append f bs h, Nat.add_assoc]

/-- Where a step counts if its action does, a run counts those actions. -/
theorem sumAlong_eq_countP {f : S → A → ℕ} {g : A → Bool} {ok : S → A → Prop}
    (hf : ∀ s a, ok s a → f s a = if g a then 1 else 0) : ∀ {as : List A} {s s' : S},
      Along step ok s as → runFrom step s as = some s' → sumAlong step f s as = as.countP g
  | [], _, _, _, _ => rfl
  | a :: as, s, s', hok, h => by
    obtain ⟨t, ht, h⟩ := runFrom_cons h
    obtain ⟨ha, hok⟩ := hok.of_cons ht
    rw [sumAlong, ht, List.countP_cons, hf s a ha, Nat.add_comm]
    exact congrArg (· + _) (sumAlong_eq_countP hf hok h)

/-- **What every step adds to a measure**, a run adds to it. -/
theorem run_measure {M : Type*} [AddMonoid M] (g : ℕ →+ M) {μ : S → M} {f : S → A → ℕ} {P : A → Prop}
    (hstep : ∀ s a s', P a → step s a = some s' → μ s' = μ s + g (f s a)) :
    ∀ {as : List A} {s s' : S}, (∀ a ∈ as, P a) → runFrom step s as = some s' →
      μ s' = μ s + g (sumAlong step f s as)
  | [], s, s', _, h => by
    obtain rfl := Option.some.inj h
    simp [sumAlong]
  | a :: as, s, s', hP, h => by
    obtain ⟨t, ht, h⟩ := runFrom_cons h
    have hrest := run_measure g hstep (fun b hb => hP b (List.mem_cons_of_mem a hb)) h
    rw [hrest, hstep s a t (hP a List.mem_cons_self) ht, sumAlong, ht, map_add, add_assoc]

/-- **A simulation** of each step is one of every run. -/
theorem run_simulation {step' : T → A → Option T} {R : S → T → Prop} {P : A → Prop}
    (hstep : ∀ s t a s', R s t → P a → step s a = some s' → ∃ t', step' t a = some t' ∧ R s' t') :
    ∀ {as : List A} {s s' : S} {t : T}, R s t → (∀ a ∈ as, P a) → runFrom step s as = some s' →
      ∃ t', runFrom step' t as = some t' ∧ R s' t'
  | [], s, s', t, hR, _, h => by cases h; exact ⟨t, rfl, hR⟩
  | a :: as, s, s', t, hR, hP, h => by
    obtain ⟨s₁, hs₁, h⟩ := runFrom_cons h
    obtain ⟨t₁, ht₁, hR₁⟩ := hstep s t a s₁ hR (hP a List.mem_cons_self) hs₁
    obtain ⟨t', ht', hR'⟩ :=
      run_simulation hstep hR₁ (fun b hb => hP b (List.mem_cons_of_mem a hb)) h
    exact ⟨t', by rw [runFrom, ht₁]; exact ht', hR'⟩

end

end Funtrace
