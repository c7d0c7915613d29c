/-
  Loops that go on from state to state until they have a result.

  `loop` takes a number of turns that it may make at most.  A loop whose turns decrease
  a measure has a result (`loop_isSome`); results do not depend on how many turns there
  may be (`loop_mono`), and a turn takes one of them (`loop_of_step`).
-/
import Mathlib.Algebra.Group.Nat.Defs

namespace Funtrace

section
variable {S R : Type} (step : S → S ⊕ R)

/-- The result of a loop, if it has one after at most so many turns. -/
def loop : ℕ → S → Option R
  | 0, _ => none
  | fuel + 1, s =>
    match step s with
    | .inl s' => loop fuel s'
    | .inr r => some r

/-- The states that a loop comes to. -/
inductive LoopReaches (s : S) : S → Prop
  | refl : LoopReaches s s
  | tail {s' s'' : S} : LoopReaches s s' → step s' = .inl s'' → LoopReaches s s''

variable {step}

theorem loop_succ (fuel : ℕ) (s : S) :
    loop step (fuel + 1) s = Sum.elim (loop step fuel) some (step s) := by
  rw [loop]
  cases step s <;> rfl

theorem loop_of_step {s s' : S} (h : step s = .inl s') (fuel : ℕ) :
    loop step (fuel + 1) s = loop step fuel s' := by
  rw [loop, h]

theorem loop_of_result {s : S} {r : R} (h : step s = .inr r) (fuel : ℕ) :
    loop step (fuel + 1) s = some r := by
  rw [loop, h]

theorem loop_mono {r : R} : ∀ {fuel fuel' : ℕ} {s : S}, fuel ≤ fuel' → loop step fuel s = some r →
    loop step fuel' s = some r
  | 0, _, _, _, h => by cases h
  | fuel + 1, 0, _, hle, _ => by omega
  | fuel + 1, fuel' + 1, s, hle, h => by
    unfold loop at h ⊢
    split at h
    · exact loop_mono (by omega) h
    · exact h

/-- Two results of a loop are the same. -/
theorem loop_unique {r r' : R} {fuel fuel' : ℕ} {s : S} (h : loop step fuel s = some r)
    (h' : loop step fuel' s = some r') : r = r' := by
  have hmax := loop_mono (Nat.le_max_left fuel fuel') h
  rw [loop_mono (Nat.le_max_right fuel fuel') h'] at hmax
  exact (Option.some.inj hmax).symm

theorem LoopReaches.head {s s' s'' : S} (h : step s = .inl s') (h' : LoopReaches step s' s'') :
    LoopReaches step s s'' := by
  induction h' with
  | refl => exact .tail .refl h
  | tail _ hstep ih => exact .tail ih hstep

/-- **A loop whose turns decrease a measure** has a result. -/
theorem loop_isSome (μ : S → ℕ) : ∀ {fuel : ℕ} {s : S},
    (∀ s', LoopReaches step s s' → ∀ s'', step s' = .inl s'' → μ s'' < μ s') → μ s < fuel →
      (loop step fuel s).isSome
  | 0, _, _, hlt => by omega
  | fuel + 1, s, hdec, hlt => by
    unfold loop
    split
    · next s' hs' =>
      have hstep := hdec s .refl s' hs'
      exact loop_isSome μ (fun s'' h => hdec s'' (h.head hs')) (by omega)
    · rfl

end

end Funtrace
