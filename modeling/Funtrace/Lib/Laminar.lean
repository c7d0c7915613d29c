/-
  Laminar families of intervals: any two are nested or disjoint.

  Intervals are pairs over a linear order.  A family that is laminar is built by
  opening and closing: `Nesting E S a b` says that the intervals `E` closed so far
  are laminar, that the points `S` that are still open (last opened first) split none
  of them, and that everything lies between `a` and `b`.

  * `Nesting.push`, `Nesting.pop`, `Nesting.drop`: a point is opened, closed, forgotten;
  * `Nesting.around`: an interval around everything, when nothing is open.
-/
import Mathlib.Order.Monotone.Basic
import Mathlib.Data.Set.Insert

namespace Funtrace

variable {α : Type*} [LinearOrder α]

/-- `I` lies in `J`. -/
def Within (I J : α × α) : Prop := J.1 ≤ I.1 ∧ I.2 ≤ J.2

/-- `I` and `J` have no point in common. -/
def Apart (I J : α × α) : Prop := I.2 < J.1 ∨ J.2 < I.1

/-- Nested or disjoint. -/
def Fits (I J : α × α) : Prop := Within I J ∨ Within J I ∨ Apart I J

/-- Any two intervals are nested or disjoint. -/
def Laminar (E : Set (α × α)) : Prop := ∀ I ∈ E, ∀ J ∈ E, Fits I J

theorem Fits.refl (I : α × α) : Fits I I := Or.inl ⟨le_rfl, le_rfl⟩

theorem Fits.symm {I J : α × α} (h : Fits I J) : Fits J I := by
  rcases h with h | h | h
  exacts [Or.inr (Or.inl h), Or.inl h, Or.inr (Or.inr h.symm)]

/-- Two intervals that overlap without being nested. -/
theorem not_fits {I J : α × α} (hstart : I.1 < J.1) (hin : J.1 ≤ I.2) (hend : I.2 < J.2) :
    ¬ Fits I J := by
  rintro (h | h | h | h)
  · exact absurd h.1 (not_le.2 hstart)
  · exact absurd h.2 (not_le.2 hend)
  · exact absurd hin (not_le.2 h)
  · exact absurd (hend.trans h) (not_lt.2 (hstart.le.trans hin))

theorem Laminar.mono {E F : Set (α × α)} (h : Laminar F) (hEF : E ⊆ F) : Laminar E :=
  fun I hI J hJ => h I (hEF hI) J (hEF hJ)

theorem Laminar.insert {E : Set (α × α)} (h : Laminar E) {I : α × α} (hI : ∀ J ∈ E, Fits I J) :
    Laminar (insert I E) := by
  rintro J (rfl | hJ) K (rfl | hK)
  exacts [Fits.refl _, hI K hK, (hI J hJ).symm, h J hJ K hK]

/-! ## Opening and closing -/

/-- Closed intervals `E` and open points `S`, the last opened first, all between `a` and `b`. -/
structure Nesting (E : Set (α × α)) (S : List α) (a b : α) : Prop where
  laminar : Laminar E
  le_closed : ∀ I ∈ E, a ≤ I.1
  closed_le : ∀ I ∈ E, I.2 ≤ b
  split : ∀ I ∈ E, ∀ s ∈ S, I.2 < s ∨ s < I.1
  sorted : S.Pairwise (· > ·)
  le_open : ∀ s ∈ S, a ≤ s
  open_le : ∀ s ∈ S, s ≤ b

namespace Nesting
variable {E : Set (α × α)} {S : List α} {a b : α}

theorem empty (a b : α) : Nesting (∅ : Set (α × α)) [] a b where
  laminar := by simp [Laminar]
  le_closed := by simp
  closed_le := by simp
  split := by simp
  sorted := List.Pairwise.nil
  le_open := by simp
  open_le := by simp

theorem mono {a' b' : α} (h : Nesting E S a b) (ha : a' ≤ a) (hb : b ≤ b') :
    Nesting E S a' b' :=
  { h with
    le_closed := fun I hI => ha.trans (h.le_closed I hI)
    closed_le := fun I hI => (h.closed_le I hI).trans hb
    le_open := fun s hs => ha.trans (h.le_open s hs)
    open_le := fun s hs => (h.open_le s hs).trans hb }

theorem push {s : α} (h : Nesting E S a b) (ha : a ≤ s) (hb : b < s) : Nesting E (s :: S) a s where
  laminar := h.laminar
  le_closed := h.le_closed
  closed_le I hI := (h.closed_le I hI).trans hb.le
  split I hI p hp := by
    rcases List.mem_cons.1 hp with rfl | hp
    exacts [Or.inl ((h.closed_le I hI).trans_lt hb), h.split I hI p hp]
  sorted := List.pairwise_cons.2 ⟨fun p hp => (h.open_le p hp).trans_lt hb, h.sorted⟩
  le_open p hp := by
    rcases List.mem_cons.1 hp with rfl | hp
    exacts [ha, h.le_open p hp]
  open_le p hp := by
    rcases List.mem_cons.1 hp with rfl | hp
    exacts [le_rfl, (h.open_le p hp).trans hb.le]

theorem drop {s : α} (h : Nesting E (s :: S) a b) : Nesting E S a b :=
  { h with
    split := fun I hI p hp => h.split I hI p (List.mem_cons_of_mem s hp)
    sorted := (List.pairwise_cons.1 h.sorted).2
    le_open := fun p hp => h.le_open p (List.mem_cons_of_mem s hp)
    open_le := fun p hp => h.open_le p (List.mem_cons_of_mem s hp) }

theorem pop {s t : α} (h : Nesting E (s :: S) a b) (ht : b ≤ t) :
    Nesting (insert (s, t) E) S a t where
  laminar := h.laminar.insert fun J hJ => by
    rcases h.split J hJ s List.mem_cons_self with hlt | hlt
    · exact Or.inr (Or.inr (Or.inr hlt))
    · exact Or.inr (Or.inl ⟨hlt.le, (h.closed_le J hJ).trans ht⟩)
  le_closed := by
    rintro J (rfl | hJ)
    exacts [h.le_open s List.mem_cons_self, h.le_closed J hJ]
  closed_le := by
    rintro J (rfl | hJ)
    exacts [le_rfl, (h.closed_le J hJ).trans ht]
  split := by
    rintro J (rfl | hJ) p hp
    exacts [Or.inr ((List.pairwise_cons.1 h.sorted).1 p hp),
      h.split J hJ p (List.mem_cons_of_mem s hp)]
  sorted := (List.pairwise_cons.1 h.sorted).2
  le_open p hp := h.le_open p (List.mem_cons_of_mem s hp)
  open_le p hp := (h.open_le p (List.mem_cons_of_mem s hp)).trans ht

theorem around {s t : α} (h : Nesting E [] a b) (hs : s ≤ a) (ht : b ≤ t) :
    Nesting (insert (s, t) E) [] s t where
  laminar := h.laminar.insert fun J hJ =>
    Or.inr (Or.inl ⟨hs.trans (h.le_closed J hJ), (h.closed_le J hJ).trans ht⟩)
  le_closed := by
    rintro J (rfl | hJ)
    exacts [le_rfl, hs.trans (h.le_closed J hJ)]
  closed_le := by
    rintro J (rfl | hJ)
    exacts [le_rfl, (h.closed_le J hJ).trans ht]
  split := by simp
  sorted := List.Pairwise.nil
  le_open := by simp
  open_le := by simp

end Nesting

end Funtrace
