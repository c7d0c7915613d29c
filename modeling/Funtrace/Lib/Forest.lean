/-
  Well-nested runs: forests of invocations, and their logs.

  A forest is logged by its entries and returns in the order in which they happen.
  An invocation is a pair of an entry and its return; `invs` lists the invocations
  in the order of their returns, and `Inside` is their nesting.

  For a log sorted by some relation, the nesting can be read off the order:
  `Inside.rel`, and `trichotomy` (nested, or one after the other).
-/
import Mathlib.Data.List.Basic

namespace Funtrace

/-- A list of invocations, each of which encloses those made before it returns. -/
inductive Forest (α : Type*) where
  | nil
  | call (enter : α) (inside : Forest α) (ret : α) (after : Forest α)

namespace Forest

variable {α : Type*}

/-- The calls and returns in their order. -/
def log : Forest α → List α
  | nil => []
  | call e f r g => e :: (f.log ++ r :: g.log)

/-- The invocations, each the pair of its call and its return, in the order of the returns. -/
def invs : Forest α → List (α × α)
  | nil => []
  | call e f r g => f.invs ++ (e, r) :: g.invs

/-- Was `v` made inside `u`? -/
def Inside : Forest α → α × α → α × α → Prop
  | nil, _, _ => False
  | call e f r g, v, u => (u = (e, r) ∧ v ∈ f.invs) ∨ f.Inside v u ∨ g.Inside v u

theorem mem_log : ∀ {F : Forest α} {v : α × α}, v ∈ F.invs → v.1 ∈ F.log ∧ v.2 ∈ F.log
  | call e f r g, v, hv => by
    simp only [invs, log, List.mem_append, List.mem_cons] at hv ⊢
    rcases hv with hv | rfl | hv
    · obtain ⟨h, h'⟩ := mem_log hv
      exact ⟨Or.inr (Or.inl h), Or.inr (Or.inl h')⟩
    · exact ⟨Or.inl rfl, Or.inr (Or.inr (Or.inl rfl))⟩
    · obtain ⟨h, h'⟩ := mem_log hv
      exact ⟨Or.inr (Or.inr (Or.inr h)), Or.inr (Or.inr (Or.inr h'))⟩

theorem exists_of_mem_log : ∀ {F : Forest α} {a : α}, a ∈ F.log → ∃ v ∈ F.invs, a = v.1 ∨ a = v.2
  | call e f r g, a, ha => by
    simp only [invs, log, List.mem_append, List.mem_cons] at ha ⊢
    rcases ha with rfl | ha | rfl | ha
    · exact ⟨(a, r), Or.inr (Or.inl rfl), Or.inl rfl⟩
    · obtain ⟨v, hv, hav⟩ := exists_of_mem_log ha
      exact ⟨v, Or.inl hv, hav⟩
    · exact ⟨(e, a), Or.inr (Or.inl rfl), Or.inr rfl⟩
    · obtain ⟨v, hv, hav⟩ := exists_of_mem_log ha
      exact ⟨v, Or.inr (Or.inr hv), hav⟩

theorem Inside.mem : ∀ {F : Forest α} {v u : α × α}, F.Inside v u → v ∈ F.invs ∧ u ∈ F.invs
  | call e f r g, v, u, h => by
    simp only [invs, List.mem_append, List.mem_cons]
    rcases h with ⟨rfl, h⟩ | h | h
    · exact ⟨Or.inl h, Or.inr (Or.inl rfl)⟩
    · exact ⟨Or.inl h.mem.1, Or.inl h.mem.2⟩
    · exact ⟨Or.inr (Or.inr h.mem.1), Or.inr (Or.inr h.mem.2)⟩

section
variable {R : α → α → Prop}

/-- A sorted log of a call, taken apart. -/
theorem sorted_call {e r : α} {f g : Forest α} (h : (call e f r g).log.Pairwise R) :
    f.log.Pairwise R ∧ g.log.Pairwise R ∧ (∀ a ∈ f.log, R e a ∧ R a r) ∧ R e r ∧
      (∀ a ∈ g.log, R e a ∧ R r a) ∧ ∀ a ∈ f.log, ∀ b ∈ g.log, R a b := by
  obtain ⟨he, h⟩ := List.pairwise_cons.1 h
  obtain ⟨hf, hr, hfr⟩ := List.pairwise_append.1 h
  obtain ⟨hr, hg⟩ := List.pairwise_cons.1 hr
  refine ⟨hf, hg, fun a ha => ⟨he a (List.mem_append_left _ ha), hfr a ha r List.mem_cons_self⟩,
    he r (by simp), fun a ha => ⟨he a (by simp [ha]), hr a ha⟩, fun a ha b hb => ?_⟩
  exact hfr a ha b (List.mem_cons_of_mem r hb)

theorem rel_ret : ∀ {F : Forest α} {v : α × α}, F.log.Pairwise R → v ∈ F.invs → R v.1 v.2
  | call e f r g, v, h, hv => by
    obtain ⟨hf, hg, -, her, -, -⟩ := sorted_call h
    simp only [invs, List.mem_append, List.mem_cons] at hv
    rcases hv with hv | rfl | hv
    exacts [rel_ret hf hv, her, rel_ret hg hv]

/-- What is made inside an invocation is called after it and returns before it. -/
theorem Inside.rel : ∀ {F : Forest α} {v u : α × α}, F.log.Pairwise R → F.Inside v u →
    R u.1 v.1 ∧ R v.2 u.2
  | call e f r g, v, u, h, hin => by
    obtain ⟨hf, hg, hef, -, -, -⟩ := sorted_call h
    rcases hin with ⟨rfl, hv⟩ | hin | hin
    · obtain ⟨h₁, h₂⟩ := mem_log hv
      exact ⟨(hef _ h₁).1, (hef _ h₂).2⟩
    · exact hin.rel hf
    · exact hin.rel hg

/-- **Two invocations** are nested or follow each other. -/
theorem trichotomy : ∀ {F : Forest α} {u v : α × α}, F.log.Pairwise R → u ∈ F.invs → v ∈ F.invs →
    u = v ∨ F.Inside u v ∨ F.Inside v u ∨ R u.2 v.1 ∨ R v.2 u.1
  | call e f r g, u, v, h, hu, hv => by
    obtain ⟨hf, hg, -, -, heg, hfg⟩ := sorted_call h
    simp only [invs, List.mem_append, List.mem_cons] at hu hv
    rcases hu with hu | rfl | hu <;> rcases hv with hv | rfl | hv
    · rcases trichotomy hf hu hv with h | h | h | h
      exacts [Or.inl h, Or.inr (Or.inl (Or.inr (Or.inl h))),
        Or.inr (Or.inr (Or.inl (Or.inr (Or.inl h)))), Or.inr (Or.inr (Or.inr h))]
    · exact Or.inr (Or.inl (Or.inl ⟨rfl, hu⟩))
    · exact Or.inr (Or.inr (Or.inr (Or.inl (hfg _ (mem_log hu).2 _ (mem_log hv).1))))
    · exact Or.inr (Or.inr (Or.inl (Or.inl ⟨rfl, hv⟩)))
    · exact Or.inl rfl
    · exact Or.inr (Or.inr (Or.inr (Or.inl (heg _ (mem_log hv).1).2)))
    · exact Or.inr (Or.inr (Or.inr (Or.inr (hfg _ (mem_log hv).2 _ (mem_log hu).1))))
    · exact Or.inr (Or.inr (Or.inr (Or.inr (heg _ (mem_log hu).1).2)))
    · rcases trichotomy hg hu hv with h | h | h | h
      exacts [Or.inl h, Or.inr (Or.inl (Or.inr (Or.inr h))),
        Or.inr (Or.inr (Or.inl (Or.inr (Or.inr h)))), Or.inr (Or.inr (Or.inr h))]

/-- The invocations are listed in the order of their returns. -/
theorem invs_sorted : ∀ {F : Forest α}, F.log.Pairwise R → F.invs.Pairwise fun u v => R u.2 v.2
  | nil, _ => List.Pairwise.nil
  | call e f r g, h => by
    obtain ⟨hf, hg, hef, -, heg, hfg⟩ := sorted_call h
    refine List.pairwise_append.2 ⟨invs_sorted hf,
      List.pairwise_cons.2 ⟨fun v hv => (heg _ (mem_log hv).2).2, invs_sorted hg⟩, fun u hu v hv => ?_⟩
    rcases List.mem_cons.1 hv with rfl | hv
    exacts [(hef _ (mem_log hu).2).2, hfg _ (mem_log hu).2 _ (mem_log hv).2]

end

end Forest

end Funtrace
