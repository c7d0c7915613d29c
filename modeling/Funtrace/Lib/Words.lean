/-
  Words of a text.

  A text is a list of characters, some of which are blanks.  Words are what stands
  between blanks, `strip` drops the blanks at both ends.
-/
import Mathlib.Data.List.Infix
import Mathlib.Data.List.DropRight
import Mathlib.Tactic.SplitIfs

namespace Funtrace

/-- White space, as Unicode has it: `char::is_whitespace`. -/
def isWhitespace (c : Char) : Bool :=
  let n := c.val
  (0x9 ≤ n && n ≤ 0xd) || n == 0x20 || n == 0x85 || n == 0xa0 || n == 0x1680 ||
    (0x2000 ≤ n && n ≤ 0x200a) || n == 0x2028 || n == 0x2029 || n == 0x202f || n == 0x205f ||
    n == 0x3000

section
variable {α : Type*} (blank : α → Bool)

/-- The text without the blanks at its ends. -/
def strip (s : List α) : List α := (s.dropWhile blank).rdropWhile blank

/-- The maximal runs of characters that are no blanks. -/
def words (s : List α) : List (List α) := (s.splitOnP blank).filter (! ·.isEmpty)

variable {blank}

/-- The first piece of a split begins the text, the others lie in it. -/
theorem splitOnP_pieces : ∀ {s w : List α} {ws : List (List α)}, s.splitOnP blank = w :: ws →
    w <+: s ∧ ∀ v ∈ ws, v <:+: s
  | [], w, ws, h => by
    rw [List.splitOnP_nil, List.cons.injEq] at h
    obtain ⟨rfl, rfl⟩ := h
    exact ⟨List.nil_prefix, fun v hv => absurd hv List.not_mem_nil⟩
  | c :: s, w, ws, h => by
    obtain ⟨u, us, hu⟩ := List.exists_cons_of_ne_nil (List.splitOnP_ne_nil blank s)
    obtain ⟨hpre, hin⟩ := splitOnP_pieces hu
    have hall : ∀ v ∈ us, v <:+: c :: s := fun v hv =>
      (hin v hv).trans (List.suffix_cons c s).isInfix
    rw [List.splitOnP_cons_eq_if_modifyHead, hu] at h
    split_ifs at h
    · rw [List.cons.injEq] at h
      obtain ⟨rfl, rfl⟩ := h
      refine ⟨List.nil_prefix, List.forall_mem_cons.2 ⟨?_, hall⟩⟩
      exact hpre.isInfix.trans (List.suffix_cons c s).isInfix
    · rw [List.modifyHead_cons, List.cons.injEq] at h
      obtain ⟨rfl, rfl⟩ := h
      exact ⟨List.cons_prefix_cons.2 ⟨rfl, hpre⟩, hall⟩

/-- No blank is in a piece. -/
theorem not_blank_of_mem_splitOnP : ∀ {s w : List α}, w ∈ s.splitOnP blank → ∀ c ∈ w, ¬ blank c
  | [], w, hw, c, hc => by
    rw [List.splitOnP_nil, List.mem_singleton] at hw
    rw [hw] at hc
    cases hc
  | d :: s, w, hw, c, hc => by
    obtain ⟨u, us, hu⟩ := List.exists_cons_of_ne_nil (List.splitOnP_ne_nil blank s)
    have hall : ∀ v ∈ u :: us, ∀ c ∈ v, ¬ blank c := fun v hv =>
      not_blank_of_mem_splitOnP (hu ▸ hv)
    rw [List.splitOnP_cons_eq_if_modifyHead, hu] at hw
    split_ifs at hw with hd
    · rcases List.mem_cons.1 hw with rfl | hw
      · cases hc
      · exact hall w hw c hc
    · rw [List.modifyHead_cons] at hw
      rcases List.mem_cons.1 hw with rfl | hw
      · rcases List.mem_cons.1 hc with rfl | hc
        · exact hd
        · exact hall u List.mem_cons_self c hc
      · exact hall w (List.mem_cons_of_mem _ hw) c hc

theorem not_blank_of_mem_words {s w : List α} (hw : w ∈ words blank s) : ∀ c ∈ w, ¬ blank c :=
  not_blank_of_mem_splitOnP (List.mem_of_mem_filter hw)

theorem infix_of_mem_words {s w : List α} (hw : w ∈ words blank s) : w <:+: s := by
  obtain ⟨u, us, hu⟩ := List.exists_cons_of_ne_nil (List.splitOnP_ne_nil blank s)
  obtain ⟨hpre, hin⟩ := splitOnP_pieces hu
  have hw := List.mem_of_mem_filter hw
  rw [hu] at hw
  rcases List.mem_cons.1 hw with rfl | hw
  · exact hpre.isInfix
  · exact hin w hw

end

end Funtrace
