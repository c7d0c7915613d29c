/-
  Cyclic buffers.

  A ring has a fixed number of slots and a position, which lies after the slot
  written last and may lie at the end of the slots: wraparound is done before the
  next write (`push`).

  Read from its position on, and around, a ring is a queue that loses its first
  element with every push (`contents_pushAll`); read from a position sampled
  earlier, it begins with what was pushed since (`contentsFrom_pushAll`).
-/
import Mathlib.Data.List.Rotate

namespace Funtrace

/-- Slots, and the place up to which they were written last. -/
structure Ring (α : Type*) where
  slots : List α
  pos : ℕ
  pos_le : pos ≤ slots.length
  nonempty : slots ≠ []

namespace Ring
variable {α : Type*}

/-- The slot that is written next. -/
def next (r : Ring α) : ℕ := if r.pos = r.slots.length then 0 else r.pos

theorem next_lt (r : Ring α) : r.next < r.slots.length := by
  have hpos := List.length_pos_iff.2 r.nonempty
  have hle := r.pos_le
  unfold next
  split_ifs <;> omega

/-- What the next push overwrites. -/
def oldest (r : Ring α) : α := r.slots.get ⟨r.next, r.next_lt⟩

theorem getElem?_next (r : Ring α) : r.slots[r.next]? = some r.oldest :=
  List.getElem?_eq_getElem r.next_lt

/-- An element is written to the next slot. -/
def push (r : Ring α) (x : α) : Ring α where
  slots := r.slots.set r.next x
  pos := r.next + 1
  pos_le := by
    rw [List.length_set]
    exact r.next_lt
  nonempty := by simpa using r.nonempty

/-- Elements are written one after the other. -/
def pushAll (r : Ring α) (xs : List α) : Ring α := xs.foldl push r

@[simp] theorem pushAll_nil (r : Ring α) : r.pushAll [] = r := rfl

@[simp] theorem pushAll_cons (r : Ring α) (x : α) (xs : List α) :
    r.pushAll (x :: xs) = (r.push x).pushAll xs := rfl

theorem pushAll_append (r : Ring α) (xs ys : List α) :
    r.pushAll (xs ++ ys) = (r.pushAll xs).pushAll ys := List.foldl_append

@[simp] theorem length_push (r : Ring α) (x : α) : (r.push x).slots.length = r.slots.length :=
  List.length_set

@[simp] theorem length_pushAll (xs : List α) :
    ∀ r : Ring α, (r.pushAll xs).slots.length = r.slots.length := by
  induction xs with
  | nil => exact fun r => rfl
  | cons x xs ih => exact fun r => (ih _).trans (length_push r x)

/-! ## Reading -/

/-- The slots from `p` on, and around. -/
def contentsFrom (r : Ring α) (p : ℕ) : List α := r.slots.drop p ++ r.slots.take p

/-- The slots in the order in which they are overwritten. -/
def contents (r : Ring α) : List α := r.contentsFrom r.pos

@[simp] theorem length_contentsFrom (r : Ring α) (p : ℕ) :
    (r.contentsFrom p).length = r.slots.length := by
  rw [contentsFrom, List.length_append, List.length_drop, List.length_take]
  omega

theorem mem_contentsFrom (r : Ring α) (p : ℕ) {x : α} : x ∈ r.contentsFrom p ↔ x ∈ r.slots := by
  conv_rhs => rw [← List.take_append_drop p r.slots]
  rw [contentsFrom, List.mem_append, List.mem_append, or_comm]

theorem contentsFrom_eq_rotate (r : Ring α) {p : ℕ} (hp : p ≤ r.slots.length) :
    r.contentsFrom p = r.slots.rotate p :=
  (List.rotate_eq_drop_append_take hp).symm

/-- The end of the slots is as good a position as their beginning. -/
theorem contents_eq_next (r : Ring α) : r.contents = r.contentsFrom r.next := by
  unfold contents next
  split_ifs with h
  · simp [contentsFrom, h]
  · rfl

/-- A push drops what was pushed first. -/
theorem contents_push (r : Ring α) (x : α) : (r.push x).contents = r.contents.tail ++ [x] := by
  have hlt := r.next_lt
  rw [contents_eq_next r, contents, contentsFrom, contentsFrom, List.drop_eq_getElem_cons hlt]
  simp only [push, List.cons_append, List.tail_cons]
  rw [List.drop_set_of_lt (Nat.lt_succ_self _), List.take_succ_eq_append_getElem (by simpa using hlt),
    List.take_set_of_le le_rfl, List.getElem_set_self, List.append_assoc]

/-- **A ring is a queue** of fixed length. -/
theorem contents_pushAll (xs : List α) :
    ∀ r : Ring α, (r.pushAll xs).contents = (r.contents ++ xs).drop xs.length := by
  induction xs with
  | nil => intro r; simp
  | cons x xs ih =>
    intro r
    obtain ⟨y, ys, hys⟩ : ∃ y ys, r.contents = y :: ys :=
      List.exists_cons_of_length_pos (by
        rw [contents, length_contentsFrom]
        exact List.length_pos_iff.2 r.nonempty)
    rw [pushAll_cons, ih, contents_push, hys, List.length_cons]
    simp

/-! ## Positions -/

theorem pos_push_mod (r : Ring α) (x : α) :
    (r.push x).pos % r.slots.length = (r.pos + 1) % r.slots.length := by
  simp only [push, next]
  split_ifs with h
  · rw [h, Nat.zero_add, Nat.add_mod_left]
  · rfl

theorem pos_pushAll_mod (xs : List α) : ∀ r : Ring α,
    (r.pushAll xs).pos % r.slots.length = (r.pos + xs.length) % r.slots.length := by
  induction xs with
  | nil => exact fun r => rfl
  | cons x xs ih =>
    intro r
    have hstep := ih (r.push x)
    rw [length_push] at hstep
    rw [pushAll_cons, hstep, Nat.add_mod, pos_push_mod, ← Nat.add_mod, List.length_cons,
      Nat.add_assoc, Nat.add_comm 1]

/-- **Read from an earlier position**, a ring begins with what was pushed since. -/
theorem contentsFrom_pushAll (r : Ring α) {xs : List α} (hxs : xs.length ≤ r.slots.length) :
    (r.pushAll xs).contentsFrom r.pos = xs ++ r.contents.drop xs.length := by
  set r' := r.pushAll xs with hr'
  have hlen : r'.slots.length = r.slots.length := length_pushAll xs r
  have hcontents : r'.slots.rotate r'.pos = r.contents.drop xs.length ++ xs := by
    rw [← contentsFrom_eq_rotate r' r'.pos_le, ← contents, hr', contents_pushAll]
    exact List.drop_append_of_le_length (by rwa [contents, length_contentsFrom])
  have hdrop : (r.contents.drop xs.length).length = r.slots.length - xs.length := by
    rw [List.length_drop, contents, length_contentsFrom]
  have hpos : (r'.pos + (r.slots.length - xs.length)) % r.slots.length = r.pos % r.slots.length := by
    rw [Nat.add_mod, pos_pushAll_mod, ← Nat.add_mod, Nat.add_assoc, Nat.add_sub_cancel' hxs,
      Nat.add_mod_right]
  calc r'.contentsFrom r.pos
      = r'.slots.rotate (r'.pos + (r.slots.length - xs.length)) := by
        rw [contentsFrom_eq_rotate r' (hlen ▸ r.pos_le), ← List.rotate_mod, hlen, ← hpos, ← hlen,
          List.rotate_mod, hlen]
    _ = (r.contents.drop xs.length ++ xs).rotate (r.slots.length - xs.length) := by
        rw [← List.rotate_rotate, hcontents]
    _ = xs ++ r.contents.drop xs.length := by
        rw [← hdrop, List.rotate_append_length_eq]

/-- After a whole turn nothing old is left. -/
theorem mem_of_mem_pushAll (r : Ring α) {xs : List α} (hxs : r.slots.length ≤ xs.length) {x : α}
    (hx : x ∈ (r.pushAll xs).slots) : x ∈ xs := by
  have hmem := (mem_contentsFrom (r.pushAll xs) (r.pushAll xs).pos).2 hx
  rw [← contents, contents_pushAll, List.drop_append, List.drop_of_length_le
    (by rwa [contents, length_contentsFrom]), List.nil_append] at hmem
  exact List.mem_of_mem_drop hmem

/-! ## Fresh rings -/

/-- A ring before the first push. -/
def fresh (slots : List α) (h : slots ≠ []) : Ring α := ⟨slots, 0, Nat.zero_le _, h⟩

section
variable {slots : List α} (h : slots ≠ [])

@[simp] theorem contents_fresh : (fresh slots h).contents = slots := by
  simp [contents, contentsFrom, fresh]

/-- Until the ring is full, what was pushed is at its beginning. -/
theorem slots_fresh {xs : List α} (hxs : xs.length ≤ slots.length) :
    ((fresh slots h).pushAll xs).slots = xs ++ slots.drop xs.length ∧
      ((fresh slots h).pushAll xs).pos = xs.length := by
  constructor
  · have hread := contentsFrom_pushAll (fresh slots h) hxs
    rw [contents_fresh] at hread
    simpa [contentsFrom, fresh] using hread
  · induction xs using List.reverseRecOn with
    | nil => rfl
    | append_singleton xs x ih =>
      rw [List.length_append, List.length_singleton] at hxs ⊢
      have hpos := ih (by omega)
      have hlen : ((fresh slots h).pushAll xs).slots.length = slots.length := length_pushAll xs _
      simp only [pushAll_append, pushAll_cons, pushAll_nil, push, next, hpos, hlen]
      rw [if_neg (by omega)]

end

end Ring

end Funtrace
