/-
  Little-endian numbers, and arrays of records of a fixed size.

  `leBytes` and `ofLeBytes` convert between numbers and bytes; `pieces` cuts bytes into
  records of one size, and gives the records back that were written one after the
  other (`pieces_flatMap`).
-/
import Mathlib.Algebra.Group.Nat.Defs
import Mathlib.Data.List.Basic

namespace Funtrace

/-! ## Numbers -/

/-- The lowest bytes of a number, the lowest first. -/
def leBytes : ℕ → ℕ → List UInt8
  | 0, _ => []
  | k + 1, n => UInt8.ofNat n :: leBytes k (n / 256)

/-- The number that some bytes make up. -/
def ofLeBytes : List UInt8 → ℕ
  | [] => 0
  | b :: bs => b.toNat + 256 * ofLeBytes bs

@[simp] theorem length_leBytes : ∀ k n, (leBytes k n).length = k
  | 0, _ => rfl
  | k + 1, n => by rw [leBytes, List.length_cons, length_leBytes]

theorem ofLeBytes_leBytes : ∀ k n, n < 256 ^ k → ofLeBytes (leBytes k n) = n
  | 0, n, h => by
    rw [Nat.pow_zero, Nat.lt_one_iff] at h
    rw [h]
    rfl
  | k + 1, n, h => by
    have hdiv : n / 256 < 256 ^ k := by
      rw [Nat.div_lt_iff_lt_mul (by decide), ← Nat.pow_succ]
      exact h
    rw [leBytes, ofLeBytes, ofLeBytes_leBytes k _ hdiv, UInt8.toNat_ofNat']
    exact Nat.mod_add_div n 256

theorem ofLeBytes_lt : ∀ bs : List UInt8, ofLeBytes bs < 256 ^ bs.length
  | [] => by decide
  | b :: bs => by
    have hb := b.toNat_lt
    have hbs := ofLeBytes_lt bs
    rw [ofLeBytes, List.length_cons, Nat.pow_succ]
    omega

theorem leBytes_ofLeBytes : ∀ bs : List UInt8, leBytes bs.length (ofLeBytes bs) = bs
  | [] => rfl
  | b :: bs => by
    have hb := b.toNat_lt
    have hdiv : (b.toNat + 256 * ofLeBytes bs) / 256 = ofLeBytes bs := by omega
    have hmod : UInt8.ofNat (b.toNat + 256 * ofLeBytes bs) = b := by
      rw [← UInt8.toNat_inj, UInt8.toNat_ofNat']
      omega
    rw [List.length_cons, leBytes, ofLeBytes, hdiv, hmod, leBytes_ofLeBytes bs]

/-- The bytes of a `uint64_t`, the lowest one first. -/
def u64Bytes (n : UInt64) : List UInt8 := leBytes 8 n.toNat

/-- `u64::from_ne_bytes`. -/
def u64OfBytes (bs : List UInt8) : UInt64 := UInt64.ofNat (ofLeBytes bs)

@[simp] theorem length_u64Bytes (n : UInt64) : (u64Bytes n).length = 8 := length_leBytes 8 _

@[simp] theorem u64OfBytes_u64Bytes (n : UInt64) : u64OfBytes (u64Bytes n) = n := by
  have hlt := n.toNat_lt
  rw [u64OfBytes, u64Bytes, ofLeBytes_leBytes 8 _ hlt, UInt64.ofNat_toNat]

/-! ## Records -/

section
variable {α β : Type}

/-- The records of `k` elements that a list consists of, without what is left over. -/
def pieces (k : ℕ) (l : List α) : List (List α) :=
  (List.range (l.length / k)).map fun i => (l.drop (k * i)).take k

theorem pieces_append {k : ℕ} {x l : List α} (hk : 0 < k) (hx : x.length = k) :
    pieces k (x ++ l) = x :: pieces k l := by
  have hlen : (x ++ l).length / k = l.length / k + 1 := by
    rw [List.length_append, hx, Nat.add_div_left _ hk]
  rw [pieces, hlen, List.range_succ_eq_map, List.map_cons, Nat.mul_zero, List.drop_zero, List.map_map]
  congr 1
  · rw [← hx, List.take_left]
  · refine List.map_congr_left fun i _ => ?_
    have hdrop : (x ++ l).drop (k * (i + 1)) = l.drop (k * i) := by
      rw [Nat.mul_succ, Nat.add_comm, ← List.drop_drop, List.drop_left' hx]
    rw [Function.comp_apply, Nat.succ_eq_add_one, hdrop]

/-- **Records that were written** one after the other are found again. -/
theorem pieces_flatMap {k : ℕ} (hk : 0 < k) {f : β → List α} (hf : ∀ x, (f x).length = k) :
    ∀ xs : List β, pieces k (xs.flatMap f) = xs.map f
  | [] => by rw [List.flatMap_nil, pieces, List.length_nil, Nat.zero_div]; rfl
  | x :: xs => by
    rw [List.flatMap_cons, pieces_append hk (hf x), pieces_flatMap hk hf xs, List.map_cons]

theorem length_flatMap_record {k : ℕ} {f : β → List α} (hf : ∀ x, (f x).length = k) (xs : List β) :
    (xs.flatMap f).length = k * xs.length := by
  induction xs with
  | nil => rfl
  | cons x xs ih =>
    rw [List.flatMap_cons, List.length_append, hf, ih, List.length_cons, Nat.mul_succ, Nat.add_comm]

/-- The records that lie wholly among the first elements, and how many of these are left over. -/
def wholeRecords (f : β → List α) : ℕ → List β → List β × ℕ
  | n, [] => ([], n)
  | n, x :: xs =>
    if (f x).length ≤ n then
      let r := wholeRecords f (n - (f x).length) xs
      (x :: r.1, r.2)
    else ([], n)

/-- **The first elements** are the whole records, and a part of the next one. -/
theorem wholeRecords_spec (f : β → List α) : ∀ (n : ℕ) (xs : List β),
    ∃ rest, xs = (wholeRecords f n xs).1 ++ rest ∧
      (xs.flatMap f).take n =
        (wholeRecords f n xs).1.flatMap f ++ (rest.flatMap f).take (wholeRecords f n xs).2 ∧
      ∀ x ∈ rest.head?, (wholeRecords f n xs).2 < (f x).length
  | n, [] => ⟨[], rfl, by simp [wholeRecords], by simp⟩
  | n, x :: xs => by
    unfold wholeRecords
    split_ifs with h
    · obtain ⟨rest, hxs, htake, hrest⟩ := wholeRecords_spec f (n - (f x).length) xs
      refine ⟨rest, congrArg (x :: ·) hxs, ?_, hrest⟩
      dsimp only
      rw [List.flatMap_cons, List.take_append, List.take_of_length_le h, htake, List.flatMap_cons,
        List.append_assoc]
    · refine ⟨x :: xs, rfl, rfl, ?_⟩
      rintro y ⟨⟩
      exact Nat.not_le.1 h

end

end Funtrace
