/-
  Numbers in base 16.

  `readHex` reads digits of both cases, and so what `Nat.toDigits` prints
  (`readHex_toDigits`).
-/
import Mathlib.Data.List.Basic
import Mathlib.Tactic.IntervalCases

namespace Funtrace

/-- The value of a digit. -/
def hexDigit? (c : Char) : Option ℕ :=
  if c.isDigit then some (c.toNat - '0'.toNat)
  else if 'a' ≤ c ∧ c ≤ 'f' then some (c.toNat - 'a'.toNat + 10)
  else if 'A' ≤ c ∧ c ≤ 'F' then some (c.toNat - 'A'.toNat + 10)
  else none

/-- The number that the digits of `n` and some more digits make. -/
def readHex : ℕ → List Char → Option ℕ
  | n, [] => some n
  | n, c :: cs => (hexDigit? c).bind fun d => readHex (n * 16 + d) cs

theorem readHex_append (s s' : List Char) (n : ℕ) :
    readHex n (s ++ s') = (readHex n s).bind (readHex · s') := by
  induction s generalizing n with
  | nil => rfl
  | cons c s ih =>
    rw [List.cons_append, readHex, readHex]
    cases hexDigit? c with
    | none => rfl
    | some d => exact ih _

theorem hexDigit_digitChar {d : ℕ} (hd : d < 16) : hexDigit? d.digitChar = some d := by
  interval_cases d <;> decide

/-- **What is printed is read back.** -/
theorem readHex_toDigits (n : ℕ) : readHex 0 (Nat.toDigits 16 n) = some n := by
  induction n using Nat.strong_induction_on with
  | _ n ih =>
    by_cases hlt : n < 16
    · rw [Nat.toDigits_of_lt_base hlt, readHex, hexDigit_digitChar hlt]
      simp [readHex]
    · have hdigit : n % 16 < 16 := Nat.mod_lt _ (by decide)
      rw [Nat.toDigits_of_base_le (by decide) (Nat.not_lt.1 hlt), readHex_append,
        ih _ (Nat.div_lt_self (by omega) (by decide)), Option.bind_some, readHex,
        hexDigit_digitChar hdigit, Option.bind_some, readHex]
      exact congrArg some (Nat.div_add_mod' n 16)

/-- What is read has digits only. -/
theorem isSome_of_readHex {s : List Char} {n k : ℕ} (h : readHex n s = some k) :
    ∀ c ∈ s, (hexDigit? c).isSome := by
  induction s generalizing n with
  | nil => simp
  | cons c s ih =>
    obtain ⟨d, hd, hs⟩ := Option.bind_eq_some_iff.1 h
    exact List.forall_mem_cons.2 ⟨by rw [hd]; rfl, ih hs⟩

end Funtrace
