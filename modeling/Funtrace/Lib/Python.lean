/-
  Strings as Python's standard library takes them apart.

  * `isPySpace`, with `strip` and `words`: `str.strip` and `str.split`;
  * `isIn`: `in`;
  * `intHex`: `int` of a number in base 16, which reads back what `hexWord` prints
    (`intHex_hexWord`);
  * `formatHex`: `%` with a number in base 16.
-/
import Mathlib.Data.Int.Notation
import Mathlib.Data.List.SplitOn
import Funtrace.Lib.Hex
import Funtrace.Lib.Words

namespace Funtrace

/-- `str.isspace`, of one character. -/
def isPySpace (c : Char) : Bool := isWhitespace c || (0x1c ≤ c.val && c.val ≤ 0x1f)

/-- `pat in s`. -/
def isIn (pat s : List Char) : Bool := decide (pat <:+: s)

/-- `int(s, 16)` of a word: a sign, `0x` and digits, between which single underscores may stand.
    `none` is a `ValueError`. -/
def intHex (s : List Char) : Option ℤ :=
  let (negative, s) := match s with
    | '-' :: s => (true, s)
    | '+' :: s => (false, s)
    | s => (false, s)
  let s := match s with
    | '0' :: 'x' :: '_' :: s | '0' :: 'X' :: '_' :: s => s
    | '0' :: 'x' :: s | '0' :: 'X' :: s => s
    | s => s
  let digits := s.splitOn '_'
  if digits.any (·.isEmpty) then none
  else (readHex 0 digits.flatten).map fun n => if negative then -n else n

/-- `'%x' % n`, with zeros after the sign up to a width. -/
def formatHex (width : ℕ) (n : ℤ) : List Char :=
  let sign := if n < 0 then ['-'] else []
  sign ++ (Nat.toDigits 16 n.natAbs).leftpad (width - sign.length) '0'

/-- `hex(n)`. -/
def hexWord (n : ℕ) : List Char := '0' :: 'x' :: Nat.toDigits 16 n

/-- **What is printed is read back.** -/
theorem intHex_hexWord (n : ℕ) : intHex (hexWord n) = some (n : ℤ) := by
  have hread := readHex_toDigits n
  have hnot : '_' ∉ Nat.toDigits 16 n := fun hmem =>
    absurd (isSome_of_readHex hread _ hmem) (by decide)
  have hne : Nat.toDigits 16 n ≠ [] := Nat.toDigits_ne_nil
  unfold intHex hexWord
  generalize Nat.toDigits 16 n = s at hread hnot hne
  have hsplit : s.splitOn '_' = [s] :=
    List.splitOnP_eq_singleton fun c hc => by simpa using ne_of_mem_of_not_mem hc hnot
  cases s with
  | nil => exact absurd rfl hne
  | cons c s =>
    have hc : c ≠ '_' := fun h => hnot (h ▸ List.mem_cons_self)
    simp [hc, hsplit, hread]

end Funtrace
