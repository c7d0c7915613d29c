/-
  Decimal numbers, and rounding to a number of decimal places.

  A number and its duration may be rounded separately: what they add up to is less than
  a unit of the last place below the exact sum, and at most one above it
  (`round_add_bounds`).  So numbers that are two units apart stay in order
  (`lt_of_rounded`).
-/
import Mathlib.Algebra.Order.Round
import Mathlib.Data.List.TakeWhile
import Mathlib.Data.Rat.Floor
import Mathlib.Tactic.FieldSimp
import Mathlib.Tactic.Linarith
import Mathlib.Tactic.Positivity

namespace Funtrace

/-! ## Digits -/

/-- The number that digits after the decimal point stand for. -/
def fractionValue (ds : List Char) : ℚ := (Nat.ofDigitChars 10 ds 0 : ℚ) / 10 ^ ds.length

/-- The number that digits stand for, with or without a decimal point. -/
def unsignedValue (ds : List Char) : ℚ :=
  Nat.ofDigitChars 10 (ds.takeWhile (· != '.')) 0 + fractionValue (ds.dropWhile (· != '.')).tail

/-- The number that a decimal stands for. -/
def decimalValue (s : String) : ℚ :=
  match s.toList with
  | '-' :: ds => -unsignedValue ds
  | ds => unsignedValue ds

@[simp] theorem fractionValue_nil : fractionValue [] = 0 := by simp [fractionValue]

theorem fractionValue_cons {d : ℕ} (hd : d < 10) (ds : List Char) :
    fractionValue (d.digitChar :: ds) = (d + fractionValue ds) / 10 := by
  have hpow : (10 : ℚ) ^ ds.length ≠ 0 := by positivity
  rw [fractionValue, fractionValue, Nat.ofDigitChars_cons_digitChar_of_lt_ten hd,
    Nat.ofDigitChars_eq_ofDigitChars_zero, List.length_cons]
  push_cast
  field_simp
  ring

/-- Digits have no decimal point among them. -/
theorem ne_point_of_isDigit {c : Char} (h : c.isDigit) : (c != '.') = true := by
  have hne : c ≠ '.' := by
    rintro rfl
    exact absurd h (by decide)
  simpa using hne

theorem unsignedValue_digits {ds : List Char} (h : ∀ c ∈ ds, c.isDigit) :
    unsignedValue ds = Nat.ofDigitChars 10 ds 0 := by
  have hall : ∀ c ∈ ds, (c != '.') = true := fun c hc => ne_point_of_isDigit (h c hc)
  rw [unsignedValue, List.takeWhile_eq_self_iff.2 hall, List.dropWhile_eq_nil_iff.2 hall]
  simp

theorem unsignedValue_point {ds fs : List Char} (h : ∀ c ∈ ds, c.isDigit) :
    unsignedValue (ds ++ '.' :: fs) = Nat.ofDigitChars 10 ds 0 + fractionValue fs := by
  have hall : ∀ c ∈ ds, (c != '.') = true := fun c hc => ne_point_of_isDigit (h c hc)
  rw [unsignedValue, List.takeWhile_append_of_pos hall, List.dropWhile_append_of_pos hall]
  simp

theorem decimalValue_neg {s : String} {ds : List Char} (h : s.toList = '-' :: ds) :
    decimalValue s = -unsignedValue ds := by
  simp only [decimalValue, h]

theorem decimalValue_of_isDigit {s : String} {c : Char} {ds : List Char} (h : s.toList = c :: ds)
    (hc : c.isDigit) : decimalValue s = unsignedValue (c :: ds) := by
  have hne : c ≠ '-' := by
    rintro rfl
    exact absurd hc (by decide)
  unfold decimalValue
  rw [h]
  split
  · next ds' hds =>
    exact absurd (List.cons.inj hds).1 hne
  · rfl

/-! ## Rounding -/

/-- A number rounded to `k` decimal places, halves away from zero. -/
def roundTo (k : ℕ) (x : ℚ) : ℚ :=
  ((if x < 0 then -round (-x * 10 ^ k) else round (x * 10 ^ k) : ℤ) : ℚ) / 10 ^ k

variable {k : ℕ} {x y : ℚ}

theorem roundTo_of_nonneg (h : 0 ≤ x) : roundTo k x = round (x * 10 ^ k) / 10 ^ k := by
  rw [roundTo, if_neg (not_lt.2 h)]

theorem roundTo_of_neg (h : x < 0) : roundTo k x = -roundTo k (-x) := by
  rw [roundTo, if_pos h, roundTo_of_nonneg (by linarith)]
  push_cast
  ring

theorem roundTo_bounds (h : 0 ≤ x) :
    x - 1 / 2 / 10 ^ k < roundTo k x ∧ roundTo k x ≤ x + 1 / 2 / 10 ^ k := by
  have hpow : (0 : ℚ) < 10 ^ k := by positivity
  obtain ⟨hlow, hhigh⟩ := round_eq_iff.1 (rfl : round (x * 10 ^ k) = round (x * 10 ^ k))
  rw [roundTo_of_nonneg h]
  constructor
  · rw [lt_div_iff₀ hpow, sub_mul, div_mul_cancel₀ _ hpow.ne']
    linarith
  · rw [div_le_iff₀ hpow, add_mul, div_mul_cancel₀ _ hpow.ne']
    linarith

/-- Rounding is off by half a unit at most. -/
theorem abs_roundTo_sub_le (k : ℕ) (x : ℚ) : |roundTo k x - x| ≤ 1 / 2 / 10 ^ k := by
  rw [abs_le]
  rcases lt_or_ge x 0 with h | h
  · obtain ⟨hlow, hhigh⟩ := roundTo_bounds (k := k) (x := -x) (by linarith)
    rw [roundTo_of_neg h]
    constructor <;> linarith
  · obtain ⟨hlow, hhigh⟩ := roundTo_bounds (k := k) h
    constructor <;> linarith

/-- `y` is the multiple of the last place that is nearest to `x`, and of two equally near ones
    the one further from zero. -/
structure Nearest (k : ℕ) (x y : ℚ) : Prop where
  multiple : ∃ z : ℤ, y = z / 10 ^ k
  nearest : ∀ z : ℤ, |y - x| ≤ |z / 10 ^ k - x|
  away : ∀ z : ℤ, |z / 10 ^ k - x| = |y - x| → |(z / 10 ^ k : ℚ)| ≤ |y|

theorem Nearest.neg (h : Nearest k x y) : Nearest k (-x) (-y) := by
  have hflip (z : ℤ) : |(z / 10 ^ k : ℚ) - -x| = |((-z : ℤ) : ℚ) / 10 ^ k - x| := by
    rw [← abs_neg]
    congr 1
    push_cast
    ring
  have hback : |-y - -x| = |y - x| := by
    rw [← abs_neg]
    congr 1
    ring
  refine ⟨?_, fun z => ?_, fun z hz => ?_⟩
  · obtain ⟨z, rfl⟩ := h.multiple
    exact ⟨-z, by push_cast; ring⟩
  · rw [hflip, hback]
    exact h.nearest _
  · rw [hflip, hback] at hz
    have haway := h.away _ hz
    push_cast at haway
    rwa [neg_div, abs_neg, ← abs_neg y] at haway

/-- **Rounding** takes the nearest multiple, halves away from zero. -/
theorem nearest_roundTo (k : ℕ) (x : ℚ) : Nearest k x (roundTo k x) := by
  wlog hx : 0 ≤ x generalizing x
  · have hneg := (this (-x) (by linarith)).neg
    rwa [neg_neg, ← roundTo_of_neg (not_le.1 hx)] at hneg
  have hpow : (0 : ℚ) < 10 ^ k := by positivity
  have hscale (z : ℚ) : |z / 10 ^ k - x| = |x * 10 ^ k - z| / 10 ^ k := by
    rw [← abs_of_pos hpow, ← abs_div, abs_of_pos hpow, ← abs_neg]
    congr 1
    field_simp
    ring
  obtain ⟨hlow, hhigh⟩ := round_eq_iff.1 (rfl : round (x * 10 ^ k) = round (x * 10 ^ k))
  have hX : 0 ≤ x * 10 ^ k := by positivity
  rw [roundTo_of_nonneg hx]
  refine ⟨⟨_, rfl⟩, fun z => ?_, fun z hz => ?_⟩
  · rw [hscale, hscale]
    exact div_le_div_of_nonneg_right (round_le _ z) hpow.le
  · rw [hscale, hscale, div_left_inj' hpow.ne'] at hz
    rw [abs_div, abs_div]
    refine div_le_div_of_nonneg_right ?_ (abs_nonneg _)
    -- two candidates lie on both sides of the number; the upper one is the round one
    rcases abs_eq_abs.1 hz with hsame | hother
    · rw [show (z : ℚ) = round (x * 10 ^ k) by linarith]
    · have hle : (z : ℚ) ≤ round (x * 10 ^ k) := by
        by_contra hlt
        have hsucc : (round (x * 10 ^ k) : ℚ) + 1 ≤ z := by
          exact_mod_cast Int.add_one_le_iff.2 (by exact_mod_cast not_le.1 hlt)
        linarith
      have hnonneg : (0 : ℚ) ≤ round (x * 10 ^ k) := by linarith
      rw [abs_of_nonneg hnonneg, abs_le]
      constructor <;> linarith

theorem roundTo_mono (k : ℕ) (h : x ≤ y) : roundTo k x ≤ roundTo k y := by
  have hpow : (0 : ℚ) < 10 ^ k := by positivity
  have hround {a b : ℚ} (ha : 0 ≤ a) (hab : a ≤ b) : roundTo k a ≤ roundTo k b := by
    have hfloor : round (a * 10 ^ k) ≤ round (b * 10 ^ k) := by
      rw [round_eq, round_eq]
      exact Int.floor_mono (by have := mul_le_mul_of_nonneg_right hab hpow.le; linarith)
    rw [roundTo_of_nonneg ha, roundTo_of_nonneg (ha.trans hab)]
    exact div_le_div_of_nonneg_right (by exact_mod_cast hfloor) hpow.le
  have hsign {a : ℚ} (ha : 0 ≤ a) : 0 ≤ roundTo k a := by
    have hzero : roundTo k 0 = 0 := by rw [roundTo_of_nonneg le_rfl]; simp
    have hle := hround le_rfl ha
    rwa [hzero] at hle
  rcases lt_or_ge x 0 with hx | hx
  · rw [roundTo_of_neg hx]
    rcases lt_or_ge y 0 with hy | hy
    · rw [roundTo_of_neg hy]
      exact neg_le_neg (hround (by linarith) (by linarith))
    · exact (neg_nonpos.2 (hsign (by linarith))).trans (hsign hy)
  · exact hround hx h

/-- What is rounded off a number by itself, in units of the last place. -/
def Rounded (k : ℕ) (x x' : ℚ) : Prop := x - 1 / 10 ^ k < x' ∧ x' ≤ x + 1 / 10 ^ k

theorem rounded_roundTo (k : ℕ) (x : ℚ) : Rounded k x (roundTo k x) := by
  have hpow : (0 : ℚ) < 1 / 10 ^ k := by positivity
  have hhalf : (1 : ℚ) / 2 / 10 ^ k = 1 / 10 ^ k / 2 := by ring
  obtain ⟨hlow, hhigh⟩ := abs_le.1 (abs_roundTo_sub_le k x)
  constructor <;> linarith

/-- **Two numbers rounded separately**: the errors add up. -/
theorem rounded_add (k : ℕ) (x : ℚ) {d : ℚ} (hd : 0 ≤ d) :
    Rounded k (x + d) (roundTo k x + roundTo k d) := by
  have hhalf : (1 : ℚ) / 2 / 10 ^ k = 1 / 10 ^ k / 2 := by ring
  obtain ⟨hlow, hhigh⟩ := abs_le.1 (abs_roundTo_sub_le k x)
  obtain ⟨hlow', hhigh'⟩ := roundTo_bounds (k := k) hd
  constructor <;> linarith

/-- **Numbers two units apart** stay in order. -/
theorem lt_of_rounded {x' y' : ℚ} (hx : Rounded k x x') (hy : Rounded k y y')
    (h : x + 2 / 10 ^ k ≤ y) : x' < y' := by
  have htwo : (2 : ℚ) / 10 ^ k = 1 / 10 ^ k + 1 / 10 ^ k := by ring
  linarith [hx.2, hy.1]

/-- A number in another unit is rounded to the same value. -/
theorem roundTo_div (j k : ℕ) (x : ℚ) : roundTo (j + k) (x / 10 ^ j) * 10 ^ j = roundTo k x := by
  have hj : (0 : ℚ) < 10 ^ j := by positivity
  have hk : (0 : ℚ) < 10 ^ k := by positivity
  have hscale : ∀ z : ℚ, z / 10 ^ j * 10 ^ (j + k) = z * 10 ^ k := fun z => by
    rw [pow_add]
    field_simp
  have hneg : x / 10 ^ j < 0 ↔ x < 0 := by
    rw [div_lt_iff₀ hj, zero_mul]
  unfold roundTo
  simp only [hneg, hscale, ← neg_div]
  rw [pow_add]
  field_simp

end Funtrace
