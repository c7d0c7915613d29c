/-
  The decimals that `rat2dec` prints.

  It rounds halves away from zero (`decimalValue_rat2dec`), and what it prints is a
  number of JSON (`isNumber_rat2dec`).
-/
import Funtrace.Lib.Decimal
import Funtrace.Lib.Json
import Funtrace.Viz.Ftrace

namespace Funtrace

theorem toList_toString_nat (n : ℕ) : (toString n).toList = Nat.toDigits 10 n := by
  rw [Nat.toString_eq_ofList_toDigits, String.toList_ofList]

/-- The digits after the point: each one divides ten times the remainder. -/
theorem decimalDigits_spec {D : ℕ} (hD : 0 < D) : ∀ (k r : ℕ), r < D →
    (∀ c ∈ (decimalDigits D k r).toList, c.isDigit) ∧
      fractionValue (decimalDigits D k r).toList = ((r * 10 ^ k / D : ℕ) : ℚ) / 10 ^ k
  | 0, r, hr => by
    rw [pow_zero, Nat.mul_one, Nat.div_eq_of_lt hr]
    simp [decimalDigits]
  | k + 1, r, hr => by
    obtain ⟨d, hd⟩ : ∃ d, r * 10 / D = d := ⟨_, rfl⟩
    obtain ⟨r', hr'⟩ : ∃ r', r * 10 % D = r' := ⟨_, rfl⟩
    have hd10 : d < 10 := by
      rw [← hd, Nat.div_lt_iff_lt_mul hD]
      omega
    have hdigit : d.digitChar.isDigit := by
      rw [Nat.isDigit_digitChar]
      exact decide_eq_true hd10
    have hsplit : r * 10 ^ (k + 1) / D = d * 10 ^ k + r' * 10 ^ k / D := by
      have hmul : r * 10 ^ (k + 1) = r' * 10 ^ k + D * (d * 10 ^ k) := by
        have hdiv := Nat.div_add_mod (r * 10) D
        rw [hd, hr'] at hdiv
        calc r * 10 ^ (k + 1) = (D * d + r') * 10 ^ k := by rw [hdiv]; ring
          _ = r' * 10 ^ k + D * (d * 10 ^ k) := by ring
      rw [hmul, Nat.add_mul_div_left _ _ hD, Nat.add_comm]
    have hcons : (decimalDigits D (k + 1) r).toList =
        d.digitChar :: (if r' = 0 then "" else decimalDigits D k r').toList := by
      simp only [decimalDigits, hd, hr']
      rw [String.toList_append, toList_toString_nat, Nat.toDigits_of_lt_base hd10]
      rfl
    have hrest : (∀ c ∈ (if r' = 0 then "" else decimalDigits D k r').toList, c.isDigit) ∧
        fractionValue (if r' = 0 then "" else decimalDigits D k r').toList =
          ((r' * 10 ^ k / D : ℕ) : ℚ) / 10 ^ k := by
      split_ifs with hzero
      · simp [hzero]
      · exact decimalDigits_spec hD k r' (hr' ▸ Nat.mod_lt _ hD)
    have hpow : (10 : ℚ) ^ k ≠ 0 := by positivity
    rw [hcons, fractionValue_cons hd10, hrest.2, hsplit]
    refine ⟨fun c hc => ?_, ?_⟩
    · rcases List.mem_cons.1 hc with rfl | hc
      exacts [hdigit, hrest.1 c hc]
    · push_cast
      rw [pow_succ]
      field_simp

/-- The digits that are printed for a number that is not negative. -/
theorem unsignedValue_digits_of {N D : ℕ} (hD : 0 < D) (k : ℕ) :
    unsignedValue (toString (N / D) ++
      if N % D = 0 then "" else "." ++ decimalDigits D k (N % D)).toList =
        ((N * 10 ^ k / D : ℕ) : ℚ) / 10 ^ k := by
  have hdigits : ∀ c ∈ (toString (N / D)).toList, c.isDigit := fun c hc => by
    rw [toList_toString_nat] at hc
    exact Nat.isDigit_of_mem_toDigits (by decide) (by decide) hc
  have hsplit : N * 10 ^ k / D = N / D * 10 ^ k + N % D * 10 ^ k / D := by
    have hmul : N * 10 ^ k = N % D * 10 ^ k + D * (N / D * 10 ^ k) := by
      calc N * 10 ^ k = (D * (N / D) + N % D) * 10 ^ k := by rw [Nat.div_add_mod]
        _ = N % D * 10 ^ k + D * (N / D * 10 ^ k) := by ring
    rw [hmul, Nat.add_mul_div_left _ _ hD, Nat.add_comm]
  have hpow : (10 : ℚ) ^ k ≠ 0 := by positivity
  have hwhole : (Nat.ofDigitChars 10 (toString (N / D)).toList 0 : ℚ) = (N / D : ℕ) := by
    rw [toList_toString_nat, Nat.ofDigitChars_ten_toDigits]
  rw [hsplit, String.toList_append]
  split_ifs with hzero
  · rw [String.toList_empty, List.append_nil, unsignedValue_digits hdigits, hwhole, hzero]
    simp
  · obtain ⟨-, hvalue⟩ := decimalDigits_spec hD k (N % D) (Nat.mod_lt _ hD)
    have hpoint : ("." ++ decimalDigits D k (N % D)).toList =
        '.' :: (decimalDigits D k (N % D)).toList := by
      rw [String.toList_append]
      rfl
    rw [hpoint, unsignedValue_point hdigits, hwhole, hvalue]
    push_cast
    field_simp

/-- What `rat2dec` prints: a sign, the whole part, and a fraction if there is one. -/
theorem toList_rat2dec (x : ℚ) (k : ℕ) : ∃ N D : ℕ, 0 < D ∧
    (N * 10 ^ k / D : ℕ) = round (|x| * 10 ^ k) ∧
    (rat2dec x k).toList = (if x < 0 then ['-'] else []) ++ (toString (N / D) ++
      if N % D = 0 then "" else "." ++ decimalDigits D k (N % D)).toList := by
  obtain ⟨q, hq⟩ : ∃ q : ℚ, |x| + 5 / 10 ^ (k + 1) = q := ⟨_, rfl⟩
  have hpos : 0 ≤ q.num := by
    rw [Rat.num_nonneg, ← hq]
    positivity
  refine ⟨q.num.toNat, q.den, q.den_pos, ?_, ?_⟩
  · -- what is cut off after `k` digits is what rounding drops
    have hfraction : q * 10 ^ k = ((q.num.toNat * 10 ^ k : ℕ) : ℚ) / q.den := by
      have hnum : ((q.num.toNat : ℕ) : ℚ) = q.num := by
        exact_mod_cast congrArg (Int.cast (R := ℚ)) (Int.toNat_of_nonneg hpos)
      push_cast
      rw [hnum, mul_div_right_comm, Rat.num_div_den]
    have hhalf : q * 10 ^ k = |x| * 10 ^ k + 1 / 2 := by
      rw [← hq, pow_succ]
      field_simp
      ring
    rw [round_eq, ← hhalf, hfraction, Rat.floor_natCast_div_natCast, Int.natCast_div]
  · simp only [rat2dec, hq, String.toList_append]
    split_ifs <;> simp

/-- **`rat2dec` prints a number rounded to some decimal places.** -/
theorem decimalValue_rat2dec (x : ℚ) (k : ℕ) : decimalValue (rat2dec x k) = roundTo k x := by
  obtain ⟨N, D, hD, hround, hlist⟩ := toList_rat2dec x k
  obtain ⟨text, htext⟩ : ∃ text : String, toString (N / D) ++
      (if N % D = 0 then "" else "." ++ decimalDigits D k (N % D)) = text := ⟨_, rfl⟩
  have hvalue : unsignedValue text.toList = roundTo k |x| := by
    rw [← htext, unsignedValue_digits_of hD, roundTo_of_nonneg (abs_nonneg x), ← hround,
      Int.cast_natCast]
  obtain ⟨c, ds, hcons⟩ := List.exists_cons_of_ne_nil (@Nat.toDigits_ne_nil (N / D) 10)
  have hc : c.isDigit := Nat.isDigit_of_mem_toDigits (by decide) (by decide)
    (hcons ▸ List.mem_cons_self)
  obtain ⟨ds', hdigits⟩ : ∃ ds', text.toList = c :: ds' := by
    rw [← htext, String.toList_append, toList_toString_nat, hcons]
    exact ⟨_, rfl⟩
  rw [htext] at hlist
  split_ifs at hlist with hneg
  · rw [List.singleton_append] at hlist
    rw [decimalValue_neg hlist, hvalue, abs_of_neg hneg, roundTo_of_neg hneg]
  · rw [List.nil_append] at hlist
    rw [decimalValue_of_isDigit (hlist.trans hdigits) hc, ← hdigits, hvalue,
      abs_of_nonneg (not_lt.1 hneg)]

/-- **It prints a JSON number**, if there are any decimal places. -/
theorem isNumber_rat2dec (x : ℚ) {k : ℕ} (hk : 0 < k) : Json.IsNumber (rat2dec x k) := by
  obtain ⟨N, D, hD, -, hlist⟩ := toList_rat2dec x k
  obtain ⟨k, rfl⟩ := Nat.exists_eq_succ_of_ne_zero hk.ne'
  refine ⟨if x < 0 then ['-'] else [], Nat.toDigits 10 (N / D),
    if N % D = 0 then [] else '.' :: (decimalDigits D (k + 1) (N % D)).toList, [], ?_, ?_,
    Json.isDigits_toDigits _, Json.head_toDigits _, ?_, Or.inl rfl⟩
  · rw [hlist, String.toList_append, toList_toString_nat]
    split_ifs <;> simp
  · split_ifs
    exacts [Or.inr rfl, Or.inl rfl]
  · split_ifs
    · exact Or.inl rfl
    · obtain ⟨hdigits, -⟩ := decimalDigits_spec hD (k + 1) (N % D) (Nat.mod_lt _ hD)
      refine Or.inr ⟨_, rfl, ?_, hdigits⟩
      intro hempty
      have hfirst := congrArg List.length hempty
      rw [decimalDigits, String.toList_append, toList_toString_nat, List.length_append,
        List.length_nil] at hfirst
      have hpos := @Nat.length_toDigits_pos 10 (N % D * 10 / D)
      omega

/-- **Exact printing.**  The decimal is the nearest multiple of the last place, halves away from
    zero; printing is monotone and off by at most half a unit. -/
theorem rat2dec_exact (r : ℚ) {d : ℕ} (hd : 1 ≤ d) (_hd : d ≤ 18) :
    Json.IsNumber (rat2dec r d) ∧ Nearest d r (decimalValue (rat2dec r d)) ∧
      |decimalValue (rat2dec r d) - r| ≤ 1 / 2 / 10 ^ d ∧
      ∀ r', r ≤ r' → decimalValue (rat2dec r d) ≤ decimalValue (rat2dec r' d) := by
  refine ⟨isNumber_rat2dec r hd, ?_, ?_, fun r' hr => ?_⟩
  · rw [decimalValue_rat2dec]
    exact nearest_roundTo d r
  · rw [decimalValue_rat2dec]
    exact abs_roundTo_sub_le d r
  · rw [decimalValue_rat2dec, decimalValue_rat2dec]
    exact roundTo_mono d hr

theorem rat2dec_exact_demo :
    Json.IsNumber (rat2dec (-1 / 32) 4) ∧ Nearest 4 (-1 / 32) (decimalValue (rat2dec (-1 / 32) 4)) ∧
      |decimalValue (rat2dec (-1 / 32) 4) - (-1 / 32)| ≤ 1 / 2 / 10 ^ 4 ∧
      ∀ r', -1 / 32 ≤ r' → decimalValue (rat2dec (-1 / 32) 4) ≤ decimalValue (rat2dec r' 4) :=
  rat2dec_exact (-1 / 32) (by decide) (by decide)

end Funtrace
