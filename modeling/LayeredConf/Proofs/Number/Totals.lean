import LayeredConf.Proofs.Number.Integers

/-!
# Totals

A total of natural numbers, each times a unit, is exact as long as it is below `2^53`.  When it is
not, the double that comes out is no such integer either, however often it was rounded on the way.

    Large x         `x` is at least `2^53`
    StandsFor x n   `x` is `n`, or both are at least `2^53`
    StandsFor.add, StandsFor.mul
    StandsFor.isExactInteger_iff
-/

namespace LayeredConf.Number

/-- At least `2^53`. -/
def Large (x : Number) : Prop :=
  x = .infinite false ∨ x.isFinite = true ∧ x.isNegative = false ∧ (mantissaBound : Rat) ≤ x.toRat

/-- It is the natural number, or both are at least `2^53`. -/
def StandsFor (x : Number) (n : Nat) : Prop :=
  n < mantissaBound ∧ x = ofNat n ∨ mantissaBound ≤ n ∧ x.Large

/-! ## Large numbers -/

/-- Nothing is rounded across `2^53`. -/
theorem large_round {q : Rat} (hq : (mantissaBound : Rat) ≤ q) : (round false q).Large := by
  rcases round_cases false q with hfinite | hinfinite
  · refine .inr ⟨hfinite, isNegative_round _ _, ?_⟩
    have hpos : 0 < q := lt_of_lt_of_le (by norm_num) hq
    obtain ⟨hlow, hhigh⟩ := binaryExponent_spec hpos
    have hexp : 53 < binaryExponent q + 1 := by
      refine (zpow_lt_zpow_iff_right₀ (a := (2 : Rat)) (by norm_num)).mp (lt_of_le_of_lt ?_ hhigh)
      exact_mod_cast hq
    have he : max (binaryExponent q - 52) (-1074) = binaryExponent q - 52 := by omega
    have hfull := fullMantissa_le hpos.le hlow rfl
    have hstep : (2 : Rat) ^ (1 : Int) ≤ 2 ^ (binaryExponent q - 52) :=
      zpow_le_zpow_right₀ (by norm_num) (by omega)
    rw [toRat_round hpos.ne' hfinite, he, scaled]
    calc (mantissaBound : Rat) = (fullMantissa : Nat) * 2 ^ (1 : Int) := by norm_num
      _ ≤ _ := mul_le_mul (by exact_mod_cast hfull) hstep (by positivity) (by positivity)
  · exact .inl hinfinite

theorem isZero_of_large {x : Number} (hx : x.Large) : x.isZero = false := by
  obtain rfl | ⟨-, -, hbound⟩ := hx
  · rfl
  · have hne : x.toRat ≠ 0 := (lt_of_lt_of_le (by norm_num) hbound).ne'
    rw [isZero, decide_eq_false hne, Bool.and_false]

theorem isExactInteger_of_large {x : Number} (hx : x.Large) : x.isExactInteger = false := by
  obtain rfl | ⟨hfinite, -, hbound⟩ := hx
  · rfl
  · have hint : x.toInt? = if x.toRat.den = 1 then some x.toRat.num else none := by
      cases x with
      | finite => rfl
      | nan | infinite => cases hfinite
    rw [isExactInteger, hint]
    by_cases hden : x.toRat.den = 1
    · rw [if_pos hden]
      have hnum : (mantissaBound : Int) ≤ x.toRat.num := by
        rw [← (Rat.den_eq_one_iff _).mp hden] at hbound
        exact_mod_cast hbound
      exact decide_eq_false (by omega)
    · rw [if_neg hden]

protected theorem add_comm (x y : Number) : x + y = y + x := by
  cases x with
  | nan => cases y <;> rfl
  | infinite s => cases y with
    | infinite t => cases s <;> cases t <;> rfl
    | nan | finite => rfl
  | finite s m e h => cases y with
    | finite t m' e' h' =>
      rw [add_of_finite rfl rfl, add_of_finite rfl rfl, add_comm (toRat _), Bool.and_comm]
    | nan | infinite => rfl

/-- What is not negative may be added to a large number. -/
theorem Large.add {x y : Number} (hx : x.Large)
    (hy : y = .infinite false ∨ y.isFinite = true ∧ 0 ≤ y.toRat) : (x + y).Large := by
  obtain rfl | ⟨hfinite, -, hbound⟩ := hx
  · obtain rfl | ⟨hfinite', -⟩ := hy
    · exact .inl rfl
    · cases y with
      | finite => exact .inl rfl
      | nan | infinite => cases hfinite'
  · obtain rfl | ⟨hfinite', hnonneg⟩ := hy
    · cases x with
      | finite => exact .inl rfl
      | nan | infinite => cases hfinite
    · have hsum : (mantissaBound : Rat) ≤ x.toRat + y.toRat :=
        hbound.trans (le_add_of_nonneg_right hnonneg)
      have hpos : 0 < x.toRat + y.toRat := lt_of_lt_of_le (by norm_num) hsum
      rw [add_of_finite hfinite hfinite', if_neg hpos.ne', ofRat_of_nonneg hpos.le]
      exact large_round hsum

theorem Large.mul {x : Number} {b : Nat} (hx : x.Large) (hb : b < mantissaBound) (hpos : 0 < b) :
    (x * ofNat b).Large := by
  have hfinite' := isFinite_ofNat hb
  obtain rfl | ⟨hfinite, hsign, hbound⟩ := hx
  · have hinfinite : infinite false * ofNat b =
        if (ofNat b).isZero then nan else infinite (false != (ofNat b).isNegative) := by
      cases hvalue : ofNat b with
      | finite => rfl
      | nan | infinite => rw [hvalue] at hfinite'; cases hfinite'
    rw [hinfinite, isZero_ofNat_of_pos hb hpos, isNegative_ofNat]
    exact .inl rfl
  · have hone : (1 : Rat) ≤ b := by exact_mod_cast hpos
    have hproduct : (mantissaBound : Rat) ≤ x.toRat * b := by
      calc (mantissaBound : Rat) ≤ x.toRat := hbound
        _ ≤ x.toRat * b := le_mul_of_one_le_right (le_trans (by norm_num) hbound) hone
    rw [mul_of_finite hfinite hfinite', hsign, isNegative_ofNat, toRat_ofNat hb,
      Rat.abs_of_nonneg (le_trans (by norm_num) hproduct)]
    exact large_round hproduct

/-! ## Totals -/

theorem standsFor_ofNat (n : Nat) : (ofNat n).StandsFor n := by
  rcases Nat.lt_or_ge n mantissaBound with hn | hn
  · exact .inl ⟨hn, rfl⟩
  · exact .inr ⟨hn, large_round (by exact_mod_cast hn)⟩

namespace StandsFor

variable {x y : Number} {m n : Nat}

theorem eq_ofNat (h : x.StandsFor n) (hn : n < mantissaBound) : x = ofNat n :=
  h.elim And.right fun h => absurd h.1 (not_le.mpr hn)

/-- No other number is stood for by a double below `2^53`. -/
theorem eq_of_ofNat (h : (ofNat m).StandsFor n) (hm : m < mantissaBound) : n = m := by
  obtain ⟨hn, heq⟩ | ⟨-, hlarge⟩ := h
  · exact (ofNat_injective hm hn heq).symm
  · have hexact := isExactInteger_ofNat hm
    rw [isExactInteger_of_large hlarge] at hexact
    cases hexact

theorem nonneg (h : x.StandsFor n) : x = .infinite false ∨ x.isFinite = true ∧ 0 ≤ x.toRat := by
  obtain ⟨hn, rfl⟩ | ⟨-, hlarge⟩ := h
  · exact .inr ⟨isFinite_ofNat hn, by rw [toRat_ofNat hn]; positivity⟩
  · exact hlarge.imp_right fun h => ⟨h.1, le_trans (by norm_num) h.2.2⟩

theorem isZero_iff (h : x.StandsFor n) : x.isZero = true ↔ n = 0 := by
  obtain ⟨hn, rfl⟩ | ⟨hn, hlarge⟩ := h
  · rw [isZero_ofNat hn, decide_eq_true_iff]
  · rw [isZero_of_large hlarge]
    exact iff_of_false Bool.false_ne_true (lt_of_lt_of_le (by decide) hn).ne'

/-- **A total is an exact integer just when it is below `2^53`.** -/
theorem isExactInteger_iff (h : x.StandsFor n) : x.isExactInteger = true ↔ n < mantissaBound := by
  obtain ⟨hn, rfl⟩ | ⟨hn, hlarge⟩ := h
  · exact iff_of_true (isExactInteger_ofNat hn) hn
  · rw [isExactInteger_of_large hlarge]
    exact iff_of_false Bool.false_ne_true (not_lt.mpr hn)

theorem add (hx : x.StandsFor m) (hy : y.StandsFor n) : (x + y).StandsFor (m + n) := by
  have hx' := hx.nonneg
  have hy' := hy.nonneg
  obtain ⟨hm, rfl⟩ | ⟨hm, hlarge⟩ := hx
  · obtain ⟨hn, rfl⟩ | ⟨hn, hlarge⟩ := hy
    · rw [ofNat_add_ofNat hm hn]
      exact standsFor_ofNat _
    · rw [Number.add_comm]
      exact .inr ⟨Nat.le_add_left_of_le hn, hlarge.add hx'⟩
  · exact .inr ⟨Nat.le_add_right_of_le hm, hlarge.add hy'⟩

/-- The second factor is a unit, which is exact. -/
theorem mul (hx : x.StandsFor n) {b : Nat} (hb : b < mantissaBound) (hpos : 0 < b) :
    (x * ofNat b).StandsFor (n * b) := by
  obtain ⟨hn, rfl⟩ | ⟨hn, hlarge⟩ := hx
  · rw [ofNat_mul_ofNat hn hb]
    exact standsFor_ofNat _
  · exact .inr ⟨hn.trans (Nat.le_mul_of_pos_right n hpos), hlarge.mul hb hpos⟩

end StandsFor

end LayeredConf.Number
