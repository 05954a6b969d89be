import LayeredConf.Number.Decimal
import Mathlib.Algebra.Order.Floor.Semiring
import Mathlib.Algebra.Order.Field.Power
import Mathlib.Data.Rat.Floor
import Mathlib.Tactic.FieldSimp
import Mathlib.Tactic.Linarith
import Mathlib.Tactic.NormNum

/-!
# Rounding

The exact value of a double is rounded to that double.  So a decimal that is a double's exact value
reads as it.

    binaryExponent_eq     the exponent of `q` is the `k` with `2^k ≤ q < 2^(k + 1)`
    round_scaled          round negative (scaled m e) is the double of mantissa `m` and exponent `e`
-/

namespace LayeredConf.Number

/-! ## The leading power of two -/

theorem binaryExponent_spec {q : Rat} (hq : 0 < q) :
    (2 : Rat) ^ binaryExponent q ≤ q ∧ q < (2 : Rat) ^ (binaryExponent q + 1) := by
  have hnum : q.num.natAbs ≠ 0 := Int.natAbs_ne_zero.mpr (Rat.num_pos.mpr hq).ne'
  have hden : (0 : Rat) < q.den := by exact_mod_cast q.den_pos
  have hval : q = q.num.natAbs / q.den := by
    have habs : ((q.num.natAbs : Int) : Rat) = q.num := by
      rw [Int.natAbs_of_nonneg (Rat.num_nonneg.mpr hq.le)]
    rw [← Int.cast_natCast, habs, Rat.num_div_den]
  have hp₁ : (2 : Rat) ^ q.num.natAbs.log2 ≤ q.num.natAbs := by
    exact_mod_cast Nat.log2_self_le hnum
  have hp₂ : (q.num.natAbs : Rat) < 2 ^ (q.num.natAbs.log2 + 1) := by
    exact_mod_cast Nat.lt_log2_self
  have hd₁ : (2 : Rat) ^ q.den.log2 ≤ q.den := by exact_mod_cast Nat.log2_self_le q.den_ne_zero
  have hd₂ : (q.den : Rat) < 2 ^ (q.den.log2 + 1) := by exact_mod_cast Nat.lt_log2_self
  have hquot (i j : Nat) : (2 : Rat) ^ ((i : Int) - j) = 2 ^ i / 2 ^ j := by
    rw [zpow_sub₀ (by norm_num), zpow_natCast, zpow_natCast]
  -- numerator and denominator each lie between two powers, so the quotient does up to a factor 2
  have hlow : (2 : Rat) ^ ((q.num.natAbs.log2 : Int) - q.den.log2 - 1) ≤ q := by
    have hexp : (q.num.natAbs.log2 : Int) - q.den.log2 - 1 =
        (q.num.natAbs.log2 : Int) - (q.den.log2 + 1 : Nat) := by omega
    rw [hexp, hquot]
    conv_rhs => rw [hval]
    exact div_le_div₀ (by positivity) hp₁ hden hd₂.le
  have hhigh : q < (2 : Rat) ^ ((q.num.natAbs.log2 : Int) - q.den.log2 + 1) := by
    have hexp : (q.num.natAbs.log2 : Int) - q.den.log2 + 1 =
        (q.num.natAbs.log2 + 1 : Nat) - (q.den.log2 : Int) := by omega
    rw [hexp, hquot]
    conv_lhs => rw [hval]
    exact div_lt_div₀ hp₂ hd₁ (by positivity) (by positivity)
  unfold binaryExponent
  dsimp only
  split
  · next h => exact ⟨h, hhigh⟩
  · next h =>
    refine ⟨hlow, ?_⟩
    rw [Int.sub_add_cancel]
    exact not_le.mp h

theorem binaryExponent_eq {q : Rat} {k : Int} (hlow : (2 : Rat) ^ k ≤ q)
    (hhigh : q < (2 : Rat) ^ (k + 1)) : binaryExponent q = k := by
  obtain ⟨hl, hh⟩ := binaryExponent_spec (lt_of_lt_of_le (by positivity) hlow)
  have h₁ := (zpow_lt_zpow_iff_right₀ (by norm_num)).mp (hl.trans_lt hhigh)
  have h₂ := (zpow_lt_zpow_iff_right₀ (by norm_num)).mp (hlow.trans_lt hh)
  omega

/-! ## Exact values -/

theorem nearestEven_natCast (n : Nat) : nearestEven n = n := by
  have hfloor : (n : Rat).floor.toNat = n := by
    rw [← Int.cast_natCast, Rat.floor_intCast, Int.toNat_natCast]
  unfold nearestEven
  dsimp only
  rw [hfloor, sub_self]
  exact if_pos (Or.inl (by norm_num))

theorem scaled_pos {m : Nat} (hm : m ≠ 0) (e : Int) : 0 < scaled m e := by
  have : (0 : Rat) < m := by exact_mod_cast Nat.pos_of_ne_zero hm
  unfold scaled
  positivity

/-- The exponent that a canonical mantissa is scaled by. -/
theorem max_binaryExponent_scaled {m : Nat} {e : Int} (h : Canonical m e) (hm : m ≠ 0) :
    max (binaryExponent (scaled m e) - 52) (-1074) = e := by
  obtain ⟨hbound, hleast, -, hfull⟩ := h
  have hpow : (0 : Rat) < 2 ^ e := by positivity
  have hshift (k : Nat) : (2 : Rat) ^ (e + k) = 2 ^ k * 2 ^ e := by
    rw [zpow_add₀ (by norm_num), zpow_natCast, mul_comm]
  by_cases hfull' : fullMantissa ≤ m
  · have hlow : ((2 : Rat) ^ 52) ≤ m := by exact_mod_cast hfull'
    have hhigh : (m : Rat) < 2 ^ 53 := by exact_mod_cast hbound
    have hexp : binaryExponent (scaled m e) = e + (52 : Nat) := by
      refine binaryExponent_eq ?_ ?_
      · rw [hshift]
        exact mul_le_mul_of_nonneg_right hlow hpow.le
      · rw [add_assoc]
        exact (mul_lt_mul_of_pos_right hhigh hpow).trans_eq (hshift 53).symm
    omega
  · have hhigh : (m : Rat) < 2 ^ 52 := by exact_mod_cast not_le.mp hfull'
    have hlt : scaled m e < (2 : Rat) ^ (e + (52 : Nat)) := by
      rw [hshift]
      exact mul_lt_mul_of_pos_right hhigh hpow
    have hexp : binaryExponent (scaled m e) < e + (52 : Nat) :=
      (zpow_lt_zpow_iff_right₀ (by norm_num)).mp
        ((binaryExponent_spec (scaled_pos hm e)).1.trans_lt hlt)
    omega

/-- **Doubles round to themselves.** -/
theorem round_scaled (negative : Bool) {m : Nat} {e : Int} (h : Canonical m e) :
    round negative (scaled m e) = .finite negative m e h := by
  by_cases hm : m = 0
  · subst hm
    obtain ⟨hbound, hleast, hgreatest, hfull | rfl⟩ := h
    · exact absurd hfull (by decide)
    · simp [round, scaled, zero]
  · have hq := scaled_pos hm e
    have hdiv : scaled m e / (2 : Rat) ^ e = m := by
      unfold scaled
      field_simp
    unfold round
    rw [if_neg hq.ne']
    dsimp only
    rw [max_binaryExponent_scaled h hm, hdiv, nearestEven_natCast, if_neg h.1.ne, ofParts,
      dif_pos h]

end LayeredConf.Number
