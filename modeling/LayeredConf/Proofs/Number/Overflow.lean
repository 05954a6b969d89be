import LayeredConf.Proofs.Number.Shortest

/-!
# Overflow

The greatest double is `(2^53 - 1) · 2^971`.  A magnitude that is half a step above it lies as near
to a mantissa of `2^53`, which is even, and is rounded to an infinity like all greater ones.

    overflowBound             the least magnitude that no double is near to
    round_eq_infinite_iff     what is rounded to an infinity
    toNumber_eq_infinite_iff  which decimals read as one
-/

namespace LayeredConf

/-- The greatest double and half a step. -/
def overflowBound : Rat := 2 ^ 1024 - 2 ^ 970

namespace Number

/-! ## Nearest integers -/

theorem natFloor_spec {q : Rat} (hq : 0 ≤ q) :
    (q.floor.toNat : Rat) ≤ q ∧ q < q.floor.toNat + 1 := by
  have hfloor : 0 ≤ q.floor := Int.floor_nonneg.mpr hq
  have hcast : ((q.floor.toNat : Int) : Rat) = q.floor := by rw [Int.toNat_of_nonneg hfloor]
  rw [← Int.cast_natCast, hcast]
  exact ⟨Int.floor_le q, Int.lt_floor_add_one q⟩

theorem nearestEven_eq_or (q : Rat) :
    nearestEven q = q.floor.toNat ∨ nearestEven q = q.floor.toNat + 1 := by
  unfold nearestEven
  dsimp only
  split
  · exact .inl rfl
  · exact .inr rfl

theorem le_nearestEven {q : Rat} (hq : 0 ≤ q) {n : Nat} (h : (n : Rat) ≤ q) :
    n ≤ nearestEven q := by
  have hlow : n ≤ q.floor.toNat := by
    have hlt : (n : Rat) < q.floor.toNat + 1 := h.trans_lt (natFloor_spec hq).2
    exact_mod_cast Nat.lt_succ_iff.mp (by exact_mod_cast hlt)
  rcases nearestEven_eq_or q with heq | heq <;> omega

theorem nearestEven_le {q : Rat} (hq : 0 ≤ q) {n : Nat} (h : q < n) : nearestEven q ≤ n := by
  have hlow : q.floor.toNat < n := by exact_mod_cast (natFloor_spec hq).1.trans_lt h
  rcases nearestEven_eq_or q with heq | heq <;> omega

/-- What is rounded to an even integer or above it: all from half a step below it on. -/
theorem le_nearestEven_iff {q : Rat} (hq : 0 ≤ q) {n : Nat} (hn : n % 2 = 0) :
    n ≤ nearestEven q ↔ (n : Rat) - 1 / 2 ≤ q := by
  obtain ⟨hlow, hhigh⟩ := natFloor_spec hq
  unfold nearestEven
  dsimp only
  generalize q.floor.toNat = low at hlow hhigh
  constructor
  · intro h
    split at h
    · have hcast : (n : Rat) ≤ low := by exact_mod_cast h
      linarith
    · next hnot =>
      rw [not_or, not_lt] at hnot
      have hcast : (n : Rat) ≤ low + 1 := by exact_mod_cast h
      linarith [hnot.1]
  · intro h
    have hle : n ≤ low + 1 := by
      have hlt : (n : Rat) < low + 2 := by linarith
      exact Nat.lt_succ_iff.mp (by exact_mod_cast hlt)
    split
    · next hdown =>
      -- one step below the even integer is odd, so a tie does not go down
      by_contra hgt
      obtain rfl : n = low + 1 := by omega
      push_cast at h
      rcases hdown with hless | ⟨-, heven⟩
      · linarith
      · omega
    · exact hle

/-! ## Magnitudes -/

theorem ofParts_cases (negative : Bool) (m : Nat) (e : Int) :
    (ofParts negative m e).isFinite = true ∨ ofParts negative m e = .infinite negative := by
  unfold ofParts
  split
  · exact .inl rfl
  · exact .inr rfl

theorem round_cases (negative : Bool) (q : Rat) :
    (round negative q).isFinite = true ∨ round negative q = .infinite negative := by
  unfold round
  split
  · exact .inl rfl
  · dsimp only
    split
    · exact ofParts_cases negative _ _
    · exact ofParts_cases negative _ _

theorem ofParts_eq_infinite_iff {negative : Bool} {m : Nat} {e : Int} :
    ofParts negative m e = .infinite negative ↔ ¬Canonical m e := by
  unfold ofParts
  split
  · next h => simp [h]
  · next h => simp [h]

/-- A mantissa that is rounded up to its bound exceeds every double at the greatest exponent. -/
theorem carry_eq_infinite_iff {negative : Bool} {m : Nat} {e : Int} (hm : m ≤ mantissaBound)
    (hleast : -1074 ≤ e) (hgreatest : e ≤ 971) (hfull : fullMantissa ≤ m ∨ e = -1074) :
    (if m = mantissaBound then ofParts negative fullMantissa (e + 1)
      else ofParts negative m e) = .infinite negative ↔ m = mantissaBound ∧ e = 971 := by
  split
  · next heq =>
    rw [ofParts_eq_infinite_iff, heq]
    constructor
    · intro h
      refine ⟨rfl, ?_⟩
      by_contra hne
      exact h ⟨by decide, by omega, by omega, .inl (by decide)⟩
    · rintro ⟨-, rfl⟩ h
      exact absurd h.2.2.1 (by decide)
  · next hne =>
    rw [ofParts_eq_infinite_iff]
    refine iff_of_false (fun h => h ?_) (fun h => hne h.1)
    exact ⟨lt_of_le_of_ne hm hne, hleast, hgreatest, hfull⟩

theorem carry_of_lt {negative : Bool} {m : Nat} {e : Int} (he : 971 < e) :
    (if m = mantissaBound then ofParts negative fullMantissa (e + 1)
      else ofParts negative m e) = .infinite negative := by
  have hnot (m : Nat) (e : Int) (he : 971 < e) : ¬Canonical m e :=
    fun h => absurd h.2.2.1 (not_le.mpr he)
  split
  · exact ofParts_eq_infinite_iff.mpr (hnot _ _ (by omega))
  · exact ofParts_eq_infinite_iff.mpr (hnot _ _ he)

theorem overflowBound_eq :
    overflowBound = ((mantissaBound : Rat) - 1 / 2) * (2 : Rat) ^ (971 : Int) := by
  have htop : (2 : Rat) ^ 1024 = 2 ^ 54 * 2 ^ 970 := pow_add 2 54 970
  have hstep : (2 : Rat) ^ (971 : Int) = 2 * 2 ^ 970 := by
    rw [show (971 : Int) = 1 + (970 : Nat) by norm_num, zpow_one_add₀ two_ne_zero, zpow_natCast]
  rw [overflowBound, htop, hstep]
  generalize (2 : Rat) ^ 970 = step
  ring

theorem lt_overflowBound {q : Rat} {k : Int} (hk : k ≤ 1023) (h : q < (2 : Rat) ^ k) :
    q < overflowBound := by
  have hpow : (2 : Rat) ^ k ≤ 2 ^ (1023 : Int) := zpow_le_zpow_right₀ (by norm_num) hk
  have hbound : (2 : Rat) ^ (1023 : Int) ≤ overflowBound := by
    have htop : (2 : Rat) ^ (1023 : Int) = 2 ^ 52 * 2 ^ (971 : Int) := zpow_add₀ two_ne_zero 52 971
    rw [overflowBound_eq, htop]
    exact mul_le_mul_of_nonneg_right (by norm_num) (by positivity)
  exact h.trans_le (hpow.trans hbound)

theorem overflowBound_le {q : Rat} {k : Int} (hk : 1024 ≤ k) (h : (2 : Rat) ^ k ≤ q) :
    overflowBound ≤ q := by
  have hpow : (2 : Rat) ^ (1024 : Int) ≤ 2 ^ k := zpow_le_zpow_right₀ (by norm_num) hk
  have hbound : overflowBound ≤ (2 : Rat) ^ (1024 : Int) :=
    sub_le_self _ (by positivity)
  exact hbound.trans (hpow.trans h)

section

variable {q : Rat} {k e : Int} (hq : 0 ≤ q) (hlow : (2 : Rat) ^ k ≤ q) (hhigh : q < 2 ^ (k + 1))

include hq

theorem div_nonneg_pow (e : Int) : 0 ≤ q / (2 : Rat) ^ e :=
  div_nonneg hq (by positivity)

include hhigh

/-- A magnitude is scaled to one that is at most rounded up to the bound of mantissas. -/
theorem mantissa_le (he : k - 52 ≤ e) : nearestEven (q / (2 : Rat) ^ e) ≤ mantissaBound := by
  refine nearestEven_le (div_nonneg_pow hq e) ?_
  rw [div_lt_iff₀ (by positivity)]
  calc q < (2 : Rat) ^ (k + 1) := hhigh
    _ ≤ (2 : Rat) ^ (53 + e) := zpow_le_zpow_right₀ (by norm_num) (by omega)
    _ = (mantissaBound : Nat) * (2 : Rat) ^ e := by
      rw [zpow_add₀ (by norm_num)]
      norm_num

/-- At the greatest exponent it is rounded up so from half a step below the bound on. -/
theorem mantissa_eq_iff (he : k - 52 ≤ e) (hgreatest : e ≤ 971) :
    nearestEven (q / (2 : Rat) ^ e) = mantissaBound ∧ e = 971 ↔ overflowBound ≤ q := by
  have hle := mantissa_le hq hhigh he
  by_cases htop : e = 971
  · subst htop
    have hiff := le_nearestEven_iff (div_nonneg_pow hq 971) (n := mantissaBound) (by decide)
    rw [le_div_iff₀ (by positivity), ← overflowBound_eq] at hiff
    rw [← hiff]
    constructor
    · exact fun h => h.1.ge
    · exact fun h => ⟨hle.antisymm h, rfl⟩
  · have hlt := lt_overflowBound (by omega) hhigh
    exact iff_of_false (fun h => htop h.2) (not_le.mpr hlt)

omit hhigh
include hlow

theorem fullMantissa_le (he : e = k - 52) : fullMantissa ≤ nearestEven (q / (2 : Rat) ^ e) := by
  refine le_nearestEven (div_nonneg_pow hq e) ?_
  rw [le_div_iff₀ (by positivity)]
  calc (fullMantissa : Nat) * (2 : Rat) ^ e = (2 : Rat) ^ (52 + e) := by
        rw [zpow_add₀ (by norm_num)]
        norm_num
    _ = (2 : Rat) ^ k := by rw [he]; congr 1; omega
    _ ≤ q := hlow

end

/-- **What is rounded to an infinity.** -/
theorem round_eq_infinite_iff (negative : Bool) {q : Rat} (hq : 0 ≤ q) :
    round negative q = .infinite negative ↔ overflowBound ≤ q := by
  by_cases hzero : q = 0
  · have hbound : ¬overflowBound ≤ 0 := by
      rw [overflowBound_eq]
      norm_num
    subst hzero
    rw [round, if_pos rfl, zero]
    simpa using hbound
  · obtain ⟨hlow, hhigh⟩ := binaryExponent_spec (lt_of_le_of_ne hq (Ne.symm hzero))
    rw [round, if_neg hzero]
    dsimp only
    generalize binaryExponent q = k at hlow hhigh
    have hle : k - 52 ≤ max (k - 52) (-1074) := le_max_left _ _
    have hge : -1074 ≤ max (k - 52) (-1074) := le_max_right _ _
    have he : max (k - 52) (-1074) = -1074 ∨ max (k - 52) (-1074) = k - 52 := by omega
    generalize max (k - 52) (-1074) = e at hle hge he
    by_cases hk : 1024 ≤ k
    · exact iff_of_true (carry_of_lt (by omega)) (overflowBound_le hk hlow)
    · have hgreatest : e ≤ 971 := by omega
      have hfull : fullMantissa ≤ nearestEven (q / (2 : Rat) ^ e) ∨ e = -1074 :=
        he.symm.imp_left (fullMantissa_le hq hlow)
      rw [← mantissa_eq_iff hq hhigh hle hgreatest]
      exact carry_eq_infinite_iff (mantissa_le hq hhigh hle) hge hgreatest hfull

end Number

namespace Decimal

/-- The least decimals of a double are far below the bound. -/
theorem lt_overflowBound_of_exponent {d : Decimal}
    (h : d.exponent < -(401 + (d.digits.log2 : Int))) :
    d.digits * (10 : Rat) ^ d.exponent < overflowBound := by
  have hdigits : (d.digits : Rat) < 10 ^ ((d.digits.log2 : Int) + 1) := by
    have hlog : d.digits < 2 ^ (d.digits.log2 + 1) := Nat.lt_log2_self
    have hpow : 2 ^ (d.digits.log2 + 1) ≤ 10 ^ (d.digits.log2 + 1) :=
      Nat.pow_le_pow_left (by decide) _
    exact_mod_cast hlog.trans_le hpow
  have hlt : d.digits * (10 : Rat) ^ d.exponent < (2 : Rat) ^ (0 : Int) :=
    calc d.digits * (10 : Rat) ^ d.exponent
        < 10 ^ ((d.digits.log2 : Int) + 1) * 10 ^ d.exponent :=
          mul_lt_mul_of_pos_right hdigits (by positivity)
      _ = (10 : Rat) ^ ((d.digits.log2 : Int) + 1 + d.exponent) := by
          rw [zpow_add₀ (by norm_num) _ d.exponent]
      _ ≤ 10 ^ (0 : Int) := zpow_le_zpow_right₀ (by norm_num) (by omega)
      _ = 2 ^ (0 : Int) := by norm_num
  exact Number.lt_overflowBound (by omega) hlt

theorem overflowBound_le_of_exponent {d : Decimal} (hd : d.digits ≠ 0) (h : 400 < d.exponent) :
    overflowBound ≤ d.digits * (10 : Rat) ^ d.exponent := by
  refine Number.overflowBound_le le_rfl ?_
  have hone : (1 : Rat) ≤ d.digits := by exact_mod_cast Nat.one_le_iff_ne_zero.mpr hd
  calc (2 : Rat) ^ (1024 : Int) ≤ 2 ^ ((3 * 400 : Nat) : Int) :=
        zpow_le_zpow_right₀ (by norm_num) (by norm_num)
    _ = ((2 : Rat) ^ 3) ^ 400 := by rw [zpow_natCast, pow_mul]
    _ ≤ 10 ^ 400 := pow_le_pow_left₀ (by norm_num) (by norm_num) 400
    _ = (10 : Rat) ^ (400 : Int) := (zpow_natCast 10 400).symm
    _ ≤ 10 ^ d.exponent := zpow_le_zpow_right₀ (by norm_num) h.le
    _ ≤ d.digits * 10 ^ d.exponent := le_mul_of_one_le_left (by positivity) hone

/-- A decimal is near to a double, or to the infinity of its sign. -/
theorem toNumber_cases (negative : Bool) (d : Decimal) :
    (d.toNumber negative).isFinite = true ∨ d.toNumber negative = .infinite negative := by
  unfold toNumber
  split
  · exact .inl rfl
  · split
    · exact .inr rfl
    · split
      · exact .inl rfl
      · exact Number.round_cases negative _

/-- **Which decimals read as an infinity.** -/
theorem toNumber_eq_infinite_iff (negative : Bool) (d : Decimal) :
    d.toNumber negative = .infinite negative ↔
      overflowBound ≤ d.digits * (10 : Rat) ^ d.exponent := by
  have hzero : Number.zero negative ≠ .infinite negative := Number.noConfusion
  unfold toNumber
  split
  · next hd =>
    refine iff_of_false hzero (not_le.mpr ?_)
    rw [hd, Nat.cast_zero, zero_mul]
    exact Number.lt_overflowBound (k := 0) (by norm_num) (by norm_num)
  · next hd =>
    split
    · next he => exact iff_of_true rfl (overflowBound_le_of_exponent hd he)
    · split
      · next he => exact iff_of_false hzero (not_le.mpr (lt_overflowBound_of_exponent he))
      · exact Number.round_eq_infinite_iff negative (by positivity)

end Decimal

end LayeredConf
