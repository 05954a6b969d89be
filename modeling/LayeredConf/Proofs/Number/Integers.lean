import LayeredConf.Number.Arith
import LayeredConf.Proofs.Number.Overflow

/-!
# Integers among the doubles

A natural number below `2^53` is a double.  Sums, products and remainders of such doubles are those
of the numbers as long as they stay below `2^53`, and so is the integer part of a quotient, although
the quotient itself is rounded: it is never rounded up to the next integer.

    toRat_ofNat             the value of `ofNat n`
    abs_toRat_round_sub_le  how far a rounded magnitude is from the exact one
    floor_ofNat_div         the integer part of a quotient
-/

namespace LayeredConf.Number

/-! ## Operations on finite numbers -/

section

variable {x y : Number} (hx : x.isFinite = true) (hy : y.isFinite = true)

include hx hy

theorem add_of_finite : x + y = if x.toRat + y.toRat = 0 then zero (x.isNegative && y.isNegative)
    else ofRat (x.toRat + y.toRat) := by
  cases x with
  | finite => cases y with
    | finite => rfl
    | nan | infinite => cases hy
  | nan | infinite => cases hx

theorem mul_of_finite :
    x * y = round (x.isNegative != y.isNegative) (x.toRat * y.toRat).abs := by
  cases x with
  | finite => cases y with
    | finite => rfl
    | nan | infinite => cases hy
  | nan | infinite => cases hx

theorem div_of_finite (hzero : y.isZero = false) :
    x / y = round (x.isNegative != y.isNegative) (x.toRat / y.toRat).abs := by
  cases x with
  | finite => cases y with
    | finite => exact if_neg (Bool.eq_false_iff.mp hzero)
    | nan | infinite => cases hy
  | nan | infinite => cases hx

theorem mod_of_finite (hzero : y.isZero = false) : x % y = round x.isNegative
    (x.toRat.abs - y.toRat.abs * ((x.toRat.abs / y.toRat.abs).floor : Rat)) := by
  cases x with
  | finite => cases y with
    | finite => exact if_neg (Bool.eq_false_iff.mp hzero)
    | nan | infinite => cases hy
  | nan | infinite => cases hx

theorem lt_of_finite : x.lt y = decide (x.toRat < y.toRat) := by
  cases x with
  | finite => cases y with
    | finite => rfl
    | nan | infinite => cases hy
  | nan | infinite => cases hx

end

/-! ## Values below `2^53` -/

/-- A number below `2^53` is scaled up to 53 bits. -/
theorem exists_canonical {n : Nat} (hn : n < mantissaBound) :
    ∃ m e, Canonical m e ∧ scaled m e = n := by
  by_cases hzero : n = 0
  · subst hzero
    exact ⟨0, -1074, by decide, by simp [scaled]⟩
  · have hlog : n.log2 < 53 := (Nat.log2_lt hzero).mpr hn
    refine ⟨n * 2 ^ (52 - n.log2), n.log2 - 52, ⟨?_, by omega, by omega, .inl ?_⟩, ?_⟩
    · calc n * 2 ^ (52 - n.log2) < 2 ^ (n.log2 + 1) * 2 ^ (52 - n.log2) :=
            Nat.mul_lt_mul_of_pos_right Nat.lt_log2_self (by positivity)
        _ = 2 ^ 53 := by rw [← pow_add, show n.log2 + 1 + (52 - n.log2) = 53 by omega]
    · calc 2 ^ 52 = 2 ^ n.log2 * 2 ^ (52 - n.log2) := by
            rw [← pow_add, show n.log2 + (52 - n.log2) = 52 by omega]
        _ ≤ n * 2 ^ (52 - n.log2) := Nat.mul_le_mul_right _ (Nat.log2_self_le hzero)
    · have hexp : (n.log2 : Int) - 52 = -(52 - n.log2 : Nat) := by omega
      rw [scaled, hexp, zpow_neg, zpow_natCast]
      push_cast
      field_simp

theorem exists_ofNat {n : Nat} (hn : n < mantissaBound) :
    ∃ m e h, ofNat n = .finite false m e h ∧ scaled m e = n := by
  obtain ⟨m, e, h, hvalue⟩ := exists_canonical hn
  exact ⟨m, e, h, by rw [ofNat, ← hvalue, round_scaled false h], hvalue⟩

theorem ofNat_zero : ofNat 0 = zero false := by
  rw [ofNat, Nat.cast_zero]
  rfl

theorem isFinite_ofNat {n : Nat} (hn : n < mantissaBound) : (ofNat n).isFinite = true := by
  obtain ⟨m, e, h, heq, -⟩ := exists_ofNat hn
  rw [heq]
  rfl

theorem toRat_ofNat {n : Nat} (hn : n < mantissaBound) : (ofNat n).toRat = n := by
  obtain ⟨m, e, h, heq, hvalue⟩ := exists_ofNat hn
  rw [heq]
  exact hvalue

theorem isNegative_ofParts (negative : Bool) (m : Nat) (e : Int) :
    (ofParts negative m e).isNegative = negative := by
  unfold ofParts
  split <;> rfl

theorem isNegative_round (negative : Bool) (q : Rat) :
    (round negative q).isNegative = negative := by
  unfold round
  split
  · rfl
  · dsimp only
    split <;> exact isNegative_ofParts negative _ _

theorem isNegative_ofNat (n : Nat) : (ofNat n).isNegative = false := isNegative_round false n

theorem ofNat_injective {m n : Nat} (hm : m < mantissaBound) (hn : n < mantissaBound)
    (h : ofNat m = ofNat n) : m = n := by
  have hvalue := congrArg toRat h
  rw [toRat_ofNat hm, toRat_ofNat hn] at hvalue
  exact_mod_cast hvalue

theorem isZero_ofNat {n : Nat} (hn : n < mantissaBound) :
    (ofNat n).isZero = decide (n = 0) := by
  rw [isZero, isFinite_ofNat hn, toRat_ofNat hn]
  simp

theorem abs_ofNat {n : Nat} (hn : n < mantissaBound) : (ofNat n).abs = ofNat n := by
  obtain ⟨m, e, h, heq, -⟩ := exists_ofNat hn
  rw [heq]
  rfl

theorem isExactInteger_ofNat {n : Nat} (hn : n < mantissaBound) :
    (ofNat n).isExactInteger = true := by
  obtain ⟨m, e, h, heq, hvalue⟩ := exists_ofNat hn
  have hint : (ofNat n).toInt? = some (n : Int) := by
    rw [heq, toInt?, toRat, hvalue]
    simp
  rw [isExactInteger, hint]
  simpa using hn

/-! ## Exact operations -/

theorem ofRat_of_nonneg {q : Rat} (hq : 0 ≤ q) : ofRat q = round false q := by
  rw [ofRat, decide_eq_false (not_lt.mpr hq), Rat.abs_of_nonneg hq]

theorem ofRat_natCast (n : Nat) : ofRat n = ofNat n := ofRat_of_nonneg (by positivity)

section

variable {a b : Nat} (ha : a < mantissaBound) (hb : b < mantissaBound)

include ha hb

theorem lt_ofNat : (ofNat a).lt (ofNat b) = decide (a < b) := by
  rw [lt_of_finite (isFinite_ofNat ha) (isFinite_ofNat hb), toRat_ofNat ha, toRat_ofNat hb]
  simp

theorem ofNat_add_ofNat : ofNat a + ofNat b = ofNat (a + b) := by
  rw [add_of_finite (isFinite_ofNat ha) (isFinite_ofNat hb), toRat_ofNat ha, toRat_ofNat hb,
    isNegative_ofNat, isNegative_ofNat, ← Nat.cast_add, ofRat_natCast]
  split
  · next hzero => rw [Nat.cast_eq_zero.mp hzero, ofNat_zero, Bool.and_false]
  · rfl

theorem ofNat_mul_ofNat : ofNat a * ofNat b = ofNat (a * b) := by
  rw [mul_of_finite (isFinite_ofNat ha) (isFinite_ofNat hb), toRat_ofNat ha, toRat_ofNat hb,
    isNegative_ofNat, isNegative_ofNat, ← Nat.cast_mul, Rat.abs_of_nonneg (by positivity)]
  rfl

omit ha in
theorem isZero_ofNat_of_pos (hpos : 0 < b) : (ofNat b).isZero = false := by
  rw [isZero_ofNat hb, decide_eq_false hpos.ne']

variable (hpos : 0 < b)

include hpos

/-- A quotient is rounded once. -/
theorem ofNat_div_ofNat : ofNat a / ofNat b = round false ((a : Rat) / b) := by
  rw [div_of_finite (isFinite_ofNat ha) (isFinite_ofNat hb) (isZero_ofNat_of_pos hb hpos),
    toRat_ofNat ha, toRat_ofNat hb, isNegative_ofNat, isNegative_ofNat,
    Rat.abs_of_nonneg (by positivity)]
  rfl

theorem ofNat_div_of_dvd (h : b ∣ a) : ofNat a / ofNat b = ofNat (a / b) := by
  have hne : (b : Rat) ≠ 0 := Nat.cast_ne_zero.mpr hpos.ne'
  rw [ofNat_div_ofNat ha hb hpos]
  obtain ⟨c, rfl⟩ := h
  rw [Nat.cast_mul, mul_div_cancel_left₀ _ hne, Nat.mul_div_cancel_left c hpos]
  rfl

theorem ofNat_mod_ofNat : ofNat a % ofNat b = ofNat (a % b) := by
  have hfloor : ((a : Rat) / b).floor = (a / b : Nat) :=
    (Rat.floor_natCast_div_natCast a b).trans (Int.natCast_div a b).symm
  have hrest : (a : Rat) - b * ((a / b : Nat) : Rat) = (a % b : Nat) := by
    rw [sub_eq_iff_eq_add]
    exact_mod_cast (Nat.mod_add_div a b).symm
  rw [mod_of_finite (isFinite_ofNat ha) (isFinite_ofNat hb) (isZero_ofNat_of_pos hb hpos),
    isNegative_ofNat, toRat_ofNat ha, toRat_ofNat hb, Rat.abs_of_nonneg (by positivity),
    Rat.abs_of_nonneg (by positivity), hfloor, Int.cast_natCast, hrest]
  rfl

end

/-! ## The integer part of a quotient -/

theorem abs_nearestEven_sub_le {q : Rat} (hq : 0 ≤ q) : |(nearestEven q : Rat) - q| ≤ 1 / 2 := by
  obtain ⟨hlow, hhigh⟩ := natFloor_spec hq
  unfold nearestEven
  dsimp only
  generalize q.floor.toNat = low at hlow hhigh
  rw [abs_le]
  split
  · next hdown =>
    have hrest : q - low ≤ 1 / 2 := hdown.elim le_of_lt fun h => h.1.le
    constructor <;> linarith
  · next hup =>
    rw [not_or, not_lt] at hup
    push_cast
    constructor <;> linarith [hup.1]

theorem toRat_ofParts {negative : Bool} {m : Nat} {e : Int}
    (h : (ofParts negative m e).isFinite = true) :
    (ofParts negative m e).toRat = if negative then -scaled m e else scaled m e := by
  unfold ofParts at h ⊢
  split at h
  · next hcanonical =>
    rw [dif_pos hcanonical]
    cases negative <;> rfl
  · cases h

theorem toRat_round {q : Rat} (hq : q ≠ 0) (h : (round false q).isFinite = true) :
    (round false q).toRat = scaled (nearestEven (q / 2 ^ max (binaryExponent q - 52) (-1074)))
      (max (binaryExponent q - 52) (-1074)) := by
  unfold round at h ⊢
  rw [if_neg hq] at h ⊢
  dsimp only at h ⊢
  split at h
  · next hcarry =>
    rw [if_pos hcarry, toRat_ofParts h, if_neg Bool.false_ne_true, hcarry, scaled, scaled,
      zpow_add_one₀ two_ne_zero]
    norm_num
    ring
  · next hcarry => rw [if_neg hcarry, toRat_ofParts h, if_neg Bool.false_ne_true]

/-- A magnitude that is not tiny is rounded by at most half a step. -/
theorem abs_toRat_round_sub_le {q : Rat} (hq : (2 : Rat) ^ (-1022 : Int) ≤ q)
    (h : (round false q).isFinite = true) : |(round false q).toRat - q| ≤ q / 2 ^ 53 := by
  have hpos : 0 < q := lt_of_lt_of_le (by positivity) hq
  obtain ⟨hlow, hhigh⟩ := binaryExponent_spec hpos
  have hleast : -1022 < binaryExponent q + 1 :=
    (zpow_lt_zpow_iff_right₀ (by norm_num)).mp (hq.trans_lt hhigh)
  have he : max (binaryExponent q - 52) (-1074) = binaryExponent q - 52 := by omega
  rw [toRat_round hpos.ne' h, he, scaled]
  generalize binaryExponent q = k at hlow
  have hstep : (0 : Rat) < 2 ^ (k - 52) := by positivity
  have hpow : (2 : Rat) ^ k = 2 ^ 52 * 2 ^ (k - 52) := by
    rw [← zpow_natCast, ← zpow_add₀ two_ne_zero]
    congr 1
    push_cast
    omega
  have hnear := abs_nearestEven_sub_le (div_nonneg_pow hpos.le (k - 52))
  calc |(nearestEven (q / 2 ^ (k - 52)) : Rat) * 2 ^ (k - 52) - q|
      = |(nearestEven (q / 2 ^ (k - 52)) : Rat) - q / 2 ^ (k - 52)| * 2 ^ (k - 52) := by
        rw [← abs_of_pos hstep, ← abs_mul, abs_of_pos hstep, sub_mul, div_mul_cancel₀ _ hstep.ne']
    _ ≤ 1 / 2 * 2 ^ (k - 52) := mul_le_mul_of_nonneg_right hnear hstep.le
    _ = 2 ^ k / 2 ^ 53 := by
        rw [hpow]
        norm_num
        ring
    _ ≤ q / 2 ^ 53 := div_le_div_of_nonneg_right hlow (by positivity)

theorem floor_eq_ofNat {x : Number} (hx : x.isFinite = true) (hsign : x.isNegative = false)
    {n : Nat} (hlow : (n : Rat) ≤ x.toRat) (hhigh : x.toRat < n + 1) : x.floor = ofNat n := by
  have hfloor : ⌊x.toRat⌋ = (n : Int) :=
    Int.floor_eq_iff.mpr ⟨by exact_mod_cast hlow, by exact_mod_cast hhigh⟩
  have heq : x.floor = if ⌊x.toRat⌋ = 0 then zero x.isNegative else ofInt ⌊x.toRat⌋ := by
    cases x with
    | finite => rfl
    | nan | infinite => cases hx
  rw [heq, hfloor, hsign, ofInt, Int.cast_natCast, ofRat_natCast]
  split
  · next hzero => rw [Int.natCast_eq_zero.mp hzero, ofNat_zero]
  · rfl

theorem isFinite_round (negative : Bool) {q : Rat} (hq : 0 ≤ q) (h : q < overflowBound) :
    (round negative q).isFinite = true :=
  (round_cases negative q).resolve_right fun hinfinite =>
    not_le.mpr h ((round_eq_infinite_iff negative hq).mp hinfinite)

section

variable {a b : Nat} (ha : a < mantissaBound) (hb : b < mantissaBound) (hpos : 0 < b)

include ha hpos

theorem isFinite_round_div : (round false ((a : Rat) / b)).isFinite = true := by
  refine isFinite_round false (by positivity) (lt_overflowBound (k := 53) (by norm_num) ?_)
  calc (a : Rat) / b ≤ a := div_le_self (by positivity) (by exact_mod_cast hpos)
    _ < 2 ^ (53 : Int) := by exact_mod_cast ha

include hb

/-- Rounding moves a quotient by less than a divisor's part. -/
theorem abs_toRat_round_div_sub_lt (hne : a ≠ 0) :
    |(round false ((a : Rat) / b)).toRat - a / b| < 1 / b := by
  have hdivisor : (0 : Rat) < b := by exact_mod_cast hpos
  have hleast : (2 : Rat) ^ (-1022 : Int) ≤ a / b :=
    calc (2 : Rat) ^ (-1022 : Int) ≤ 2 ^ (-53 : Int) :=
          zpow_le_zpow_right₀ (by norm_num) (by norm_num)
      _ = 1 / 2 ^ 53 := by norm_num
      _ ≤ 1 / b := one_div_le_one_div_of_le hdivisor (by exact_mod_cast hb.le)
      _ ≤ a / b := div_le_div_of_nonneg_right
          (by exact_mod_cast Nat.one_le_iff_ne_zero.mpr hne) hdivisor.le
  have hless : (a : Rat) / 2 ^ 53 < 1 := by
    rw [div_lt_one (by positivity)]
    exact_mod_cast ha
  calc |(round false ((a : Rat) / b)).toRat - a / b| ≤ (a : Rat) / b / 2 ^ 53 :=
        abs_toRat_round_sub_le hleast (isFinite_round_div ha hpos)
    _ = a / 2 ^ 53 / b := div_right_comm _ _ _
    _ < 1 / b := div_lt_div_of_pos_right hless hdivisor

/-- **The integer part of a rounded quotient is that of the exact one.**  The next integer is at
least a divisor's part away. -/
theorem floor_ofNat_div : (ofNat a / ofNat b).floor = ofNat (a / b) := by
  by_cases hrest : a % b = 0
  · have hquotient : a / b < mantissaBound := (Nat.div_le_self a b).trans_lt ha
    have hvalue := toRat_ofNat hquotient
    rw [ofNat_div_of_dvd ha hb hpos (Nat.dvd_of_mod_eq_zero hrest)]
    exact floor_eq_ofNat (isFinite_ofNat hquotient) (isNegative_ofNat _) hvalue.ge
      (hvalue.trans_lt (lt_add_one _))
  · have hdivisor : (0 : Rat) < b := by exact_mod_cast hpos
    have hsplit : (a : Rat) / b = (a / b : Nat) + (a % b : Nat) / b := by
      rw [div_eq_iff hdivisor.ne', add_mul, div_mul_cancel₀ _ hdivisor.ne']
      exact_mod_cast (Nat.div_add_mod' a b).symm
    have hlow : 1 / (b : Rat) ≤ (a % b : Nat) / b :=
      div_le_div_of_nonneg_right (by exact_mod_cast Nat.pos_of_ne_zero hrest) hdivisor.le
    have hhigh : ((a % b : Nat) : Rat) / b ≤ 1 - 1 / b := by
      rw [div_le_iff₀ hdivisor, sub_mul, div_mul_cancel₀ _ hdivisor.ne', one_mul,
        le_sub_iff_add_le]
      exact_mod_cast Nat.mod_lt a hpos
    have hne : a ≠ 0 := by
      rintro rfl
      exact hrest (Nat.zero_mod b)
    obtain ⟨hbelow, habove⟩ := abs_lt.mp (abs_toRat_round_div_sub_lt ha hb hpos hne)
    rw [ofNat_div_ofNat ha hb hpos]
    refine floor_eq_ofNat (isFinite_round_div ha hpos) (isNegative_round _ _) ?_ ?_
    · linarith
    · linarith

end

end LayeredConf.Number
