import LayeredConf.Proofs.Number.Rounding

/-!
# Decimal text reads back

The decimal that is written for a double is one that reads as it: either `shortest` has tried it, or
it is the double's exact value.  Its text has a whole part, digits behind a point and an exponent,
of which the last two may be missing, and these stand for a decimal of the same value.

    toNumber_shortest       the decimal to write reads as the number
    exists_spells_layout     what stands in the text of a decimal
-/

namespace LayeredConf.Decimal

/-! ## The decimal to write -/

theorem toNumber_eq_round {d : Decimal} (negative : Bool) (hd : d.digits ≠ 0)
    (hle : d.exponent ≤ 400) (hge : -(401 + (d.digits.log2 : Int)) ≤ d.exponent) :
    d.toNumber negative = .round negative (d.digits * (10 : Rat) ^ d.exponent) := by
  rw [toNumber, if_neg hd, if_neg (by omega), if_neg (by omega)]

theorem toNumber_natCast (negative : Bool) (n : Nat) :
    toNumber negative ⟨n, 0⟩ = .round negative n := by
  by_cases hn : n = 0
  · rw [toNumber, if_pos hn, Number.round, if_pos (by simp [hn])]
  · rw [toNumber_eq_round negative hn (by simp) (by simp), zpow_zero, mul_one]

/-- A power of five has more than twice as many binary digits as it has factors. -/
theorem two_mul_le_log2 {m : Nat} (hm : m ≠ 0) (k : Nat) : 2 * k ≤ (m * 5 ^ k).log2 := by
  refine (Nat.le_log2 (Nat.mul_ne_zero hm (by positivity))).mpr ?_
  calc 2 ^ (2 * k) = 4 ^ k := by rw [Nat.pow_mul]
    _ ≤ 5 ^ k := Nat.pow_le_pow_left (by decide) k
    _ ≤ m * 5 ^ k := Nat.le_mul_of_pos_left _ (Nat.pos_of_ne_zero hm)

/-- All digits of a double's value read as the double. -/
theorem toNumber_exact (negative : Bool) {m : Nat} {e : Int} (h : Canonical m e) (hm : m ≠ 0) :
    (exact m e).toNumber negative = .finite negative m e h := by
  have hleast : -1074 ≤ e := h.2.1
  rw [← Number.round_scaled]
  unfold exact Number.scaled
  split
  · next he =>
    obtain ⟨k, rfl⟩ := Int.eq_ofNat_of_zero_le he
    have hdigits : m * Nat.pow 2 k ≠ 0 := Nat.mul_ne_zero hm (Nat.pow_pos (by decide)).ne'
    rw [Int.toNat_natCast,
      toNumber_eq_round (d := ⟨m * Nat.pow 2 k, 0⟩) negative hdigits (by simp) (by simp)]
    congr 1
    push_cast [Nat.pow_eq]
    rw [mul_one, zpow_natCast]
  · next he =>
    obtain ⟨k, rfl⟩ : ∃ k : Nat, e = -k := ⟨e.natAbs, by omega⟩
    have hdigits : m * Nat.pow 5 k ≠ 0 := Nat.mul_ne_zero hm (Nat.pow_pos (by decide)).ne'
    have hlog : 2 * k ≤ (m * Nat.pow 5 k).log2 := two_mul_le_log2 hm k
    rw [Int.neg_neg, Int.toNat_natCast,
      toNumber_eq_round (d := ⟨m * Nat.pow 5 k, -k⟩) negative hdigits (by simp)
        (by dsimp only; omega)]
    congr 1
    -- dividing by a power of ten undoes the factors five and leaves those of two
    push_cast [Nat.pow_eq]
    rw [zpow_neg, zpow_neg, zpow_natCast, zpow_natCast, show (10 : Rat) = 5 * 2 by norm_num,
      mul_pow]
    field_simp

theorem toNumber_of_neighbour {x : Number} {q : Rat} {e : Int} {d : Decimal}
    (h : neighbour? x q e = some d) : d.toNumber x.isNegative = x := by
  unfold neighbour? at h
  dsimp only at h
  split at h
  · next hlow hhigh =>
    rw [← Option.some.inj h]
    split
    · exact of_decide_eq_true hlow
    · exact of_decide_eq_true hhigh
  · next hlow _ =>
    rw [← Option.some.inj h]
    exact of_decide_eq_true hlow
  · next _ hhigh =>
    rw [← Option.some.inj h]
    exact of_decide_eq_true hhigh
  · cases h

theorem toNumber_of_shortestFrom {x : Number} {q : Rat} {grids : Nat} {e : Int} {d : Decimal}
    (h : shortestFrom? x q grids e = some d) : d.toNumber x.isNegative = x := by
  induction grids generalizing e with
  | zero => cases h
  | succ grids ih =>
    rw [shortestFrom?] at h
    split at h
    · next hn =>
      cases h
      exact toNumber_of_neighbour hn
    · exact ih h

/-- **What is written for a number reads as the number.** -/
theorem toNumber_shortest (negative : Bool) {m : Nat} {e : Int} (h : Canonical m e) (hm : m ≠ 0) :
    (shortest (.finite negative m e h) m e).toNumber negative = .finite negative m e h := by
  unfold shortest
  dsimp only
  generalize (Number.binaryExponent (Number.scaled m e) + 1) * 30103 / 100000 + 2 = start
  cases hs : shortestFrom? (.finite negative m e h) (Number.scaled m e) 24 start with
  | none => exact toNumber_exact negative h hm
  | some d => exact toNumber_of_shortestFrom hs

theorem digits_ne_zero {d : Decimal} {negative : Bool} {m : Nat} {e : Int} {h : Canonical m e}
    (hd : d.toNumber negative = .finite negative m e h) (hm : m ≠ 0) : d.digits ≠ 0 := by
  intro hzero
  rw [toNumber, if_pos hzero, Number.zero, Number.finite.injEq] at hd
  exact hm hd.2.1.symm

/-! ## Its text -/

/-- A point and the digits behind it, if there are any. -/
def pointed (part : List Char) : List Char := if part = [] then [] else '.' :: part

/-- The text of an exponent, which may be missing, and its value. -/
inductive Power : List Char → Int → Prop
  | none : Power [] 0
  | plus (n : Nat) : Power ('e' :: '+' :: Nat.toDigits 10 n) n
  | minus (n : Nat) : Power ('e' :: '-' :: Nat.toDigits 10 n) (-n)

/-- Digits of a whole number: they begin with a zero only if they are one. -/
def Whole (ds : List Char) : Prop :=
  ds ≠ [] ∧ (∀ c ∈ ds, c.isDigit) ∧ (ds.head? = some '0' → ds = ['0'])

/-- A text of a whole part, digits behind a point and an exponent spells a decimal. -/
inductive Spells : List Char → Decimal → Prop
  | intro {whole part tail : List Char} {power : Int} (hwhole : Whole whole)
      (hpart : ∀ c ∈ part, c.isDigit) (hpower : Power tail power) :
      Spells (whole ++ (pointed part ++ tail))
        ⟨digitsValue (whole ++ part), power - part.length⟩

theorem isDigit_of_mem_toDigits {n : Nat} {c : Char} (hc : c ∈ Nat.toDigits 10 n) : c.isDigit :=
  Nat.isDigit_of_mem_toDigits (by decide) (by decide) hc

theorem digitsValue_toDigits (n : Nat) : digitsValue (Nat.toDigits 10 n) = n :=
  Nat.ofDigitChars_ten_toDigits

theorem head?_toDigits_ne {n : Nat} (hn : n ≠ 0) : (Nat.toDigits 10 n).head? ≠ some '0' := by
  have hone : ∀ n < 10, n ≠ 0 → n.digitChar ≠ '0' := by decide
  induction n using Nat.strong_induction_on with
  | _ n ih =>
    rw [Nat.toDigits_eq_if (by decide)]
    split
    · next hlt =>
      rw [List.head?_cons, Ne, Option.some.injEq]
      exact hone n hlt hn
    · next hge =>
      rw [List.head?_append_of_ne_nil _ Nat.toDigits_ne_nil]
      exact ih (n / 10) (by omega) (by omega)

/-- Zeros behind the digits of a decimal are factors of ten. -/
theorem toNumber_shift (negative : Bool) {n k : Nat} (hn : n ≠ 0) (hk : k ≤ 400) :
    (⟨10 ^ k * n, 0⟩ : Decimal).toNumber negative = (⟨n, k⟩ : Decimal).toNumber negative := by
  rw [toNumber_eq_round negative (by simp [hn]) (by simp) (by simp),
    toNumber_eq_round negative hn (by simpa using hk) (by simp; omega)]
  congr 1
  push_cast
  rw [mul_one, zpow_natCast, mul_comm]

theorem whole_zero : Whole ['0'] :=
  ⟨List.cons_ne_nil _ _, List.forall_mem_singleton.mpr rfl, fun _ => rfl⟩

theorem Whole.of_head {ds : List Char} (hne : ds ≠ []) (hdigit : ∀ c ∈ ds, c.isDigit)
    (hhead : ds.head? ≠ some '0') : Whole ds := ⟨hne, hdigit, fun h => absurd h hhead⟩

theorem pointed_eq {part : List Char} (hne : part ≠ []) : pointed part = '.' :: part := if_neg hne

section

variable {ds : List Char} (hne : ds ≠ []) (hdigit : ∀ c ∈ ds, c.isDigit)

include hdigit

theorem isDigit_of_mem_zeros {k : Nat} : ∀ c ∈ List.replicate k '0' ++ ds, c.isDigit := by
  intro c hc
  rcases List.mem_append.mp hc with hc | hc
  · rw [List.eq_of_mem_replicate hc]
    decide
  · exact hdigit c hc

include hne

/-- Numbers below one are written with zeros behind the point. -/
theorem spells_fraction (k : Nat) : Spells ('0' :: '.' :: (List.replicate k '0' ++ ds))
    ⟨digitsValue ds, -(k + ds.length : Nat)⟩ := by
  have hpart := List.append_ne_nil_of_right_ne_nil (List.replicate k '0') hne
  have h := Spells.intro whole_zero (isDigit_of_mem_zeros hdigit (k := k)) .none
  have hvalue : digitsValue (['0'] ++ (List.replicate k '0' ++ ds)) = digitsValue ds := by
    rw [digitsValue, ← List.append_assoc, ← List.replicate_one, List.replicate_append_replicate,
      Nat.ofDigitChars_append, Nat.ofDigitChars_replicate_zero, Nat.mul_zero]
    rfl
  rw [pointed_eq hpart, hvalue, List.length_append, List.length_replicate, zero_sub,
    List.append_nil] at h
  exact h

variable (hhead : ds.head? ≠ some '0')

include hhead

/-- Zeros fill up to the point. -/
theorem spells_padded (k : Nat) : Spells (ds ++ List.replicate k '0')
    ⟨10 ^ k * digitsValue ds, 0⟩ := by
  have hwhole : Whole (ds ++ List.replicate k '0') := by
    refine .of_head (List.append_ne_nil_of_left_ne_nil hne _) (fun c hc => ?_) ?_
    · rcases List.mem_append.mp hc with hc | hc
      · exact hdigit c hc
      · rw [List.eq_of_mem_replicate hc]
        decide
    · rwa [List.head?_append_of_ne_nil _ hne]
  have hpart : ∀ c ∈ ([] : List Char), c.isDigit := by simp
  have h := Spells.intro hwhole hpart .none
  have hvalue : digitsValue (ds ++ List.replicate k '0' ++ []) = 10 ^ k * digitsValue ds := by
    rw [digitsValue, List.append_nil, Nat.ofDigitChars_append, Nat.ofDigitChars_replicate_zero]
    rfl
  rw [hvalue, pointed, if_pos rfl, List.append_nil, List.append_nil] at h
  exact h

/-- The point stands among the digits. -/
theorem spells_point {k : Nat} (hk : 0 < k) (hlt : k < ds.length) :
    Spells (ds.take k ++ '.' :: ds.drop k) ⟨digitsValue ds, k - ds.length⟩ := by
  have hwhole : Whole (ds.take k) := by
    obtain ⟨c, r, rfl⟩ := List.exists_cons_of_ne_nil hne
    obtain ⟨k, rfl⟩ := Nat.exists_eq_succ_of_ne_zero hk.ne'
    exact .of_head (by simp) (fun d hd => hdigit d (List.mem_of_mem_take hd)) hhead
  have hpart : ds.drop k ≠ [] := fun h => absurd (List.drop_eq_nil_iff.mp h) (not_le.mpr hlt)
  have hdrop : ∀ c ∈ ds.drop k, c.isDigit := fun c hc => hdigit c (List.mem_of_mem_drop hc)
  have h := Spells.intro hwhole hdrop .none
  have hpower : (0 : Int) - (ds.drop k).length = k - ds.length := by
    rw [List.length_drop]
    omega
  rw [pointed_eq hpart, List.take_append_drop, hpower, List.append_nil] at h
  exact h

/-- One digit before the point, and an exponent. -/
theorem spells_power {c : Char} {r tail : List Char} {power : Int} (hds : ds = c :: r)
    (hpower : Power tail power) :
    Spells (c :: (pointed r ++ tail)) ⟨digitsValue ds, power - r.length⟩ := by
  subst hds
  have hwhole : Whole [c] := .of_head (by simp) (fun d hd => hdigit d (by simp_all)) hhead
  exact .intro hwhole (fun d hd => hdigit d (List.mem_cons_of_mem c hd)) hpower

end

theorem power_of_int (e : Int) :
    Power ('e' :: (if e < 0 then '-' else '+') :: Nat.toDigits 10 e.natAbs) e := by
  split
  · next he =>
    have h := Power.minus e.natAbs
    rwa [Int.ofNat_natAbs_of_nonpos he.le, Int.neg_neg] at h
  · next he =>
    have h := Power.plus e.natAbs
    rwa [Int.natAbs_of_nonneg (not_lt.mp he)] at h

/-- **The text of a decimal spells its number.** -/
theorem exists_spells_layout {d : Decimal} (negative : Bool) (hd : d.digits ≠ 0) :
    ∃ d', Spells d.layout d' ∧ d'.toNumber negative = d.toNumber negative := by
  obtain ⟨n, e⟩ := d
  have hn : n ≠ 0 := hd
  have hhead := head?_toDigits_ne hn
  have hdigit : ∀ c ∈ Nat.toDigits 10 n, c.isDigit := fun c => isDigit_of_mem_toDigits
  have hne : Nat.toDigits 10 n ≠ [] := Nat.toDigits_ne_nil
  have hvalue := digitsValue_toDigits n
  unfold layout
  dsimp only
  generalize Nat.toDigits 10 n = ds at hhead hdigit hne hvalue
  subst hvalue
  split
  · next hpoint =>
    split
    · next hdrop =>
      -- no digit is left for behind the point
      have hlen := List.drop_eq_nil_iff.mp hdrop
      obtain ⟨k, rfl⟩ : ∃ k : Nat, e = k := ⟨e.toNat, by omega⟩
      have hpad : ((ds.length : Int) + k).toNat - ds.length = k := by omega
      rw [List.take_of_length_le hlen, hpad]
      exact ⟨_, spells_padded hne hdigit hhead k, toNumber_shift negative hn (by omega)⟩
    · next hdrop =>
      have hlen : ((ds.length : Int) + e).toNat < ds.length :=
        not_le.mp fun h => hdrop (List.drop_eq_nil_iff.mpr h)
      have hfill : ((ds.length : Int) + e).toNat - ds.length = 0 := by omega
      have hpower : ((((ds.length : Int) + e).toNat : Nat) : Int) - ds.length = e := by omega
      have h := spells_point hne hdigit hhead (by omega) hlen
      rw [hpower] at h
      rw [hfill, List.replicate_zero, List.append_nil]
      exact ⟨_, h, rfl⟩
  · split
    · next hpoint =>
      have hpower : -((((-((ds.length : Int) + e)).toNat + ds.length : Nat)) : Int) = e := by omega
      have h := spells_fraction hne hdigit (-((ds.length : Int) + e)).toNat
      rw [hpower] at h
      exact ⟨_, h, rfl⟩
    · obtain ⟨c, r, rfl⟩ := List.exists_cons_of_ne_nil hne
      have hpower : ((c :: r).length : Int) + e - 1 - r.length = e := by
        rw [List.length_cons]
        omega
      have h := spells_power hne hdigit hhead rfl (power_of_int (((c :: r).length : Int) + e - 1))
      rw [hpower] at h
      refine ⟨_, ?_, rfl⟩
      cases r with
      | nil => exact h
      | cons d r =>
        rw [pointed_eq (List.cons_ne_nil d r)] at h
        exact h

end LayeredConf.Decimal
