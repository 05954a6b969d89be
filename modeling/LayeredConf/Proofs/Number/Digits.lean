import LayeredConf.Proofs.Json.Numbers
import LayeredConf.Proofs.Number.Totals

/-!
# Integers in text

A natural number below `2^53` is written with its digits.  No decimal on a grid of whole numbers
reads as it but its own value, so the digits to write are its leading ones, and zeros fill them up.

    exists_shortest     what is written for an integer has nothing behind the point
    standsFor_toNumber  whole decimals as totals
    chars_ofNat         the text of an integer
-/

namespace LayeredConf

namespace Decimal

/-! ## The grid -/

theorem exponent_of_neighbour {x : Number} {q : Rat} {e : Int} {d : Decimal}
    (h : neighbour? x q e = some d) : d.exponent = e := by
  unfold neighbour? at h
  dsimp only at h
  split at h
  · rw [← Option.some.inj h]
    split <;> rfl
  · rw [← Option.some.inj h]
  · rw [← Option.some.inj h]
  · cases h

/-- A decimal on the grid that reads as the number is found. -/
theorem neighbour?_ne_none {x : Number} {q : Rat} {e : Int}
    (h : (⟨(q / (10 : Rat) ^ e).floor.toNat, e⟩ : Decimal).toNumber x.isNegative = x) :
    neighbour? x q e ≠ none := by
  unfold neighbour?
  dsimp only
  rw [decide_eq_true h]
  split
  · exact Option.some_ne_none _
  · exact Option.some_ne_none _
  · exact Option.some_ne_none _
  · next hread _ => cases hread

/-- The grids are tried from the coarsest, so one that suffices is not passed by. -/
theorem exponent_of_shortestFrom {x : Number} {q : Rat} (h : neighbour? x q 0 ≠ none)
    {grids e : Nat} (he : e < grids) :
    ∃ d, shortestFrom? x q grids e = some d ∧ 0 ≤ d.exponent := by
  induction grids generalizing e with
  | zero => cases he
  | succ grids ih =>
    rw [shortestFrom?]
    split
    · next d hd => exact ⟨d, rfl, by rw [exponent_of_neighbour hd]; positivity⟩
    · next hnone =>
      cases e with
      | zero => exact absurd hnone h
      | succ e =>
        rw [Nat.cast_succ, Int.add_sub_cancel]
        exact ih (by omega)

/-! ## Whole decimals -/

/-- A whole decimal reads as its value, or as a large number. -/
theorem standsFor_toNumber (k j : Nat) :
    ((⟨k, j⟩ : Decimal).toNumber false).StandsFor (k * 10 ^ j) := by
  by_cases hk : k = 0
  · rw [toNumber, if_pos hk, hk, Nat.zero_mul, ← Number.ofNat_zero]
    exact Number.standsFor_ofNat 0
  · by_cases hj : 400 < (j : Int)
    · have hlarge : mantissaBound ≤ k * 10 ^ j :=
        calc mantissaBound ≤ 10 ^ 16 := by decide
          _ ≤ 10 ^ j := Nat.pow_le_pow_right (by decide) (by omega)
          _ ≤ k * 10 ^ j := Nat.le_mul_of_pos_left _ (Nat.pos_of_ne_zero hk)
      rw [toNumber, if_neg hk, if_pos hj]
      exact .inr ⟨hlarge, .inl rfl⟩
    · have hvalue : (k : Rat) * 10 ^ (j : Int) = (k * 10 ^ j : Nat) := by push_cast; rfl
      rw [toNumber_eq_round false hk (not_lt.mp hj) (by dsimp only; omega), hvalue]
      exact Number.standsFor_ofNat _

theorem toDigits_mul_pow {k : Nat} (hk : 0 < k) (j : Nat) :
    Nat.toDigits 10 (k * 10 ^ j) = Nat.toDigits 10 k ++ List.replicate j '0' := by
  induction j with
  | zero => simp
  | succ j ih =>
    have hpos : 0 < k * 10 ^ j := by positivity
    have hshift := Nat.toDigits_append_toDigits (d := 0) (by decide : 1 < 10) hpos (by decide)
    rw [pow_succ, ← mul_assoc, mul_comm _ 10, ← Nat.add_zero (10 * _), ← hshift, ih,
      List.append_assoc, List.replicate_succ']
    rfl

/-- Zeros fill up to the point. -/
theorem layout_of_whole {k j n : Nat} (hn : n ≠ 0) (hbound : n < 10 ^ 21)
    (hvalue : k * 10 ^ j = n) : (⟨k, j⟩ : Decimal).layout = Nat.toDigits 10 n := by
  have hk : 0 < k := Nat.pos_of_ne_zero fun h => hn (by rw [← hvalue, h, Nat.zero_mul])
  have hdigits := toDigits_mul_pow hk j
  have hlength : (Nat.toDigits 10 n).length ≤ 21 :=
    (Nat.length_toDigits_le_iff (by decide) (by decide)).mpr hbound
  have hpos : 0 < (Nat.toDigits 10 k).length := List.length_pos_iff.mpr Nat.toDigits_ne_nil
  rw [hvalue] at hdigits
  rw [hdigits, List.length_append, List.length_replicate] at hlength
  have hpoint : (((Nat.toDigits 10 k).length : Int) + j).toNat =
      (Nat.toDigits 10 k).length + j := by omega
  unfold layout
  dsimp only
  rw [if_pos (by omega), hpoint, Nat.add_sub_cancel_left, List.take_of_length_le (by omega),
    List.drop_eq_nil_of_le (by omega), hdigits]

end Decimal

namespace Number

theorem binaryExponent_natCast {n : Nat} (hn : n ≠ 0) : binaryExponent n = n.log2 := by
  refine binaryExponent_eq ?_ ?_
  · exact_mod_cast Nat.log2_self_le hn
  · exact_mod_cast Nat.lt_log2_self (n := n)

/-- The decimal to write for an integer is a whole one. -/
theorem exists_shortest {n m : Nat} {e : Int} {h : Canonical m e} (hn : n < mantissaBound)
    (hzero : n ≠ 0) (heq : ofNat n = .finite false m e h) (hvalue : scaled m e = n) :
    ∃ k j : Nat, Decimal.shortest (.finite false m e h) m e = ⟨k, j⟩ ∧ k * 10 ^ j = n := by
  have hlog : n.log2 < 53 := (Nat.log2_lt hzero).mpr hn
  have hgrid : Decimal.neighbour? (.finite false m e h) (n : Rat) 0 ≠ none := by
    refine Decimal.neighbour?_ne_none ?_
    have hfloor : ((n : Rat) / 10 ^ (0 : Int)).floor.toNat = n := by
      rw [zpow_zero, div_one, ← Int.cast_natCast, Rat.floor_intCast, Int.toNat_natCast]
    rw [hfloor, Decimal.toNumber_natCast]
    exact heq
  have hstart : (binaryExponent n + 1) * 30103 / 100000 + 2 =
      ((n.log2 + 1) * 30103 / 100000 + 2 : Nat) := by
    rw [binaryExponent_natCast hzero]
    push_cast
    rfl
  obtain ⟨⟨k, exponent⟩, hfound, hwhole⟩ :=
    Decimal.exponent_of_shortestFrom hgrid (show (n.log2 + 1) * 30103 / 100000 + 2 < 24 by omega)
  obtain ⟨j, rfl⟩ := Int.eq_ofNat_of_zero_le hwhole
  have hread := Decimal.toNumber_of_shortestFrom hfound
  refine ⟨k, j, ?_, ?_⟩
  · unfold Decimal.shortest
    rw [hvalue]
    dsimp only
    rw [hstart, hfound]
    rfl
  · have htotal := Decimal.standsFor_toNumber k j
    rw [isNegative] at hread
    rw [hread, ← heq] at htotal
    exact htotal.eq_of_ofNat hn

/-- **A natural number below `2^53` is written with its digits.** -/
theorem chars_ofNat {n : Nat} (hn : n < mantissaBound) : (ofNat n).chars = Nat.toDigits 10 n := by
  by_cases hzero : n = 0
  · subst hzero
    rw [ofNat_zero]
    rfl
  · obtain ⟨m, e, h, heq, hvalue⟩ := exists_ofNat hn
    have hm : m ≠ 0 := by
      rintro rfl
      rw [scaled, Nat.cast_zero, zero_mul] at hvalue
      exact hzero (by exact_mod_cast hvalue.symm)
    obtain ⟨k, j, hshortest, hdigits⟩ := exists_shortest hn hzero heq hvalue
    rw [heq, chars_finite, if_neg hm, if_neg Bool.false_ne_true, hshortest]
    exact Decimal.layout_of_whole hzero (hn.trans (by decide)) hdigits

end Number

end LayeredConf
