import LayeredConf.Proofs.Duration.Counts
import LayeredConf.Proofs.Number.Digits

/-!
# Printed durations read back

What is read has whole seconds.  As long as its total is below `2^53` milliseconds it is exact, and
it is written as hours, minutes and seconds that are the carried total again.

    standsFor_duration    a duration stands for the total of its counts
    toList_text           the text of whole seconds
    read?_text            the text of a duration that is read is read as the duration
-/

namespace LayeredConf.Duration

/-! ## Totals -/

theorem standsFor_ofMilliseconds {x : Number} {n : Nat} (h : x.StandsFor n) :
    (ofMilliseconds x).milliseconds.StandsFor n := by
  unfold ofMilliseconds
  split
  · next hzero =>
    rw [h.isZero_iff.mp hzero, zero, ← Number.ofNat_zero]
    exact Number.standsFor_ofNat 0
  · exact h

/-- A duration stands for the total of its counts. -/
theorem standsFor_duration (c : Counts) : c.duration.milliseconds.StandsFor c.total := by
  have hdays := (Number.standsFor_ofNat c.days).mul (b := 86400000) (by decide) (by decide)
  have hhours := (Number.standsFor_ofNat c.hours).mul (b := 3600000) (by decide) (by decide)
  have hminutes := (Number.standsFor_ofNat c.minutes).mul (b := 60000) (by decide) (by decide)
  have hseconds := (Number.standsFor_ofNat c.seconds).mul (b := 1000) (by decide) (by decide)
  have hsum := (((hdays.add hhours).add hminutes).add hseconds).add (Number.standsFor_ofNat 0)
  have htotal : c.days * 86400000 + c.hours * 3600000 + c.minutes * 60000 + c.seconds * 1000 + 0 =
      c.total := by
    unfold Counts.total
    omega
  rw [htotal, Number.ofNat_zero] at hsum
  exact standsFor_ofMilliseconds hsum

theorem duration_eq {c : Counts} (h : c.total < mantissaBound) :
    c.duration = ⟨.ofNat c.total⟩ := by
  have hvalue := (standsFor_duration c).eq_ofNat h
  cases hd : c.duration with
  | mk ms => rw [← hvalue, hd]

/-! ## Text -/

theorem toList_text_ofNat {n : Nat} (hn : n < mantissaBound) :
    (Number.ofNat n).text.toList = Nat.toDigits 10 n := by
  rw [Number.text, String.toList_ofList, Number.chars_ofNat hn]

section

variable {k : Nat} (hk : 1000 * k < mantissaBound)

include hk

theorem floor_hours : (Number.ofNat (1000 * k) / msPerHour).floor = .ofNat (k / 3600) := by
  rw [msPerHour, Number.floor_ofNat_div hk (by decide) (by decide)]
  congr 1
  omega

theorem floor_minutes :
    (Number.ofNat (1000 * k) % msPerHour / msPerMinute).floor = .ofNat (k % 3600 / 60) := by
  rw [msPerHour, Number.ofNat_mod_ofNat hk (by decide) (by decide), msPerMinute,
    Number.floor_ofNat_div (by omega) (by decide) (by decide)]
  congr 1
  omega

/-- Seconds are a quotient that is not cut off; of whole seconds it is exact. -/
theorem div_seconds : Number.ofNat (1000 * k) % msPerMinute / msPerSecond = .ofNat (k % 60) := by
  rw [msPerMinute, Number.ofNat_mod_ofNat hk (by decide) (by decide), msPerSecond,
    Number.ofNat_div_of_dvd (by omega) (by decide) (by decide) (by omega)]
  congr 1
  omega

theorem text_of_pos (hpos : 0 < k) : (⟨.ofNat (1000 * k)⟩ : Duration).text =
    let seconds := (Number.ofNat (k % 60)).text ++ "s"
    let minutes := (Number.ofNat (k % 3600 / 60)).text ++ "m" ++ seconds
    if 0 < k / 3600 then (Number.ofNat (k / 3600)).text ++ "h" ++ minutes
    else if 0 < k % 3600 / 60 then minutes
    else seconds := by
  have hzero : (Number.ofNat (1000 * k)).isZero = false := by
    rw [Number.isZero_ofNat hk, decide_eq_false (by omega)]
  have hsign : (Number.ofNat (1000 * k)).lt (.ofNat 0) = false := by
    rw [Number.lt_ofNat hk (by decide), decide_eq_false (by omega)]
  have hlong : (Number.ofNat (1000 * k)).lt msPerSecond = false := by
    rw [msPerSecond, Number.lt_ofNat hk (by decide), decide_eq_false (by omega)]
  have hhours := Number.lt_ofNat (a := 0) (b := k / 3600) (by decide) (by omega)
  have hminutes := Number.lt_ofNat (a := 0) (b := k % 3600 / 60) (by decide) (by omega)
  unfold text
  dsimp only
  rw [hzero, ← Number.ofNat_zero, hsign, Number.abs_ofNat hk, hlong, floor_hours hk,
    floor_minutes hk, div_seconds hk, hhours, hminutes]
  simp only [Bool.false_eq_true, if_false, decide_eq_true_eq, String.empty_append]

/-- Whole seconds are written as hours, minutes and seconds, from the first that is not 0. -/
theorem toList_text : (⟨.ofNat (1000 * k)⟩ : Duration).text.toList =
    (if 0 < k / 3600 then Nat.toDigits 10 (k / 3600) ++ ['h'] else []) ++
      ((if 0 < k / 60 then Nat.toDigits 10 (k % 3600 / 60) ++ ['m'] else []) ++
        (Nat.toDigits 10 (k % 60) ++ ['s'])) := by
  rcases Nat.eq_zero_or_pos k with rfl | hpos
  · unfold text
    dsimp only
    rw [Number.isZero_ofNat hk]
    rfl
  · have hhours := toList_text_ofNat (n := k / 3600) (by omega)
    have hminutes := toList_text_ofNat (n := k % 3600 / 60) (by omega)
    have hseconds := toList_text_ofNat (n := k % 60) (by omega)
    rw [text_of_pos hk hpos]
    dsimp only
    by_cases hhour : 0 < k / 3600
    · have hminute : 0 < k / 60 := by omega
      rw [if_pos hhour, if_pos hhour, if_pos hminute]
      simp [hhours, hminutes, hseconds]
    · have hsame : k / 60 = k % 3600 / 60 := by omega
      rw [if_neg hhour, if_neg hhour, hsame]
      by_cases hminute : 0 < k % 3600 / 60
      · rw [if_pos hminute, if_pos hminute]
        simp [hminutes, hseconds]
      · rw [if_neg hminute, if_neg hminute]
        simp [hseconds]

end

theorem isPart_toDigits {units : List (List Char)} {unit : List Char} (hunit : unit ∈ units)
    (n : Nat) : IsPart units (Nat.toDigits 10 n ++ unit) n := by
  have hnone : IsBlanks [] := fun c hc => absurd hc List.not_mem_nil
  have hdigits : IsNumeral (Nat.toDigits 10 n) :=
    ⟨Nat.toDigits_ne_nil, fun c hc => Decimal.isDigit_of_mem_toDigits hc⟩
  have h := IsPart.counted hnone hdigits hnone hunit
  rwa [Decimal.digitsValue_toDigits] at h

/-- The text gives the carried counts. -/
theorem gives_text {k : Nat} (hk : 1000 * k < mantissaBound) :
    Gives (⟨.ofNat (1000 * k)⟩ : Duration).text.toList ⟨0, k / 3600, k % 3600 / 60, k % 60⟩ := by
  rw [toList_text hk]
  change Gives ([] ++ _) _
  refine .parts .missing ?_ ?_ (isPart_toDigits (by decide) _) (by simp)
  · split
    · exact isPart_toDigits (by decide) _
    · next hzero =>
      dsimp only
      rw [Nat.eq_zero_of_not_pos hzero]
      exact .missing
  · split
    · exact isPart_toDigits (by decide) _
    · next hzero =>
      have hminutes : k % 3600 / 60 = 0 := by omega
      dsimp only
      rw [hminutes]
      exact .missing

/-- **Printed durations read back.**  A text that is read has a total, and up to `2^53 - 1`
milliseconds the duration is this total and is read from its text again. -/
theorem read?_text {s : List Char} {d : Duration} (hs : read? s = some d) :
    (∃ c, Gives s c) ∧ ∀ c, Gives s c →
      (d.milliseconds.isExactInteger = true ↔ c.total ≤ 2 ^ 53 - 1) ∧
      (c.total ≤ 2 ^ 53 - 1 →
        d.milliseconds = .ofNat c.total ∧ read? d.text.toList = some d) := by
  refine ⟨(read?_eq_some_iff.mp hs).imp fun _ => And.left, fun c hc => ?_⟩
  obtain rfl : c.duration = d := Option.some.inj ((read?_of_gives hc).symm.trans hs)
  refine ⟨(standsFor_duration c).isExactInteger_iff.trans Nat.lt_succ_iff, fun hbound => ?_⟩
  have htotal : c.total < mantissaBound := Nat.lt_succ_of_le hbound
  rw [duration_eq htotal]
  refine ⟨rfl, ?_⟩
  -- the carried counts have the total of the counts that were read
  obtain ⟨k, hk⟩ : ∃ k, c.total = 1000 * k := ⟨_, Nat.mul_comm _ _⟩
  rw [hk] at htotal ⊢
  have hcarried : Counts.total ⟨0, k / 3600, k % 3600 / 60, k % 60⟩ = 1000 * k := by
    unfold Counts.total
    dsimp only
    omega
  rw [read?_of_gives (gives_text htotal), duration_eq (hcarried.trans_lt htotal), hcarried]

/-- Minutes and seconds beyond 60 carry, not far below the bound. -/
theorem read?_text_carried : read? "2501999791:99:99".toList = some ⟨.ofNat 9007199253639000⟩ ∧
    (⟨.ofNat 9007199253639000⟩ : Duration).text = "2501999792h40m39s" ∧
    read? "2501999792h40m39s".toList = some ⟨.ofNat 9007199253639000⟩ := by
  have hread : read? "2501999791:99:99".toList = some ⟨.ofNat 9007199253639000⟩ := by
    decide +kernel
  have htext : (⟨.ofNat 9007199253639000⟩ : Duration).text = "2501999792h40m39s" := by
    decide +kernel
  have hexact : (Number.ofNat 9007199253639000).isExactInteger = true :=
    Number.isExactInteger_ofNat (by decide)
  obtain ⟨⟨c, hc⟩, hcounts⟩ := read?_text hread
  obtain ⟨hiff, hback⟩ := hcounts c hc
  refine ⟨hread, htext, ?_⟩
  rw [← htext]
  exact (hback (hiff.mp hexact)).2

-- the seconds of a greater total are rounded
example : (read? "104249991374h59m0s".toList).map text = some "104249991374h58m59.968s" := by
  decide +kernel

end LayeredConf.Duration
