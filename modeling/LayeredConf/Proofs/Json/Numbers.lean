import LayeredConf.Json.Basic
import LayeredConf.Json.Reader
import LayeredConf.Number.Arith
import LayeredConf.Proofs.Number.Shortest

/-!
# Numbers in text

The text of a finite number is read as the number: as a decimal, and as a number in JSON, which ends
where no more of a number can follow.  Both zeros are read as the positive one.

    readUnsigned?_parts       a whole part, digits behind a point and an exponent as a decimal
    decimal_read?_chars       the text of a number as a decimal
    readMagnitude?_of_spells  the text of a decimal, without its sign, in JSON
    readNumber?_chars         the text of a number in JSON
-/

namespace LayeredConf

/-- The number that a number's text stands for: there is one zero. -/
def Number.unsignZero (x : Number) : Number := if x.isZero then .zero false else x

namespace Number

theorem chars_finite (negative : Bool) (m : Nat) (e : Int) (h : Canonical m e) :
    chars (.finite negative m e h) =
      if m = 0 then ['0']
      else if negative then '-' :: (Decimal.shortest (.finite negative m e h) m e).layout
      else (Decimal.shortest (.finite negative m e h) m e).layout := rfl

theorem isZero_finite (negative : Bool) (m : Nat) (e : Int) (h : Canonical m e) :
    isZero (.finite negative m e h) = decide (m = 0) := by
  have hpow : (2 : Rat) ^ e ≠ 0 := by positivity
  cases negative <;> simp [isZero, isFinite, toRat, scaled, hpow]

theorem unsignZero_of_ne {x : Number} (hfinite : x.isFinite = true) (hne : x ≠ .zero true) :
    x.unsignZero = x := by
  cases x with
  | nan => cases hfinite
  | infinite => cases hfinite
  | finite negative m e h =>
    rw [unsignZero, isZero_finite]
    split
    · next hzero =>
      obtain rfl : m = 0 := of_decide_eq_true hzero
      obtain rfl : e = -1074 := h.2.2.2.resolve_left (by decide)
      cases negative with
      | true => exact absurd rfl hne
      | false => rfl
    · rfl

end Number

namespace Decimal

theorem takeDigits_digits {ds rest : List Char} (hds : ∀ c ∈ ds, c.isDigit)
    (hrest : ∀ c ∈ rest.head?, ¬ c.isDigit) : takeDigits (ds ++ rest) = (ds, rest) := by
  have htake : rest.takeWhile Char.isDigit = [] := by
    cases rest with
    | nil => rfl
    | cons c r => rw [List.takeWhile_cons_of_neg (hrest c rfl)]
  have hdrop : rest.dropWhile Char.isDigit = rest := by
    cases rest with
    | nil => rfl
    | cons c r => rw [List.dropWhile_cons_of_neg (hrest c rfl)]
  rw [takeDigits, List.takeWhile_append_of_pos hds, List.dropWhile_append_of_pos hds, htake, hdrop,
    List.append_nil]

/-- Nothing of a number can follow. -/
def Closed (rest : List Char) : Prop :=
  ∀ c ∈ rest.head?, ¬ c.isDigit ∧ c ≠ '.' ∧ c ≠ 'e' ∧ c ≠ 'E'

theorem takeExponent?_power {tail rest : List Char} {power : Int} (h : Power tail power)
    (hrest : Closed rest) : takeExponent? (tail ++ rest) = some (power, rest) := by
  have hdigits (n : Nat) : takeDigits (Nat.toDigits 10 n ++ rest) = (Nat.toDigits 10 n, rest) :=
    takeDigits_digits (fun _ => isDigit_of_mem_toDigits) fun c hc => (hrest c hc).1
  cases h with
  | none =>
    cases rest with
    | nil => rfl
    | cons c r =>
      obtain ⟨-, -, he, hE⟩ := hrest c rfl
      rw [List.nil_append, takeExponent?, if_neg (by simp [he, hE])]
  | plus n =>
    simp [takeExponent?, takeSign, hdigits, digitsValue_toDigits]
  | minus n =>
    simp [takeExponent?, takeSign, hdigits, digitsValue_toDigits]

theorem takeFraction?_pointed {part rest : List Char} (hpart : ∀ c ∈ part, c.isDigit)
    (hrest : ∀ c ∈ rest.head?, ¬ c.isDigit ∧ c ≠ '.') :
    takeFraction? (pointed part ++ rest) = some (part, rest) := by
  by_cases hne : part = []
  · subst hne
    rw [pointed, if_pos rfl, List.nil_append]
    unfold takeFraction?
    split
    · exact absurd rfl (hrest '.' rfl).2
    · rfl
  · rw [pointed_eq hne, List.cons_append, takeFraction?,
      takeDigits_digits hpart fun c hc => (hrest c hc).1]
    exact if_neg hne

/-- An exponent, or what follows a number without one, goes on neither its digits nor its point. -/
theorem Power.head {tail rest : List Char} {power : Int} (h : Power tail power)
    (hrest : Closed rest) : ∀ c ∈ (tail ++ rest).head?, ¬ c.isDigit ∧ c ≠ '.' := by
  intro c hc
  cases h with
  | none => exact ⟨(hrest c hc).1, (hrest c hc).2.1⟩
  | plus n =>
    cases hc
    decide
  | minus n =>
    cases hc
    decide

/-- Digits, a point with digits behind it and an exponent are read up to the end of the text. -/
theorem readUnsigned?_parts {whole part tail : List Char} {power : Int} (hne : whole ≠ [])
    (hwhole : ∀ c ∈ whole, c.isDigit) (hpart : ∀ c ∈ part, c.isDigit) (hpower : Power tail power) :
    readUnsigned? (whole ++ (pointed part ++ tail)) =
      some ⟨digitsValue (whole ++ part), power - part.length⟩ := by
  have hend : Closed [] := by simp [Closed]
  have hhead := hpower.head hend
  have hexponent := takeExponent?_power hpower hend
  rw [List.append_nil] at hhead hexponent
  unfold readUnsigned?
  by_cases hempty : part = []
  · subst hempty
    rw [pointed, if_pos rfl, List.nil_append,
      takeDigits_digits hwhole fun c hc => (hhead c hc).1]
    dsimp only
    split
    · exact absurd rfl (hhead '.' rfl).2
    · dsimp only
      rw [if_neg fun h => hne h.1, hexponent]
  · have hdot : ∀ c ∈ ('.' :: (part ++ tail)).head?, ¬c.isDigit := by
      intro c hc
      cases hc
      decide
    have hdigits := takeDigits_digits hpart fun c hc => (hhead c hc).1
    rw [pointed_eq hempty, List.cons_append, takeDigits_digits hwhole hdot]
    simp only [hdigits]
    rw [if_neg fun h => hne h.1, hexponent]

theorem takeSign_of_digit {c : Char} (hc : c.isDigit) (r : List Char) :
    takeSign (c :: r) = (false, c :: r) := by
  unfold takeSign
  split
  · next heq =>
    obtain rfl := (List.cons.inj heq).1
    cases hc
  · next heq =>
    obtain rfl := (List.cons.inj heq).1
    cases hc
  · rfl

end Decimal

namespace Json

open Decimal

theorem isWhole_of_whole {ds : List Char} (h : Whole ds) : isWhole ds = true := by
  obtain ⟨hne, -, hzero⟩ := h
  unfold isWhole
  split
  · exact absurd rfl hne
  · rfl
  · next hn => exact absurd (List.cons.inj (hzero rfl)).2 hn
  · rfl

/-- The text of a decimal is read as its number. -/
theorem readMagnitude?_of_spells {text rest : List Char} {d : Decimal} (h : Spells text d)
    (hrest : Closed rest) (negative : Bool) :
    readMagnitude? negative (text ++ rest) = some (.number (d.toNumber negative), rest) := by
  obtain @⟨whole, part, tail, power, hwhole, hpart, hpower⟩ := h
  have hhead := hpower.head hrest
  have hpointed : ∀ c ∈ (pointed part ++ (tail ++ rest)).head?, ¬ c.isDigit := by
    intro c hc
    by_cases hne : part = []
    · rw [pointed, if_pos hne] at hc
      exact (hhead c hc).1
    · rw [pointed_eq hne] at hc
      cases hc
      decide
  rw [List.append_assoc, List.append_assoc, readMagnitude?, takeDigits_digits hwhole.2.1 hpointed]
  dsimp only
  rw [if_pos (isWhole_of_whole hwhole), takeFraction?_pointed hpart hhead]
  dsimp only [Option.bind_eq_bind, Option.bind_some]
  rw [takeExponent?_power hpower hrest]
  rfl

/-- A text that begins with a digit has no sign. -/
theorem readNumber?_of_digit {c : Char} (hc : c.isDigit) (r : List Char) :
    readNumber? (c :: r) = readMagnitude? false (c :: r) := by
  unfold readNumber?
  split
  · next he =>
    obtain rfl := (List.cons.inj he).1
    cases hc
  · rfl

theorem spells_head {text : List Char} {d : Decimal} (h : Spells text d) :
    ∃ c r, text = c :: r ∧ c.isDigit := by
  obtain @⟨whole, part, tail, power, hwhole, hpart, hpower⟩ := h
  obtain ⟨c, r, rfl⟩ := List.exists_cons_of_ne_nil hwhole.1
  exact ⟨c, r ++ (pointed part ++ tail), rfl, hwhole.2.1 c List.mem_cons_self⟩

/-- The text of a finite number: a sign and what spells its magnitude. -/
theorem exists_spells_chars {x : Number} (hx : x.isFinite = true) :
    ∃ negative text d, x.chars = (if negative then '-' :: text else text) ∧ Spells text d ∧
      d.toNumber negative = x.unsignZero := by
  cases x with
  | nan => cases hx
  | infinite => cases hx
  | finite negative m e h =>
    rw [Number.chars_finite, Number.unsignZero, Number.isZero_finite]
    by_cases hm : m = 0
    · have hwhole : Whole ['0'] := whole_zero
      have hpart : ∀ c ∈ ([] : List Char), c.isDigit := by simp
      rw [if_pos hm, if_pos (decide_eq_true hm)]
      exact ⟨false, ['0'], _, rfl, .intro hwhole hpart .none, rfl⟩
    · have hnumber := toNumber_shortest negative h hm
      obtain ⟨d, hspells, hd⟩ := exists_spells_layout negative (digits_ne_zero hnumber hm)
      rw [if_neg hm, if_neg fun hz => hm (of_decide_eq_true hz)]
      exact ⟨negative, _, d, rfl, hspells, hd.trans hnumber⟩

/-- Finite numbers read back as decimals. -/
theorem decimal_read?_chars {x : Number} (hx : x.isFinite = true) :
    Decimal.read? x.chars = some x.unsignZero := by
  obtain ⟨negative, text, d, hchars, hspells, hnumber⟩ := exists_spells_chars hx
  have hread : readUnsigned? text = some d := by
    obtain ⟨hwhole, hpart, hpower⟩ := hspells
    exact readUnsigned?_parts hwhole.1 hwhole.2.1 hpart hpower
  have hsign : takeSign x.chars = (negative, text) := by
    rw [hchars]
    cases negative with
    | true => rfl
    | false =>
      obtain ⟨c, r, rfl, hc⟩ := spells_head hspells
      exact takeSign_of_digit hc r
  rw [Decimal.read?, hsign]
  dsimp only
  rw [hread, ← hnumber]
  rfl

/-- **Finite numbers read back.** -/
theorem readNumber?_chars {x : Number} (hx : x.isFinite = true) {rest : List Char}
    (hrest : Closed rest) :
    readNumber? (x.chars ++ rest) = some (.number x.unsignZero, rest) := by
  obtain ⟨negative, text, d, hchars, hspells, hnumber⟩ := exists_spells_chars hx
  rw [hchars, ← hnumber]
  cases negative with
  | true => exact readMagnitude?_of_spells hspells hrest true
  | false =>
    have hread := readMagnitude?_of_spells hspells hrest false
    obtain ⟨c, r, rfl, hc⟩ := spells_head hspells
    exact (readNumber?_of_digit hc (r ++ rest)).trans hread

end Json

end LayeredConf
