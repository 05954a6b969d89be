import LayeredConf.Duration
import LayeredConf.Proofs.Json.Numbers
import LayeredConf.Proofs.Number.Integers
import LayeredConf.Proofs.Text.Blank

/-!
# Texts of durations

A duration is read from a clock, or from counts with units in their order, of which any may be
missing but not all.  Where one is missing the next one does not begin with its unit, and a unit is
never cut short, since the longer spellings are tried first.

    Gives s c            the text `s` gives the counts `c`
    IsUnits letter us    spellings that begin with the letter, the longer ones first
    takePart_append      a part in front of the later ones is taken as a whole
    read?_eq_some_iff    a text is read just when it gives counts, as their duration
-/

namespace LayeredConf.Duration

/-! ## What a text counts -/

/-- How many of each unit, before anything is rounded. -/
structure Counts where
  days : Nat
  hours : Nat
  minutes : Nat
  seconds : Nat

/-- In milliseconds; days are 24 hours. -/
def Counts.total (c : Counts) : Nat :=
  (((c.days * 24 + c.hours) * 60 + c.minutes) * 60 + c.seconds) * 1000

def Counts.duration (c : Counts) : Duration :=
  .ofParts { days := .ofNat c.days, hours := .ofNat c.hours, minutes := .ofNat c.minutes,
             seconds := .ofNat c.seconds }

def IsBlanks (s : List Char) : Prop := ∀ c ∈ s, Text.isBlank c = true

def IsNumeral (ds : List Char) : Prop := ds ≠ [] ∧ ∀ c ∈ ds, c.isDigit = true

/-- A count with one of the units, or nothing, which counts as 0. -/
inductive IsPart (units : List (List Char)) : List Char → Nat → Prop
  | missing : IsPart units [] 0
  | counted {pre ds gap unit : List Char} : IsBlanks pre → IsNumeral ds → IsBlanks gap →
      unit ∈ units → IsPart units (pre ++ (ds ++ (gap ++ unit))) (Decimal.digitsValue ds)

/-- Two to ten digits. -/
def IsHours (s : List Char) : Prop :=
  2 ≤ s.length ∧ s.length ≤ 10 ∧ s.all Char.isDigit = true

/-- The counts that a text gives, as `10:30`, `01:02:03` or `2 hours 30m`. -/
inductive Gives : List Char → Counts → Prop
  | clock {hours minutes : List Char} : IsHours hours → isTwoDigits minutes = true →
      Gives (hours ++ ':' :: minutes)
        ⟨0, Decimal.digitsValue hours, Decimal.digitsValue minutes, 0⟩
  | fullClock {hours minutes seconds : List Char} : IsHours hours → isTwoDigits minutes = true →
      isTwoDigits seconds = true → Gives (hours ++ ':' :: (minutes ++ ':' :: seconds))
        ⟨0, Decimal.digitsValue hours, Decimal.digitsValue minutes, Decimal.digitsValue seconds⟩
  | parts {days hours minutes seconds : List Char} {c : Counts} : IsPart dayUnits days c.days →
      IsPart hourUnits hours c.hours → IsPart minuteUnits minutes c.minutes →
      IsPart secondUnits seconds c.seconds → days ++ (hours ++ (minutes ++ seconds)) ≠ [] →
      Gives (days ++ (hours ++ (minutes ++ seconds))) c

theorem ofDigits_eq (ds : List Char) : ofDigits ds = .ofNat (Decimal.digitsValue ds) :=
  Decimal.toNumber_natCast false _

/-! ## Reading gives counts -/

theorem exists_blanks (s : List Char) : ∃ pre, IsBlanks pre ∧ s = pre ++ Text.trimLeft s :=
  ⟨s.takeWhile Text.isBlank, List.all_eq_true.mp List.all_takeWhile,
    List.takeWhile_append_dropWhile.symm⟩

/-- What is taken is a part, and what is left is the rest. -/
theorem takePart_cases (units : List (List Char)) (s : List Char) :
    ∃ part n, IsPart units part n ∧ s = part ++ (takePart units s).2 ∧
      (takePart units s).1 = .ofNat n := by
  obtain ⟨pre, hpre, hs⟩ := exists_blanks s
  unfold takePart Decimal.takeDigits
  generalize Text.trimLeft s = text at hs
  dsimp only
  have htext := List.takeWhile_append_dropWhile (p := Char.isDigit) (l := text)
  have hdigits : ∀ c ∈ text.takeWhile Char.isDigit, c.isDigit = true :=
    List.all_eq_true.mp List.all_takeWhile
  generalize text.takeWhile Char.isDigit = ds at htext hdigits
  generalize text.dropWhile Char.isDigit = rest at htext
  obtain ⟨gap, hgap, hrest⟩ := exists_blanks rest
  split
  · next c ds' unit hfind =>
    have hprefix : unit.isPrefixOf (Text.trimLeft rest) = true := by
      simpa using List.find?_some hfind
    have hunit := List.prefix_iff_eq_append.mp (List.isPrefixOf_iff_prefix.mp hprefix)
    refine ⟨_, _, .counted hpre ⟨List.cons_ne_nil c ds', hdigits⟩ hgap
      (List.mem_of_find?_eq_some hfind), ?_, ofDigits_eq _⟩
    rw [List.append_assoc, List.append_assoc, List.append_assoc, hunit, ← hrest, htext, ← hs]
  · exact ⟨[], 0, .missing, rfl, Number.ofNat_zero.symm⟩

theorem gives_of_readUnits? {s : List Char} {d : Duration} (h : readUnits? s = some d) :
    ∃ c, Gives s c ∧ c.duration = d := by
  obtain ⟨days, m₁, hdays, hs₁, hn₁⟩ := takePart_cases dayUnits s
  obtain ⟨hours, m₂, hhours, hs₂, hn₂⟩ := takePart_cases hourUnits (takePart dayUnits s).2
  obtain ⟨minutes, m₃, hminutes, hs₃, hn₃⟩ :=
    takePart_cases minuteUnits (takePart hourUnits (takePart dayUnits s).2).2
  obtain ⟨seconds, m₄, hseconds, hs₄, hn₄⟩ := takePart_cases secondUnits
    (takePart minuteUnits (takePart hourUnits (takePart dayUnits s).2).2).2
  unfold readUnits? at h
  dsimp only at h
  split at h
  · cases h
  · next hread =>
    rw [not_or, not_not] at hread
    rw [hread.2, List.append_nil] at hs₄
    rw [hs₂, hs₃, hs₄] at hs₁
    rw [hn₁, hn₂, hn₃, hn₄] at h
    refine ⟨⟨m₁, m₂, m₃, m₄⟩, ?_, Option.some.inj h⟩
    rw [hs₁]
    exact .parts hdays hhours hminutes hseconds (hs₁ ▸ hread.1)

theorem intercalate_clock (hours minutes : List Char) :
    [':'].intercalate [hours, minutes] = hours ++ ':' :: minutes := by
  rw [List.intercalate_cons_cons, List.intercalate_singleton, List.append_assoc,
    List.singleton_append]

theorem intercalate_fullClock (hours minutes seconds : List Char) :
    [':'].intercalate [hours, minutes, seconds] = hours ++ ':' :: (minutes ++ ':' :: seconds) := by
  rw [List.intercalate_cons_cons, intercalate_clock, List.append_assoc, List.singleton_append]

theorem gives_of_readClock? {s : List Char} {d : Duration} (h : readClock? s = some d) :
    ∃ c, Gives s c ∧ c.duration = d := by
  have hs : [':'].intercalate (s.splitOn ':') = s := List.intercalate_splitOn ':'
  unfold readClock? at h
  split at h
  · next hours minutes seconds hsplit =>
    rw [hsplit] at hs
    dsimp only at h
    split at h
    · next hclock =>
      split at h
      · rw [intercalate_clock] at hs
        rw [← hs, ← Option.some.inj h]
        refine ⟨_, .clock hclock.1 hclock.2, ?_⟩
        rw [Counts.duration, Number.ofNat_zero, ofDigits_eq, ofDigits_eq]
      · next seconds =>
        rw [intercalate_fullClock] at hs
        split at h
        · next hseconds =>
          rw [← hs, ← Option.some.inj h]
          refine ⟨_, .fullClock hclock.1 hclock.2 hseconds, ?_⟩
          rw [Counts.duration, Number.ofNat_zero, ofDigits_eq, ofDigits_eq, ofDigits_eq]
        · cases h
      · cases h
    · cases h
  · cases h

/-! ## Units -/

/-- Spellings of a unit: they begin with its letter, have nothing but letters in them, and none is
the beginning of a later one. -/
structure IsUnits (letter : Char) (units : List (List Char)) : Prop where
  head : ∀ unit ∈ units, unit.head? = some letter
  alpha : ∀ unit ∈ units, unit.all Char.isAlpha = true
  longest : units.Pairwise fun unit later => ¬unit <+: later

theorem isUnits_day : IsUnits 'd' dayUnits := ⟨by decide, by decide, by decide⟩
theorem isUnits_hour : IsUnits 'h' hourUnits := ⟨by decide, by decide, by decide⟩
theorem isUnits_minute : IsUnits 'm' minuteUnits := ⟨by decide, by decide, by decide⟩
theorem isUnits_second : IsUnits 's' secondUnits := ⟨by decide, by decide, by decide⟩

theorem IsUnits.plain {letter : Char} {units : List (List Char)} (hunits : IsUnits letter units)
    {unit : List Char} (hunit : unit ∈ units) {c : Char} (hc : c ∈ unit) :
    c.isDigit = false ∧ Text.isBlank c = false ∧ c ≠ ':' := by
  have halpha : c.isAlpha = true := List.all_eq_true.mp (hunits.alpha unit hunit) c hc
  refine ⟨Bool.eq_false_iff.mpr fun hdigit => ?_, Text.isBlank_of_isAlpha halpha, ?_⟩
  · have hletter := Text.range_of_isAlpha halpha
    exact absurd (hletter.1.trans (Char.isDigit_iff_toNat.mp hdigit).2) (by decide)
  · rintro rfl
    cases halpha

/-- What may stand behind a part: nothing, or a count with a unit of one of the letters. -/
inductive Tail (letters : List Char) : List Char → Prop
  | nil : Tail letters []
  | counted {pre ds gap rest : List Char} {letter : Char} : IsBlanks pre → IsNumeral ds →
      IsBlanks gap → letter ∈ letters → letter.isDigit = false ∧ Text.isBlank letter = false →
      Tail letters (pre ++ (ds ++ (gap ++ letter :: rest)))

section

variable {letter : Char} {letters : List Char} {units : List (List Char)} {part rest : List Char}

theorem IsBlanks.head {gap : List Char} (hgap : IsBlanks gap)
    (hrest : ∀ c ∈ rest.head?, c.isDigit = false) :
    ∀ c ∈ (gap ++ rest).head?, c.isDigit = false := by
  intro c hc
  cases gap with
  | nil => exact hrest c hc
  | cons b gap =>
    obtain rfl := Option.some.inj hc
    refine Bool.eq_false_iff.mpr fun hdigit => ?_
    have hblank := Text.isBlank_of_isDigit hdigit
    rw [hgap b List.mem_cons_self] at hblank
    cases hblank

/-- After a count and the blanks around it the units are tried. -/
theorem takePart_counted {pre ds gap : List Char} (hpre : IsBlanks pre) (hds : IsNumeral ds)
    (hgap : IsBlanks gap)
    (hrest : ∀ c ∈ rest.head?, c.isDigit = false ∧ Text.isBlank c = false) :
    takePart units (pre ++ (ds ++ (gap ++ rest))) =
      match units.find? (·.isPrefixOf rest) with
      | some unit => (.ofNat (Decimal.digitsValue ds), rest.drop unit.length)
      | none => (.zero false, pre ++ (ds ++ (gap ++ rest))) := by
  obtain ⟨c, ds', rfl⟩ := List.exists_cons_of_ne_nil hds.1
  have hblank : Text.isBlank c = false := Text.isBlank_of_isDigit (hds.2 c List.mem_cons_self)
  have hleft : Text.trimLeft (pre ++ (c :: ds' ++ (gap ++ rest))) = c :: ds' ++ (gap ++ rest) :=
    Text.trimLeft_append hpre fun d hd => Option.some.inj hd ▸ hblank
  have hdigits : Decimal.takeDigits (c :: ds' ++ (gap ++ rest)) = (c :: ds', gap ++ rest) :=
    Decimal.takeDigits_digits hds.2 fun d hd =>
      Bool.eq_false_iff.mp (hgap.head (fun d hd => (hrest d hd).1) d hd)
  have hright : Text.trimLeft (gap ++ rest) = rest :=
    Text.trimLeft_append hgap fun d hd => (hrest d hd).2
  unfold takePart
  rw [hleft, hdigits]
  dsimp only
  rw [hright, ofDigits_eq]
  cases units.find? (·.isPrefixOf rest) <;> rfl

theorem IsUnits.head_append (hunits : IsUnits letter units) {unit : List Char}
    (hunit : unit ∈ units) :
    ∀ c ∈ (unit ++ rest).head?, c.isDigit = false ∧ Text.isBlank c = false := by
  intro c hc
  obtain ⟨r, rfl⟩ := List.head?_eq_some_iff.mp (hunits.head _ hunit)
  obtain rfl := Option.some.inj hc
  obtain ⟨hdigit, hblank, -⟩ := hunits.plain hunit List.mem_cons_self
  exact ⟨hdigit, hblank⟩

theorem Tail.head (h : Tail letters rest) :
    ∀ c ∈ rest.head?, c.isDigit = true ∨ Text.isBlank c = true := by
  intro c hc
  cases h with
  | nil => cases hc
  | @counted pre ds gap rest letter hpre hds hgap hletter hplain =>
    cases pre with
    | nil =>
      obtain ⟨d, ds, rfl⟩ := List.exists_cons_of_ne_nil hds.1
      exact .inl (Option.some.inj hc ▸ hds.2 d List.mem_cons_self)
    | cons b pre => exact .inr (Option.some.inj hc ▸ hpre b List.mem_cons_self)

theorem Tail.append {n : Nat} (hunits : IsUnits letter units) (hpart : IsPart units part n)
    (h : Tail letters rest) : Tail (letter :: letters) (part ++ rest) := by
  cases hpart with
  | missing =>
    cases h with
    | nil => exact .nil
    | counted hpre hds hgap hletter hplain =>
      exact .counted hpre hds hgap (List.mem_cons_of_mem _ hletter) hplain
  | counted hpre hds hgap hunit =>
    obtain ⟨r, rfl⟩ := List.head?_eq_some_iff.mp (hunits.head _ hunit)
    obtain ⟨hdigit, hblank, -⟩ := hunits.plain hunit List.mem_cons_self
    rw [List.append_assoc, List.append_assoc, List.append_assoc]
    exact .counted hpre hds hgap List.mem_cons_self ⟨hdigit, hblank⟩

/-- A unit is found whole: a longer spelling would go on where the tail begins. -/
theorem find?_unit (hunits : IsUnits letter units) {unit : List Char} (hunit : unit ∈ units)
    (h : Tail letters rest) : units.find? (·.isPrefixOf (unit ++ rest)) = some unit := by
  obtain ⟨before, after, rfl⟩ := List.append_of_mem hunit
  refine List.find?_eq_some_iff_append.mpr
    ⟨List.isPrefixOf_iff_prefix.mpr (List.prefix_append unit rest), before, after, rfl, ?_⟩
  intro longer hlonger
  have hnot : ¬longer <+: unit :=
    (List.pairwise_append.mp hunits.longest).2.2 longer hlonger unit List.mem_cons_self
  rw [Bool.not_eq_true', ← Bool.not_eq_true]
  intro hprefix
  have hlong : longer <+: unit ++ rest := List.isPrefixOf_iff_prefix.mp hprefix
  rcases List.prefix_or_prefix_of_prefix hlong (List.prefix_append unit rest) with h' | ⟨more, rfl⟩
  · exact hnot h'
  · cases more with
    | nil => exact hnot ⟨[], by simp⟩
    | cons c more =>
      obtain ⟨r, rfl⟩ := (List.prefix_append_right_inj unit).mp hlong
      obtain ⟨hdigit, hblank, -⟩ :=
        hunits.plain (List.mem_append_left _ hlonger) (c := c) (by simp)
      have hhead := h.head c rfl
      rw [hdigit, hblank] at hhead
      simp at hhead

theorem find?_unit_eq_none (hunits : IsUnits letter units) {other : Char}
    (hother : other ≠ letter) : units.find? (·.isPrefixOf (other :: rest)) = none := by
  refine List.find?_eq_none.mpr fun unit hunit hprefix => hother ?_
  obtain ⟨unit, rfl⟩ := List.head?_eq_some_iff.mp (hunits.head _ hunit)
  exact (List.cons_prefix_cons.mp (List.isPrefixOf_iff_prefix.mp hprefix)).1.symm

/-- A part in front of later ones is taken as a whole. -/
theorem takePart_append {n : Nat} (hunits : IsUnits letter units) (hpart : IsPart units part n)
    (hrest : Tail letters rest) (hletter : letter ∉ letters) :
    takePart units (part ++ rest) = (.ofNat n, rest) := by
  cases hpart with
  | missing =>
    rw [Number.ofNat_zero, List.nil_append]
    cases hrest with
    | nil => rfl
    | @counted pre ds gap rest other hpre hds hgap hother hplain =>
      have hhead : ∀ c ∈ (other :: rest).head?, c.isDigit = false ∧ Text.isBlank c = false :=
        fun c hc => Option.some.inj hc ▸ hplain
      have hne : other ≠ letter := fun h => hletter (h ▸ hother)
      rw [takePart_counted hpre hds hgap hhead, find?_unit_eq_none hunits hne]
  | counted hpre hds hgap hunit =>
    rw [List.append_assoc, List.append_assoc, List.append_assoc,
      takePart_counted hpre hds hgap (hunits.head_append hunit), find?_unit hunits hunit hrest]
    dsimp only
    rw [List.drop_left]

end

/-! ## Counts are read -/

theorem IsPart.colon_not_mem {letter : Char} {units : List (List Char)} {part : List Char} {n : Nat}
    (hunits : IsUnits letter units) (h : IsPart units part n) : ':' ∉ part := by
  cases h with
  | missing => exact List.not_mem_nil
  | counted hpre hds hgap hunit =>
    intro hmem
    rcases List.mem_append.mp hmem with hmem | hmem
    · exact absurd (hpre _ hmem) (by decide)
    rcases List.mem_append.mp hmem with hmem | hmem
    · exact absurd (hds.2 _ hmem) (by decide)
    rcases List.mem_append.mp hmem with hmem | hmem
    · exact absurd (hgap _ hmem) (by decide)
    · exact absurd rfl (hunits.plain hunit hmem).2.2

theorem readClock?_of_no_colon {s : List Char} (h : ':' ∉ s) : readClock? s = none := by
  have hsplit := List.splitOn_intercalate ':' (List.forall_mem_singleton.mpr h)
    (List.cons_ne_nil s [])
  rw [List.intercalate_singleton] at hsplit
  rw [readClock?, hsplit]

theorem colon_not_mem_digits {s : List Char} (h : s.all Char.isDigit = true) : ':' ∉ s :=
  fun hmem => absurd (List.all_eq_true.mp h _ hmem) (by decide)

theorem colon_not_mem_twoDigits {s : List Char} (h : isTwoDigits s = true) : ':' ∉ s :=
  colon_not_mem_digits (Bool.and_eq_true_iff.mp h).2

section

variable {days hours minutes seconds : List Char}

theorem readClock?_clock (hhours : IsHours hours) (hminutes : isTwoDigits minutes = true) :
    readClock? (hours ++ ':' :: minutes) = some (Counts.duration
      ⟨0, Decimal.digitsValue hours, Decimal.digitsValue minutes, 0⟩) := by
  have hcolon : ∀ s ∈ [hours, minutes], ':' ∉ s := by
    simp [colon_not_mem_digits hhours.2.2, colon_not_mem_twoDigits hminutes]
  rw [← intercalate_clock, readClock?, List.splitOn_intercalate ':' hcolon (List.cons_ne_nil _ _)]
  dsimp only
  rw [if_pos ⟨hhours, hminutes⟩, Counts.duration, Number.ofNat_zero, ofDigits_eq, ofDigits_eq]

theorem readClock?_fullClock (hhours : IsHours hours) (hminutes : isTwoDigits minutes = true)
    (hseconds : isTwoDigits seconds = true) :
    readClock? (hours ++ ':' :: (minutes ++ ':' :: seconds)) = some (Counts.duration
      ⟨0, Decimal.digitsValue hours, Decimal.digitsValue minutes,
        Decimal.digitsValue seconds⟩) := by
  have hcolon : ∀ s ∈ [hours, minutes, seconds], ':' ∉ s := by
    simp [colon_not_mem_digits hhours.2.2, colon_not_mem_twoDigits hminutes,
      colon_not_mem_twoDigits hseconds]
  rw [← intercalate_fullClock, readClock?,
    List.splitOn_intercalate ':' hcolon (List.cons_ne_nil _ _)]
  dsimp only
  rw [if_pos ⟨hhours, hminutes⟩, if_pos hseconds, Counts.duration, Number.ofNat_zero,
    ofDigits_eq, ofDigits_eq, ofDigits_eq]

theorem readUnits?_parts {c : Counts} (hdays : IsPart dayUnits days c.days)
    (hhours : IsPart hourUnits hours c.hours) (hminutes : IsPart minuteUnits minutes c.minutes)
    (hseconds : IsPart secondUnits seconds c.seconds)
    (hne : days ++ (hours ++ (minutes ++ seconds)) ≠ []) :
    readUnits? (days ++ (hours ++ (minutes ++ seconds))) = some c.duration := by
  have hnil : Tail [] [] := .nil
  have htail₁ := hnil.append isUnits_second hseconds
  have htail₂ := htail₁.append isUnits_minute hminutes
  have htail₃ := htail₂.append isUnits_hour hhours
  have hlast := takePart_append isUnits_second hseconds hnil (by decide)
  rw [List.append_nil] at htail₁ htail₂ htail₃ hlast
  unfold readUnits?
  rw [takePart_append isUnits_day hdays htail₃ (by decide)]
  dsimp only
  rw [takePart_append isUnits_hour hhours htail₂ (by decide)]
  dsimp only
  rw [takePart_append isUnits_minute hminutes htail₁ (by decide)]
  dsimp only
  rw [hlast]
  exact if_neg fun h => h.elim hne fun h => h rfl

end

/-- A text that gives counts is read as their duration. -/
theorem read?_of_gives {s : List Char} {c : Counts} (h : Gives s c) :
    read? s = some c.duration := by
  cases h with
  | clock hhours hminutes => rw [read?, readClock?_clock hhours hminutes, Option.some_or]
  | fullClock hhours hminutes hseconds =>
    rw [read?, readClock?_fullClock hhours hminutes hseconds, Option.some_or]
  | parts hdays hhours hminutes hseconds hne =>
    -- a part has no colon, so the text is no clock
    have hcolon := List.not_mem_append (hdays.colon_not_mem isUnits_day)
      (List.not_mem_append (hhours.colon_not_mem isUnits_hour)
        (List.not_mem_append (hminutes.colon_not_mem isUnits_minute)
          (hseconds.colon_not_mem isUnits_second)))
    rw [read?, readClock?_of_no_colon hcolon, Option.none_or,
      readUnits?_parts hdays hhours hminutes hseconds hne]

/-- **A text is read just when it gives counts, and then as their duration.** -/
theorem read?_eq_some_iff {s : List Char} {d : Duration} :
    read? s = some d ↔ ∃ c, Gives s c ∧ c.duration = d := by
  constructor
  · intro h
    rcases Option.or_eq_some_iff.mp h with h | ⟨-, h⟩
    · exact gives_of_readClock? h
    · exact gives_of_readUnits? h
  · rintro ⟨c, h, rfl⟩
    exact read?_of_gives h

end LayeredConf.Duration
