import LayeredConf.Text.Blank

/-!
# Texts of lines

What is trimmed, what is a line, and what a joined text consists of.

    trimmed_trim     what is trimmed neither begins nor ends with a blank
    trim_append      blanks around a text that neither begins nor ends with one are trimmed away
    lines_append     a text without line feeds and carriage returns is a line up to a line feed
    lines_line       a line is the only line of itself
    mem_intercalate  a joined text consists of separators and its parts
-/

namespace LayeredConf.Text

theorem isBlank_of_graphic {c : Char} (h : 32 < c.toNat) (h' : c.toNat < 127) :
    isBlank c = false := by
  simp [isBlank]
  omega

theorem isBlank_of_isDigit {c : Char} (hc : c.isDigit = true) : isBlank c = false := by
  have hdigit : 48 ≤ c.toNat ∧ c.toNat ≤ 57 := Char.isDigit_iff_toNat.mp hc
  exact isBlank_of_graphic (by omega) (by omega)

theorem range_of_isAlpha {c : Char} (hc : c.isAlpha = true) : 65 ≤ c.toNat ∧ c.toNat ≤ 122 := by
  have halpha : c.isAlpha = (decide (c.val ≥ 'A'.val ∧ c.val ≤ 'Z'.val) ||
      (decide (c.val ≥ 'a'.val) && decide (c.val ≤ 'z'.val))) := rfl
  rw [halpha] at hc
  simp only [Bool.or_eq_true, Bool.and_eq_true, decide_eq_true_eq, UInt32.le_iff_toNat_le,
    ge_iff_le] at hc
  change (65 ≤ c.toNat ∧ c.toNat ≤ 90) ∨ (97 ≤ c.toNat ∧ c.toNat ≤ 122) at hc
  omega

theorem isBlank_of_isAlpha {c : Char} (hc : c.isAlpha = true) : isBlank c = false := by
  have halpha := range_of_isAlpha hc
  exact isBlank_of_graphic (by omega) (by omega)

/-- It neither begins nor ends with a blank. -/
def Trimmed (s : List Char) : Prop :=
  (∀ c ∈ s.head?, isBlank c = false) ∧ ∀ c ∈ s.getLast?, isBlank c = false

theorem dropWhile_eq_self {s : List Char} (h : ∀ c ∈ s.head?, isBlank c = false) :
    s.dropWhile isBlank = s := by
  cases s with
  | nil => rfl
  | cons c s => exact List.dropWhile_cons_of_neg (by simp [h c rfl])

theorem trimLeft_append {pre s : List Char} (hpre : ∀ c ∈ pre, isBlank c)
    (h : ∀ c ∈ s.head?, isBlank c = false) : trimLeft (pre ++ s) = s := by
  rw [trimLeft, List.dropWhile_append_of_pos hpre, dropWhile_eq_self h]

theorem trimRight_append {s post : List Char} (hpost : ∀ c ∈ post, isBlank c)
    (h : ∀ c ∈ s.getLast?, isBlank c = false) : trimRight (s ++ post) = s := by
  have hrev : ∀ c ∈ post.reverse, isBlank c := fun c hc => hpost c (List.mem_reverse.mp hc)
  rw [trimRight, List.reverse_append, List.dropWhile_append_of_pos hrev,
    dropWhile_eq_self (by simpa using h), List.reverse_reverse]

/-- Blanks around a trimmed text are trimmed away. -/
theorem trim_append {pre s post : List Char} (hpre : ∀ c ∈ pre, isBlank c) (hs : s ≠ [])
    (h : Trimmed s) (hpost : ∀ c ∈ post, isBlank c) : trim (pre ++ s ++ post) = s := by
  have hhead : ∀ c ∈ (s ++ post).head?, isBlank c = false := by
    obtain ⟨c, r, rfl⟩ := List.exists_cons_of_ne_nil hs
    exact h.1
  rw [trim, List.append_assoc, trimLeft_append hpre hhead, trimRight_append hpost h.2]

theorem trim_eq_self {s : List Char} (h : Trimmed s) : trim s = s := by
  have hnone : ∀ c ∈ ([] : List Char), isBlank c := by simp
  have hright := trimRight_append hnone h.2
  rw [List.append_nil] at hright
  rw [trim, trimLeft, dropWhile_eq_self h.1, hright]

theorem head?_dropWhile (s : List Char) : ∀ c ∈ (s.dropWhile isBlank).head?, isBlank c = false := by
  intro c hc
  have hnot := List.head?_dropWhile_not isBlank s
  rwa [Option.mem_def.mp hc] at hnot

theorem trimmed_trim (s : List Char) : Trimmed (trim s) := by
  have hprefix : trim s <+: trimLeft s :=
    List.reverse_suffix.mp (by
      rw [trim, trimRight, List.reverse_reverse]
      exact List.dropWhile_suffix isBlank)
  refine ⟨fun c hc => ?_, fun c hc => ?_⟩
  · obtain ⟨r, hr⟩ := hprefix
    refine head?_dropWhile s c ?_
    rw [← trimLeft, ← hr, List.head?_append, Option.mem_def.mp hc]
    rfl
  · rw [trim, trimRight, List.getLast?_reverse] at hc
    exact head?_dropWhile _ c hc

theorem trimmed_iff {s : List Char} : Trimmed s ↔ trim s = s :=
  ⟨trim_eq_self, fun h => h ▸ trimmed_trim s⟩

theorem lines_append {s : List Char} (h : ∀ c ∈ s, c ≠ '\n' ∧ c ≠ '\r') (r : List Char) :
    lines (s ++ '\n' :: r) = s :: lines r := by
  induction s with
  | nil => rfl
  | cons c s ih =>
    obtain ⟨⟨hfeed, hreturn⟩, hs⟩ := List.forall_mem_cons.mp h
    rw [List.cons_append, lines, ih hs]
    · exact hfeed
    · exact fun r' hc => absurd hc hreturn

theorem feed_not_mem_of_mem_lines {t s : List Char} (h : s ∈ lines t) : '\n' ∉ s := by
  fun_induction lines t generalizing s with
  | case1 =>
    rw [List.mem_singleton.mp h]
    exact List.not_mem_nil
  | case2 r ih | case3 r ih =>
    rcases List.mem_cons.mp h with rfl | h
    · exact List.not_mem_nil
    · exact ih h
  | case4 c r hc _ l ls hlines ih =>
    rw [hlines] at ih
    rcases List.mem_cons.mp h with rfl | h
    · exact List.not_mem_cons_of_ne_of_not_mem (Ne.symm hc) (ih List.mem_cons_self)
    · exact ih (List.mem_cons_of_mem _ h)
  | case5 c r hc _ hlines ih =>
    rw [List.mem_singleton.mp h]
    exact List.not_mem_cons_of_ne_of_not_mem (Ne.symm hc) List.not_mem_nil

/-- A line is the only line of itself. -/
theorem lines_line {t s : List Char} (h : s ∈ lines t) : lines s = [s] := by
  have hfeed := feed_not_mem_of_mem_lines h
  clear h
  induction s with
  | nil => rfl
  | cons c s ih =>
    rw [List.mem_cons, not_or] at hfeed
    rw [lines, ih hfeed.2]
    · exact Ne.symm hfeed.1
    · rintro r - rfl
      exact hfeed.2 List.mem_cons_self

theorem mem_intercalate {sep c : Char} {parts : List (List Char)}
    (hc : c ∈ [sep].intercalate parts) : c = sep ∨ ∃ s ∈ parts, c ∈ s := by
  induction parts with
  | nil => cases hc
  | cons s parts ih =>
    cases parts with
    | nil =>
      rw [List.intercalate_singleton] at hc
      exact Or.inr ⟨s, List.mem_cons_self, hc⟩
    | cons s' parts =>
      rw [List.intercalate_cons_cons, List.append_assoc, List.mem_append, List.mem_append,
        List.mem_singleton] at hc
      rcases hc with hc | hc | hc
      · exact Or.inr ⟨s, List.mem_cons_self, hc⟩
      · exact Or.inl hc
      · exact (ih hc).imp_right fun ⟨t, ht, hct⟩ => ⟨t, List.mem_cons_of_mem _ ht, hct⟩

end LayeredConf.Text
