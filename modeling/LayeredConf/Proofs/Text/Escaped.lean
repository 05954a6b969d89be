import LayeredConf.Text.Escaped

/-!
# Splitting undoes joining

With one character for the separator and another one for the escape, joining puts an escape before
every separator inside a part, and splitting takes these escapes away again.  An escape at the end
of a part would protect the separator behind it, so only the last part may end in one.

    escape sep esc p       the text of a part, as it stands between separators
    unescape_escape        the part is read back from it
    cutEscaped?_escape     the first cut of a text is behind its first part
    exists_escape          every text is one part, or a part, a separator and more text
    split_inverse          splitting and joining undo each other
-/

namespace LayeredConf.Text

/-- A part with an escape before each of its separators. -/
def escape (sep esc : Char) (p : List Char) : List Char :=
  p.flatMap fun c => if c = sep then [esc, sep] else [c]

/-! ## Cutting at a character -/

theorem cut?_append {c : Char} {s : List Char} (h : c ∉ s) (r : List Char) :
    cut? [c] (s ++ c :: r) = some (s, r) := by
  induction s with
  | nil => simp [cut?]
  | cons d s ih =>
    rw [List.mem_cons, not_or] at h
    have hd : (c == d) = false := beq_eq_false_iff_ne.mpr h.1
    rw [List.cons_append, cut?, ih h.2]
    simp [List.isPrefixOf, hd]

theorem cut?_eq_none {c : Char} {s : List Char} (h : c ∉ s) : cut? [c] s = none := by
  induction s with
  | nil => rfl
  | cons d s ih =>
    rw [List.mem_cons, not_or] at h
    have hd : (c == d) = false := beq_eq_false_iff_ne.mpr h.1
    rw [cut?, ih h.2]
    simp [List.isPrefixOf, hd]

theorem cut?_eq_some_iff {c : Char} {s before after : List Char} :
    cut? [c] s = some (before, after) ↔ s = before ++ c :: after ∧ c ∉ before := by
  constructor
  · intro h
    have hs : c ∈ s := Decidable.byContradiction fun hs => by
      rw [cut?_eq_none hs] at h
      cases h
    obtain ⟨q, r, rfl, hq⟩ := List.eq_append_cons_of_mem hs
    rw [cut?_append hq] at h
    cases h
    exact ⟨rfl, hq⟩
  · rintro ⟨rfl, hbefore⟩
    exact cut?_append hbefore after

/-- Every text is without the character, or is cut at its first occurrence. -/
@[elab_as_elim] theorem inductionOnCuts (c : Char) {motive : List Char → Prop}
    (plain : ∀ s, c ∉ s → motive s)
    (more : ∀ q s, c ∉ q → motive s → motive (q ++ c :: s)) (s : List Char) : motive s := by
  induction hn : s.length using Nat.strongRecOn generalizing s with
  | ind n ih =>
    by_cases hs : c ∈ s
    · obtain ⟨q, r, rfl, hq⟩ := List.eq_append_cons_of_mem hs
      refine more q r hq (ih r.length ?_ r rfl)
      rw [List.length_append, List.length_cons] at hn
      omega
    · exact plain s hs

/-! ## Replacing -/

theorem replaceAll_nil {old : List Char} (new : List Char) (h : old ≠ []) :
    replaceAll old new [] = [] := by
  obtain ⟨c, r, rfl⟩ := List.exists_cons_of_ne_nil h
  rw [replaceAll, dif_neg h]
  rfl

/-- A text that begins with what is replaced. -/
theorem replaceAll_append {old : List Char} (new : List Char) (h : old ≠ []) (r : List Char) :
    replaceAll old new (old ++ r) = new ++ replaceAll old new r := by
  have hcut : cut? old (old ++ r) = some ([], r) := by
    rw [cut?.eq_def, if_pos (by simp), List.drop_left]
  rw [replaceAll, dif_neg h]
  split
  · next hnone => rw [hcut] at hnone; cases hnone
  · next before after hsome =>
    rw [hcut] at hsome
    cases hsome
    rfl

/-- A text that does not keeps its first character. -/
theorem replaceAll_cons {old : List Char} (new : List Char) {c : Char} {r : List Char}
    (h : old ≠ []) (hc : old.isPrefixOf (c :: r) = false) :
    replaceAll old new (c :: r) = c :: replaceAll old new r := by
  have hcut : cut? old (c :: r) = (cut? old r).map (Prod.map (c :: ·) id) := by
    rw [cut?, if_neg (by simp [hc])]
    rfl
  rw [replaceAll, replaceAll, dif_neg h, dif_neg h, hcut]
  cases cut? old r with
  | none => rfl
  | some e => rfl

section

variable {sep esc : Char}

theorem replaceAll_eq_escape (p : List Char) :
    replaceAll [sep] [esc, sep] p = escape sep esc p := by
  induction p with
  | nil => exact replaceAll_nil _ (List.cons_ne_nil _ _)
  | cons c p ih =>
    rw [escape, List.flatMap_cons, ← escape, ← ih]
    by_cases hc : c = sep
    · rw [if_pos hc, hc]
      exact replaceAll_append _ (List.cons_ne_nil _ _) p
    · rw [if_neg hc]
      exact replaceAll_cons _ (List.cons_ne_nil _ _) (by simp [List.isPrefixOf, Ne.symm hc])

variable (h : sep ≠ esc)

include h

/-- An escaped part does not begin with a separator. -/
theorem head?_escape (p : List Char) : (escape sep esc p).head? ≠ some sep := by
  cases p with
  | nil => exact nofun
  | cons c p =>
    rw [escape, List.flatMap_cons]
    by_cases hc : c = sep
    · simp [hc, h.symm]
    · simp [hc]

theorem unescape_escape (p : List Char) : unescape [sep] [esc] (escape sep esc p) = p := by
  have hne : [esc, sep] ≠ [] := List.cons_ne_nil _ _
  rw [unescape, if_neg (List.cons_ne_nil _ _)]
  show replaceAll [esc, sep] [sep] (escape sep esc p) = p
  induction p with
  | nil => exact replaceAll_nil _ hne
  | cons c p ih =>
    rw [escape, List.flatMap_cons, ← escape]
    by_cases hc : c = sep
    · rw [if_pos hc, replaceAll_append _ hne, ih, hc]
      rfl
    · rw [if_neg hc]
      have hhead := head?_escape h p
      have hprefix : [esc, sep].isPrefixOf (c :: escape sep esc p) = false := by
        cases hp : escape sep esc p with
        | nil => simp [List.isPrefixOf]
        | cons d r =>
          rw [hp, List.head?_cons, ne_eq, Option.some.injEq] at hhead
          simp [List.isPrefixOf, Ne.symm hhead]
      show replaceAll [esc, sep] [sep] (c :: escape sep esc p) = c :: p
      rw [replaceAll_cons _ hne hprefix, ih]

/-! ## Cutting -/

omit h in
theorem escape_eq_self {p : List Char} (hp : sep ∉ p) : escape sep esc p = p := by
  induction p with
  | nil => rfl
  | cons c p ih =>
    rw [List.mem_cons, not_or] at hp
    rw [escape, List.flatMap_cons, ← escape, ih hp.2, if_neg (Ne.symm hp.1)]
    rfl

omit h in
theorem singleton_suffix_iff {c : Char} {p : List Char} : [c] <:+ p ↔ p.getLast? = some c := by
  rw [List.getLast?_eq_some_iff]
  exact exists_congr fun q => eq_comm

omit h in
/-- An escape goes before a separator, never behind the last character. -/
theorem getLast?_escape (p : List Char) : (escape sep esc p).getLast? = p.getLast? := by
  rcases List.eq_nil_or_concat p with rfl | ⟨q, c, rfl⟩
  · rfl
  · rw [List.concat_eq_append, escape, List.flatMap_append, List.flatMap_singleton]
    by_cases hc : c = sep <;> simp [hc]

omit h in
theorem escape_append_cons {q : List Char} (hq : sep ∉ q) (p : List Char) :
    escape sep esc (q ++ sep :: p) = q ++ esc :: sep :: escape sep esc p := by
  rw [escape, List.flatMap_append, List.flatMap_cons, if_pos rfl, ← escape, ← escape,
    escape_eq_self hq]
  rfl

/-- The search goes on behind a separator that is escaped. -/
theorem cutEscaped?_escaped {q : List Char} (hq : sep ∉ q) (r : List Char) :
    cutEscaped? [sep] [esc] (q ++ esc :: sep :: r) =
      (cutEscaped? [sep] [esc] r).map fun (more, rest) => (q ++ esc :: sep :: more, rest) := by
  have hcut : cut? [sep] (q ++ esc :: sep :: r) = some (q ++ [esc], r) := by
    have hnot : sep ∉ q ++ [esc] := by simp [hq, h]
    simpa using cut?_append hnot r
  rw [cutEscaped?]
  split
  · next hnone => rw [hcut] at hnone; cases hnone
  · next before after hsome =>
    rw [hcut] at hsome
    cases hsome
    rw [dif_pos (by simp)]
    simp

omit h in
/-- A separator splits if no escape is directly before it. -/
theorem cutEscaped?_plain {p : List Char} (hp : sep ∉ p) (hlast : p.getLast? ≠ some esc)
    (r : List Char) : cutEscaped? [sep] [esc] (p ++ sep :: r) = some (p, r) := by
  have hcut := cut?_append hp r
  rw [cutEscaped?]
  split
  · next hnone => rw [hcut] at hnone; cases hnone
  · next before after hsome =>
    rw [hcut] at hsome
    cases hsome
    rw [dif_neg]
    rintro ⟨-, he⟩
    exact hlast (singleton_suffix_iff.mp (List.isSuffixOf_iff_suffix.mp he))

/-- No separator of an escaped part splits. -/
theorem cutEscaped?_escape_eq_none (p : List Char) :
    cutEscaped? [sep] [esc] (escape sep esc p) = none := by
  induction p using inductionOnCuts sep with
  | plain p hp =>
    rw [escape_eq_self hp, cutEscaped?]
    split
    · rfl
    · next hsome => rw [cut?_eq_none hp] at hsome; cases hsome
  | more q p hq ih =>
    rw [escape_append_cons hq, cutEscaped?_escaped h hq, ih]
    rfl

/-- The separator behind an escaped part splits, if the part does not end in an escape. -/
theorem cutEscaped?_escape {p : List Char} (hlast : p.getLast? ≠ some esc) (r : List Char) :
    cutEscaped? [sep] [esc] (escape sep esc p ++ sep :: r) = some (escape sep esc p, r) := by
  induction p using inductionOnCuts sep with
  | plain p hp =>
    rw [escape_eq_self hp]
    exact cutEscaped?_plain hp hlast r
  | more q p hq ih =>
    have hp : p.getLast? ≠ some esc := by
      intro he
      rw [List.getLast?_append, List.getLast?_cons, he] at hlast
      exact hlast rfl
    rw [escape_append_cons hq, List.append_assoc, List.cons_append, List.cons_append,
      cutEscaped?_escaped h hq, ih hp]
    rfl

/-- A text is an escaped part, or begins with one that is separated from the rest. -/
theorem exists_escape (s : List Char) : (∃ p, s = escape sep esc p) ∨
    ∃ p r, p.getLast? ≠ some esc ∧ s = escape sep esc p ++ sep :: r := by
  induction s using inductionOnCuts sep with
  | plain s hs => exact Or.inl ⟨s, (escape_eq_self hs).symm⟩
  | more q s hq ih =>
    by_cases hlast : q.getLast? = some esc
    · -- the separator is escaped and belongs to the part
      obtain ⟨q, rfl⟩ := List.getLast?_eq_some_iff.mp hlast
      have hq : sep ∉ q := fun hm => hq (List.mem_append_left _ hm)
      obtain ⟨p, rfl⟩ | ⟨p, r, hp, rfl⟩ := ih
      · refine Or.inl ⟨q ++ sep :: p, ?_⟩
        simp [escape_append_cons hq]
      · refine Or.inr ⟨q ++ sep :: p, r, ?_, ?_⟩
        · cases hpl : p.getLast? with
          | none => simp [List.getLast?_cons, hpl, h]
          | some c => simpa [List.getLast?_cons, hpl] using hp
        · simp [escape_append_cons hq]
    · exact Or.inr ⟨q, s, hlast, by rw [escape_eq_self hq]⟩

/-- So a text is made of escaped parts, the last one first. -/
@[elab_as_elim] theorem inductionOnParts {motive : List Char → Prop}
    (last : ∀ p, motive (escape sep esc p))
    (more : ∀ p r, p.getLast? ≠ some esc → motive r → motive (escape sep esc p ++ sep :: r))
    (s : List Char) : motive s := by
  induction hn : s.length using Nat.strongRecOn generalizing s with
  | ind n ih =>
    obtain ⟨p, rfl⟩ | ⟨p, r, hlast, rfl⟩ := exists_escape h s
    · exact last p
    · refine more p r hlast (ih r.length ?_ r rfl)
      rw [List.length_append, List.length_cons] at hn
      omega

/-! ## Splitting -/

theorem splitAtMost_escape (cuts : Nat) (p : List Char) :
    splitAtMost [sep] [esc] cuts (escape sep esc p) = [p] := by
  cases cuts with
  | zero => rw [splitAtMost, unescape_escape h]
  | succ cuts =>
    rw [splitAtMost, cutEscaped?_escape_eq_none h, unescape_escape h]
    split <;> rfl

theorem splitAtMost_append {p : List Char} (hlast : p.getLast? ≠ some esc) (cuts : Nat)
    (r : List Char) : splitAtMost [sep] [esc] (cuts + 1) (escape sep esc p ++ sep :: r) =
      p :: splitAtMost [sep] [esc] cuts r := by
  rw [splitAtMost, if_neg (by simp), cutEscaped?_escape h hlast]
  dsimp only
  rw [unescape_escape h]

/-- A text has no more cuts than characters. -/
theorem splitAtMost_of_le {s : List Char} {cuts : Nat} (hle : s.length ≤ cuts) :
    splitAtMost [sep] [esc] cuts s = split [sep] [esc] s := by
  induction s using inductionOnParts h generalizing cuts with
  | last p => rw [split, splitAtMost_escape h, splitAtMost_escape h]
  | more p r hlast ih =>
    have hlen : (escape sep esc p ++ sep :: r).length =
        (escape sep esc p).length + r.length + 1 := by
      simp [Nat.add_assoc]
    obtain ⟨cuts, rfl⟩ : ∃ k, cuts = k + 1 := ⟨cuts - 1, by omega⟩
    rw [split, hlen, splitAtMost_append h hlast, splitAtMost_append h hlast, ih (by omega),
      ih (by omega)]

theorem split_escape (p : List Char) : split [sep] [esc] (escape sep esc p) = [p] :=
  splitAtMost_escape h _ p

theorem split_append {p : List Char} (hlast : p.getLast? ≠ some esc) (r : List Char) :
    split [sep] [esc] (escape sep esc p ++ sep :: r) = p :: split [sep] [esc] r := by
  have hlen : (escape sep esc p ++ sep :: r).length = (escape sep esc p).length + r.length + 1 := by
    simp [Nat.add_assoc]
  rw [split, hlen, splitAtMost_append h hlast, splitAtMost_of_le h (by omega)]

/-! ## Joining -/

omit h in
theorem join_singleton (p : List Char) : join [sep] [esc] [p] = escape sep esc p := by
  rw [← replaceAll_eq_escape]
  simp [join]

omit h in
theorem join_cons (p : List Char) {parts : List (List Char)} (hne : parts ≠ []) :
    join [sep] [esc] (p :: parts) = escape sep esc p ++ sep :: join [sep] [esc] parts := by
  obtain ⟨q, parts, rfl⟩ := List.exists_cons_of_ne_nil hne
  rw [← replaceAll_eq_escape]
  simp [join, List.intercalate]

theorem split_join {parts : List (List Char)} (hne : parts ≠ [])
    (hparts : ∀ p ∈ parts.dropLast, ¬ [esc] <:+ p) :
    split [sep] [esc] (join [sep] [esc] parts) = parts := by
  induction parts with
  | nil => exact absurd rfl hne
  | cons p parts ih =>
    by_cases hlast : parts = []
    · rw [hlast, join_singleton, split_escape h]
    · rw [List.dropLast_cons_of_ne_nil hlast] at hparts
      obtain ⟨hp, hparts⟩ := List.forall_mem_cons.mp hparts
      rw [join_cons p hlast, split_append h (mt singleton_suffix_iff.mpr hp), ih hlast hparts]

end

/-- **Splitting and joining undo each other.**  A text is joined again from its parts, no part of
which but the last ends in an escape; and parts like these are what their joined text splits
into. -/
theorem split_inverse {sep esc : Char} (h : sep ≠ esc) :
    (∀ s, join [sep] [esc] (split [sep] [esc] s) = s ∧ split [sep] [esc] s ≠ [] ∧
      ∀ p ∈ (split [sep] [esc] s).dropLast, ¬ [esc] <:+ p) ∧
    ∀ parts, parts ≠ [] → (∀ p ∈ parts.dropLast, ¬ [esc] <:+ p) →
      split [sep] [esc] (join [sep] [esc] parts) = parts := by
  constructor
  · intro s
    induction s using inductionOnParts h with
    | last p =>
      rw [split_escape h, join_singleton]
      simp
    | more p r hlast ih =>
      obtain ⟨hjoin, hne, hparts⟩ := ih
      rw [split_append h hlast, join_cons p hne, hjoin, List.dropLast_cons_of_ne_nil hne]
      exact ⟨rfl, List.cons_ne_nil _ _,
        List.forall_mem_cons.mpr ⟨mt singleton_suffix_iff.mp hlast, hparts⟩⟩
  · exact fun parts hne hparts => split_join h hne hparts

/-- Two escapes before a comma are one and an escaped comma; behind an escaped comma the next one
splits, and the last part may end in an escape. -/
theorem split_inverse_commas :
    ',' ≠ '\\' ∧ split [','] ['\\'] "a\\\\,\\,,b\\".toList = ["a\\,,".toList, "b\\".toList] ∧
    join [','] ['\\'] ["a\\,,".toList, "b\\".toList] = "a\\\\,\\,,b\\".toList := by
  have hparts : join [','] ['\\'] ["a\\,,".toList, "b\\".toList] = "a\\\\,\\,,b\\".toList := by
    simp [join_singleton, join_cons, escape]
  have hsplit := (split_inverse (show ',' ≠ '\\' by decide)).2
    ["a\\,,".toList, "b\\".toList] (by decide) (by decide)
  rw [hparts] at hsplit
  exact ⟨by decide, hsplit, hparts⟩

end LayeredConf.Text
