import LayeredConf.Load.File

/-!
# Paths from the root

A file is told apart by its path from the root and looked for by its normal path.  To take a path
from the root, the parts that count are put on a stack, where `..` takes back the part before it;
making a path normal does the same, but keeps a `..` that finds nothing to take back.  Read once
more from the root, the parts of a normal path end up on the same stack.

    fromRoot_normalize      the normal path has the same path from the root
    identity_normalize      so the name that a file is looked for under tells which file it is
-/

namespace LayeredConf.Load

namespace Path

/-- The part that takes back the one before it. -/
def dots : List Char := ['.', '.']

/-- The parts that count, last one first. -/
def counted (rooted : Bool) (p : List Char) : List (List Char) :=
  (p.splitOn '/').foldl (addPart rooted) []

/-! ## Stacks of parts -/

theorem slash_not_mem_of_mem_splitOn {p part : List Char} (h : part ∈ p.splitOn '/') :
    '/' ∉ part := by
  induction p generalizing part with
  | nil =>
    rw [List.splitOn_nil, List.mem_singleton] at h
    simp [h]
  | cons c p ih =>
    rw [List.splitOn_cons_eq_if_modifyHead] at h
    split at h
    · rcases List.mem_cons.mp h with rfl | h
      · simp
      · exact ih h
    · next hc =>
      have hc : '/' ≠ c := fun he => hc (by rw [he]; exact beq_self_eq_true c)
      cases hs : p.splitOn '/' with
      | nil => exact absurd hs (List.splitOn_ne_nil '/' p)
      | cons first rest =>
        rw [hs, List.modifyHead_cons] at h
        rcases List.mem_cons.mp h with rfl | h
        · rw [List.mem_cons, not_or]
          exact ⟨hc, ih (by rw [hs]; exact List.mem_cons_self)⟩
        · exact ih (by rw [hs]; exact List.mem_cons_of_mem _ h)

/-- Parts that do not count change nothing. -/
theorem addPart_of_skipped {rooted : Bool} {stack : List (List Char)} {part : List Char}
    (h : part = [] ∨ part = ['.']) : addPart rooted stack part = stack := by
  unfold addPart
  exact if_pos h

theorem addPart_of_plain {rooted : Bool} {stack : List (List Char)} {part : List Char}
    (hcount : ¬(part = [] ∨ part = ['.'])) (hdots : part ≠ dots) :
    addPart rooted stack part = part :: stack := by
  unfold addPart
  rw [if_neg hcount]
  exact if_neg hdots

theorem addPart_dots_nil (rooted : Bool) :
    addPart rooted [] dots = if rooted then [] else [dots] := rfl

theorem addPart_dots_cons (rooted : Bool) (last : List Char) (rest : List (List Char)) :
    addPart rooted (last :: rest) dots =
      if last = dots then dots :: last :: rest else rest := rfl

/-- How a part meets the stack. -/
theorem part_cases (part : List Char) :
    (part = [] ∨ part = ['.']) ∨ part = dots ∨ ¬(part = [] ∨ part = ['.']) ∧ part ≠ dots := by
  by_cases hcount : part = [] ∨ part = ['.']
  · exact Or.inl hcount
  · by_cases hdots : part = dots
    · exact Or.inr (Or.inl hdots)
    · exact Or.inr (Or.inr ⟨hcount, hdots⟩)

theorem mem_addPart {rooted : Bool} {stack : List (List Char)} {part x : List Char}
    (h : x ∈ addPart rooted stack part) : x ∈ stack ∨ x = part ∧ ¬(x = [] ∨ x = ['.']) := by
  rcases part_cases part with hskip | rfl | ⟨hcount, hdots⟩
  · rw [addPart_of_skipped hskip] at h
    exact Or.inl h
  · cases stack with
    | nil =>
      cases rooted with
      | true => cases h
      | false =>
        rw [addPart_dots_nil, if_neg Bool.false_ne_true, List.mem_singleton] at h
        rw [h]
        exact Or.inr ⟨rfl, by decide⟩
    | cons last rest =>
      rw [addPart_dots_cons] at h
      split at h
      · rcases List.mem_cons.mp h with rfl | h
        · exact Or.inr ⟨rfl, by decide⟩
        · exact Or.inl h
      · exact Or.inl (List.mem_cons_of_mem _ h)
  · rw [addPart_of_plain hcount hdots] at h
    rcases List.mem_cons.mp h with rfl | h
    · exact Or.inr ⟨rfl, hcount⟩
    · exact Or.inl h

theorem mem_foldl_addPart {rooted : Bool} {parts stack : List (List Char)} {x : List Char}
    (h : x ∈ parts.foldl (addPart rooted) stack) :
    x ∈ stack ∨ x ∈ parts ∧ ¬(x = [] ∨ x = ['.']) := by
  induction parts generalizing stack with
  | nil => exact Or.inl h
  | cons part parts ih =>
    rcases ih h with h | ⟨h, hcount⟩
    · rcases mem_addPart h with h | ⟨rfl, hcount⟩
      · exact Or.inl h
      · exact Or.inr ⟨List.mem_cons_self, hcount⟩
    · exact Or.inr ⟨List.mem_cons_of_mem _ h, hcount⟩

theorem mem_counted {rooted : Bool} {p x : List Char} (h : x ∈ counted rooted p) :
    x ∈ p.splitOn '/' ∧ ¬(x = [] ∨ x = ['.']) :=
  (mem_foldl_addPart h).resolve_left List.not_mem_nil

/-- From the root, a part meets the same stack but for the `..` at its bottom. -/
theorem addPart_rooted {stack : List (List Char)} (part : List Char) (k : Nat) (h : dots ∉ stack) :
    dots ∉ addPart true stack part ∧
    ∃ k', addPart false (stack ++ List.replicate k dots) part =
      addPart true stack part ++ List.replicate k' dots := by
  rcases part_cases part with hskip | rfl | ⟨hcount, hdots⟩
  · rw [addPart_of_skipped hskip, addPart_of_skipped hskip]
    exact ⟨h, k, rfl⟩
  · cases stack with
    | nil => exact ⟨List.not_mem_nil, k + 1, by cases k <;> rfl⟩
    | cons last rest =>
      obtain ⟨hlast, hrest⟩ := List.ne_and_not_mem_of_not_mem_cons h
      rw [List.cons_append, addPart_dots_cons, addPart_dots_cons, if_neg hlast.symm,
        if_neg hlast.symm]
      exact ⟨hrest, k, rfl⟩
  · rw [addPart_of_plain hcount hdots, addPart_of_plain hcount hdots]
    exact ⟨List.not_mem_cons_of_ne_of_not_mem hdots.symm h, k, rfl⟩

theorem foldl_addPart_rooted (parts stack : List (List Char)) (k : Nat) (h : dots ∉ stack) :
    dots ∉ parts.foldl (addPart true) stack ∧
    ∃ k', parts.foldl (addPart false) (stack ++ List.replicate k dots) =
      parts.foldl (addPart true) stack ++ List.replicate k' dots := by
  induction parts generalizing stack k with
  | nil => exact ⟨h, k, rfl⟩
  | cons part parts ih =>
    obtain ⟨hdots, k', hk'⟩ := addPart_rooted part k h
    rw [List.foldl_cons, List.foldl_cons, hk']
    exact ih _ k' hdots

/-- Plain parts are put on the stack one by one. -/
theorem foldl_addPart_reverse (rooted : Bool) {parts : List (List Char)} (stack : List (List Char))
    (h : ∀ x ∈ parts, ¬(x = [] ∨ x = ['.']) ∧ x ≠ dots) :
    parts.reverse.foldl (addPart rooted) stack = parts ++ stack := by
  induction parts with
  | nil => rfl
  | cons part parts ih =>
    obtain ⟨hcount, hdots⟩ := h part List.mem_cons_self
    rw [List.reverse_cons, List.foldl_append, ih fun x hx => h x (List.mem_cons_of_mem _ hx),
      List.foldl_cons, List.foldl_nil, addPart_of_plain hcount hdots, List.cons_append]

theorem foldl_addPart_of_skipped (rooted : Bool) {parts : List (List Char)}
    (stack : List (List Char)) (h : ∀ x ∈ parts, x = [] ∨ x = ['.']) :
    parts.foldl (addPart rooted) stack = stack := by
  induction parts with
  | nil => rfl
  | cons part parts ih =>
    rw [List.foldl_cons, addPart_of_skipped (h part List.mem_cons_self),
      ih fun x hx => h x (List.mem_cons_of_mem _ hx)]

theorem foldl_addPart_dots (k : Nat) : (List.replicate k dots).foldl (addPart true) [] = [] := by
  induction k with
  | zero => rfl
  | succ k ih =>
    rw [List.replicate_succ, List.foldl_cons]
    exact ih

theorem plain_of_mem_counted {p x : List Char} (h : x ∈ counted true p) :
    ¬(x = [] ∨ x = ['.']) ∧ x ≠ dots := by
  refine ⟨(mem_counted h).2, ?_⟩
  rintro rfl
  exact (foldl_addPart_rooted (p.splitOn '/') [] 0 List.not_mem_nil).1 h

/-- Read from a start, the parts from the root are above the parts that climb. -/
theorem counted_false (p : List Char) :
    counted false p = counted true p ++ List.replicate ((counted false p).count dots) dots := by
  obtain ⟨hdots, k, hk⟩ := foldl_addPart_rooted (p.splitOn '/') [] 0 List.not_mem_nil
  have hcounted : counted false p = counted true p ++ List.replicate k dots := hk
  have hcount : (counted false p).count dots = k := by
    rw [hcounted, List.count_append, counted, List.count_eq_zero.mpr hdots,
      List.count_replicate_self, Nat.zero_add]
  rw [hcount, hcounted]

/-- The parts that count, read again from the root. -/
theorem foldl_counted (rooted : Bool) (p : List Char) :
    (counted rooted p).reverse.foldl (addPart true) [] = counted true p := by
  have hplain : (counted true p).reverse.foldl (addPart true) [] = counted true p := by
    rw [foldl_addPart_reverse true [] fun _ => plain_of_mem_counted, List.append_nil]
  cases rooted with
  | true => exact hplain
  | false =>
    rw [counted_false, List.reverse_append, List.reverse_replicate, List.foldl_append,
      foldl_addPart_dots, hplain]

/-! ## Normal paths -/

theorem intercalate_ne_nil {parts : List (List Char)} (h : ∀ x ∈ parts, x ≠ []) (hne : parts ≠ []) :
    ['/'].intercalate parts ≠ [] := by
  cases parts with
  | nil => exact absurd rfl hne
  | cons part parts =>
    have hpart : part ≠ [] := h part List.mem_cons_self
    cases parts with
    | nil => rwa [List.intercalate_singleton]
    | cons next parts =>
      rw [List.intercalate_cons_cons]
      simp

theorem intercalate_concat_nil {parts : List (List Char)} (hne : parts ≠ []) :
    ['/'].intercalate (parts ++ [[]]) = ['/'].intercalate parts ++ ['/'] := by
  induction parts with
  | nil => exact absurd rfl hne
  | cons part parts ih =>
    cases parts with
    | nil => simp
    | cons next parts =>
      rw [List.cons_append, List.intercalate_cons_of_ne_nil (by simp),
        List.intercalate_cons_of_ne_nil (by simp), ih (by simp)]
      simp

/-- The part behind a slash at the end. -/
def trailing (p : List Char) : List (List Char) := if p.getLast? = some '/' then [[]] else []

theorem eq_nil_of_mem_trailing {p x : List Char} (h : x ∈ trailing p) : x = [] := by
  unfold trailing at h
  split at h
  · exact List.mem_singleton.mp h
  · cases h

theorem intercalate_trailing (p : List Char) {parts : List (List Char)} (hne : parts ≠ []) :
    ['/'].intercalate (parts ++ trailing p) =
      ['/'].intercalate parts ++ if p.getLast? = some '/' then ['/'] else [] := by
  unfold trailing
  split
  · exact intercalate_concat_nil hne
  · rw [List.append_nil, List.append_nil]

/-- A normal path has the parts that count, between parts that do not. -/
theorem exists_normalize_eq (p : List Char) : ∃ before after : List (List Char),
    (∀ x ∈ before ++ after, x = [] ∨ x = ['.']) ∧
    before ++ (counted (isAbsolute p) p).reverse ++ after ≠ [] ∧
    normalize p =
      ['/'].intercalate (before ++ (counted (isAbsolute p) p).reverse ++ after) := by
  have hreduce : reduce (isAbsolute p) p =
    ['/'].intercalate (counted (isAbsolute p) p).reverse := rfl
  by_cases hp : p = []
  · subst hp
    exact ⟨[['.']], [], by decide, by decide, by decide⟩
  unfold normalize
  rw [if_neg hp]
  dsimp only
  by_cases hnil : counted (isAbsolute p) p = []
  · rw [hreduce, hnil]
    cases isAbsolute p with
    | true => exact ⟨[[], []], [], by decide, by decide, rfl⟩
    | false =>
      refine ⟨[['.']], trailing p, ?_, by simp, ?_⟩
      · rintro x (_ | ⟨_, hx⟩)
        · exact Or.inr rfl
        · exact Or.inl (eq_nil_of_mem_trailing hx)
      · rw [List.reverse_nil, List.append_nil, intercalate_trailing p (by simp)]
        rfl
  · have hparts : (counted (isAbsolute p) p).reverse ≠ [] := by simpa using hnil
    have hjoined : ['/'].intercalate (counted (isAbsolute p) p).reverse ≠ [] := by
      refine intercalate_ne_nil (fun x hx he => ?_) hparts
      exact (mem_counted (List.mem_reverse.mp hx)).2 (Or.inl he)
    obtain ⟨c, r, hjoin⟩ := List.exists_cons_of_ne_nil hjoined
    rw [hreduce]
    cases hroot : isAbsolute p with
    | true =>
      rw [hroot] at hparts hjoin
      refine ⟨[[]], trailing p, ?_, by simp, ?_⟩
      · rintro x (_ | ⟨_, hx⟩)
        · exact Or.inl rfl
        · exact Or.inl (eq_nil_of_mem_trailing hx)
      · rw [intercalate_trailing p (by simp), List.singleton_append,
          List.intercalate_cons_of_ne_nil hparts, hjoin]
        rfl
    | false =>
      rw [hroot] at hparts hjoin
      refine ⟨[], trailing p, fun x hx => Or.inl (eq_nil_of_mem_trailing hx), by simp [hparts], ?_⟩
      rw [List.nil_append, intercalate_trailing p hparts, hjoin]

/-- The parts of a normal path, read from the root or from a start. -/
theorem counted_normalize (rooted : Bool) (p : List Char) : counted rooted (normalize p) =
    (counted (isAbsolute p) p).reverse.foldl (addPart rooted) [] := by
  obtain ⟨before, after, hskip, hne, hnormal⟩ := exists_normalize_eq p
  have hcounted : ∀ x ∈ counted (isAbsolute p) p, '/' ∉ x := fun x hx =>
    slash_not_mem_of_mem_splitOn (mem_counted hx).1
  have hskipped : ∀ x ∈ before ++ after, '/' ∉ x := by
    intro x hx
    rcases hskip x hx with rfl | rfl <;> decide
  have hslash : ∀ x ∈ before ++ (counted (isAbsolute p) p).reverse ++ after, '/' ∉ x := by
    intro x hx
    rw [List.mem_append, List.mem_append, List.mem_reverse] at hx
    rcases hx with (hx | hx) | hx
    · exact hskipped x (List.mem_append_left _ hx)
    · exact hcounted x hx
    · exact hskipped x (List.mem_append_right _ hx)
  rw [counted, hnormal, List.splitOn_intercalate '/' hslash hne, List.foldl_append,
    List.foldl_append,
    foldl_addPart_of_skipped _ [] fun x hx => hskip x (List.mem_append_left _ hx),
    foldl_addPart_of_skipped _ _ fun x hx => hskip x (List.mem_append_right _ hx)]

theorem fromRoot_normalize (p : List Char) : fromRoot (normalize p) = fromRoot p := by
  have hcounted : counted true (normalize p) = counted true p :=
    (counted_normalize true p).trans (foldl_counted _ p)
  exact congrArg (fun parts => '/' :: ['/'].intercalate parts.reverse) hcounted

end Path

/-- The name that a file is looked for under tells which file it is. -/
theorem identity_normalize (file : String) :
    identity (String.ofList (Path.normalize file.toList)) = identity file := by
  unfold identity
  rw [String.toList_ofList, Path.fromRoot_normalize]

end LayeredConf.Load
