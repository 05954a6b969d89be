import LayeredConf.Proofs.Json.Numbers
import LayeredConf.Proofs.Text.Blank
import LayeredConf.Template.Grammar
import Mathlib.Data.Bool.AllAny

/-!
# Tokens of printed text

Each kind of text that an expression is printed with has its tokens, whatever follows, as long as
what follows does not go on with the text.  The number token takes up a dot between two texts of
digits, so the tokens of a path are its segments in groups of one or two.

    Stops rest          no identifier and no number goes on with `rest`
    tokens_quoted       a quoted text is one token
    tokens_identifier   so is an identifier
    tokens_number       and so are digits with a sign
    tokens_path         a path is its groups with dots between them
-/

namespace LayeredConf.Template

/-! ## Blanks and single characters -/

theorem tokens_nil : tokens [] = [] := by
  rw [tokens.eq_def]

theorem tokens_cons (c : Char) (r : List Char) :
    tokens (c :: r) = (nextTokens c r).1 ++ tokens (nextTokens c r).2 := by
  rw [tokens.eq_def]

theorem tokens_blanks {pad : List Char} (hpad : ∀ c ∈ pad, Text.isBlank c) (r : List Char) :
    tokens (pad ++ r) = tokens r := by
  induction pad with
  | nil => rfl
  | cons c pad ih =>
    obtain ⟨hc, hpad⟩ := List.forall_mem_cons.mp hpad
    rw [List.cons_append, tokens_cons, nextTokens, if_pos hc]
    exact ih hpad

/-- The marks between segments and arguments, and the segment for all children. -/
def marks : List Char := ['.', ',', '(', ')', '*']

def IsMark (c : Char) : Prop := c ∈ marks

instance (c : Char) : Decidable (IsMark c) := inferInstanceAs (Decidable (c ∈ marks))

theorem takeNumber_of_mark {c : Char} (hc : IsMark c) (r : List Char) :
    takeNumber (c :: r) = ([], c :: r) := by
  have hdigit : ∀ c ∈ marks, ¬c.isDigit ∧ c ≠ '-' := List.all_iff_forall_prop.mp (by decide)
  obtain ⟨hnot, hminus⟩ := hdigit c hc
  have hsign : takeMinus (c :: r) = ([], c :: r) := by
    unfold takeMinus
    split
    · next heq => exact absurd (List.cons.inj heq).1 hminus
    · rfl
  rw [takeNumber, hsign]
  simp [Decimal.takeDigits, hnot]

theorem tokens_mark {c : Char} (hc : IsMark c) (r : List Char) :
    tokens (c :: r) = .plain [c] :: tokens r := by
  have hplain : ∀ c ∈ marks, Text.isBlank c = false ∧ isQuote c = false ∧
      isIdentStart c = false ∧ single c = [.plain [c]] := List.all_iff_forall_prop.mp (by decide)
  obtain ⟨hblank, hquote, hident, hsingle⟩ := hplain c hc
  have hnext : nextTokens c r = ([.plain [c]], r) := by
    simp [nextTokens, hblank, hquote, hident, takeNumber_of_mark hc, hsingle]
  rw [tokens_cons, hnext]
  rfl

/-! ## Quoted texts -/

/-- A character between quotes, escaped if it is a backslash or the quote. -/
def escape (quote c : Char) : List Char := if c = '\\' ∨ c = quote then ['\\', c] else [c]

theorem takeQuoted_escape (quote c : Char) (r : List Char) :
    takeQuoted quote (escape quote c ++ r) =
      (c :: (takeQuoted quote r).1, (takeQuoted quote r).2) := by
  unfold escape
  split
  · exact takeQuoted.eq_2 quote c r
  · next hc =>
    rw [not_or] at hc
    rw [List.singleton_append, takeQuoted, if_neg hc.2]
    exact fun d r' hd => absurd hd hc.1

theorem takeQuoted_flatMap {quote : Char} (hquote : isQuote quote) (s r : List Char) :
    takeQuoted quote (s.flatMap (escape quote) ++ quote :: r) = (s, r) := by
  induction s with
  | nil =>
    rw [List.flatMap_nil, List.nil_append, takeQuoted, if_pos rfl]
    rintro d r' rfl
    cases hquote
  | cons c s ih =>
    rw [List.flatMap_cons, List.append_assoc, takeQuoted_escape, ih]

theorem isBlank_of_isQuote {c : Char} (hc : isQuote c) : Text.isBlank c = false := by
  simp only [isQuote, Bool.or_eq_true, decide_eq_true_eq] at hc
  rcases hc with rfl | rfl <;> rfl

theorem tokens_quoted {quote : Char} (hquote : isQuote quote) (s r : List Char) :
    tokens (quote :: (s.flatMap (escape quote) ++ quote :: r)) = .quoted s :: tokens r := by
  rw [tokens_cons, nextTokens, isBlank_of_isQuote hquote, if_neg Bool.false_ne_true, if_pos hquote,
    takeQuoted_flatMap hquote]
  rfl

/-! ## Identifiers and numbers -/

def IsIdentifier (s : List Char) : Prop :=
  ∃ c r, s = c :: r ∧ isIdentStart c = true ∧ ∀ d ∈ r, isIdentChar d = true

instance (s : List Char) : Decidable (IsIdentifier s) :=
  match s with
  | [] => .isFalse fun ⟨_, _, h, _⟩ => List.cons_ne_nil _ _ h.symm
  | c :: r => decidable_of_iff (isIdentStart c = true ∧ r.all isIdentChar = true)
      ⟨fun h => ⟨c, r, rfl, h.1, List.all_eq_true.mp h.2⟩,
        fun ⟨_, _, h, hc, hr⟩ => by cases h; exact ⟨hc, List.all_eq_true.mpr hr⟩⟩

def isDigits (s : List Char) : Bool := s ≠ [] && s.all Char.isDigit

/-- No identifier and no number goes on with the text. -/
def Stops (rest : List Char) : Prop := ∀ c ∈ rest.head?, isIdentChar c = false ∧ c ≠ '.'

theorem isIdentChar_of_isDigit {c : Char} (hc : c.isDigit) : isIdentChar c = true := by
  simp [isIdentChar, Char.isAlphanum, hc]

theorem isIdentChar_of_isIdentStart {c : Char} (hc : isIdentStart c = true) :
    isIdentChar c = true := by
  simp only [isIdentStart, Bool.or_eq_true] at hc
  rcases hc with hc | hc <;> simp [isIdentChar, Char.isAlphanum, hc]

theorem not_isIdentStart_of_isDigit {c : Char} (hc : c.isDigit) : isIdentStart c = false := by
  have hdigit := Char.isDigit_iff_toNat.mp hc
  refine Bool.eq_false_iff.mpr fun hstart => ?_
  rcases Bool.or_eq_true_iff.mp hstart with h | h
  · exact absurd (Nat.le_trans (Text.range_of_isAlpha h).1 hdigit.2) (by decide)
  · obtain rfl := of_decide_eq_true h
    cases hc

/-- The characters of identifiers and numbers are neither blanks nor quotes. -/
theorem plain_of_isIdentChar {c : Char} (hc : isIdentChar c = true) :
    Text.isBlank c = false ∧ isQuote c = false := by
  have hrange : 45 ≤ c.toNat ∧ c.toNat ≤ 122 := by
    simp only [isIdentChar, Bool.or_eq_true, decide_eq_true_eq] at hc
    rcases hc with (h | rfl) | rfl
    · rcases Bool.or_eq_true_iff.mp h with h | h
      · exact ⟨Nat.le_trans (by decide) (Text.range_of_isAlpha h).1, (Text.range_of_isAlpha h).2⟩
      · have hdigit := Char.isDigit_iff_toNat.mp h
        exact ⟨Nat.le_trans (by decide) hdigit.1, Nat.le_trans hdigit.2 (by decide)⟩
    · decide
    · decide
  constructor
  · exact Text.isBlank_of_graphic (by omega) (by omega)
  · refine Bool.eq_false_iff.mpr fun hq => ?_
    simp only [isQuote, Bool.or_eq_true, decide_eq_true_eq] at hq
    rcases hq with rfl | rfl <;> exact absurd hc (by decide)

theorem tokens_identifier {s : List Char} (hs : IsIdentifier s) {rest : List Char}
    (hrest : ∀ c ∈ rest.head?, isIdentChar c = false) :
    tokens (s ++ rest) = .plain s :: tokens rest := by
  obtain ⟨c, r, rfl, hc, hr⟩ := hs
  obtain ⟨hblank, hquote⟩ := plain_of_isIdentChar (isIdentChar_of_isIdentStart hc)
  have htake : rest.takeWhile isIdentChar = [] := by
    cases rest with
    | nil => rfl
    | cons d rest => exact List.takeWhile_cons_of_neg (by simp [hrest d rfl])
  have hdrop : rest.dropWhile isIdentChar = rest := by
    cases rest with
    | nil => rfl
    | cons d rest => exact List.dropWhile_cons_of_neg (by simp [hrest d rfl])
  rw [List.cons_append, tokens_cons, nextTokens, hblank, if_neg Bool.false_ne_true, hquote,
    if_neg Bool.false_ne_true, if_pos hc, List.takeWhile_append_of_pos hr,
    List.dropWhile_append_of_pos hr, htake, hdrop, List.append_nil]
  rfl

/-- The sign of a literal number. -/
def sign (negative : Bool) : List Char := if negative then ['-'] else []

theorem exists_head_digits {ds : List Char} (hds : isDigits ds = true) :
    ∃ c r, ds = c :: r ∧ c.isDigit ∧ ∀ d ∈ ds, d.isDigit := by
  simp only [isDigits, Bool.and_eq_true, decide_eq_true_eq, List.all_eq_true] at hds
  obtain ⟨c, r, rfl⟩ := List.exists_cons_of_ne_nil hds.1
  exact ⟨c, r, rfl, hds.2 c List.mem_cons_self, hds.2⟩

theorem takeMinus_sign (negative : Bool) {c : Char} (hc : c.isDigit) (r : List Char) :
    takeMinus (sign negative ++ c :: r) = (sign negative, c :: r) := by
  cases negative with
  | true => rfl
  | false =>
    unfold takeMinus
    split
    · next heq =>
      obtain rfl := (List.cons.inj heq).1
      cases hc
    · rfl

/-- A number is one token, with the point and the digits that follow it. -/
theorem tokens_takePoint (negative : Bool) {ds r part rest : List Char} (hds : isDigits ds = true)
    (hr : ∀ c ∈ r.head?, ¬c.isDigit) (hpoint : takePoint r = (part, rest)) :
    tokens (sign negative ++ ds ++ r) = .plain (sign negative ++ ds ++ part) :: tokens rest := by
  obtain ⟨d, ds', hcons, hdigit, hall⟩ := exists_head_digits hds
  have hne : ds ≠ [] := by simp [hcons]
  have htake : takeNumber (sign negative ++ ds ++ r) = (sign negative ++ ds ++ part, rest) := by
    have hminus := takeMinus_sign negative hdigit (ds' ++ r)
    rw [← List.cons_append, ← hcons, ← List.append_assoc] at hminus
    rw [takeNumber, hminus]
    dsimp only
    rw [Decimal.takeDigits_digits hall hr]
    dsimp only
    rw [if_neg hne, hpoint]
  obtain ⟨c, s, hs, hplain, hstart⟩ : ∃ c s, sign negative ++ ds ++ r = c :: s ∧
      (Text.isBlank c = false ∧ isQuote c = false) ∧ isIdentStart c = false := by
    cases negative with
    | true => exact ⟨'-', ds ++ r, rfl, by decide, by decide⟩
    | false =>
      exact ⟨d, ds' ++ r, by rw [hcons]; rfl, plain_of_isIdentChar (isIdentChar_of_isDigit hdigit),
        not_isIdentStart_of_isDigit hdigit⟩
  rw [hs] at htake ⊢
  rw [tokens_cons, nextTokens, hplain.1, if_neg Bool.false_ne_true, hplain.2,
    if_neg Bool.false_ne_true, hstart, if_neg Bool.false_ne_true, htake]
  split
  · next heq => simp [hne] at heq
  · next heq =>
    obtain ⟨rfl, rfl⟩ := Prod.mk.inj heq
    rfl

theorem takePoint_of_ne {r : List Char} (hr : ∀ c ∈ r.head?, c ≠ '.') : takePoint r = ([], r) := by
  unfold takePoint
  split
  · exact absurd rfl (hr '.' rfl)
  · rfl

theorem not_isDigit_of_head {rest : List Char} (hrest : ∀ c ∈ rest.head?, isIdentChar c = false) :
    ∀ c ∈ rest.head?, ¬c.isDigit := fun c hc hdigit => by
  have hchar := isIdentChar_of_isDigit hdigit
  rw [hrest c hc] at hchar
  cases hchar

theorem tokens_number (negative : Bool) {ds rest : List Char} (hds : isDigits ds = true)
    (hrest : Stops rest) :
    tokens (sign negative ++ ds ++ rest) = .plain (sign negative ++ ds) :: tokens rest := by
  have hpoint := takePoint_of_ne fun c hc => (hrest c hc).2
  have hdigit := not_isDigit_of_head fun c hc => (hrest c hc).1
  rw [tokens_takePoint negative hds hdigit hpoint, List.append_nil]

/-! ## Paths -/

/-- A segment of a path: an identifier, digits or the mark for all children. -/
def IsSegment (s : List Char) : Prop := IsIdentifier s ∨ isDigits s = true ∨ s = ['*']

instance (s : List Char) : Decidable (IsSegment s) :=
  inferInstanceAs (Decidable (IsIdentifier s ∨ isDigits s = true ∨ s = ['*']))

/-- The segments in the groups that are tokens: two texts of digits that follow each other are one
number. -/
def groups : List (List Char) → List (List Char)
  | [] => []
  | [s] => [s]
  | s :: s' :: ps =>
    if isDigits s && isDigits s' then (s ++ '.' :: s') :: groups ps else s :: groups (s' :: ps)

theorem tokens_segment {s rest : List Char} (hs : IsSegment s)
    (hrest : ∀ c ∈ rest.head?, isIdentChar c = false)
    (hpoint : isDigits s = true → takePoint rest = ([], rest)) :
    tokens (s ++ rest) = .plain s :: tokens rest := by
  rcases hs with hs | hs | rfl
  · exact tokens_identifier hs hrest
  · have htokens := tokens_takePoint false hs (not_isDigit_of_head hrest) (hpoint hs)
    rwa [List.append_nil] at htokens
  · exact tokens_mark (by decide) rest

/-- Two texts of digits with a dot between them are one token. -/
theorem tokens_pair {s s' rest : List Char} (hs : isDigits s = true) (hs' : isDigits s' = true)
    (hrest : ∀ c ∈ rest.head?, isIdentChar c = false) :
    tokens (s ++ '.' :: (s' ++ rest)) = .plain (s ++ '.' :: s') :: tokens rest := by
  obtain ⟨c, r, hcons, -, hall⟩ := exists_head_digits hs'
  have hpoint : takePoint ('.' :: (s' ++ rest)) = ('.' :: s', rest) := by
    have htake := Decimal.takeDigits_digits hall (not_isDigit_of_head hrest)
    rw [takePoint, htake]
    exact if_neg (by simp [hcons])
  have hdot : ∀ c ∈ ('.' :: (s' ++ rest)).head?, ¬c.isDigit := by
    intro c hc
    cases hc
    decide
  exact tokens_takePoint false hs hdot hpoint

/-- What follows the first segments of a path. -/
def pathTail (ps : List (List Char)) (rest : List Char) : List Char :=
  if ps = [] then rest else '.' :: (['.'].intercalate ps ++ rest)

theorem intercalate_append (s : List Char) (ps : List (List Char)) (rest : List Char) :
    ['.'].intercalate (s :: ps) ++ rest = s ++ pathTail ps rest := by
  cases ps with
  | nil => simp [pathTail]
  | cons s' ps => simp [pathTail, List.intercalate_cons_cons]

theorem pathTail_cons (s : List Char) (ps : List (List Char)) (rest : List Char) :
    pathTail (s :: ps) rest = '.' :: (s ++ pathTail ps rest) := by
  rw [pathTail, if_neg (List.cons_ne_nil _ _), intercalate_append]

theorem head_pathTail (ps : List (List Char)) {rest : List Char} (hrest : Stops rest) :
    ∀ c ∈ (pathTail ps rest).head?, isIdentChar c = false := by
  cases ps with
  | nil => exact fun c hc => (hrest c hc).1
  | cons s ps =>
    intro c hc
    rw [pathTail_cons] at hc
    cases hc
    decide

/-- A segment that is no digits does not begin with one. -/
theorem not_isDigit_of_segment {s : List Char} (hs : IsSegment s) (hnot : isDigits s = false)
    (rest : List Char) : ∀ c ∈ (s ++ rest).head?, ¬c.isDigit := by
  intro c hc hdigit
  rcases hs with ⟨d, r, rfl, hstart, -⟩ | hs | rfl
  · cases hc
    rw [not_isIdentStart_of_isDigit hdigit] at hstart
    cases hstart
  · rw [hs] at hnot
    cases hnot
  · cases hc
    exact absurd hdigit (by decide)

theorem takePoint_of_not_digit {r : List Char} (hr : ∀ c ∈ r.head?, ¬c.isDigit) :
    takePoint ('.' :: r) = ([], '.' :: r) := by
  have hnone : ∀ c ∈ ([] : List Char), c.isDigit := by simp
  have htake := Decimal.takeDigits_digits hnone hr
  rw [List.nil_append] at htake
  rw [takePoint, htake]
  exact if_pos rfl

theorem tokens_pathTail (ps : List (List Char)) (hps : ∀ s ∈ ps, IsSegment s) {rest : List Char}
    (hrest : Stops rest) :
    tokens (pathTail ps rest) =
      ((groups ps).flatMap fun g => [dot, .plain g]) ++ tokens rest := by
  have hdot : IsMark '.' := by decide
  fun_induction groups ps with
  | case1 => rfl
  | case2 s =>
    have hpoint := takePoint_of_ne fun c hc => (hrest c hc).2
    rw [pathTail_cons, tokens_mark hdot,
      tokens_segment (hps s List.mem_cons_self) (head_pathTail [] hrest) fun _ => hpoint]
    rfl
  | case3 s s' ps hdigits ih =>
    rw [Bool.and_eq_true] at hdigits
    obtain ⟨-, hps⟩ := List.forall_mem_cons.mp hps
    obtain ⟨-, hps⟩ := List.forall_mem_cons.mp hps
    rw [pathTail_cons, pathTail_cons, tokens_mark hdot,
      tokens_pair hdigits.1 hdigits.2 (head_pathTail ps hrest), ih hps]
    rfl
  | case4 s s' ps hdigits ih =>
    obtain ⟨hs, hps⟩ := List.forall_mem_cons.mp hps
    have hpoint : isDigits s = true →
        takePoint (pathTail (s' :: ps) rest) = ([], pathTail (s' :: ps) rest) := by
      intro hdigit
      -- a dot stands behind the digits, but no digit behind the dot
      rw [pathTail_cons]
      refine takePoint_of_not_digit (not_isDigit_of_segment (hps s' List.mem_cons_self) ?_ _)
      simpa [hdigit] using hdigits
    rw [pathTail_cons, tokens_mark hdot, tokens_segment hs (head_pathTail _ hrest) hpoint, ih hps]
    rfl

/-- Tokens with dots between them. -/
def dottedTokens : List (List Char) → List Token
  | [] => []
  | g :: gs => .plain g :: gs.flatMap fun g => [dot, .plain g]

theorem groups_ne_nil {ps : List (List Char)} (hne : ps ≠ []) : groups ps ≠ [] := by
  fun_cases groups ps with
  | case1 => exact absurd rfl hne
  | _ => exact List.cons_ne_nil _ _

/-- **A path is its groups with dots between them.** -/
theorem tokens_path {ps : List (List Char)} (hne : ps ≠ []) (hps : ∀ s ∈ ps, IsSegment s)
    {rest : List Char} (hrest : Stops rest) :
    tokens (['.'].intercalate ps ++ rest) = dottedTokens (groups ps) ++ tokens rest := by
  have htail := tokens_pathTail ps hps hrest
  obtain ⟨g, gs, hgroups⟩ := List.exists_cons_of_ne_nil (groups_ne_nil hne)
  rw [pathTail, if_neg hne, tokens_mark (by decide), hgroups] at htail
  rw [hgroups]
  exact (List.cons.inj htail).2

end LayeredConf.Template
