import LayeredConf.Proofs.Template.Printed

/-!
# Printed expressions read back

Each printed form of an expression has tokens, whatever follows, that are read as the expression.
The number token of a path holds two segments, which reading divides again.

    Parses e toks       `toks` are read as `e`
    Prints.parses       the tokens of a printed form are read as the expression
    readExpr_printed    a template around it is one piece, and reads as the expression
-/

namespace LayeredConf.Template

/-! ## Reading tokens -/

/-- Before tokens that do not go on with an expression, the tokens are read as the expression. -/
structure Parses (e : Expr) (toks : List Token) : Prop where
  first : ∃ t ts, toks = t :: ts ∧ t ≠ closeParen
  reads : ∀ fuel ts, 2 * toks.length ≤ fuel → ts.head? ≠ some dot → ts.head? ≠ some openParen →
    readFrom fuel (toks ++ ts) = .ok (e, ts)

/-- Before a closing parenthesis, the tokens are read as the arguments. -/
def ParsesArgs (es : List Expr) (toks : List Token) : Prop :=
  ∀ fuel ts, 2 * toks.length + 1 ≤ fuel → readArgs fuel (toks ++ closeParen :: ts) = .ok (es, ts)

theorem parses_quoted (s : List Char) :
    Parses (.literal (.text (String.ofList s))) [.quoted s] where
  first := ⟨_, _, rfl, fun h => Token.noConfusion h⟩
  reads fuel ts hfuel _ _ := by
    obtain ⟨fuel, rfl⟩ : ∃ k, fuel = k + 1 := ⟨fuel - 1, by simp at hfuel; omega⟩
    rfl

theorem parses_word {s : List Char} {l : Literal} (hs : word? s = some l) :
    Parses (.literal l) [.plain s] where
  first := by
    refine ⟨_, _, rfl, fun h => ?_⟩
    obtain rfl := Token.plain.inj h
    cases hs
  reads fuel ts hfuel _ _ := by
    obtain ⟨fuel, rfl⟩ : ∃ k, fuel = k + 1 := ⟨fuel - 1, by simp at hfuel; omega⟩
    rw [List.singleton_append, readFrom, hs]

theorem parses_number {s : List Char} {x : Number} (hword : word? s = none)
    (hs : numberOf? s = some x) : Parses (.literal (.number x)) [.plain s] where
  first := by
    refine ⟨_, _, rfl, fun h => ?_⟩
    obtain rfl := Token.plain.inj h
    cases hs
  reads fuel ts hfuel hdot _ := by
    obtain ⟨fuel, rfl⟩ : ∃ k, fuel = k + 1 := ⟨fuel - 1, by simp at hfuel; omega⟩
    have hnext : (ts.head? == some dot) = false := beq_eq_false_iff_ne.mpr hdot
    rw [List.singleton_append, readFrom, hword, hs, hnext]

theorem readSegments_flatMap (gs : List (List Char)) {ts : List Token} (hdot : ts.head? ≠ some dot)
    (path : List String) :
    readSegments path ((gs.flatMap fun g => [dot, .plain g]) ++ ts) =
      .ok (path ++ gs.flatMap segments, ts) := by
  induction gs generalizing path with
  | nil =>
    rw [List.flatMap_nil, List.flatMap_nil, List.nil_append, List.append_nil]
    cases ts with
    | nil => rfl
    | cons t ts =>
      have ht : t ≠ dot := fun h => hdot (congrArg some h)
      rw [readSegments.eq_def]
      exact if_neg ht
  | cons g gs ih =>
    rw [List.flatMap_cons, List.flatMap_cons, ← List.append_assoc path, ← ih]
    rfl

section

variable {fuel : Nat} {s : List Char} {ts rest : List Token}

/-- A number is no path, unless a dot follows. -/
theorem readFrom_path {path : List String} (hword : word? s = none)
    (hnumber : numberOf? s = none ∨ ts.head? = some dot) (hcall : ts.head? ≠ some openParen)
    (h : readSegments (segments s) ts = .ok (path, rest)) :
    readFrom (fuel + 1) (.plain s :: ts) = .ok (.path path, rest) := by
  rw [readFrom, hword]
  rcases hnumber with hnumber | hdot
  · rw [hnumber, if_neg hcall, h]
  · have hnext : (ts.head? == some dot) = true := beq_iff_eq.mpr hdot
    rw [hnext, if_neg hcall, h]
    cases numberOf? s <;> rfl

theorem readFrom_call {args : List Expr} (hword : word? s = none) (hnumber : numberOf? s = none)
    (h : readArgs fuel ts = .ok (args, rest)) :
    readFrom (fuel + 1) (.plain s :: openParen :: ts) =
      .ok (.call (String.ofList s) args, rest) := by
  rw [readFrom, hword, hnumber, List.head?_cons, if_pos rfl, List.drop_one, List.tail_cons, h]

end

/-- A path whose first token is neither a word nor, unless a dot follows, a number. -/
theorem parses_dotted {g : List Char} {gs : List (List Char)} (hg : Token.plain g ≠ closeParen)
    (hword : word? g = none) (hnumber : gs = [] → numberOf? g = none) :
    Parses (.path ((g :: gs).flatMap segments)) (dottedTokens (g :: gs)) where
  first := ⟨_, _, rfl, hg⟩
  reads fuel ts hfuel hdot hopen := by
    obtain ⟨fuel, rfl⟩ : ∃ k, fuel = k + 1 := ⟨fuel - 1, by simp [dottedTokens] at hfuel; omega⟩
    have hsegments := readSegments_flatMap gs hdot (segments g)
    obtain ⟨hnext, hcall⟩ : (numberOf? g = none ∨
        ((gs.flatMap fun g => [dot, .plain g]) ++ ts).head? = some dot) ∧
        ((gs.flatMap fun g => [dot, .plain g]) ++ ts).head? ≠ some openParen := by
      cases gs with
      | nil => exact ⟨Or.inl (hnumber rfl), hopen⟩
      | cons g' gs =>
        exact ⟨Or.inr rfl, fun h => absurd (Option.some.inj h) (by decide : dot ≠ openParen)⟩
    exact readFrom_path hword hnext hcall hsegments

theorem parses_call {name : List Char} {args : List Expr} {toks : List Token}
    (hname : Token.plain name ≠ closeParen) (hword : word? name = none)
    (hnumber : numberOf? name = none) (hargs : ParsesArgs args toks) :
    Parses (.call (String.ofList name) args)
      (.plain name :: openParen :: (toks ++ [closeParen])) where
  first := ⟨_, _, rfl, hname⟩
  reads fuel ts hfuel _ _ := by
    obtain ⟨fuel, rfl⟩ : ∃ k, fuel = k + 1 := ⟨fuel - 1, by simp at hfuel; omega⟩
    have hread := hargs fuel ts (by simp at hfuel; omega)
    rw [List.cons_append, List.cons_append, List.append_assoc, List.singleton_append]
    exact readFrom_call hword hnumber hread

/-! ## Arguments -/

theorem parsesArgs_nil : ParsesArgs [] [] := by
  intro fuel ts hfuel
  obtain ⟨fuel, rfl⟩ : ∃ k, fuel = k + 1 := ⟨fuel - 1, by omega⟩
  rw [List.nil_append, readArgs]
  exact if_pos rfl

section

variable {e : Expr} {toks : List Token} (he : Parses e toks)

include he

theorem head_ne_closeParen (ts : List Token) : (toks ++ ts).head? ≠ some closeParen := by
  obtain ⟨t, ts', rfl, ht⟩ := he.first
  exact fun h => ht (Option.some.inj h)

theorem parsesArgs_last : ParsesArgs [e] toks := by
  intro fuel ts hfuel
  obtain ⟨fuel, rfl⟩ : ∃ k, fuel = k + 1 := ⟨fuel - 1, by omega⟩
  have hread := he.reads fuel (closeParen :: ts) (by omega)
    (fun h => absurd (Option.some.inj h) (by decide : closeParen ≠ dot))
    (fun h => absurd (Option.some.inj h) (by decide : closeParen ≠ openParen))
  rw [readArgs, if_neg (head_ne_closeParen he _), hread]
  exact if_neg fun h => absurd (Option.some.inj h) (by decide : closeParen ≠ comma)

theorem parsesArgs_cons {es : List Expr} {toks' : List Token} (hes : ParsesArgs es toks') :
    ParsesArgs (e :: es) (toks ++ comma :: toks') := by
  intro fuel ts hfuel
  obtain ⟨fuel, rfl⟩ : ∃ k, fuel = k + 1 := ⟨fuel - 1, by omega⟩
  rw [List.length_append, List.length_cons] at hfuel
  have hrest := hes fuel ts (by omega)
  have hread := he.reads fuel (comma :: (toks' ++ closeParen :: ts)) (by omega)
    (fun h => absurd (Option.some.inj h) (by decide : comma ≠ dot))
    (fun h => absurd (Option.some.inj h) (by decide : comma ≠ openParen))
  rw [List.append_assoc, List.cons_append, readArgs, if_neg (head_ne_closeParen he _), hread]
  dsimp only
  rw [List.head?_cons, if_pos rfl, List.drop_one, List.tail_cons, hrest]

end

/-! ## Words and numbers -/

theorem word?_of_mem {s : List Char} {l : Literal} (h : (s, l) ∈ words) : word? s = some l := by
  have hall : ∀ w ∈ words, word? w.1 = some w.2 := by decide
  exact hall _ h

theorem word?_of_not_reserved {s : List Char} (hs : s ∉ reserved) : word? s = none := by
  have hne : s ≠ "true".toList ∧ s ≠ "false".toList ∧ s ≠ "null".toList := by
    simpa [reserved, words] using hs
  rw [word?, if_neg hne.1, if_neg hne.2.1, if_neg hne.2.2]

theorem word?_of_head {c : Char} (hc : isIdentStart c = false) (r : List Char) :
    word? (c :: r) = none := by
  refine word?_of_not_reserved fun hmem => ?_
  obtain ⟨d, r', heq, hd, -⟩ := isIdentifier_of_reserved hmem
  rw [← (List.cons.inj heq).1, hc] at hd
  cases hd

theorem word?_number (negative : Bool) {ds : List Char} (hds : isDigits ds = true) :
    word? (sign negative ++ ds) = none := by
  obtain ⟨c, r, rfl, hc, -⟩ := exists_head_digits hds
  cases negative with
  | true => exact word?_of_head (by decide : isIdentStart '-' = false) (c :: r)
  | false => exact word?_of_head (not_isIdentStart_of_isDigit hc) r

theorem numberOf?_eq_none {s : List Char} (hs : ∀ c ∈ s.head?, c ≠ '-' ∧ ¬c.isDigit) :
    numberOf? s = none := by
  unfold numberOf?
  cases s with
  | nil => rfl
  | cons c r =>
    obtain ⟨hminus, hdigit⟩ := hs c rfl
    split
    · next heq => exact absurd (List.cons.inj heq).1 hminus
    · exact if_neg (by simpa using hdigit)

theorem readUnsigned?_pointed {ds part : List Char} (hds : isDigits ds = true)
    (hpart : ∀ c ∈ part, c.isDigit) : Decimal.readUnsigned? (ds ++ Decimal.pointed part) =
      some ⟨Decimal.digitsValue (ds ++ part), -part.length⟩ := by
  obtain ⟨c, r, hcons, -, hall⟩ := exists_head_digits hds
  have hne : ds ≠ [] := by simp [hcons]
  have hread := Decimal.readUnsigned?_parts hne hall hpart .none
  rwa [List.append_nil, Int.zero_sub] at hread

/-- A text that begins with digits, behind a sign or not, is read as a decimal. -/
theorem numberOf?_signed (negative : Bool) {ds : List Char} (hds : isDigits ds = true)
    (r : List Char) : numberOf? (sign negative ++ (ds ++ r)) =
      (Decimal.readUnsigned? (ds ++ r)).map (Decimal.toNumber negative) := by
  obtain ⟨c, ds, rfl, hc, -⟩ := exists_head_digits hds
  have hsign : Decimal.takeSign (sign negative ++ (c :: ds ++ r)) = (negative, c :: ds ++ r) := by
    cases negative with
    | true => rfl
    | false => exact Decimal.takeSign_of_digit hc (ds ++ r)
  unfold numberOf?
  rw [Decimal.read?, hsign]
  cases negative with
  | true => exact if_pos hc
  | false =>
    split
    · next heq =>
      obtain rfl := (List.cons.inj heq).1
      cases hc
    · exact if_pos hc

theorem numberOf?_number (negative : Bool) {ds : List Char} (hds : isDigits ds = true) :
    numberOf? (sign negative ++ ds) = some (.round negative (Decimal.digitsValue ds)) := by
  have hsigned := numberOf?_signed negative hds []
  have hnone : ∀ c ∈ ([] : List Char), c.isDigit := by simp
  have hread := readUnsigned?_pointed hds hnone
  rw [Decimal.pointed, if_pos rfl] at hread
  rw [hread, List.append_nil] at hsigned
  rw [hsigned, ← Decimal.toNumber_natCast]
  rfl

/-! ## Segments and groups -/

theorem dot_not_mem_of_segment {s : List Char} (hs : IsSegment s) : '.' ∉ s := by
  intro hmem
  rcases hs with ⟨c, r, rfl, hc, hr⟩ | hs | rfl
  · rcases List.mem_cons.mp hmem with rfl | hmem
    · cases hc
    · exact absurd (hr '.' hmem) (by decide)
  · obtain ⟨-, -, -, -, hall⟩ := exists_head_digits hs
    exact absurd (hall '.' hmem) (by decide)
  · exact absurd hmem (by decide)

theorem segments_dotless {ps : List (List Char)} (hne : ps ≠ []) (hps : ∀ s ∈ ps, '.' ∉ s) :
    segments (['.'].intercalate ps) = ps.map String.ofList := by
  rw [segments, List.splitOn_intercalate '.' hps hne]

theorem segments_intercalate (ps : List (List Char)) (hne : ps ≠ []) (hps : ∀ s ∈ ps, IsSegment s) :
    segments (['.'].intercalate ps) = ps.map String.ofList :=
  segments_dotless hne fun s hs => dot_not_mem_of_segment (hps s hs)

theorem segments_of_segment {s : List Char} (hs : IsSegment s) :
    segments s = [String.ofList s] := by
  have hone := segments_intercalate [s] (List.cons_ne_nil _ _) (List.forall_mem_singleton.mpr hs)
  rwa [List.intercalate_singleton] at hone

/-- The groups of a path have its segments. -/
theorem groups_flatMap {ps : List (List Char)} (hps : ∀ s ∈ ps, IsSegment s) :
    (groups ps).flatMap segments = ps.map String.ofList := by
  fun_induction groups ps with
  | case1 => rfl
  | case2 s =>
    rw [List.flatMap_singleton, segments_of_segment (hps s List.mem_cons_self)]
    rfl
  | case3 s s' ps _ ih =>
    have hpair := segments_intercalate [s, s'] (by simp) fun t ht =>
      hps t (by simpa using List.mem_append_left ps ht)
    rw [List.intercalate_cons_cons, List.intercalate_singleton, List.append_assoc,
      List.singleton_append] at hpair
    rw [List.flatMap_cons, hpair, ih fun t ht => hps t (by simp [ht])]
    rfl
  | case4 s s' ps _ ih =>
    obtain ⟨hs, hps⟩ := List.forall_mem_cons.mp hps
    rw [List.flatMap_cons, segments_of_segment hs, ih hps]
    rfl

theorem plain_ne_closeParen {c : Char} (hc : c ≠ ')') (r : List Char) :
    Token.plain (c :: r) ≠ closeParen := fun h => hc (List.cons.inj (Token.plain.inj h)).1

theorem numberOf?_segment {s : List Char} (hs : IsSegment s) (hnot : isDigits s = false) :
    numberOf? s = none := by
  refine numberOf?_eq_none fun c hc => ⟨?_, ?_⟩
  · rintro rfl
    rcases hs with ⟨d, r, rfl, hd, -⟩ | hs | rfl
    · cases hc
      cases hd
    · rw [hs] at hnot
      cases hnot
    · cases hc
  · have hdigit := not_isDigit_of_segment hs hnot []
    rw [List.append_nil] at hdigit
    exact hdigit c hc

theorem IsIdentifier.isDigits {s : List Char} (hs : IsIdentifier s) : isDigits s = false := by
  obtain ⟨c, r, rfl, hc, -⟩ := hs
  refine Bool.eq_false_iff.mpr fun hdigits => ?_
  obtain ⟨d, r', heq, hd, -⟩ := exists_head_digits hdigits
  obtain rfl := (List.cons.inj heq).1
  rw [not_isIdentStart_of_isDigit hd] at hc
  cases hc

/-- The first token of a path is no literal. -/
theorem IsPath.groups {ps : List (List Char)} (hps : IsPath ps) :
    ∃ g gs, groups ps = g :: gs ∧ Token.plain g ≠ closeParen ∧ word? g = none ∧
      (gs = [] → numberOf? g = none) := by
  obtain ⟨hne, hsegments, hword, hnumber⟩ := hps
  match ps, hne with
  | [s], _ =>
    have hs := hsegments s List.mem_cons_self
    obtain ⟨c, r, hcons, hc⟩ := exists_head_segment hs
    refine ⟨s, [], rfl, hcons ▸ plain_ne_closeParen hc r, word?_of_not_reserved (hword s rfl),
      fun _ => numberOf?_segment hs (Bool.eq_false_iff.mpr fun hdigits => hnumber ?_)⟩
    exact ⟨by simp, List.forall_mem_singleton.mpr hdigits⟩
  | s :: s' :: ps, _ =>
    have hs := hsegments s List.mem_cons_self
    obtain ⟨c, r, hcons, hc⟩ := exists_head_segment hs
    rw [Template.groups]
    split
    · next hdigits =>
      rw [Bool.and_eq_true] at hdigits
      obtain ⟨d, r', hcons', hdigit, -⟩ := exists_head_digits hdigits.1
      refine ⟨_, _, rfl, ?_, ?_, fun hnil => absurd ?_ hnumber⟩
      · rw [hcons]
        exact plain_ne_closeParen hc _
      · rw [hcons']
        exact word?_of_head (not_isIdentStart_of_isDigit hdigit) _
      · -- the two segments are a number only if no dot follows
        obtain rfl : ps = [] := by
          by_contra hps
          exact groups_ne_nil hps hnil
        exact ⟨by simp, by simp [hdigits]⟩
    · exact ⟨s, _, rfl, hcons ▸ plain_ne_closeParen hc r, word?_of_not_reserved (hword s rfl),
        fun hnil => absurd hnil (groups_ne_nil (List.cons_ne_nil _ _))⟩

/-! ## Reading printed forms -/

theorem Blanks.stops {pad rest : List Char} (hpad : Blanks pad) (hrest : Stops rest) :
    Stops (pad ++ rest) := by
  cases pad with
  | nil => exact hrest
  | cons c pad =>
    intro d hd
    cases hd
    have hblank := hpad c List.mem_cons_self
    constructor
    · refine Bool.eq_false_iff.mpr fun hchar => ?_
      rw [(plain_of_isIdentChar hchar).1] at hblank
      cases hblank
    · rintro rfl
      cases hblank

/-- The marks that a call is written with. -/
def breaks : List Char := ['(', ')', ',']

def IsBreak (c : Char) : Prop := c ∈ breaks

instance (c : Char) : Decidable (IsBreak c) := inferInstanceAs (Decidable (c ∈ breaks))

theorem IsBreak.isMark {c : Char} (hc : IsBreak c) : IsMark c := by
  have hall : ∀ c ∈ breaks, IsMark c := List.all_iff_forall_prop.mp (by decide)
  exact hall c hc

theorem IsBreak.stops {c : Char} (hc : IsBreak c) (r : List Char) : Stops (c :: r) := by
  have hall : ∀ c ∈ breaks, isIdentChar c = false ∧ c ≠ '.' :=
    List.all_iff_forall_prop.mp (by decide)
  intro d hd
  cases hd
  exact hall c hc

theorem tokens_call {name pad : List Char} (hname : IsIdentifier name) (hpad : Blanks pad)
    (text rest : List Char) :
    tokens (name ++ pad ++ '(' :: (text ++ [')']) ++ rest) =
      .plain name :: openParen :: tokens (text ++ ')' :: rest) := by
  have hopen : IsBreak '(' := by decide
  have hstops := hpad.stops (hopen.stops (text ++ ')' :: rest))
  rw [List.append_assoc, List.append_assoc, List.cons_append, List.append_assoc,
    List.singleton_append, tokens_identifier hname fun c hc => (hstops c hc).1, tokens_blanks hpad,
    tokens_mark hopen.isMark]
  rfl

/-- An argument has the tokens of its expression, up to a comma or a parenthesis. -/
theorem tokens_argument {s : List Char} {toks : List Token}
    (hs : ∀ rest, Stops rest → tokens (s ++ rest) = toks ++ tokens rest) {pre post : List Char}
    (hpre : Blanks pre) (hpost : Blanks post) {c : Char} (hc : IsBreak c) (rest : List Char) :
    tokens (pre ++ s ++ post ++ c :: rest) = toks ++ .plain [c] :: tokens rest := by
  rw [List.append_assoc, List.append_assoc, tokens_blanks hpre, hs _ (hpost.stops (hc.stops rest)),
    tokens_blanks hpost, tokens_mark hc.isMark]

mutual

/-- The tokens of a printed form are read as the expression. -/
theorem Prints.parses {e : Expr} {s : List Char} (h : Prints e s) :
    ∃ toks, (∀ rest, Stops rest → tokens (s ++ rest) = toks ++ tokens rest) ∧ Parses e toks := by
  cases h with
  | text s hquote =>
    have hparses := parses_quoted s.toList
    rw [String.ofList_toList] at hparses
    refine ⟨_, fun rest _ => ?_, hparses⟩
    rw [List.cons_append, List.append_assoc, List.singleton_append, tokens_quoted hquote]
    rfl
  | number negative hds =>
    exact ⟨_, fun rest hrest => tokens_number negative hds hrest,
      parses_number (word?_number negative hds) (numberOf?_number negative hds)⟩
  | word hword =>
    have hs := isIdentifier_of_reserved (mem_reserved hword)
    exact ⟨_, fun rest hrest => tokens_identifier hs fun c hc => (hrest c hc).1,
      parses_word (word?_of_mem hword)⟩
  | path hps =>
    obtain ⟨g, gs, hgroups, hclose, hword, hnumber⟩ := hps.groups
    refine ⟨_, fun rest hrest => tokens_path hps.ne hps.segments hrest, ?_⟩
    rw [← groups_flatMap hps.segments, hgroups]
    exact parses_dotted hclose hword hnumber
  | call hname hword hpad hargs =>
    obtain ⟨toks, htokens, hparses⟩ := hargs.parses
    obtain ⟨c, r, hcons, hc⟩ := exists_head_segment (Or.inl hname)
    have hclose := hcons ▸ plain_ne_closeParen hc r
    have hnumber := numberOf?_segment (Or.inl hname) hname.isDigits
    refine ⟨_, fun rest _ => ?_,
      parses_call hclose (word?_of_not_reserved hword) hnumber hparses⟩
    rw [tokens_call hname hpad, htokens]
    simp

theorem PrintsArgs.parses {es : List Expr} {s : List Char} (h : PrintsArgs es s) :
    ∃ toks, (∀ rest, tokens (s ++ ')' :: rest) = toks ++ closeParen :: tokens rest) ∧
      ParsesArgs es toks := by
  cases h with
  | nil hpad =>
    refine ⟨_, fun rest => ?_, parsesArgs_nil⟩
    rw [tokens_blanks hpad, tokens_mark (by decide)]
    rfl
  | last hpre he hpost =>
    obtain ⟨toks, htokens, hparses⟩ := he.parses
    exact ⟨toks, fun rest => tokens_argument htokens hpre hpost (by decide) rest,
      parsesArgs_last hparses⟩
  | cons hpre he hpost hargs =>
    obtain ⟨toks, htokens, hparses⟩ := he.parses
    obtain ⟨toks', htokens', hparses'⟩ := hargs.parses
    refine ⟨_, fun rest => ?_, parsesArgs_cons hparses hparses'⟩
    rw [List.append_assoc, List.cons_append, tokens_argument htokens hpre hpost (by decide),
      htokens', List.append_assoc]
    rfl

end

/-! ## Printed forms in templates -/

theorem Prints.readExpr {e : Expr} {s : List Char} (h : Prints e s) : readExpr s = .ok e := by
  obtain ⟨toks, htokens, hparses⟩ := h.parses
  have hnil : ∀ c ∈ ([] : List Char).head?, isIdentChar c = false ∧ c ≠ '.' := by simp
  have htoks := htokens [] hnil
  rw [List.append_nil, tokens_nil, List.append_nil] at htoks
  have hread := hparses.reads (2 * toks.length + 1) [] (by omega) (by simp) (by simp)
  rw [List.append_nil] at hread
  rw [Template.readExpr, htoks, readTokens, hread]

/-- **A template around a printed form, with blanks at both ends, is one piece, and it reads as the
expression.** -/
theorem readExpr_printed {e : Expr} {pre s post : List Char} (h : Prints e s) (hpre : Blanks pre)
    (hpost : Blanks post) :
    pieces (opening ++ (pre ++ s ++ post) ++ ['\x7d']) = [.expr (pre ++ s ++ post)] ∧
      readExpr (Text.trim (pre ++ s ++ post)) = .ok e := by
  refine ⟨pieces_passed ((hpre.passes.append h.passes).append hpost.passes), ?_⟩
  rw [Text.trim_append hpre h.trimmed.1 h.trimmed.2 hpost]
  exact h.readExpr

theorem readExpr_printed_nested :
    pieces "$\x7b f( \"a\\\"\x7d\" , -12,g (a.1.2.b))\t\x7d".toList =
        [.expr " f( \"a\\\"\x7d\" , -12,g (a.1.2.b))\t".toList] ∧
      readExpr (Text.trim " f( \"a\\\"\x7d\" , -12,g (a.1.2.b))\t".toList) =
        .ok (.call "f" [.literal (.text "a\"\x7d"), .literal (.number (.round true 12)),
          .call "g" [.path ["a", "1", "2", "b"]]]) := by
  have hquoted : Prints (.literal (.text "a\"\x7d")) "\"a\\\"\x7d\"".toList :=
    .text "a\"\x7d" rfl
  have hnumber : Prints (.literal (.number (.round true 12))) "-12".toList :=
    @Prints.number true ['1', '2'] rfl
  have hpath : Prints (.path ["a", "1", "2", "b"]) "a.1.2.b".toList :=
    @Prints.path [['a'], ['1'], ['2'], ['b']] ⟨by decide, by decide, by decide, by decide⟩
  have hinner : Prints (.call "g" [.path ["a", "1", "2", "b"]]) "g (a.1.2.b)".toList :=
    @Prints.call ['g'] [' '] _ _ (by decide) (by decide) (by decide)
      (@PrintsArgs.last _ [] _ [] (by decide) hpath (by decide))
  have hargs := @PrintsArgs.cons _ _ [' '] _ [' '] _ (by decide) hquoted (by decide)
    (@PrintsArgs.cons _ _ [' '] _ [] _ (by decide) hnumber (by decide)
      (@PrintsArgs.last _ [] _ [] (by decide) hinner (by decide)))
  have houter := @Prints.call ['f'] [] _ _ (by decide) (by decide) (by decide) hargs
  exact @readExpr_printed _ [' '] _ ['\t'] houter (by decide) (by decide)

end LayeredConf.Template
