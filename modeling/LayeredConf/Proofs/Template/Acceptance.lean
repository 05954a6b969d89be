import LayeredConf.Proofs.Template.Reading
import Mathlib.Data.List.TakeWhile

/-!
# Which expressions are accepted

A path is made of identifiers, integers and `*`, and a call has an identifier for its name.  The
reader takes every token that is not quoted where an expression or a segment is due, so that a mark
in such a place is read as a path or a name.  An accepted text keeps to the grammar exactly if no
mark stands in such a place.

    Reads e toks              `toks` are the tokens of an expression that is read as `e`
    readFrom_reads            what is read has such tokens
    isKey_segments_iff        a token's segments are keys if it is an identifier, a number or `*`
    readExpr_inGrammar_iff    an expression keeps to the grammar if its tokens are well placed
-/

namespace LayeredConf.Template

/-! ## The grammar -/

/-- An integer that may have a minus sign. -/
def IsInteger (s : List Char) : Prop :=
  ∃ negative ds, s = sign negative ++ ds ∧ isDigits ds = true

/-- What a path is made of. -/
def IsKey (s : List Char) : Prop := IsIdentifier s ∨ IsInteger s ∨ s = ['*']

mutual

/-- The segments of each path are keys and the name of each call is an identifier. -/
def Expr.InGrammar : Expr → Prop
  | .literal _ => True
  | .path segments => ∀ s ∈ segments, IsKey s.toList
  | .call name args => IsIdentifier name.toList ∧ AllInGrammar args

def AllInGrammar : List Expr → Prop
  | [] => True
  | e :: es => e.InGrammar ∧ AllInGrammar es

end

/-! ## Tokens in their places -/

/-- A number, which may have a point with digits behind it. -/
def IsNumeral (s : List Char) : Prop :=
  ∃ negative ds part, s = sign negative ++ (ds ++ Decimal.pointed part) ∧ isDigits ds = true ∧
    ∀ c ∈ part, c.isDigit

/-- What may begin an expression. -/
def Token.IsTerm : Token → Prop
  | .quoted _ => True
  | .plain s => IsIdentifier s ∨ IsNumeral s ∨ s = ['*']

/-- The token may stand behind the other one, or in front: no mark is where an expression or a
segment is due, and `*` is no name. -/
def Fits (before : Option Token) (t : Token) : Prop :=
  (before = none ∨ before = some dot → t.IsTerm) ∧
  (before = some openParen ∨ before = some comma → t.IsTerm ∨ t = closeParen) ∧
  (before = some (.plain ['*']) → t ≠ openParen)

/-- Each token fits behind the one before it. -/
def WellPlaced (before : Option Token) : List Token → Prop
  | [] => True
  | t :: ts => Fits before t ∧ WellPlaced (some t) ts

/-! ## What is read -/

mutual

/-- The tokens of an expression.  Anything but a quoted text, a word or a number is a name before a
parenthesis and begins a path elsewhere. -/
inductive Reads : Expr → List Token → Prop
  | quoted (s : List Char) : Reads (.literal (.text (String.ofList s))) [.quoted s]
  | word {s : List Char} {l : Literal} : word? s = some l → Reads (.literal l) [.plain s]
  | number {s : List Char} {x : Number} : word? s = none → numberOf? s = some x →
      Reads (.literal (.number x)) [.plain s]
  | path {s : List Char} {gs : List (List Char)} : word? s = none →
      (gs = [] → numberOf? s = none) →
      Reads (.path ((s :: gs).flatMap segments)) (dottedTokens (s :: gs))
  | call {name : List Char} {args : List Expr} {toks : List Token} : word? name = none →
      numberOf? name = none → ReadsArgs args toks →
      Reads (.call (String.ofList name) args) (.plain name :: openParen :: (toks ++ [closeParen]))

/-- The tokens of arguments; a closing parenthesis does not begin one. -/
inductive ReadsArgs : List Expr → List Token → Prop
  | nil : ReadsArgs [] []
  | last {e : Expr} {toks : List Token} : toks.head? ≠ some closeParen → Reads e toks →
      ReadsArgs [e] toks
  | cons {e : Expr} {es : List Expr} {toks toks' : List Token} : toks.head? ≠ some closeParen →
      Reads e toks → ReadsArgs es toks' → ReadsArgs (e :: es) (toks ++ comma :: toks')

end

theorem readSegments_dotted {path path' : List String} {ts rest : List Token}
    (h : readSegments path ts = .ok (path', rest)) :
    ∃ gs : List (List Char), ts = (gs.flatMap fun g => [dot, .plain g]) ++ rest ∧
      path' = path ++ gs.flatMap segments ∧ rest.head? ≠ some dot := by
  fun_induction readSegments path ts generalizing path' rest with
  | case1 path s rest' ih =>
    obtain ⟨gs, rfl, rfl, hrest⟩ := ih h
    exact ⟨s :: gs, rfl, by simp, hrest⟩
  | case2 => cases h
  | case3 path t ts hdot =>
    cases h
    exact ⟨[], rfl, by simp, fun hd => hdot (Option.some.inj hd)⟩
  | case4 path =>
    cases h
    exact ⟨[], rfl, by simp, nofun⟩

/-- With this fuel, an expression that is read has its tokens in front of the rest. -/
def ReadsFrom (fuel : Nat) : Prop :=
  ∀ ts e rest, readFrom fuel ts = .ok (e, rest) → ∃ toks, ts = toks ++ rest ∧ Reads e toks

def ReadsArgsFrom (fuel : Nat) : Prop :=
  ∀ ts es rest, readArgs fuel ts = .ok (es, rest) →
    ∃ toks, ts = toks ++ closeParen :: rest ∧ ReadsArgs es toks

theorem head?_eq_some_cons {ts : List Token} {t : Token} (h : ts.head? = some t) :
    ts = t :: ts.drop 1 := by
  obtain ⟨ts, rfl⟩ := List.head?_eq_some_iff.mp h
  rfl

theorem readsFrom_succ {fuel : Nat} (hargs : ReadsArgsFrom fuel) : ReadsFrom (fuel + 1) := by
  intro ts e rest h
  match ts with
  | [] => cases h
  | .quoted s :: ts =>
    cases h
    exact ⟨[.quoted s], rfl, .quoted s⟩
  | .plain s :: ts =>
    rw [readFrom] at h
    split at h
    · next l hword =>
      cases h
      exact ⟨[.plain s], rfl, .word hword⟩
    · next hword =>
      split at h
      · next x hnumber _ =>
        cases h
        exact ⟨[.plain s], rfl, .number hword hnumber⟩
      · next hnot =>
        have hnumber : ts.head? ≠ some dot → numberOf? s = none := by
          intro hdot
          cases hx : numberOf? s with
          | none => rfl
          | some x => exact absurd (beq_eq_false_iff_ne.mpr hdot) (hnot x hx)
        split at h
        · next hopen =>
          split at h
          · next args rest' hread =>
            cases h
            obtain ⟨toks, hdrop, hreads⟩ := hargs _ _ _ hread
            refine ⟨_, ?_, .call hword (hnumber ?_) hreads⟩
            · rw [head?_eq_some_cons hopen, hdrop]
              simp
            · rw [hopen]
              decide
          · cases h
        · split at h
          · next path rest' hread =>
            cases h
            obtain ⟨gs, rfl, rfl, hrest⟩ := readSegments_dotted hread
            refine ⟨_, rfl, .path hword fun hnil => hnumber ?_⟩
            rwa [hnil]
          · cases h

theorem readsArgsFrom_succ {fuel : Nat} (hexpr : ReadsFrom fuel) (hargs : ReadsArgsFrom fuel) :
    ReadsArgsFrom (fuel + 1) := by
  intro ts es rest h
  rw [readArgs] at h
  split at h
  · next hclose =>
    cases h
    exact ⟨[], head?_eq_some_cons hclose, .nil⟩
  · next hclose =>
    split at h
    · cases h
    · next arg rest' hread =>
      obtain ⟨toks, rfl, hreads⟩ := hexpr _ _ _ hread
      have hhead : toks.head? ≠ some closeParen := by
        intro hhead
        rw [head?_eq_some_cons hhead] at hclose
        exact hclose rfl
      split at h
      · next hcomma =>
        split at h
        · next args rest'' hmore =>
          cases h
          obtain ⟨toks', hdrop, hreads'⟩ := hargs _ _ _ hmore
          refine ⟨_, ?_, .cons hhead hreads hreads'⟩
          rw [head?_eq_some_cons hcomma, hdrop]
          simp
        · cases h
      · split at h
        · next hend =>
          cases h
          exact ⟨toks, by rw [head?_eq_some_cons hend]; rfl, .last hhead hreads⟩
        · cases h

/-- What is read has tokens of an expression, which are all that is taken. -/
theorem readFrom_reads (fuel : Nat) : ReadsFrom fuel ∧ ReadsArgsFrom fuel := by
  induction fuel with
  | zero => exact ⟨nofun, nofun⟩
  | succ fuel ih => exact ⟨readsFrom_succ ih.2, readsArgsFrom_succ ih.1 ih.2⟩

theorem Reads.of_readTokens {ts : List Token} {e : Expr} (h : readTokens ts = .ok e) :
    Reads e ts := by
  unfold readTokens at h
  split at h
  · cases h
  · next hread =>
    cases h
    obtain ⟨toks, rfl, hreads⟩ := (readFrom_reads _).1 _ _ _ hread
    rwa [List.append_nil]
  · cases h

/-! ## Tokens of a text -/

/-- What a token of a text can be. -/
def Token.Lexed : Token → Prop
  | .quoted _ => True
  | .plain s => IsIdentifier s ∨ IsNumeral s ∨ ∃ c, s = [c]

theorem isDigits_takeDigits {r : List Char} (hne : (Decimal.takeDigits r).1 ≠ []) :
    isDigits (Decimal.takeDigits r).1 = true := by
  simp only [isDigits, Bool.and_eq_true, decide_eq_true_eq, List.all_eq_true]
  exact ⟨hne, fun c hc => List.mem_takeWhile_imp hc⟩

theorem takePoint_pointed (r : List Char) :
    ∃ part, (takePoint r).1 = Decimal.pointed part ∧ ∀ c ∈ part, c.isDigit := by
  unfold takePoint
  split
  · next r =>
    dsimp only
    split
    · exact ⟨[], rfl, by simp⟩
    · next hne => exact ⟨_, (Decimal.pointed_eq hne).symm, fun c hc => List.mem_takeWhile_imp hc⟩
  · exact ⟨[], rfl, by simp⟩

theorem takeMinus_eq_sign (s : List Char) : ∃ negative, (takeMinus s).1 = sign negative := by
  unfold takeMinus
  split
  · exact ⟨true, rfl⟩
  · exact ⟨false, rfl⟩

theorem isNumeral_takeNumber {s : List Char} (h : (takeNumber s).1 ≠ []) :
    IsNumeral (takeNumber s).1 := by
  unfold takeNumber at h ⊢
  dsimp only at h ⊢
  split at h
  · exact absurd rfl h
  · next hne =>
    obtain ⟨negative, hsign⟩ := takeMinus_eq_sign s
    obtain ⟨part, hpoint, hpart⟩ := takePoint_pointed (Decimal.takeDigits (takeMinus s).2).2
    rw [if_neg hne]
    refine ⟨negative, _, part, ?_, isDigits_takeDigits hne, hpart⟩
    rw [← hsign, ← hpoint, ← List.append_assoc]

theorem lexed_nextTokens {c : Char} {r : List Char} {t : Token} (ht : t ∈ (nextTokens c r).1) :
    t.Lexed := by
  unfold nextTokens at ht
  split at ht
  · cases ht
  · split at ht
    · obtain rfl := List.mem_singleton.mp ht
      exact trivial
    · split at ht
      · next hstart =>
        obtain rfl := List.mem_singleton.mp ht
        exact Or.inl ⟨c, _, rfl, hstart, fun d hd => List.mem_takeWhile_imp hd⟩
      · have hnumber := isNumeral_takeNumber (s := c :: r)
        split at ht
        · -- a character by itself, or the two halves of one
          unfold single at ht
          split at ht
          · obtain rfl := List.mem_singleton.mp ht
            exact Or.inr (Or.inr ⟨c, rfl⟩)
          · obtain rfl : t = .plain ['\uFFFD'] := by simpa using ht
            exact Or.inr (Or.inr ⟨_, rfl⟩)
        · next number rest hne heq =>
          rw [heq] at hnumber
          obtain rfl := List.mem_singleton.mp ht
          exact Or.inr (Or.inl (hnumber hne))

theorem lexed_tokens (s : List Char) : ∀ t ∈ tokens s, t.Lexed := by
  fun_induction tokens s with
  | case1 => simp
  | case2 c r ih => exact List.forall_mem_append.mpr ⟨fun t => lexed_nextTokens, ih⟩

/-! ## Keys -/

theorem IsInteger.isNumeral {s : List Char} (h : IsInteger s) : IsNumeral s := by
  obtain ⟨negative, ds, rfl, hds⟩ := h
  exact ⟨negative, ds, [], by simp [Decimal.pointed], hds, by simp⟩

theorem dot_not_mem_integer {s : List Char} (h : IsInteger s) : '.' ∉ s := by
  obtain ⟨negative, ds, rfl, hds⟩ := h
  rw [List.mem_append, not_or]
  refine ⟨?_, dot_not_mem_of_segment (Or.inr (Or.inl hds))⟩
  cases negative <;> decide

/-- A number is one integer or two. -/
theorem IsNumeral.segments {s : List Char} (h : IsNumeral s) :
    ∀ p ∈ segments s, IsInteger p.toList := by
  obtain ⟨negative, ds, part, rfl, hds, hpart⟩ := h
  have hwhole : IsInteger (sign negative ++ ds) := ⟨negative, ds, rfl, hds⟩
  by_cases hne : part = []
  · have hone := segments_dotless (List.cons_ne_nil (sign negative ++ ds) [])
      (List.forall_mem_singleton.mpr (dot_not_mem_integer hwhole))
    rw [List.intercalate_singleton] at hone
    rw [hne, Decimal.pointed, if_pos rfl, List.append_nil, hone]
    simpa using hwhole
  · have hdigits : IsInteger part := ⟨false, part, rfl, by simpa [isDigits, hne] using hpart⟩
    have htwo := segments_dotless (List.cons_ne_nil (sign negative ++ ds) [part])
      (by simpa using ⟨by simpa using dot_not_mem_integer hwhole, dot_not_mem_integer hdigits⟩)
    rw [List.intercalate_cons_cons, List.intercalate_singleton, List.append_assoc,
      List.singleton_append] at htwo
    rw [Decimal.pointed_eq hne, ← List.append_assoc, htwo]
    simpa using ⟨hwhole, hdigits⟩

theorem segments_of_dotless {s : List Char} (hs : '.' ∉ s) : segments s = [String.ofList s] := by
  have hone := segments_dotless (List.cons_ne_nil s []) (List.forall_mem_singleton.mpr hs)
  rwa [List.intercalate_singleton] at hone

theorem not_isKey_nil : ¬IsKey [] := by
  rintro (⟨c, r, h, -⟩ | ⟨negative, ds, h, hds⟩ | h)
  · cases h
  · obtain rfl := (List.append_eq_nil_iff.mp h.symm).2
    cases hds
  · cases h

/-- The parts of a token are keys just when it is no mark. -/
theorem isKey_segments_iff {s : List Char} (h : (Token.plain s).Lexed) :
    (∀ p ∈ segments s, IsKey p.toList) ↔ (Token.plain s).IsTerm := by
  constructor
  · intro hkeys
    rcases h with hident | hnumber | ⟨c, rfl⟩
    · exact Or.inl hident
    · exact Or.inr (Or.inl hnumber)
    · by_cases hc : c = '.'
      · subst hc
        exact absurd (hkeys "" (by decide)) not_isKey_nil
      · rw [segments_of_dotless (by simpa using Ne.symm hc), List.forall_mem_singleton,
          String.toList_ofList] at hkeys
        exact hkeys.imp_right (Or.imp_left IsInteger.isNumeral)
  · rintro (hident | hnumber | rfl) p hp
    · rw [segments_of_dotless (dot_not_mem_of_segment (Or.inl hident))] at hp
      obtain rfl := List.mem_singleton.mp hp
      rw [String.toList_ofList]
      exact Or.inl hident
    · exact Or.inr (Or.inl (hnumber.segments p hp))
    · rw [segments_of_dotless (by decide)] at hp
      obtain rfl := List.mem_singleton.mp hp
      exact Or.inr (Or.inr rfl)

/-! ## Places -/

/-- Where an expression is due. -/
def Opens (before : Option Token) : Prop :=
  before = none ∨ before = some openParen ∨ before = some comma

/-- A token behind which no expression and no segment is due. -/
def Token.Ends (t : Token) : Prop := t ≠ dot ∧ t ≠ openParen ∧ t ≠ comma

instance (t : Token) : Decidable t.Ends :=
  inferInstanceAs (Decidable (t ≠ dot ∧ t ≠ openParen ∧ t ≠ comma))

theorem exists_head_numeral {s : List Char} (h : IsNumeral s) :
    ∃ c r, s = c :: r ∧ (c = '-' ∨ c.isDigit) := by
  obtain ⟨negative, ds, part, rfl, hds, -⟩ := h
  obtain ⟨c, r, rfl, hc, -⟩ := exists_head_digits hds
  cases negative with
  | true => exact ⟨'-', _, rfl, Or.inl rfl⟩
  | false => exact ⟨c, _, rfl, Or.inr hc⟩

theorem Token.IsTerm.ends {t : Token} (h : t.IsTerm) : t.Ends := by
  have hmark : ∀ c ∈ ['.', '(', ','], t ≠ .plain [c] := by
    have hchar : ∀ c ∈ ['.', '(', ','],
        isIdentStart c = false ∧ c.isDigit = false ∧ c ≠ '-' ∧ c ≠ '*' :=
      List.all_iff_forall_prop.mp (by decide)
    rintro c hc rfl
    obtain ⟨hstart, hdigit, hminus, hall⟩ := hchar c hc
    rcases h with ⟨d, r, heq, hd, -⟩ | hnumber | heq
    · obtain rfl := (List.cons.inj heq).1
      rw [hstart] at hd
      cases hd
    · obtain ⟨d, r, heq, hd⟩ := exists_head_numeral hnumber
      obtain rfl := (List.cons.inj heq).1
      rw [hdigit] at hd
      exact hd.elim hminus nofun
    · exact hall (List.cons.inj heq).1
  exact ⟨hmark '.' (by decide), hmark '(' (by decide), hmark ',' (by decide)⟩

/-- Where an expression is due, one fits that does not close the arguments before it. -/
theorem fits_iff_of_opens {before : Option Token} (hbefore : Opens before) {t : Token}
    (ht : before = none ∨ t ≠ closeParen) : Fits before t ↔ t.IsTerm := by
  rcases hbefore with rfl | rfl | rfl
  · simp [Fits]
  · simp [Fits, ht.resolve_left nofun, dot, openParen]
  · simp [Fits, ht.resolve_left nofun, dot, openParen, comma]

theorem fits_dot_iff {t : Token} : Fits (some dot) t ↔ t.IsTerm := by
  simp [Fits, dot, openParen, comma]

theorem fits_of_ends {l t : Token} (hl : l.Ends) (ht : t ≠ openParen) : Fits (some l) t := by
  obtain ⟨hdot, hopen, hcomma⟩ := hl
  simp [Fits, hdot, hopen, hcomma, ht]

/-- Arguments may end at once, or behind a comma. -/
theorem fits_closeParen {before : Option Token}
    (h : before = some openParen ∨ before = some comma) : Fits before closeParen := by
  rcases h with rfl | rfl <;> simp [Fits, dot, openParen, comma, closeParen]

theorem wellPlaced_append (before : Option Token) (ts ts' : List Token) :
    WellPlaced before (ts ++ ts') ↔
      WellPlaced before ts ∧ WellPlaced (ts.getLast?.or before) ts' := by
  induction ts generalizing before with
  | nil => simp [WellPlaced]
  | cons t ts ih => simp [WellPlaced, ih, List.getLast?_cons, and_assoc]

theorem wellPlaced_dotted {l : Token} (hl : l.Ends) (gs : List (List Char)) :
    WellPlaced (some l) (gs.flatMap fun g => [dot, .plain g]) ↔
      ∀ g ∈ gs, (Token.plain g).IsTerm := by
  induction gs generalizing l with
  | nil => simp [WellPlaced]
  | cons g gs ih =>
    have hfits : Fits (some l) dot := fits_of_ends hl (by decide)
    rw [List.flatMap_cons, List.forall_mem_cons]
    show Fits (some l) dot ∧ Fits (some dot) (.plain g) ∧ _ ↔ _
    rw [fits_dot_iff]
    constructor
    · rintro ⟨-, hg, hgs⟩
      exact ⟨hg, (ih hg.ends).mp hgs⟩
    · rintro ⟨hg, hgs⟩
      exact ⟨hfits, hg, (ih hg.ends).mpr hgs⟩

/-! ## Expressions -/

theorem isIdentifier_of_word {s : List Char} {l : Literal} (h : word? s = some l) :
    IsIdentifier s := by
  by_cases hs : s ∈ reserved
  · exact isIdentifier_of_reserved hs
  · rw [word?_of_not_reserved hs] at h
    cases h

theorem numberOf?_numeral {s : List Char} (h : IsNumeral s) : numberOf? s ≠ none := by
  obtain ⟨negative, ds, part, rfl, hds, hpart⟩ := h
  rw [numberOf?_signed negative hds, readUnsigned?_pointed hds hpart]
  nofun

theorem isNumeral_of_number {s : List Char} {x : Number} (h : (Token.plain s).Lexed)
    (hx : numberOf? s = some x) : IsNumeral s := by
  rcases h with hident | hnumber | ⟨c, rfl⟩
  · rw [numberOf?_segment (Or.inl hident) hident.isDigits] at hx
    cases hx
  · exact hnumber
  · by_cases hdigit : c.isDigit
    · exact IsInteger.isNumeral ⟨false, [c], rfl, by simpa [isDigits] using hdigit⟩
    · by_cases hminus : c = '-'
      · rw [hminus] at hx
        cases hx
      · rw [numberOf?_eq_none (by simp [hminus, hdigit])] at hx
        cases hx

/-- A name before a parenthesis: a term that is neither a number nor `*`. -/
theorem isIdentifier_iff_of_call {name : List Char} (h : numberOf? name = none) :
    IsIdentifier name ↔ (Token.plain name).IsTerm ∧ Fits (some (.plain name)) openParen := by
  constructor
  · intro hname
    have hterm : (Token.plain name).IsTerm := Or.inl hname
    obtain ⟨hdot, hopen, hcomma⟩ := hterm.ends
    have hall : name ≠ ['*'] := by
      rintro rfl
      revert hname
      decide
    exact ⟨hterm, by simp [Fits, hdot, hopen, hcomma, hall]⟩
  · rintro ⟨hname | hnumber | rfl, hfits⟩
    · exact hname
    · exact absurd h (numberOf?_numeral hnumber)
    · exact absurd rfl (hfits.2.2 rfl)

theorem inGrammar_path_iff {gs : List (List Char)} (h : ∀ g ∈ gs, (Token.plain g).Lexed) :
    (Expr.path (gs.flatMap segments)).InGrammar ↔ ∀ g ∈ gs, (Token.plain g).IsTerm := by
  show (∀ p ∈ gs.flatMap segments, IsKey p.toList) ↔ _
  rw [List.forall_mem_flatMap]
  exact forall₂_congr fun g hg => isKey_segments_iff (h g hg)

theorem getLast?_dottedTokens (s : List Char) (gs : List (List Char)) :
    ∃ g ∈ s :: gs, (dottedTokens (s :: gs)).getLast? = some (.plain g) := by
  rcases List.eq_nil_or_concat gs with rfl | ⟨gs, g, rfl⟩
  · exact ⟨s, List.mem_cons_self, rfl⟩
  · exact ⟨g, by simp, by simp [dottedTokens, List.getLast?_cons]⟩

/-- The tokens of an expression are well placed if the expression is in the grammar, and the last
of them then ends it. -/
def PlacedAs (before : Option Token) (e : Expr) (toks : List Token) : Prop :=
  (e.InGrammar ↔ WellPlaced before toks) ∧ (e.InGrammar → ∃ l ∈ toks.getLast?, l.Ends)

theorem placedAs_literal {before : Option Token} (hbefore : Opens before) (l : Literal) {t : Token}
    (hclose : before = none ∨ [t].head? ≠ some closeParen) (ht : t.IsTerm) :
    PlacedAs before (.literal l) [t] := by
  have hiff := fits_iff_of_opens hbefore (hclose.imp_right fun h heq => h (congrArg some heq))
  exact ⟨iff_of_true trivial ⟨hiff.mpr ht, trivial⟩, fun _ => ⟨t, rfl, ht.ends⟩⟩

/-- Behind an argument stands a mark. -/
theorem PlacedAs.append {before : Option Token} {e : Expr} {toks : List Token}
    (h : PlacedAs before e toks) {t : Token} (ht : t ≠ openParen) (ts : List Token) :
    WellPlaced before (toks ++ t :: ts) ↔ e.InGrammar ∧ WellPlaced (some t) ts := by
  obtain ⟨hiff, hends⟩ := h
  rw [wellPlaced_append, ← hiff]
  refine and_congr_right fun he => ?_
  obtain ⟨l, hlast, hl⟩ := hends he
  rw [hlast, Option.some_or]
  exact and_iff_right (fits_of_ends hl ht)

mutual

theorem Reads.placedAs {e : Expr} {toks : List Token} (h : Reads e toks)
    (hlexed : ∀ t ∈ toks, t.Lexed) {before : Option Token} (hbefore : Opens before)
    (hclose : before = none ∨ toks.head? ≠ some closeParen) : PlacedAs before e toks := by
  cases h with
  | quoted s => exact placedAs_literal hbefore _ hclose trivial
  | word hword => exact placedAs_literal hbefore _ hclose (Or.inl (isIdentifier_of_word hword))
  | number _ hx =>
    have hnumeral := isNumeral_of_number (hlexed _ List.mem_cons_self) hx
    exact placedAs_literal hbefore _ hclose (Or.inr (Or.inl hnumeral))
  | @path s gs _ _ =>
    have hparts : ∀ g ∈ s :: gs, (Token.plain g).Lexed := by
      intro g hg
      refine hlexed _ ?_
      rcases List.mem_cons.mp hg with rfl | hg
      · exact List.mem_cons_self
      · exact List.mem_cons_of_mem _ (List.mem_flatMap.mpr ⟨g, hg, by simp⟩)
    have hfirst := fits_iff_of_opens hbefore (t := .plain s)
      (hclose.imp_right fun h heq => h (congrArg some heq))
    have hplaced : WellPlaced before (dottedTokens (s :: gs)) ↔
        ∀ g ∈ s :: gs, (Token.plain g).IsTerm := by
      rw [List.forall_mem_cons, ← hfirst]
      refine and_congr_right fun hs => ?_
      exact wellPlaced_dotted (hfirst.mp hs).ends gs
    rw [PlacedAs, inGrammar_path_iff hparts]
    refine ⟨hplaced.symm, fun hterms => ?_⟩
    obtain ⟨g, hg, hlast⟩ := getLast?_dottedTokens s gs
    exact ⟨_, hlast, (hterms g hg).ends⟩
  | @call name args toks _ hnumber hargs =>
    have hinner := hargs.placed (fun t ht => hlexed t (by simp [ht])) (Or.inl rfl)
    have hfirst := fits_iff_of_opens hbefore (t := .plain name)
      (hclose.imp_right fun h heq => h (congrArg some heq))
    refine ⟨?_, fun _ => ⟨closeParen, ?_, by decide⟩⟩
    · show IsIdentifier (String.ofList name).toList ∧ AllInGrammar args ↔
        Fits before (.plain name) ∧ Fits (some (.plain name)) openParen ∧ _
      rw [String.toList_ofList, isIdentifier_iff_of_call hnumber, hfirst, hinner, and_assoc]
    · simp [List.getLast?_cons]

theorem ReadsArgs.placed {es : List Expr} {toks : List Token} (h : ReadsArgs es toks)
    (hlexed : ∀ t ∈ toks, t.Lexed) {before : Option Token}
    (hbefore : before = some openParen ∨ before = some comma) :
    AllInGrammar es ↔ WellPlaced before (toks ++ [closeParen]) := by
  cases h with
  | nil => exact iff_of_true trivial ⟨fits_closeParen hbefore, trivial⟩
  | last hhead he =>
    rw [(he.placedAs hlexed (Or.inr hbefore) (Or.inr hhead)).append (by decide)]
    exact Iff.rfl
  | cons hhead he hes =>
    have hexpr := he.placedAs (fun t ht => hlexed t (List.mem_append_left _ ht)) (Or.inr hbefore)
      (Or.inr hhead)
    have hmore := hes.placed (fun t ht => hlexed t (by simp [ht])) (Or.inr rfl)
    rw [List.append_assoc, List.cons_append, hexpr.append (by decide), ← hmore]
    exact Iff.rfl

end

/-- **What is accepted keeps to the grammar just when no mark stands for a term.** -/
theorem readExpr_inGrammar_iff {s : List Char} {e : Expr} (h : readExpr s = .ok e) :
    e.InGrammar ↔ WellPlaced none (tokens s) :=
  ((Reads.of_readTokens h).placedAs (lexed_tokens s) (Or.inl rfl) (Or.inl rfl)).1

/-- A number between the segments of a path, and `*` by itself. -/
theorem readExpr_inGrammar_nested :
    readExpr "f(-1.2.x,g(*))".toList =
        .ok (.call "f" [.path ["-1", "2", "x"], .call "g" [.path ["*"]]]) ∧
      WellPlaced none (tokens "f(-1.2.x,g(*))".toList) := by
  have htokens : tokens "f(-1.2.x,g(*))".toList =
      [.plain ['f'], openParen, .plain "-1.2".toList, dot, .plain ['x'], comma, .plain ['g'],
        openParen, .plain ['*'], closeParen, closeParen] := by decide +kernel
  have hread : readExpr "f(-1.2.x,g(*))".toList =
      .ok (.call "f" [.path ["-1", "2", "x"], .call "g" [.path ["*"]]]) := by
    rw [readExpr, htokens]
    rfl
  have hpath : ∀ p ∈ ["-1", "2", "x"], IsKey p.toList := by
    have hminus : IsInteger ['-', '1'] := ⟨true, ['1'], rfl, rfl⟩
    have hplain : IsInteger ['2'] := ⟨false, ['2'], rfl, rfl⟩
    have hname : IsIdentifier ['x'] := by decide
    simpa using ⟨Or.inr (Or.inl hminus), Or.inr (Or.inl hplain), Or.inl hname⟩
  have hall : ∀ p ∈ ["*"], IsKey p.toList := List.forall_mem_singleton.mpr (Or.inr (Or.inr rfl))
  exact ⟨hread, (readExpr_inGrammar_iff hread).mp
    ⟨by decide, hpath, ⟨by decide, hall, trivial⟩, trivial⟩⟩

/-- A plus sign is read as a segment. -/
theorem readExpr_takes_mark :
    readExpr "a.+".toList = .ok (.path ["a", "+"]) ∧ ¬(Expr.path ["a", "+"]).InGrammar := by
  have htokens : tokens "a.+".toList = [.plain ['a'], dot, .plain ['+']] := by decide +kernel
  constructor
  · rw [readExpr, htokens]
    rfl
  · intro h
    have hplus : IsKey ['+'] := h "+" (by decide)
    rcases hplus with hident | hint | hall
    · revert hident
      decide
    · obtain ⟨c, r, heq, hc⟩ := exists_head_numeral hint.isNumeral
      obtain rfl := (List.cons.inj heq).1
      revert hc
      decide
    · cases hall

end LayeredConf.Template
