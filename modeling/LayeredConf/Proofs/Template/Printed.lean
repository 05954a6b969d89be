import LayeredConf.Proofs.Template.Lexing
import LayeredConf.Proofs.Text.Blank
import LayeredConf.Template.Piece

/-!
# Printed expressions

An expression is printed in many ways: texts in either quote, numbers with leading zeros, blanks
around parentheses and commas.  In a template each of them is one piece, because quotes and escapes
end where the scanner takes them to end.

    Prints e s          `s` is a printed form of `e`
    Prints.passes       the scanner passes a printed form
    Prints.trimmed      which has no blanks at its ends
    pieces_passed       a template around a text that is passed is one piece
-/

namespace LayeredConf.Template

/-! ## Printed forms -/

def Blanks (s : List Char) : Prop := ∀ c ∈ s, Text.isBlank c = true

instance (s : List Char) : Decidable (Blanks s) := decidable_of_iff _ List.all_eq_true

/-- The words that are literals. -/
def words : List (List Char × Literal) :=
  [("true".toList, .bool true), ("false".toList, .bool false), ("null".toList, .null)]

def reserved : List (List Char) := words.map Prod.fst

/-- The segments of a path that is neither a literal word nor a literal number. -/
structure IsPath (ps : List (List Char)) : Prop where
  ne : ps ≠ []
  segments : ∀ s ∈ ps, IsSegment s
  word : ∀ s ∈ ps.head?, s ∉ reserved
  number : ¬(ps.length ≤ 2 ∧ ∀ s ∈ ps, isDigits s = true)

mutual

/-- The printed forms of an expression. -/
inductive Prints : Expr → List Char → Prop
  | text {quote : Char} (s : String) : isQuote quote = true →
      Prints (.literal (.text s)) (quote :: (s.toList.flatMap (escape quote) ++ [quote]))
  /-- A literal number is the double nearest to its digits. -/
  | number (negative : Bool) {ds : List Char} : isDigits ds = true →
      Prints (.literal (.number (.round negative (Decimal.digitsValue ds)))) (sign negative ++ ds)
  | word {s : List Char} {l : Literal} : (s, l) ∈ words → Prints (.literal l) s
  | path {ps : List (List Char)} : IsPath ps →
      Prints (.path (ps.map String.ofList)) (['.'].intercalate ps)
  | call {name pad text : List Char} {args : List Expr} : IsIdentifier name → name ∉ reserved →
      Blanks pad → PrintsArgs args text →
      Prints (.call (String.ofList name) args) (name ++ pad ++ '(' :: (text ++ [')']))

/-- The printed forms of arguments, of which the last one may have a comma behind it. -/
inductive PrintsArgs : List Expr → List Char → Prop
  | nil {pad : List Char} : Blanks pad → PrintsArgs [] pad
  | last {e : Expr} {pre s post : List Char} : Blanks pre → Prints e s → Blanks post →
      PrintsArgs [e] (pre ++ s ++ post)
  | cons {e : Expr} {args : List Expr} {pre s post text : List Char} : Blanks pre → Prints e s →
      Blanks post → PrintsArgs args text → PrintsArgs (e :: args) (pre ++ s ++ post ++ ',' :: text)

end

/-! ## Scanning -/

/-- The scanner passes the text with one quote open before it and another one, or none, behind. -/
def Passes (quote quote' : Option Char) (s : List Char) : Prop :=
  ∀ rest, takeBody? quote (s ++ rest) = (takeBody? quote' rest).map fun (b, r) => (s ++ b, r)

theorem Passes.nil (quote : Option Char) : Passes quote quote [] := fun rest => by
  cases h : takeBody? quote rest <;> simp [h]

theorem Passes.append {quote quote' quote'' : Option Char} {s t : List Char}
    (hs : Passes quote quote' s) (ht : Passes quote' quote'' t) :
    Passes quote quote'' (s ++ t) := by
  intro rest
  rw [List.append_assoc, hs, ht, Option.map_map]
  congr 1
  funext p
  exact congrArg (·, p.2) (List.append_assoc s t p.1).symm

theorem Passes.flatMap {quote : Option Char} {f : Char → List Char} {s : List Char}
    (h : ∀ c ∈ s, Passes quote quote (f c)) : Passes quote quote (s.flatMap f) := by
  induction s with
  | nil => exact .nil quote
  | cons c s ih =>
    obtain ⟨hc, hs⟩ := List.forall_mem_cons.mp h
    exact hc.append (ih hs)

theorem passes_char {c : Char} (hquote : isQuote c = false) (hbrace : c ≠ '\x7d') :
    Passes none none [c] := by
  intro rest
  rw [List.singleton_append, takeBody?]
  simp only [hquote, Bool.false_eq_true, if_false, if_neg hbrace]
  rfl

theorem passes_plain {s : List Char} (h : ∀ c ∈ s, isQuote c = false ∧ c ≠ '\x7d') :
    Passes none none s := by
  have hall := Passes.flatMap fun c hc => passes_char (h c hc).1 (h c hc).2
  rwa [List.flatMap_singleton'] at hall

theorem passes_escape (quote c : Char) : Passes (some quote) (some quote) (escape quote c) := by
  intro rest
  unfold escape
  split
  · rfl
  · next hc =>
    rw [not_or] at hc
    rw [List.singleton_append, takeBody?.eq_def]
    simp only [if_neg hc.1, if_neg hc.2]
    rfl

/-- What is passed between two quotes is passed with them. -/
theorem passes_enclosed {quote : Char} (hquote : isQuote quote = true) {s : List Char}
    (hs : Passes (some quote) (some quote) s) : Passes none none (quote :: (s ++ [quote])) := by
  have hopen : Passes none (some quote) [quote] := by
    intro rest
    rw [List.singleton_append, takeBody?]
    simp only [if_pos hquote]
    rfl
  have hclose : Passes (some quote) none [quote] := by
    intro rest
    have hslash : quote ≠ '\\' := by
      rintro rfl
      cases hquote
    rw [List.singleton_append, takeBody?.eq_def]
    simp only [if_neg hslash, if_pos]
    rfl
  exact hopen.append (hs.append hclose)

/-- A quoted text is passed up to its own closing quote. -/
theorem passes_quoted {quote : Char} (hquote : isQuote quote = true) (s : List Char) :
    Passes none none (quote :: (s.flatMap (escape quote) ++ [quote])) :=
  passes_enclosed hquote (.flatMap fun c _ => passes_escape quote c)

/-! ## Characters of printed forms -/

/-- A character of a number, a word or a path. -/
def IsPlain (c : Char) : Prop := isIdentChar c = true ∨ IsMark c

theorem IsPlain.scanned {c : Char} (hc : IsPlain c) :
    Text.isBlank c = false ∧ isQuote c = false ∧ c ≠ '\x7d' := by
  rcases hc with hc | hc
  · obtain ⟨hblank, hquote⟩ := plain_of_isIdentChar hc
    refine ⟨hblank, hquote, ?_⟩
    rintro rfl
    exact absurd hc (by decide)
  · have hall : ∀ c ∈ marks, Text.isBlank c = false ∧ isQuote c = false ∧ c ≠ '\x7d' :=
      List.all_iff_forall_prop.mp (by decide)
    exact hall c hc

theorem passes_of_isPlain {s : List Char} (hs : ∀ c ∈ s, IsPlain c) : Passes none none s :=
  passes_plain fun c hc => (hs c hc).scanned.2

theorem trimmed_of_isPlain {s : List Char} (hs : ∀ c ∈ s, IsPlain c) : Text.Trimmed s :=
  ⟨fun c hc => (hs c (List.mem_of_head? hc)).scanned.1,
    fun c hc => (hs c (List.mem_of_getLast? hc)).scanned.1⟩

theorem Blanks.passes {s : List Char} (hs : Blanks s) : Passes none none s := by
  refine passes_plain fun c hc => ?_
  have hblank := hs c hc
  constructor
  · refine Bool.eq_false_iff.mpr fun hquote => ?_
    rw [isBlank_of_isQuote hquote] at hblank
    cases hblank
  · rintro rfl
    exact absurd hblank (by decide)

theorem IsIdentifier.isPlain {s : List Char} (hs : IsIdentifier s) : ∀ c ∈ s, IsPlain c := by
  obtain ⟨c, r, rfl, hc, hr⟩ := hs
  exact List.forall_mem_cons.mpr ⟨Or.inl (isIdentChar_of_isIdentStart hc), fun d hd =>
    Or.inl (hr d hd)⟩

theorem isPlain_of_isDigits {ds : List Char} (hds : isDigits ds = true) : ∀ c ∈ ds, IsPlain c := by
  obtain ⟨-, -, -, -, hall⟩ := exists_head_digits hds
  exact fun c hc => Or.inl (isIdentChar_of_isDigit (hall c hc))

theorem isPlain_of_number (negative : Bool) {ds : List Char} (hds : isDigits ds = true) :
    ∀ c ∈ sign negative ++ ds, IsPlain c := by
  intro c hc
  rcases List.mem_append.mp hc with hc | hc
  · cases negative with
    | true =>
      obtain rfl := List.mem_singleton.mp hc
      exact Or.inl rfl
    | false => cases hc
  · exact isPlain_of_isDigits hds c hc

theorem IsSegment.isPlain {s : List Char} (hs : IsSegment s) : ∀ c ∈ s, IsPlain c := by
  rcases hs with hs | hs | rfl
  · exact hs.isPlain
  · exact isPlain_of_isDigits hs
  · exact List.forall_mem_singleton.mpr (Or.inr (by decide))

theorem IsPath.isPlain {ps : List (List Char)} (hps : IsPath ps) :
    ∀ c ∈ ['.'].intercalate ps, IsPlain c := by
  intro c hc
  rcases Text.mem_intercalate hc with rfl | ⟨s, hs, hcs⟩
  · exact Or.inr (by decide)
  · exact (hps.segments s hs).isPlain c hcs

theorem mem_reserved {s : List Char} {l : Literal} (h : (s, l) ∈ words) : s ∈ reserved :=
  List.mem_map_of_mem h

theorem isIdentifier_of_reserved {s : List Char} (hs : s ∈ reserved) : IsIdentifier s := by
  have hall : ∀ s ∈ reserved, IsIdentifier s := by decide
  exact hall s hs

mutual

/-- The scanner passes a printed form. -/
theorem Prints.passes {e : Expr} {s : List Char} (h : Prints e s) : Passes none none s := by
  cases h with
  | text s hquote => exact passes_quoted hquote s.toList
  | number negative hds => exact passes_of_isPlain (isPlain_of_number negative hds)
  | word hword => exact passes_of_isPlain (isIdentifier_of_reserved (mem_reserved hword)).isPlain
  | path hps => exact passes_of_isPlain hps.isPlain
  | call hname _ hpad hargs =>
    have hopen : Passes none none ['('] := passes_char (by decide) (by decide)
    have hclose : Passes none none [')'] := passes_char (by decide) (by decide)
    exact ((passes_of_isPlain hname.isPlain).append hpad.passes).append
      (hopen.append (hargs.passes.append hclose))

theorem PrintsArgs.passes {es : List Expr} {s : List Char} (h : PrintsArgs es s) :
    Passes none none s := by
  cases h with
  | nil hpad => exact hpad.passes
  | last hpre he hpost => exact (hpre.passes.append he.passes).append hpost.passes
  | cons hpre he hpost hargs =>
    have hcomma : Passes none none [','] := passes_char (by decide) (by decide)
    exact ((hpre.passes.append he.passes).append hpost.passes).append (hcomma.append hargs.passes)

end

/-! ## Pieces -/

theorem trimmed_enclosed {c d : Char} (hc : Text.isBlank c = false) (hd : Text.isBlank d = false)
    (s : List Char) : Text.Trimmed (c :: (s ++ [d])) := by
  constructor
  · intro e he
    cases he
    exact hc
  · intro e he
    rw [← List.cons_append, List.getLast?_concat] at he
    cases he
    exact hd

theorem exists_head_segment {s : List Char} (hs : IsSegment s) : ∃ c r, s = c :: r ∧ c ≠ ')' := by
  rcases hs with ⟨c, r, rfl, hc, -⟩ | hs | rfl
  · refine ⟨c, r, rfl, ?_⟩
    rintro rfl
    cases hc
  · obtain ⟨c, r, rfl, hc, -⟩ := exists_head_digits hs
    refine ⟨c, r, rfl, ?_⟩
    rintro rfl
    cases hc
  · exact ⟨'*', [], rfl, by decide⟩

theorem IsPath.intercalate_ne_nil {ps : List (List Char)} (hps : IsPath ps) :
    ['.'].intercalate ps ≠ [] := by
  obtain ⟨s, ps', rfl⟩ := List.exists_cons_of_ne_nil hps.ne
  obtain ⟨c, r, rfl, -⟩ := exists_head_segment (hps.segments _ List.mem_cons_self)
  rw [← List.append_nil (List.intercalate _ _), intercalate_append]
  exact List.cons_ne_nil _ _

theorem Prints.trimmed {e : Expr} {s : List Char} (h : Prints e s) : s ≠ [] ∧ Text.Trimmed s := by
  cases h with
  | text s hquote =>
    have hblank := isBlank_of_isQuote hquote
    exact ⟨List.cons_ne_nil _ _, trimmed_enclosed hblank hblank _⟩
  | number negative hds =>
    refine ⟨?_, trimmed_of_isPlain (isPlain_of_number negative hds)⟩
    obtain ⟨c, r, rfl, -⟩ := exists_head_digits hds
    simp
  | word hword =>
    have hs := isIdentifier_of_reserved (mem_reserved hword)
    refine ⟨?_, trimmed_of_isPlain hs.isPlain⟩
    obtain ⟨c, r, rfl, -⟩ := hs
    exact List.cons_ne_nil c r
  | path hps => exact ⟨hps.intercalate_ne_nil, trimmed_of_isPlain hps.isPlain⟩
  | @call name pad text _ hname _ _ _ =>
    obtain ⟨c, r, rfl, hc, -⟩ := hname
    have hblank := (plain_of_isIdentChar (isIdentChar_of_isIdentStart hc)).1
    have henclosed := trimmed_enclosed hblank (by decide : Text.isBlank ')' = false)
      (r ++ pad ++ '(' :: text)
    exact ⟨List.cons_ne_nil _ _, by simpa using henclosed⟩

/-- A text that the scanner passes is one piece. -/
theorem pieces_passed {body : List Char} (hbody : Passes none none body) :
    pieces (opening ++ body ++ ['\x7d']) = [.expr body] := by
  have hcut : Text.cut? opening (opening ++ body ++ ['\x7d']) = some ([], body ++ ['\x7d']) := by
    rw [Text.cut?.eq_def, if_pos (by simp), List.append_assoc, List.drop_left]
  have htake : takeBody? none (body ++ ['\x7d']) = some (body, []) := by
    rw [hbody]
    simp [takeBody?, isQuote]
  have hnil : pieces [] = [] := by
    rw [pieces]
    rfl
  rw [pieces]
  split
  · next heq =>
    rw [hcut] at heq
    cases heq
  · next before after heq =>
    rw [hcut] at heq
    cases heq
    split
    · next heq =>
      rw [htake] at heq
      cases heq
    · next heq =>
      rw [htake] at heq
      cases heq
      rw [hnil]
      rfl

end LayeredConf.Template
