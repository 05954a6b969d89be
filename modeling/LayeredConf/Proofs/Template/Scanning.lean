import LayeredConf.Proofs.Template.Reading
import LayeredConf.Template.Expand

/-!
# Scanning loses nothing

An expression closes at the first brace outside quotes.  `Unquoted` says where that is, by the
quoted texts that stand in front of the brace, and the scanner's walk with one quote open finds it.
So the sources of the pieces make up the template, and expanding it gives it back where no
expression has a result.

    Unquoted s              each quote that opens in `s` closes in it
    takeBody?_eq_some_iff   the scanner closes an expression at the first brace outside quotes
    Scans s ps              `ps` are the pieces of the template `s`
    expand_lossless         pieces lose nothing, and missing results leave the template as it is
-/

namespace LayeredConf.Template

/-! ## Quotes -/

/-- What may stand between two quotes.  A backslash takes the character behind it with it. -/
inductive Quoted (quote : Char) : List Char → Prop
  | nil : Quoted quote []
  | escaped {c : Char} {s : List Char} : Quoted quote s → Quoted quote ('\\' :: c :: s)
  | char {c : Char} {s : List Char} : c ≠ '\\' → c ≠ quote → Quoted quote s → Quoted quote (c :: s)

/-- The text ends outside quotes: each quote that opens in it closes. -/
inductive Unquoted : List Char → Prop
  | nil : Unquoted []
  | char {c : Char} {s : List Char} : isQuote c = false → Unquoted s → Unquoted (c :: s)
  | quoted {quote : Char} {s r : List Char} : isQuote quote = true → Quoted quote s → Unquoted r →
      Unquoted (quote :: (s ++ quote :: r))

/-- The first closing brace outside quotes is the one behind the text. -/
def Closes (body : List Char) : Prop :=
  Unquoted body ∧ ∀ before after, body = before ++ '\x7d' :: after → ¬Unquoted before

/-- The closing quote is where the quoted text ends. -/
theorem Quoted.unique {quote : Char} (hquote : isQuote quote = true) {s t r r' : List Char}
    (hs : Quoted quote s) (ht : Quoted quote t) (h : s ++ quote :: r = t ++ quote :: r') :
    s = t ∧ r = r' := by
  have hslash : quote ≠ '\\' := by
    rintro rfl
    cases hquote
  induction hs generalizing t with
  | nil =>
    cases ht with
    | nil => exact ⟨rfl, (List.cons.inj h).2⟩
    | escaped _ => exact absurd (List.cons.inj h).1 hslash
    | char _ hc _ => exact absurd (List.cons.inj h).1.symm hc
  | escaped _ ih =>
    cases ht with
    | nil => exact absurd (List.cons.inj h).1.symm hslash
    | escaped ht =>
      obtain ⟨-, htail⟩ := List.cons.inj h
      obtain ⟨rfl, hrest⟩ := List.cons.inj htail
      obtain ⟨rfl, rfl⟩ := ih ht hrest
      exact ⟨rfl, rfl⟩
    | char hc _ _ => exact absurd (List.cons.inj h).1.symm hc
  | char hslash' hc _ ih =>
    cases ht with
    | nil => exact absurd (List.cons.inj h).1 hc
    | escaped _ => exact absurd (List.cons.inj h).1 hslash'
    | char _ _ ht =>
      obtain ⟨rfl, hrest⟩ := List.cons.inj h
      obtain ⟨rfl, rfl⟩ := ih ht hrest
      exact ⟨rfl, rfl⟩

theorem Unquoted.of_cons {c : Char} (hc : isQuote c = false) {s : List Char}
    (h : Unquoted (c :: s)) : Unquoted s := by
  cases h with
  | char _ hs => exact hs
  | quoted hquote _ _ =>
    rw [hc] at hquote
    cases hquote

/-- A text that ends outside quotes goes on as such behind its first quoted text. -/
theorem Unquoted.of_quoted {quote : Char} (hquote : isQuote quote = true) {s r : List Char}
    (hs : Quoted quote s) (h : Unquoted (quote :: (s ++ quote :: r))) : Unquoted r := by
  generalize ht : quote :: (s ++ quote :: r) = t at h
  cases h with
  | nil => cases ht
  | char hc _ =>
    obtain ⟨rfl, -⟩ := List.cons.inj ht
    rw [hquote] at hc
    cases hc
  | quoted _ hs' hr =>
    obtain ⟨rfl, ht⟩ := List.cons.inj ht
    obtain ⟨-, rfl⟩ := hs.unique hquote hs' ht
    exact hr

theorem closes_nil : Closes [] := by
  refine ⟨.nil, fun before after h => ?_⟩
  exact absurd h.symm (List.append_ne_nil_of_right_ne_nil _ (List.cons_ne_nil _ _))

theorem closes_cons_iff {c : Char} (hc : isQuote c = false) (s : List Char) :
    Closes (c :: s) ↔ c ≠ '\x7d' ∧ Closes s := by
  constructor
  · rintro ⟨hs, hfirst⟩
    refine ⟨?_, hs.of_cons hc, fun before after h hbefore => ?_⟩
    · rintro rfl
      exact hfirst [] s rfl .nil
    · exact hfirst (c :: before) after (by rw [h]; rfl) (.char hc hbefore)
  · rintro ⟨hbrace, hs, hfirst⟩
    refine ⟨.char hc hs, fun before after h hbefore => ?_⟩
    cases before with
    | nil => exact hbrace (List.cons.inj h).1
    | cons d before =>
      obtain ⟨rfl, rfl⟩ := List.cons.inj h
      exact hfirst before after rfl (hbefore.of_cons hc)

theorem closes_quoted_iff {quote : Char} (hquote : isQuote quote = true) {s : List Char}
    (hs : Quoted quote s) (r : List Char) : Closes (quote :: (s ++ quote :: r)) ↔ Closes r := by
  constructor
  · rintro ⟨hr, hfirst⟩
    refine ⟨hr.of_quoted hquote hs, fun before after h hbefore => ?_⟩
    exact hfirst (quote :: (s ++ quote :: before)) after (by simp [h]) (.quoted hquote hs hbefore)
  · rintro ⟨hr, hfirst⟩
    refine ⟨.quoted hquote hs hr, fun before after h hbefore => ?_⟩
    -- the brace is not in the quoted text, because `before` closes the quote
    cases hbefore with
    | nil =>
      obtain ⟨rfl, -⟩ := List.cons.inj h
      cases hquote
    | char hc _ =>
      obtain ⟨rfl, -⟩ := List.cons.inj h
      rw [hquote] at hc
      cases hc
    | quoted _ hs' hbefore =>
      rw [List.cons_append, List.append_assoc, List.cons_append] at h
      obtain ⟨rfl, h⟩ := List.cons.inj h
      obtain ⟨-, hr⟩ := hs.unique hquote hs' h
      exact hfirst _ after hr hbefore

/-! ## The scanner -/

theorem Quoted.passes {quote : Char} {s : List Char} (h : Quoted quote s) :
    Passes (some quote) (some quote) s := by
  induction h with
  | nil => exact .nil _
  | @escaped c s _ ih =>
    have hpair : Passes (some quote) (some quote) ['\\', c] := fun _ => rfl
    exact hpair.append ih
  | @char c s hslash hc _ ih =>
    have hone : Passes (some quote) (some quote) [c] := by
      have hescape := passes_escape quote c
      rwa [escape, if_neg (by simp [hslash, hc])] at hescape
    exact hone.append ih

theorem Closes.passes {body : List Char} (h : Closes body) : Passes none none body := by
  have hbody := h.1
  induction hbody with
  | nil => exact .nil none
  | char hc _ ih =>
    obtain ⟨hbrace, hclosed⟩ := (closes_cons_iff hc _).mp h
    exact (passes_char hc hbrace).append (ih hclosed)
  | @quoted quote s r hquote hs _ ih =>
    have hrest := ih ((closes_quoted_iff hquote hs _).mp h)
    have hpasses := (passes_enclosed hquote hs.passes).append hrest
    rwa [List.cons_append, List.append_assoc, List.singleton_append] at hpasses

/-- The same with a quote open before the text, if there is one. -/
def ClosesAfter : Option Char → List Char → Prop
  | none, body => Closes body
  | some quote, body => ∃ s r, body = s ++ quote :: r ∧ Quoted quote s ∧ Closes r

theorem closesAfter_of_takeBody? {quote : Option Char} (hquote : ∀ q ∈ quote, isQuote q = true)
    {s body rest : List Char} (h : takeBody? quote s = some (body, rest)) :
    ClosesAfter quote body := by
  fun_induction takeBody? quote s generalizing body rest with
  | case1 => cases h
  | case2 => cases h
  | case3 q d r ih =>
    obtain ⟨⟨b, t⟩, hb, heq⟩ := Option.map_eq_some_iff.mp h
    cases heq
    obtain ⟨s, r', rfl, hs, hr⟩ := ih hquote hb
    exact ⟨_, r', rfl, .escaped hs, hr⟩
  | case4 c r q hslash ih =>
    obtain ⟨⟨b, t⟩, hb, heq⟩ := Option.map_eq_some_iff.mp h
    cases heq
    by_cases hc : c = q
    · rw [if_pos hc] at hb ih
      exact ⟨[], b, by rw [hc]; rfl, .nil, ih (by simp) hb⟩
    · rw [if_neg hc] at hb ih
      obtain ⟨s, r', rfl, hs, hr⟩ := ih hquote hb
      exact ⟨_, r', rfl, .char hslash hc hs, hr⟩
  | case5 c r hc ih =>
    obtain ⟨⟨b, t⟩, hb, heq⟩ := Option.map_eq_some_iff.mp h
    cases heq
    obtain ⟨s, r', rfl, hs, hr⟩ := ih (by simpa using hc) hb
    exact (closes_quoted_iff hc hs r').mpr hr
  | case6 =>
    cases h
    exact closes_nil
  | case7 c r hc hbrace ih =>
    obtain ⟨⟨b, t⟩, hb, heq⟩ := Option.map_eq_some_iff.mp h
    cases heq
    exact (closes_cons_iff (Bool.eq_false_iff.mpr hc) b).mpr ⟨hbrace, ih (by simp) hb⟩

/-- **An expression closes at the first brace outside quotes.** -/
theorem takeBody?_eq_some_iff {s body rest : List Char} :
    takeBody? none s = some (body, rest) ↔ s = body ++ '\x7d' :: rest ∧ Closes body := by
  constructor
  · intro h
    have hnone : ∀ q ∈ (none : Option Char), isQuote q = true := by simp
    exact ⟨(append_of_takeBody? h).symm, closesAfter_of_takeBody? hnone h⟩
  · rintro ⟨rfl, hbody⟩
    rw [hbody.passes, takeBody?]
    simp [isQuote]

/-! ## Openings -/

theorem not_infix_of_cut? {sep s before after : List Char} (hsep : sep ≠ [])
    (h : Text.cut? sep s = some (before, after)) : ¬sep <:+: before := by
  induction s generalizing before with
  | nil =>
    rw [Text.cut?, if_neg (by simpa using hsep)] at h
    cases h
  | cons c r ih =>
    rw [Text.cut?] at h
    split at h
    · cases h
      simpa using hsep
    · next hprefix =>
      obtain ⟨⟨b, a⟩, hb, heq⟩ := Option.map_eq_some_iff.mp h
      cases heq
      rw [List.infix_cons_iff, not_or]
      refine ⟨fun hb' => hprefix (List.isPrefixOf_iff_prefix.mpr ?_), ih hb⟩
      rw [← Text.append_of_cut? hb, List.append_assoc]
      exact hb'.trans (List.prefix_append (c :: b) _)

theorem not_infix_of_cut?_eq_none {sep s : List Char} (h : Text.cut? sep s = none) :
    ¬sep <:+: s := by
  induction s with
  | nil =>
    rw [Text.cut?] at h
    split at h
    · cases h
    · next hprefix => simpa using hprefix
  | cons c r ih =>
    rw [Text.cut?] at h
    split at h
    · cases h
    · next hprefix =>
      rw [List.infix_cons_iff, not_or]
      exact ⟨fun hp => hprefix (List.isPrefixOf_iff_prefix.mpr hp),
        ih (Option.map_eq_none_iff.mp h)⟩

/-- Two openings do not overlap, so the first one is behind a text without any. -/
theorem cut?_opening {before : List Char} (h : ¬opening <:+: before) (after : List Char) :
    Text.cut? opening (before ++ opening ++ after) = some (before, after) := by
  induction before with
  | nil => rw [Text.cut?.eq_def, if_pos (by simp), List.nil_append, List.drop_left]
  | cons c before ih =>
    rw [List.infix_cons_iff, not_or] at h
    have hprefix : ¬opening.isPrefixOf (c :: (before ++ opening ++ after)) = true := by
      intro hp
      cases before with
      | nil => simp [opening] at hp
      | cons d before =>
        simp only [opening, List.cons_append, List.isPrefixOf, Bool.and_eq_true, beq_iff_eq] at hp
        exact h.1 (by simpa [opening] using hp)
    rw [List.cons_append, List.cons_append, Text.cut?, if_neg hprefix, ih h.2]
    rfl

/-- The text has no expression: its first opening, if it has one, is never closed. -/
def Bare (s : List Char) : Prop :=
  ∀ before body after, s = before ++ opening ++ (body ++ '\x7d' :: after) →
    ¬opening <:+: before → ¬Closes body

/-- A template's pieces: all of it if it is bare, else the text up to its first opening, the
expression there and the pieces of what follows. -/
inductive Scans : List Char → List Piece → Prop
  | bare {s : List Char} : Bare s → Scans s (textPiece s)
  | expr {before body rest : List Char} {ps : List Piece} : ¬opening <:+: before → Closes body →
      Scans rest ps →
      Scans (before ++ opening ++ (body ++ '\x7d' :: rest)) (textPiece before ++ .expr body :: ps)

theorem bare_of_no_opening {s : List Char} (h : ¬opening <:+: s) : Bare s := by
  rintro before body after rfl
  exact absurd ⟨before, body ++ '\x7d' :: after, rfl⟩ h

theorem scans_pieces (s : List Char) : Scans s (pieces s) := by
  fun_induction pieces s with
  | case1 s hcut => exact .bare (bare_of_no_opening (not_infix_of_cut?_eq_none hcut))
  | case2 s before after hcut htake =>
    refine .bare fun before' body rest hs hbefore hbody => ?_
    rw [hs, cut?_opening hbefore] at hcut
    cases hcut
    rw [takeBody?_eq_some_iff.mpr ⟨rfl, hbody⟩] at htake
    cases htake
  | case3 s before after hcut body rest htake ih =>
    obtain ⟨rfl, hbody⟩ := takeBody?_eq_some_iff.mp htake
    rw [← Text.append_of_cut? hcut]
    exact .expr (not_infix_of_cut? (List.cons_ne_nil _ _) hcut) hbody ih

section

variable {s : List Char} {ps : List Piece} (h : Scans s ps)

theorem source_textPiece (s : List Char) : (textPiece s).flatMap Piece.source = s := by
  unfold textPiece
  split
  · next hs => rw [hs]; rfl
  · exact List.flatMap_singleton ..

theorem mem_textPiece {p : Piece} (hp : p ∈ textPiece s) : p = .text s := by
  unfold textPiece at hp
  split at hp
  · cases hp
  · exact List.mem_singleton.mp hp

include h

theorem Scans.source_eq : ps.flatMap Piece.source = s := by
  induction h with
  | bare _ => exact source_textPiece _
  | expr _ _ _ ih => simp [source_textPiece, Piece.source, ih]

theorem Scans.closes {body : List Char} (hbody : .expr body ∈ ps) : Closes body := by
  induction h with
  | bare _ => cases mem_textPiece hbody
  | expr _ hclosed _ ih =>
    rcases List.mem_append.mp hbody with hbody | hbody
    · cases mem_textPiece hbody
    · rcases List.mem_cons.mp hbody with heq | hbody
      · cases heq
        exact hclosed
      · exact ih hbody

theorem Scans.bare_of_text {t : List Char} (ht : .text t ∈ ps) : Bare t := by
  induction h with
  | bare hbare =>
    cases mem_textPiece ht
    exact hbare
  | expr hbefore _ _ ih =>
    rcases List.mem_append.mp ht with ht | ht
    · cases mem_textPiece ht
      exact bare_of_no_opening hbefore
    · rcases List.mem_cons.mp ht with heq | ht
      · cases heq
      · exact ih ht

end

/-! ## Missing results -/

/-- The expression reads and its result is missing. -/
def ResultMissing (env : Environment) (body : List Char) : Prop :=
  ∃ e d, readExpr (Text.trim body) = .ok e ∧ eval env e = .ok d ∧ d.isMissing = true

theorem expandPiece_expr {env : Environment} (hleave : env.missing = .leave) {body : List Char}
    (h : ResultMissing env body) :
    expandPiece env (.expr body) = .ok (String.ofList (Piece.expr body).source) := by
  obtain ⟨e, d, hread, heval, hmissing⟩ := h
  unfold expandPiece
  dsimp only
  rw [hread]
  show (do let d ← eval env e; _) = _
  rw [heval]
  show (if d.isMissing = true then _ else _) = _
  rw [if_pos hmissing, hleave]

theorem expandPieces_sources {env : Environment} {ps : List Piece}
    (h : ∀ p ∈ ps, expandPiece env p = .ok (String.ofList p.source)) :
    expandPieces env ps = .ok (ps.map fun p => String.ofList p.source) := by
  induction ps with
  | nil => rfl
  | cons p ps ih =>
    obtain ⟨hp, hps⟩ := List.forall_mem_cons.mp h
    rw [expandPieces, hp, ih hps]
    rfl

/-- **Scanning loses nothing.** -/
theorem expand_lossless (template : String) :
    (pieces template.toList).flatMap Piece.source = template.toList ∧
    (∀ body, .expr body ∈ pieces template.toList →
      (Piece.expr body).source = "$\x7b".toList ++ body ++ "\x7d".toList ∧ Closes body) ∧
    (∀ s, .text s ∈ pieces template.toList → Bare s) ∧
    ∀ env : Environment, env.missing = .leave →
      (∀ body, .expr body ∈ pieces template.toList → ResultMissing env body) →
      expand env template = .ok template := by
  have hscans := scans_pieces template.toList
  refine ⟨hscans.source_eq, fun body hbody => ⟨rfl, hscans.closes hbody⟩,
    fun s hs => hscans.bare_of_text hs, fun env hleave hmissing => ?_⟩
  have hsources : ∀ p ∈ pieces template.toList,
      expandPiece env p = .ok (String.ofList p.source) := by
    intro p hp
    cases p with
    | text s => rfl
    | expr body => exact expandPiece_expr hleave (hmissing body hp)
  rw [expand, expandPieces_sources hsources]
  refine congrArg Except.ok (String.toList_inj.mp ?_)
  rw [String.toList_join, List.flatMap_map]
  simpa using hscans.source_eq

/-- A brace in quotes, and an expression that is never closed. -/
theorem expand_lossless_quoted :
    pieces "$ $\x7bf('\x7d')\x7d $\x7bx".toList =
        [.text "$ ".toList, .expr "f('\x7d')".toList, .text " $\x7bx".toList] ∧
      expand ⟨[("f", fun _ => .ok .absent)], fun _ => .ok .null, fun _ => "", .leave⟩
        "$ $\x7bf('\x7d')\x7d $\x7bx" = .ok "$ $\x7bf('\x7d')\x7d $\x7bx" := by
  have hpieces : pieces "$ $\x7bf('\x7d')\x7d $\x7bx".toList =
      [.text "$ ".toList, .expr "f('\x7d')".toList, .text " $\x7bx".toList] := by decide +kernel
  refine ⟨hpieces, (expand_lossless _).2.2.2 _ rfl fun body hbody => ?_⟩
  rw [hpieces] at hbody
  obtain rfl : body = "f('\x7d')".toList := by simpa using hbody
  have htext : Prints (.literal (.text "\x7d")) "'\x7d'".toList := .text "\x7d" rfl
  have hcall := @Prints.call ['f'] [] _ _ (by decide) (by decide) (by decide)
    (@PrintsArgs.last _ [] _ [] (by decide) htext (by decide))
  exact ⟨_, _, hcall.readExpr, rfl, rfl⟩

end LayeredConf.Template
