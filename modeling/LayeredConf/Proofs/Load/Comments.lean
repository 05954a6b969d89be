import LayeredConf.Proofs.Load.Visits
import LayeredConf.Proofs.Text.Blank

/-!
# Comments are silent

A line whose first character that is no blank is a number sign is a comment, and is ignored like an
empty line, if the comment ends no line.  Texts are cut into lines at line feeds only, with or
without a carriage return, so a comment can have another line end in it: then the line is not
ignored.

    Emptied s text text'    `text'` is `text` with its line `s` made empty
    Silent s                with `s` made empty, every load of a text or a file is the same
    comment_silent_iff      a comment is silent exactly if it ends no line
-/

namespace LayeredConf.Load

/-! ## Lines that are ignored -/

def IsComment (s : List Char) : Prop := (Text.trimLeft s).head? = some '#'

/-- A character of the line from the number sign on ends a line. -/
def EndsLine (s : List Char) : Prop := ∃ c ∈ Text.trimLeft s, Text.isLineEnd c = true

theorem isIgnored_iff_of_comment {s : List Char} (h : IsComment s) :
    isIgnored s = true ↔ ¬EndsLine s := by
  unfold IsComment at h
  unfold isIgnored EndsLine
  cases hs : Text.trimLeft s with
  | nil =>
    rw [hs] at h
    cases h
  | cons c r =>
    rw [hs] at h
    cases h
    have hsign : Text.isLineEnd '#' = false := rfl
    simp [hsign]

theorem read_of_isIgnored {s : List Char} (h : isIgnored s = true) :
    Line.read s = .ignored ∧ Line.readPlain s = .ignored := by
  unfold Line.read Line.readPlain
  rw [h]
  exact ⟨rfl, rfl⟩

theorem readPlain_of_not_isIgnored {s : List Char} (h : isIgnored s = false) :
    Line.readPlain s = .unknown ∨ ∃ e, Line.readPlain s = .entry e := by
  unfold Line.readPlain
  rw [h, if_neg Bool.false_ne_true]
  cases readEntry? s with
  | none => exact Or.inl rfl
  | some e => exact Or.inr ⟨e, rfl⟩

theorem tell_ne (p : Progress) (f : Forest) (e : Event) : { p with forest := f }.tell e ≠ p := by
  intro h
  have hevents := congrArg Progress.events h
  simp [Progress.tell] at hevents

theorem write_ne (n : NodeId) (place : Place) (e : Entry) (p : Progress) :
    p.write n place e ≠ (p, .ok ()) := by
  unfold Progress.write
  cases readTyped e.type e.raw with
  | error cause => nofun
  | ok v => exact fun h => tell_ne _ _ _ (Prod.mk.inj h).1

/-- A line does nothing and tells of nothing exactly if it is ignored. -/
theorem loadLine_silent_iff (n : NodeId) (strict : Bool) (p : Progress) (number : Nat)
    (s : List Char) : loadLine n strict p number s = (p, .ok ()) ↔ isIgnored s = true := by
  constructor
  · intro hload
    refine Bool.not_eq_false _ |>.mp fun h => ?_
    unfold loadLine at hload
    rcases readPlain_of_not_isIgnored h with hread | ⟨e, hread⟩
    · rw [hread] at hload
      cases strict with
      | true => cases hload
      | false => exact tell_ne p p.forest _ (Prod.mk.inj hload).1
    · rw [hread] at hload
      exact write_ne _ _ _ _ hload
  · intro h
    rw [loadLine, (read_of_isIgnored h).2]

/-! ## Lines made empty -/

/-- Where the rest of the lines does not matter, what comes before it does not either. -/
theorem loadLines_append_congr {n : NodeId} {strict : Bool} {rest rest' : List (List Char)}
    (h : ∀ p number, loadLines n strict p number rest = loadLines n strict p number rest')
    (before : List (List Char)) (p : Progress) (number : Nat) :
    loadLines n strict p number (before ++ rest) =
      loadLines n strict p number (before ++ rest') := by
  induction before generalizing p number with
  | nil => exact h p number
  | cons s before ih =>
    rw [List.cons_append, List.cons_append, loadLines, loadLines]
    rcases loadLine n strict p number s with ⟨p', _ | _⟩
    · rfl
    · exact ih p' (number + 1)

theorem loadFileLines_append_congr {visit : Progress → String → Progress × Except Failure Unit}
    {n : NodeId} {file : String} {rest rest' : List (List Char)}
    (h : ∀ p number, loadFileLines visit n file p number rest =
      loadFileLines visit n file p number rest')
    (before : List (List Char)) (p : Progress) (number : Nat) :
    loadFileLines visit n file p number (before ++ rest) =
      loadFileLines visit n file p number (before ++ rest') := by
  induction before generalizing p number with
  | nil => exact h p number
  | cons s before ih =>
    rw [List.cons_append, List.cons_append]
    by_cases hinclude : IsInclude s
    · obtain ⟨name, hs⟩ := hinclude
      rw [loadFileLines_including hs, loadFileLines_including hs]
      rcases visit _ _ with ⟨p', _ | _⟩
      · rfl
      · exact ih p' (number + 1)
    · rw [loadFileLines_own hinclude, loadFileLines_own hinclude]
      rcases ownLine n file p number s with ⟨p', _ | _⟩
      · rfl
      · exact ih p' (number + 1)

/-- `text'` is `text` with its line `s` made empty. -/
def Emptied (s : List Char) (text text' : String) : Prop :=
  ∃ before after, Text.lines text.toList = before ++ s :: after ∧
    Text.lines text'.toList = before ++ [] :: after

/-- The same for one of the files. -/
def EmptiedIn (s : List Char) (files files' : Files) : Prop :=
  ∃ name text text' before after, Emptied s text text' ∧
    files = before ++ (name, text) :: after ∧ files' = before ++ (name, text') :: after

/-- With the line made empty, every load is the same: the nodes, what is told and what the load
ends with. -/
structure Silent (s : List Char) : Prop where
  text : ∀ (f : Forest) (n : NodeId) (strict : Bool) {text text' : String}, Emptied s text text' →
    loadText f n strict text = loadText f n strict text'
  file : ∀ (f : Forest) (n : NodeId) {files files' : Files} (file : String),
    EmptiedIn s files files' → loadInto f n files file = loadInto f n files' file

section
variable {s : List Char} (hs : isIgnored s = true)

include hs

theorem loadText_of_isIgnored (f : Forest) (n : NodeId) (strict : Bool) {text text' : String}
    (h : Emptied s text text') : loadText f n strict text = loadText f n strict text' := by
  obtain ⟨before, after, htext, htext'⟩ := h
  rw [loadText, loadText, htext, htext']
  refine loadLines_append_congr (fun p number => ?_) before _ 1
  rw [loadLines, loadLines, (loadLine_silent_iff n strict p number s).mpr hs,
    (loadLine_silent_iff n strict p number []).mpr rfl]

theorem loadFileLines_of_isIgnored (visit : Progress → String → Progress × Except Failure Unit)
    (n : NodeId) (file : String) (p : Progress) (number : Nat) {text text' : String}
    (h : Emptied s text text') :
    loadFileLines visit n file p number (Text.lines text.toList) =
      loadFileLines visit n file p number (Text.lines text'.toList) := by
  obtain ⟨before, after, htext, htext'⟩ := h
  rw [htext, htext']
  refine loadFileLines_append_congr (fun p number => ?_) before p number
  have hempty : Line.read [] = .ignored := rfl
  rw [loadFileLines, loadFileLines, (read_of_isIgnored hs).1, hempty]

omit hs in
/-- A file is read as before, or its text is the one with the line made empty. -/
theorem read?_of_emptiedIn {files files' : Files} (h : EmptiedIn s files files') (file : String) :
    files.read? file = files'.read? file ∨ ∃ text text', Emptied s text text' ∧
      files.read? file = some text ∧ files'.read? file = some text' := by
  obtain ⟨name, text, text', before, after, hempty, rfl, rfl⟩ := h
  unfold Files.read?
  rw [List.lookup_append, List.lookup_append, List.lookup_cons, List.lookup_cons]
  cases hbefore : before.lookup (String.ofList (Path.normalize file.toList)) with
  | some t => exact Or.inl rfl
  | none =>
    cases hname : String.ofList (Path.normalize file.toList) == name with
    | false => exact Or.inl rfl
    | true => exact Or.inr ⟨text, text', hempty, rfl, rfl⟩

theorem visitFile_of_emptiedIn {files files' : Files} (h : EmptiedIn s files files') (n : NodeId)
    (levels : Nat) : visitFile files n levels = visitFile files' n levels := by
  induction levels with
  | zero => rfl
  | succ levels ih =>
    funext depth p file
    rw [visitFile, visitFile, ih]
    dsimp only
    split
    · rfl
    · rcases read?_of_emptiedIn h file with hsame | ⟨text, text', hempty, hread, hread'⟩
      · rw [hsame]
      · rw [hread, hread']
        exact loadFileLines_of_isIgnored hs _ _ _ _ _ hempty

theorem silent_of_isIgnored : Silent s where
  text := loadText_of_isIgnored hs
  file := by
    intro f n files files' file h
    have hlength : files.length = files'.length := by
      obtain ⟨name, text, text', before, after, -, rfl, rfl⟩ := h
      simp
    rw [loadInto, loadInto, visitFile_of_emptiedIn hs h, hlength]

end

/-! ## Comments -/

/-- A line is told of or fails where it is the only line of a text, if not elsewhere. -/
theorem isIgnored_of_silent {s text : List Char} (hline : s ∈ Text.lines text) (h : Silent s) :
    isIgnored s = true := by
  have hempty : Emptied s (String.ofList s) "" := by
    refine ⟨[], [], ?_, rfl⟩
    rw [String.toList_ofList]
    exact Text.lines_line hline
  have hload := h.text {} 0 true hempty
  have hone : loadText {} 0 true "" = ({ forest := {} }, .ok ()) := rfl
  rw [hone, loadText, String.toList_ofList, Text.lines_line hline, loadLines] at hload
  rw [← loadLine_silent_iff 0 true { forest := {} } 1 s]
  generalize loadLine 0 true { forest := {} } 1 s = step at hload ⊢
  rcases step with ⟨p, e | ⟨⟩⟩
  · cases (Prod.mk.inj hload).2
  · exact hload

/-- **Comments are silent.**  With a comment made empty, every load of a text or of a file is the
same exactly if no character of the comment ends a line; and exactly then, whatever was loaded
before, a text's line that is the comment writes nothing, tells of nothing and does not fail. -/
theorem comment_silent_iff {s text : List Char} (h : IsComment s) (hline : s ∈ Text.lines text) :
    (Silent s ↔ ¬EndsLine s) ∧ ∀ n strict p number,
      loadLine n strict p number s = (p, .ok ()) ↔ ¬EndsLine s := by
  rw [← isIgnored_iff_of_comment h]
  exact ⟨⟨isIgnored_of_silent hline, silent_of_isIgnored⟩,
    fun n strict p number => loadLine_silent_iff n strict p number s⟩

/-- An entry behind a number sign, with blanks and a line end before it. -/
theorem comment_silent_iff_entry :
    IsComment "\u2028 # a:int = x".toList ∧
    "\u2028 # a:int = x".toList ∈ Text.lines "b = 1\r\n\u2028 # a:int = x\nc = 2".toList ∧
    Silent "\u2028 # a:int = x".toList := by
  have hcomment : IsComment "\u2028 # a:int = x".toList := by unfold IsComment; decide
  have hline : "\u2028 # a:int = x".toList ∈
      Text.lines "b = 1\r\n\u2028 # a:int = x\nc = 2".toList := by decide
  have hplain : ¬EndsLine "\u2028 # a:int = x".toList :=
    (isIgnored_iff_of_comment hcomment).mp (by decide)
  exact ⟨hcomment, hline, (comment_silent_iff hcomment hline).1.mpr hplain⟩

/-- A carriage return alone is part of a comment, and what is behind it is written with it. -/
theorem comment_writes :
    IsComment "# was:\rport = 8080".toList ∧
    Text.lines "# was:\rport = 8080".toList = ["# was:\rport = 8080".toList] ∧
    (loadText (Forest.newRoot {}).1 0 true "# was:\rport = 8080").1.forest.keys 0 =
      ["# was:\rport"] := by
  refine ⟨?_, by decide, by decide +kernel⟩
  unfold IsComment
  decide

end LayeredConf.Load
