import LayeredConf.Proofs.Load.Typed
import LayeredConf.Proofs.Load.Visits

/-!
# Loads as loads of text

A file stands for a list of lines: its own, with each include replaced by what the included file
stands for where it is come to first, and by nothing where it is come to again.  Loading the file is
loading these lines one by one.

    exists_expands          every file stands for a list of lines
    Expands.unique          and for one only
    loadInto_expands        the load ends, reads no file twice and writes the lines in order, all of
                            them or those before the one that fails
-/

namespace LayeredConf.Load

/-- With the files `seen` come to before, a task stands for the lines `T`, and after it the files
`seen'` were come to.  Where a file is missing the lines break off; then they are not complete. -/
inductive Expands (files : Files) :
    List String → Task → List (List Char) → List String → Bool → Prop
  | again {seen : List String} {file : String} : identity file ∈ seen →
      Expands files seen (.file file) [] seen true
  | missing {seen : List String} {file : String} : identity file ∉ seen →
      files.read? file = none →
      Expands files seen (.file file) [] (identity file :: seen) false
  | read {seen seen' : List String} {file text : String} {T : List (List Char)}
      {complete : Bool} : identity file ∉ seen → files.read? file = some text →
      Expands files (identity file :: seen) (.lines file 1 (Text.lines text.toList)) T seen'
        complete →
      Expands files seen (.file file) T seen' complete
  | done {seen : List String} {file : String} {number : Nat} :
      Expands files seen (.lines file number []) [] seen true
  | own {seen seen' : List String} {file : String} {number : Nat} {s : List Char}
      {rest T : List (List Char)} {complete : Bool} : ¬IsInclude s →
      Expands files seen (.lines file (number + 1) rest) T seen' complete →
      Expands files seen (.lines file number (s :: rest)) (s :: T) seen' complete
  | included {seen seen' seen'' : List String} {file name : String} {number : Nat} {s : List Char}
      {rest T T' : List (List Char)} {complete : Bool} : Line.read s = .including name →
      Expands files seen (.file (includedFrom file name)) T seen' true →
      Expands files seen' (.lines file (number + 1) rest) T' seen'' complete →
      Expands files seen (.lines file number (s :: rest)) (T ++ T') seen'' complete
  | broken {seen seen' : List String} {file name : String} {number : Nat} {s : List Char}
      {rest T : List (List Char)} : Line.read s = .including name →
      Expands files seen (.file (includedFrom file name)) T seen' false →
      Expands files seen (.lines file number (s :: rest)) T seen' false

/-! ## Every file has one expansion -/

section
variable {files : Files} {seen seen' : List String} {task : Task} {T : List (List Char)}
  {complete : Bool}

theorem Expands.seen_suffix (h : Expands files seen task T seen' complete) : seen <:+ seen' := by
  induction h with
  | again => exact List.suffix_refl _
  | missing => exact List.suffix_cons _ _
  | read _ _ _ ih => exact (List.suffix_cons _ _).trans ih
  | done => exact List.suffix_refl _
  | own _ _ ih => exact ih
  | included _ _ _ ihFile ih => exact ihFile.trans ih
  | broken _ _ ih => exact ih

theorem Expands.unique {seen₂ : List String} {T₂ : List (List Char)} {complete₂ : Bool}
    (h : Expands files seen task T seen' complete)
    (h₂ : Expands files seen task T₂ seen₂ complete₂) :
    T₂ = T ∧ seen₂ = seen' ∧ complete₂ = complete := by
  induction h generalizing T₂ seen₂ complete₂ with
  | again hmem =>
    cases h₂ with
    | again => exact ⟨rfl, rfl, rfl⟩
    | missing hnew => exact absurd hmem hnew
    | read hnew => exact absurd hmem hnew
  | missing hnew hread =>
    cases h₂ with
    | again hmem => exact absurd hmem hnew
    | missing => exact ⟨rfl, rfl, rfl⟩
    | read _ hread₂ => rw [hread] at hread₂; cases hread₂
  | read hnew hread _ ih =>
    cases h₂ with
    | again hmem => exact absurd hmem hnew
    | missing _ hread₂ => rw [hread] at hread₂; cases hread₂
    | read _ hread₂ hlines₂ =>
      rw [hread] at hread₂
      cases hread₂
      exact ih hlines₂
  | done =>
    cases h₂
    exact ⟨rfl, rfl, rfl⟩
  | own hown _ ih =>
    cases h₂ with
    | own _ hrest₂ =>
      obtain ⟨rfl, hseen, hcomplete⟩ := ih hrest₂
      exact ⟨rfl, hseen, hcomplete⟩
    | included hs => exact absurd ⟨_, hs⟩ hown
    | broken hs => exact absurd ⟨_, hs⟩ hown
  | included hs _ _ ihFile ih =>
    cases h₂ with
    | own hown => exact absurd ⟨_, hs⟩ hown
    | included hs₂ hfile₂ hrest₂ =>
      rw [hs] at hs₂
      cases hs₂
      obtain ⟨rfl, rfl, _⟩ := ihFile hfile₂
      obtain ⟨rfl, hseen, hcomplete⟩ := ih hrest₂
      exact ⟨rfl, hseen, hcomplete⟩
    | broken hs₂ hfile₂ =>
      rw [hs] at hs₂
      cases hs₂
      cases (ihFile hfile₂).2.2
  | broken hs _ ih =>
    cases h₂ with
    | own hown => exact absurd ⟨_, hs⟩ hown
    | included hs₂ hfile₂ =>
      rw [hs] at hs₂
      cases hs₂
      cases (ih hfile₂).2.2
    | broken hs₂ hfile₂ =>
      rw [hs] at hs₂
      cases hs₂
      exact ih hfile₂

end

theorem exists_expands_lines {files : Files} {k : Nat}
    (hfile : ∀ seen name, unread files seen < k →
      ∃ T seen' complete, Expands files seen (.file name) T seen' complete)
    (file : String) (number : Nat) (rest : List (List Char)) (seen : List String)
    (hk : unread files seen < k) :
    ∃ T seen' complete, Expands files seen (.lines file number rest) T seen' complete := by
  induction rest generalizing number seen with
  | nil => exact ⟨_, _, _, .done⟩
  | cons s rest ih =>
    by_cases hinclude : IsInclude s
    · obtain ⟨name, hs⟩ := hinclude
      obtain ⟨T, seen', complete, hT⟩ := hfile seen (includedFrom file name) hk
      cases complete with
      | false => exact ⟨_, _, _, .broken hs hT⟩
      | true =>
        have hk' : unread files seen' < k :=
          Nat.lt_of_le_of_lt (unread_mono hT.seen_suffix.subset) hk
        obtain ⟨T', seen'', complete, hT'⟩ := ih (number + 1) seen' hk'
        exact ⟨_, _, _, .included hs hT hT'⟩
    · obtain ⟨T, seen', complete, hT⟩ := ih (number + 1) seen hk
      exact ⟨_, _, _, .own hinclude hT⟩

/-- A file that is come to first leaves fewer of the files to read. -/
theorem exists_expands (files : Files) (seen : List String) (file : String) :
    ∃ T seen' complete, Expands files seen (.file file) T seen' complete := by
  suffices hfile : ∀ k seen file, unread files seen < k →
      ∃ T seen' complete, Expands files seen (.file file) T seen' complete from
    hfile _ seen file (Nat.lt_succ_self _)
  intro k
  induction k with
  | zero => exact fun _ _ hk => absurd hk (Nat.not_lt_zero _)
  | succ k ih =>
    intro seen file hk
    by_cases hseen : identity file ∈ seen
    · exact ⟨_, _, _, .again hseen⟩
    cases hread : files.read? file with
    | none => exact ⟨_, _, _, .missing hseen hread⟩
    | some text =>
      have hless : unread files (identity file :: seen) < k :=
        Nat.lt_of_lt_of_le (unread_lt hread hseen) (Nat.le_of_lt_succ hk)
      obtain ⟨T, seen', complete, hT⟩ :=
        exists_expands_lines ih file 1 (Text.lines text.toList) _ hless
      exact ⟨_, _, _, .read hseen hread hT⟩

/-! ## Writing lines -/

/-- The nodes after a line of a text that must not be skipped, if nothing is wrong with it. -/
def writeLine (n : NodeId) (f : Forest) (s : List Char) : Option Forest :=
  match Line.readPlain s with
  | .entry e => (readTyped e.type e.raw).toOption.map fun v => (f.setDotted n e.key v).1
  | .unknown => none
  | _ => some f

/-- Does a step of a load write what a line writes, and fail where it cannot? -/
def Writes (n : NodeId) (p : Progress) (s : List Char) (step : Progress × Except Failure Unit) :
    Prop :=
  (∃ q, step = (q, .ok ()) ∧ writeLine n p.forest s = some q.forest) ∨
  (∃ e, step = (p, .error e) ∧ writeLine n p.forest s = none)

theorem writes_entry {n : NodeId} {p : Progress} {s : List Char} {e : Entry}
    (h : Line.readPlain s = .entry e) (place : Place) : Writes n p s (p.write n place e) := by
  unfold Writes writeLine Progress.write
  rw [h]
  dsimp only
  cases readTyped e.type e.raw with
  | error cause => exact Or.inr ⟨_, rfl, rfl⟩
  | ok v => exact Or.inl ⟨_, rfl, rfl⟩

theorem loadLine_writes (n : NodeId) (p : Progress) (number : Nat) (s : List Char) :
    Writes n p s (loadLine n true p number s) := by
  unfold loadLine
  cases hs : Line.readPlain s with
  | entry e => exact writes_entry hs _
  | unknown => exact Or.inr ⟨_, rfl, by rw [writeLine, hs]⟩
  | ignored => exact Or.inl ⟨_, rfl, by rw [writeLine, hs]⟩
  | including name => exact Or.inl ⟨_, rfl, by rw [writeLine, hs]⟩

/-- Only includes are read in another way in a file. -/
theorem readPlain_of_not_include {s : List Char} (h : ¬IsInclude s) :
    Line.readPlain s = Line.read s := by
  unfold IsInclude Line.read at h
  unfold Line.readPlain Line.read
  cases hignored : isIgnored s with
  | true => rfl
  | false =>
    cases hinclude : readInclude? s with
    | some target => exact absurd ⟨_, by rw [hignored, hinclude]; rfl⟩ h
    | none => cases readEntry? s <;> rfl

theorem ownLine_writes {s : List Char} (h : ¬IsInclude s) (n : NodeId) (file : String)
    (p : Progress) (number : Nat) : Writes n p s (ownLine n file p number s) := by
  have hplain := readPlain_of_not_include h
  unfold ownLine
  cases hs : Line.read s with
  | entry e => exact writes_entry (hplain.trans hs) _
  | unknown => exact Or.inr ⟨_, rfl, by rw [writeLine, hplain, hs]⟩
  | ignored => exact Or.inl ⟨_, rfl, by rw [writeLine, hplain, hs]⟩
  | including name => exact absurd ⟨name, hs⟩ h

/-- The lines of a text are written one by one. -/
theorem loadLines_of_writeLines {n : NodeId} {T : List (List Char)} {p : Progress} {g : Forest}
    (number : Nat) (h : T.foldlM (writeLine n) p.forest = some g) :
    ∃ q, loadLines n true p number T = (q, .ok ()) ∧ q.forest = g := by
  induction T generalizing p number with
  | nil =>
    cases h
    exact ⟨p, rfl, rfl⟩
  | cons s T ih =>
    rw [List.foldlM_cons] at h
    rcases loadLine_writes n p number s with ⟨q, hline, hwrite⟩ | ⟨e, _, hwrite⟩
    · rw [hwrite] at h
      rw [loadLines, hline]
      exact ih (number + 1) h
    · rw [hwrite] at h
      cases h

/-! ## Loads write expansions -/

/-- From `f` to `g` a load that ends with `r` wrote the lines `T`: if it ends well, all of them and
they are complete, else those before a line that cannot be written or before they break off. -/
def Wrote (n : NodeId) (f : Forest) (T : List (List Char)) (complete : Bool) (g : Forest) :
    Except Failure Unit → Prop
  | .ok () => complete = true ∧ T.foldlM (writeLine n) f = some g
  | .error _ => ∃ before after, T = before ++ after ∧ before.foldlM (writeLine n) f = some g ∧
    (after = [] ∧ complete = false ∨ ∃ s rest, after = s :: rest ∧ writeLine n g s = none)

theorem Wrote.append {n : NodeId} {f g g' : Forest} {T T' : List (List Char)} {complete : Bool}
    {r : Except Failure Unit} (hT : T.foldlM (writeLine n) f = some g)
    (h : Wrote n g T' complete g' r) : Wrote n f (T ++ T') complete g' r := by
  have happend : ∀ l, (T ++ l).foldlM (writeLine n) f = l.foldlM (writeLine n) g := by
    intro l
    rw [List.foldlM_append, hT]
    rfl
  cases r with
  | ok => exact ⟨h.1, (happend T').trans h.2⟩
  | error e =>
    obtain ⟨before, after, rfl, hbefore, hafter⟩ := h
    exact ⟨T ++ before, after, (List.append_assoc ..).symm, (happend before).trans hbefore, hafter⟩

/-- A load that failed in lines that are complete failed at one of them. -/
theorem Wrote.stop {n : NodeId} {f g : Forest} {T : List (List Char)} {e : Failure}
    (h : Wrote n f T true g (.error e)) (T' : List (List Char)) (complete : Bool) (e' : Failure) :
    Wrote n f (T ++ T') complete g (.error e') := by
  obtain ⟨before, after, rfl, hbefore, ⟨_, hfalse⟩ | ⟨s, rest, rfl, hs⟩⟩ := h
  · cases hfalse
  · exact ⟨before, s :: rest ++ T', List.append_assoc .., hbefore, Or.inr ⟨s, rest ++ T', rfl, hs⟩⟩

theorem loads_of_expands {files : Files} {seen seen' : List String} {task : Task}
    {T : List (List Char)} {complete : Bool} (h : Expands files seen task T seen' complete)
    (n : NodeId) (depth : Nat) (p : Progress) (hp : p.begun = seen) :
    ∃ q r, Loads files n depth p task q r ∧ Wrote n p.forest T complete q.forest r ∧
      (r = .ok () → q.begun = seen') := by
  induction h generalizing depth p with
  | again hmem =>
    subst hp
    exact ⟨_, _, .again hmem, ⟨rfl, rfl⟩, fun _ => rfl⟩
  | missing hnew hread =>
    subst hp
    exact ⟨_, _, .missing hnew hread, ⟨[], [], rfl, rfl, Or.inl ⟨rfl, rfl⟩⟩, fun hr => by cases hr⟩
  | read hnew hread _ ih =>
    subst hp
    obtain ⟨q, r, hload, hwrote, hbegun⟩ := ih (depth + 1) ((p.start _).tell (.file _ _ depth)) rfl
    exact ⟨q, r, .read hnew hread hload, hwrote, hbegun⟩
  | done =>
    exact ⟨_, _, .done, ⟨rfl, rfl⟩, fun _ => hp⟩
  | @own seen seen' file number s rest T complete hown _ ih =>
    rcases ownLine_writes hown n file p number with ⟨p', hline, hwrite⟩ | ⟨e, hline, hwrite⟩
    · obtain ⟨q, r, hload, hwrote, hbegun⟩ := ih depth p' ((ownLine_begun hline).1.trans hp)
      have hs : [s].foldlM (writeLine n) p.forest = some p'.forest := by
        rw [List.foldlM_cons, hwrite]
        rfl
      exact ⟨q, r, .own hown hline hload, hwrote.append hs, hbegun⟩
    · exact ⟨p, _, .stop hown hline, ⟨[], s :: T, rfl, rfl, Or.inr ⟨s, T, rfl, hwrite⟩⟩,
        fun hr => by cases hr⟩
  | included hs _ _ ihFile ih =>
    obtain ⟨p', r, hfile, hwrote, hbegun⟩ := ihFile depth (p.tell _) hp
    cases r with
    | ok =>
      obtain ⟨q, r, hload, hwrote', hbegun'⟩ := ih depth p' (hbegun rfl)
      exact ⟨q, r, .included hs hfile hload, hwrote'.append hwrote.2, hbegun'⟩
    | error e => exact ⟨p', _, .broken hs hfile, hwrote.stop _ _ _, fun hr => by cases hr⟩
  | broken hs _ ih =>
    obtain ⟨q, r, hfile, hwrote, _⟩ := ih depth (p.tell _) hp
    cases r with
    | ok => cases hwrote.1
    | error e => exact ⟨q, _, .broken hs hfile, hwrote, fun hr => by cases hr⟩

/-- A load tells in the end that it failed. -/
def Progress.conclude (p : Progress) (file : String) : Except Failure Unit → Progress
  | .ok () => p
  | .error e => p.tell (.failed ⟨some file, none⟩ e)

theorem loadInto_of_loads {files : Files} {f : Forest} {n : NodeId} {file : String} {q : Progress}
    {r : Except Failure Unit} (h : Loads files n 0 { forest := f } (.file file) q r) :
    loadInto f n files file = (q.conclude file r, r) := by
  have hvisit := run_of_loads h (files.length + 1) (Nat.lt_succ_of_le (unread_le files []))
  rw [Task.run] at hvisit
  rw [loadInto, hvisit]
  cases r <;> rfl

/-- **A load of a file is a load of lines.**  It ends, reads no file twice, and writes the lines
that the file stands for.  If it ends well they are complete and it leaves what they leave; if it
fails it leaves what the lines leave up to one that fails, or up to the include where they break
off. -/
theorem loadInto_expands (files : Files) (f : Forest) (n : NodeId) (file : String) :
    ∃ q r, Loads files n 0 { forest := f } (.file file) q r ∧
      loadInto f n files file = (q.conclude file r, r) ∧
      q.begun.Nodup ∧ (reads q.events).Nodup ∧
      ∃ T seen complete, Expands files [] (.file file) T seen complete ∧
        (r = .ok () → complete = true ∧
          ∃ p, loadLines n true { forest := f } 1 T = (p, .ok ()) ∧ p.forest = q.forest) ∧
        (∀ e, r = .error e → ∃ before after p, T = before ++ after ∧
          loadLines n true { forest := f } 1 before = (p, .ok ()) ∧ p.forest = q.forest ∧
          (after = [] ∧ complete = false ∨ ∃ s rest e', after = s :: rest ∧
            loadLine n true p (before.length + 1) s = (p, .error e'))) := by
  obtain ⟨T, seen, complete, hT⟩ := exists_expands files [] file
  obtain ⟨q, r, hload, hwrote, _⟩ := loads_of_expands hT n 0 { forest := f } rfl
  have hnodup : q.begun.Nodup := hload.begun_nodup List.nodup_nil
  have hreads : (reads q.events).Sublist q.begun.reverse :=
    hload.reads_sublist (List.Sublist.refl _)
  refine ⟨q, r, hload, loadInto_of_loads hload, hnodup,
    hreads.nodup ((List.reverse_perm _).nodup_iff.mpr hnodup), T, seen, complete, hT, ?_, ?_⟩
  · rintro rfl
    exact ⟨hwrote.1, loadLines_of_writeLines 1 hwrote.2⟩
  · rintro e rfl
    obtain ⟨before, after, hsplit, hbefore, hafter⟩ := hwrote
    obtain ⟨p, hlines, hforest⟩ :=
      loadLines_of_writeLines (p := { forest := f }) 1 hbefore
    refine ⟨before, after, p, hsplit, hlines, hforest, hafter.imp_right ?_⟩
    rintro ⟨s, rest, rfl, hs⟩
    rw [← hforest] at hs
    rcases loadLine_writes n p (before.length + 1) s with ⟨_, _, hwrite⟩ | ⟨e', hline, _⟩
    · rw [hs] at hwrite
      cases hwrite
    · exact ⟨s, rest, e', rfl, hline⟩

/-- Two files that include each other. -/
def circle : Files := [("a", "x=1\ninclude b\ny=2"), ("b", "include a\nx=3")]

theorem circle_expands : Expands circle [] (.file "a")
    ["x=1".toList, "x=3".toList, "y=2".toList] ["/b", "/a"] true := by
  have ha : identity "a" = "/a" := by decide
  have hb : identity "b" = "/b" := by decide
  refine .read (by decide) (show circle.read? "a" = some "x=1\ninclude b\ny=2" by decide) ?_
  rw [ha, show Text.lines "x=1\ninclude b\ny=2".toList =
    ["x=1".toList, "include b".toList, "y=2".toList] by decide]
  refine .own (by decide) (.included (T := ["x=3".toList])
    (show Line.read "include b".toList = .including "b" by decide) ?_ (.own (by decide) .done))
  rw [show includedFrom "a" "b" = "b" by decide]
  refine .read (by decide) (show circle.read? "b" = some "include a\nx=3" by decide) ?_
  rw [hb, show Text.lines "include a\nx=3".toList = ["include a".toList, "x=3".toList] by decide]
  refine .included (T := []) (show Line.read "include a".toList = .including "a" by decide)
    (.again ?_) (.own (by decide) .done)
  decide

/-- What the three lines leave. -/
theorem circle_values {q : Progress}
    (h : loadLines 0 true { forest := (Forest.newRoot {}).1 } 1
      ["x=1".toList, "x=3".toList, "y=2".toList] = (q, .ok ())) :
    (q.forest.walk 0 ["x"]).map q.forest.value = some (.text "3") ∧
    (q.forest.walk 0 ["y"]).map q.forest.value = some (.text "2") := by
  have hfirst : Line.readPlain "x=1".toList = .entry ⟨"x", "", "1"⟩ := by decide +kernel
  have hsecond : Line.readPlain "x=3".toList = .entry ⟨"x", "", "3"⟩ := by decide +kernel
  have hlast : Line.readPlain "y=2".toList = .entry ⟨"y", "", "2"⟩ := by decide +kernel
  simp only [loadLines, loadLine, hfirst, hsecond, hlast, Progress.write, readTyped_untyped] at h
  obtain rfl := (Prod.mk.inj h).1
  exact ⟨rfl, rfl⟩

/-- The included file has the last word on `x`, and what follows the include is read after it. -/
theorem loadInto_expands_circle : ∃ p q,
    loadInto (Forest.newRoot {}).1 0 circle "a" = (q, .ok ()) ∧
    loadLines 0 true { forest := (Forest.newRoot {}).1 } 1
      ["x=1".toList, "x=3".toList, "y=2".toList] = (p, .ok ()) ∧
    p.forest = q.forest ∧ (reads q.events).Nodup ∧
    (q.forest.walk 0 ["x"]).map q.forest.value = some (.text "3") ∧
    (q.forest.walk 0 ["y"]).map q.forest.value = some (.text "2") := by
  have hisOk : (loadInto (Forest.newRoot {}).1 0 circle "a").2.isOk = true := by decide +kernel
  obtain ⟨q, r, _, hinto, _, hreads, T, _, _, hT, hok, _⟩ :=
    loadInto_expands circle (Forest.newRoot {}).1 0 "a"
  obtain ⟨rfl, _⟩ := circle_expands.unique hT
  rw [hinto] at hisOk
  cases r with
  | error => cases hisOk
  | ok =>
    obtain ⟨_, p, hlines, hforest⟩ := hok rfl
    have hvalues := circle_values hlines
    rw [hforest] at hvalues
    exact ⟨p, q, hinto, hlines, hforest, hreads, hvalues⟩

end LayeredConf.Load
