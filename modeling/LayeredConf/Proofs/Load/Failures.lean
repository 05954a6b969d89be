import LayeredConf.Proofs.Load.Entries
import LayeredConf.Proofs.Load.Expansion
import LayeredConf.Proofs.Load.Typed

/-!
# Loads that fail

A load fails where a file is missing, where a line is none of a line's forms, or where an entry does
not convert.  The includes that led to the file carry the failure outwards: each puts its file, its
line and its target in front of it.  The load tells of the outermost failure, and of no other.

    Fails f chain cause     the load of `f` fails with a cause, in a file that a chain of includes
                            leads to
    within chain cause      the cause within the includes
    exists_loads_error_iff  what a load fails with
    loadInto_fails          and what it tells
-/

namespace LayeredConf.Load

/-! ## Causes within includes -/

/-- A line of a file that includes another. -/
structure Inclusion where
  file : String
  line : Nat
  target : String

/-- What the message of an include begins with. -/
def Inclusion.heading (i : Inclusion) : String :=
  i.file ++ ":" ++ toString i.line ++ ": including \"" ++ i.target ++ "\": "

/-- A cause within includes, the outermost first. -/
def within (chain : List Inclusion) (cause : Failure) : Failure :=
  chain.foldr (fun i e => .inclusion ⟨some i.file, i.line⟩ i.target e) cause

theorem message_within (chain : List Inclusion) (cause : Failure) :
    (within chain cause).message =
      chain.foldr (fun i message => i.heading ++ message) cause.message := by
  induction chain with
  | nil => rfl
  | cons i chain ih => exact congrArg (i.heading ++ ·) ih

/-! ## Where a load fails -/

/-- The load of a file that was not begun comes to a line of it. -/
inductive ComesTo (files : Files) (n : NodeId) (depth : Nat) (p : Progress) (file : String) :
    Nat → List Char → Progress → Prop
  | intro {text : String} {before after : List (List Char)} {s : List Char} {q : Progress} :
      identity file ∉ p.begun → files.read? file = some text →
      Text.lines text.toList = before ++ s :: after →
      Loads files n (depth + 1) ((p.start file).tell (.file file (identity file) depth))
        (.lines file 1 before) q (.ok ()) →
      ComesTo files n depth p file (before.length + 1) s q

/-- The load of a file fails in a file that a chain of includes leads to, the file itself if there
are none. -/
inductive Fails (files : Files) (n : NodeId) :
    Nat → Progress → String → List Inclusion → Failure → Prop
  | missing {depth : Nat} {p : Progress} {file : String} : identity file ∉ p.begun →
      files.read? file = none → Fails files n depth p file [] .missingFile
  | unknown {depth number : Nat} {p q : Progress} {file : String} {s : List Char} :
      ComesTo files n depth p file number s q → Line.read s = .unknown →
      Fails files n depth p file [] (.badLine ⟨some file, number⟩ (String.ofList s))
  | unconvertible {depth number : Nat} {p q : Progress} {file type : String} {s : List Char}
      {e : Entry} {v : Value} :
      ComesTo files n depth p file number s q → Line.read s = .entry e →
      readTyped e.type e.raw = .error (.unconvertible type v) →
      Fails files n depth p file [] (.badEntry ⟨some file, number⟩ (.unconvertible type v))
  | included {depth number : Nat} {p q : Progress} {file name : String} {s : List Char}
      {chain : List Inclusion} {cause : Failure} :
      ComesTo files n depth p file number s q → Line.read s = .including name →
      Fails files n (depth + 1)
        (q.tell (.inclusion ⟨some file, some number⟩ (includedFrom file name)))
        (includedFrom file name) chain cause →
      Fails files n depth p file (⟨file, number, includedFrom file name⟩ :: chain) cause

/-! ## Entries that do not convert -/

/-- An entry that is read from a line can fail in one way only. -/
theorem readTyped_error {s : List Char} {e : Entry} {cause : Failure}
    (hs : Line.read s = .entry e) (h : readTyped e.type e.raw = .error cause) :
    ∃ type v, cause = .unconvertible type v := by
  obtain ⟨_, _, _, hdeclares⟩ :=
    exists_declares (entryType_of_readEntry (readEntry?_of_read (Or.inl hs)))
  exact error_of_declares hdeclares h

/-- A line that is no include fails if it is none of the forms, or an entry that does not convert;
then it does nothing. -/
theorem ownLine_error_iff {n : NodeId} {file : String} {p q : Progress} {number : Nat}
    {s : List Char} {e : Failure} : ownLine n file p number s = (q, .error e) ↔ p = q ∧
      (Line.read s = .unknown ∧ e = .badLine ⟨some file, number⟩ (String.ofList s) ∨
      ∃ entry type v, Line.read s = .entry entry ∧
        readTyped entry.type entry.raw = .error (.unconvertible type v) ∧
        e = .badEntry ⟨some file, number⟩ (.unconvertible type v)) := by
  constructor
  · intro h
    unfold ownLine at h
    split at h
    · next entry hs =>
      unfold Progress.write at h
      split at h
      · next cause hcause =>
        obtain ⟨type, v, rfl⟩ := readTyped_error hs hcause
        cases h
        exact ⟨rfl, Or.inr ⟨entry, type, v, hs, hcause, rfl⟩⟩
      · cases h
    · next hs =>
      cases h
      exact ⟨rfl, Or.inl ⟨hs, rfl⟩⟩
    · cases h
  · rintro ⟨rfl, ⟨hs, rfl⟩ | ⟨entry, type, v, hs, hcause, rfl⟩⟩
    · rw [ownLine, hs]
    · rw [ownLine, hs]
      dsimp only
      rw [Progress.write, hcause]

/-! ## What a load fails with -/

section
variable {files : Files} {n : NodeId} {depth number : Nat} {p p' q : Progress} {file : String}
  {s : List Char} {before rest : List (List Char)} {r : Except Failure Unit} {e : Failure}

theorem Loads.append (hbefore : Loads files n depth p (.lines file number before) p' (.ok ()))
    (h : Loads files n depth p' (.lines file (number + before.length) rest) q r) :
    Loads files n depth p (.lines file number (before ++ rest)) q r := by
  induction before generalizing number p with
  | nil =>
    cases hbefore
    exact h
  | cons s before ih =>
    have hrest : Loads files n depth p' (.lines file (number + 1 + before.length) rest) q r := by
      rwa [List.length_cons, Nat.add_comm before.length 1, ← Nat.add_assoc] at h
    cases hbefore with
    | own hown hline hlines => exact .own hown hline (ih hlines hrest)
    | included hs hfile hlines => exact .included hs hfile (ih hlines hrest)

/-- Lines fail at one of them, and what comes behind it does not matter. -/
theorem loads_lines_error_iff :
    Loads files n depth p (.lines file number rest) q (.error e) ↔
      ∃ before s after p', rest = before ++ s :: after ∧
        Loads files n depth p (.lines file number before) p' (.ok ()) ∧
        Loads files n depth p' (.lines file (number + before.length) [s]) q (.error e) := by
  constructor
  · intro h
    induction rest generalizing number p with
    | nil => cases h
    | cons s rest ih =>
      cases h with
      | own hown hline hlines =>
        obtain ⟨before, s', after, p', rfl, hbefore, hs'⟩ := ih hlines
        rw [Nat.add_assoc, Nat.add_comm 1] at hs'
        exact ⟨s :: before, s', after, p', rfl, .own hown hline hbefore, hs'⟩
      | included hs hfile hlines =>
        obtain ⟨before, s', after, p', rfl, hbefore, hs'⟩ := ih hlines
        rw [Nat.add_assoc, Nat.add_comm 1] at hs'
        exact ⟨s :: before, s', after, p', rfl, .included hs hfile hbefore, hs'⟩
      | stop hown hline => exact ⟨[], s, rest, p, rfl, .done, .stop hown hline⟩
      | broken hs hfile => exact ⟨[], s, rest, p, rfl, .done, .broken hs hfile⟩
  · rintro ⟨before, s, after, p', rfl, hbefore, hs⟩
    refine hbefore.append ?_
    cases hs with
    | own _ _ hlines => cases hlines
    | included _ _ hlines => cases hlines
    | stop hown hline => exact .stop hown hline
    | broken hs hfile => exact .broken hs hfile

theorem ComesTo.loads (h : ComesTo files n depth p file number s p')
    (hs : Loads files n (depth + 1) p' (.lines file number [s]) q (.error e)) :
    Loads files n depth p (.file file) q (.error e) := by
  obtain @⟨_, before, _, _, _, hnew, hread, hlines, hbefore⟩ := h
  refine .read hnew hread (loads_lines_error_iff.mpr ⟨_, _, _, _, hlines, hbefore, ?_⟩)
  rwa [Nat.add_comm before.length 1] at hs

/-- To come to a line is to have one file less to read. -/
theorem ComesTo.unread_lt (h : ComesTo files n depth p file number s q) :
    unread files q.begun < unread files p.begun := by
  obtain ⟨hnew, hread, _, hbefore⟩ := h
  exact Nat.lt_of_le_of_lt (unread_mono hbefore.begun_suffix.subset) (Load.unread_lt hread hnew)

theorem not_isInclude {line : Line} (hs : Line.read s = line)
    (hline : ∀ name, line ≠ .including name) : ¬IsInclude s := by
  rintro ⟨name, hname⟩
  exact hline name (hs.symm.trans hname)

theorem Fails.loads {chain : List Inclusion} {cause : Failure}
    (h : Fails files n depth p file chain cause) :
    ∃ q, Loads files n depth p (.file file) q (.error (within chain cause)) := by
  induction h with
  | missing hnew hread => exact ⟨_, .missing hnew hread⟩
  | unknown hcome hs =>
    exact ⟨_, hcome.loads (.stop (not_isInclude hs (by simp))
      (ownLine_error_iff.mpr ⟨rfl, Or.inl ⟨hs, rfl⟩⟩))⟩
  | unconvertible hcome hs hcause =>
    exact ⟨_, hcome.loads (.stop (not_isInclude hs (by simp))
      (ownLine_error_iff.mpr ⟨rfl, Or.inr ⟨_, _, _, hs, hcause, rfl⟩⟩))⟩
  | included hcome hs _ ih =>
    obtain ⟨q, hfile⟩ := ih
    exact ⟨q, hcome.loads (.broken hs hfile)⟩

/-- Each include on the way begins another of the files that are left. -/
theorem Loads.fails (h : Loads files n depth p (.file file) q (.error e)) :
    ∃ chain cause, Fails files n depth p file chain cause ∧ e = within chain cause := by
  induction hk : unread files p.begun using Nat.strongRecOn
    generalizing depth p q file e with
  | ind k ih =>
    cases h with
    | missing hnew hread => exact ⟨[], _, .missing hnew hread, rfl⟩
    | read hnew hread hlines =>
      obtain ⟨before, s, after, p', hsplit, hbefore, hs⟩ := loads_lines_error_iff.mp hlines
      have hcome := ComesTo.intro hnew hread hsplit hbefore
      rw [Nat.add_comm 1] at hs
      cases hs with
      | own _ _ hlines => cases hlines
      | included _ _ hlines => cases hlines
      | stop _ hline =>
        obtain ⟨-, ⟨hs, rfl⟩ | ⟨_, _, _, hs, hcause, rfl⟩⟩ := ownLine_error_iff.mp hline
        · exact ⟨[], _, .unknown hcome hs, rfl⟩
        · exact ⟨[], _, .unconvertible hcome hs hcause, rfl⟩
      | broken hs hfile =>
        obtain ⟨chain, cause, hfails, rfl⟩ := ih _ (hk ▸ hcome.unread_lt) hfile rfl
        exact ⟨_ :: chain, cause, .included hcome hs hfails, rfl⟩

theorem exists_loads_error_iff :
    (∃ q, Loads files n depth p (.file file) q (.error e)) ↔
      ∃ chain cause, Fails files n depth p file chain cause ∧ e = within chain cause := by
  constructor
  · rintro ⟨q, h⟩
    exact h.fails
  · rintro ⟨chain, cause, h, rfl⟩
    exact h.loads

end

/-! ## What a load tells of failures -/

/-- The failures that were told of. -/
def failures (events : List Event) : List (Origin × Failure) :=
  events.filterMap fun
    | .failed origin cause => some (origin, cause)
    | _ => none

theorem failures_tell (p : Progress) (e : Event) :
    failures (p.tell e).events = failures p.events ++ failures [e] := List.filterMap_append

theorem ownLine_failures {n : NodeId} {file : String} {p q : Progress} {number : Nat}
    {s : List Char} {r : Except Failure Unit} (h : ownLine n file p number s = (q, r)) :
    failures q.events = failures p.events := by
  obtain ⟨_, hsame | ⟨_, _, _, htold⟩⟩ := ownLine_tells h
  · rw [hsame]
  · rw [htold, failures, List.filterMap_append]
    exact List.append_nil _

/-- Failures are told of at the end of the whole load only. -/
theorem Loads.failures_eq {files : Files} {n : NodeId} {depth : Nat} {p q : Progress} {task : Task}
    {r : Except Failure Unit} (h : Loads files n depth p task q r) :
    failures q.events = failures p.events := by
  have htell : ∀ (p : Progress) (e : Event), failures [e] = [] →
      failures (p.tell e).events = failures p.events := by
    intro p e he
    rw [failures_tell, he, List.append_nil]
  induction h with
  | again => exact htell _ _ rfl
  | missing => rfl
  | read _ _ _ ih => exact ih.trans (htell _ _ rfl)
  | done => rfl
  | own _ hline _ ih => exact ih.trans (ownLine_failures hline)
  | stop _ hline => exact ownLine_failures hline
  | included _ _ _ ihFile ih => exact ih.trans (ihFile.trans (htell _ _ rfl))
  | broken _ _ ih => exact ih.trans (htell _ _ rfl)

/-- **A failing load names the includes.**  A load fails with a cause within as many includes as
lead to the file that the cause is in, each with its file and its line, and the message has their
headings in front of that of the cause.  A load that fails tells of that failure, and of no other;
one that ends well tells of none. -/
theorem loadInto_fails (files : Files) (f : Forest) (n : NodeId) (file : String) :
    ∃ q r, loadInto f n files file = (q, r) ∧
      (∀ e, r = .error e ↔ ∃ chain cause,
        Fails files n 0 { forest := f } file chain cause ∧ e = within chain cause) ∧
      (∀ chain cause, (within chain cause).message =
        chain.foldr (fun i message => i.heading ++ message) cause.message) ∧
      failures q.events = match r with
        | .ok () => []
        | .error e => [(⟨some file, none⟩, e)] := by
  obtain ⟨q, r, hload, hinto, _⟩ := loadInto_expands files f n file
  refine ⟨q.conclude file r, r, hinto, fun e => ?_, message_within, ?_⟩
  · rw [← exists_loads_error_iff]
    constructor
    · rintro rfl
      exact ⟨q, hload⟩
    · rintro ⟨q', hload'⟩
      have hinto' := loadInto_of_loads hload'
      rw [hinto] at hinto'
      exact congrArg Prod.snd hinto'
  · have htold : failures q.events = [] := hload.failures_eq
    cases r with
    | ok => exact htold
    | error e =>
      rw [Progress.conclude, failures_tell, htold]
      rfl

/-- An entry that does not convert two includes down, behind an include of what was begun. -/
def descent : Files := [("a", "include b"), ("b", "include a\n\ninclude c"), ("c", "x:int=y")]

theorem descent_fails (f : Forest) (n : NodeId) :
    Fails descent n 0 { forest := f } "a" [⟨"a", 1, "b"⟩, ⟨"b", 3, "c"⟩]
      (.badEntry ⟨some "c", 1⟩ (.unconvertible "int" (.text "y"))) := by
  have ha : identity "a" = "/a" := by decide
  have hb : identity "b" = "/b" := by decide
  have hc : identity "c" = "/c" := by decide
  refine .included (.intro (by simp) (show descent.read? "a" = some "include b" by decide)
    (show Text.lines "include b".toList = [] ++ "include b".toList :: [] by decide) .done)
    (show Line.read "include b".toList = .including "b" by decide) ?_
  rw [show includedFrom "a" "b" = "b" by decide]
  have hskip : Line.read [] = .ignored := by decide
  refine .included (.intro ?_ (show descent.read? "b" = some "include a\n\ninclude c" by decide)
    (show Text.lines "include a\n\ninclude c".toList =
      ["include a".toList, []] ++ "include c".toList :: [] by decide)
    (.included (show Line.read "include a".toList = .including "a" by decide) (.again ?_)
      (.own (by decide) (by rw [ownLine, hskip]) .done)))
    (show Line.read "include c".toList = .including "c" by decide) ?_
  · show identity "b" ∉ [identity "a"]
    rw [ha, hb]
    decide
  · show identity (includedFrom "b" "a") ∈ [identity "b", identity "a"]
    rw [show includedFrom "b" "a" = "a" by decide]
    simp
  rw [show includedFrom "b" "c" = "c" by decide]
  refine .unconvertible (.intro ?_ (show descent.read? "c" = some "x:int=y" by decide)
    (show Text.lines "x:int=y".toList = [] ++ "x:int=y".toList :: [] by decide) .done)
    (show Line.read "x:int=y".toList = .entry ⟨"x", "int", "y"⟩ by decide +kernel) ?_
  · show identity "c" ∉ [identity "b", identity "a"]
    rw [ha, hb, hc]
    decide
  · rfl

/-- Both includes are told, the outer one first; the one that was skipped is not. -/
theorem loadInto_fails_descent : ∃ q e,
    loadInto (Forest.newRoot {}).1 0 descent "a" = (q, .error e) ∧
    e = .inclusion ⟨some "a", 1⟩ "b" (.inclusion ⟨some "b", 3⟩ "c"
      (.badEntry ⟨some "c", 1⟩ (.unconvertible "int" (.text "y")))) ∧
    e.message =
      "a:1: including \"b\": b:3: including \"c\": c:1: cannot convert \"y\" to int" ∧
    failures q.events = [(⟨some "a", none⟩, e)] := by
  obtain ⟨q, r, hinto, herror, hmessage, htold⟩ :=
    loadInto_fails descent (Forest.newRoot {}).1 0 "a"
  obtain rfl := (herror _).mpr ⟨_, _, descent_fails (Forest.newRoot {}).1 0, rfl⟩
  exact ⟨q, _, hinto, rfl, (hmessage _ _).trans (by decide), htold⟩

end LayeredConf.Load
