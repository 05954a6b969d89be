import LayeredConf.Proofs.Load.Paths

/-!
# Loads without a bound

`Loads` is the load of a file, or of the rest of its lines, without a bound on the depth of
includes.  What is begun counts down the files that are left to read, so a load that is no deeper
than there are files never meets the bound of `visitFile`.

    Loads.begun_nodup       no file is begun twice
    Loads.reads_sublist     the files that were read, in order, are among those that were begun
    run_of_loads            the load under enough levels is the load without a bound
-/

namespace LayeredConf.Load

/-- What is left to load: a file under a name, or the lines of a file from a number on. -/
inductive Task where
  | file (name : String)
  | lines (file : String) (number : Nat) (rest : List (List Char))

/-- A file is begun before it is read. -/
def Progress.start (p : Progress) (file : String) : Progress :=
  { p with begun := identity file :: p.begun }

/-- The file that an include in another file names. -/
def includedFrom (file name : String) : String :=
  String.ofList (Path.relativeTo file.toList name.toList)

def IsInclude (s : List Char) : Prop := ∃ name, Line.read s = .including name

instance (s : List Char) : Decidable (IsInclude s) :=
  match h : Line.read s with
  | .including name => .isTrue ⟨name, h⟩
  | .ignored | .entry _ | .unknown =>
    .isFalse fun ⟨name, hname⟩ => by rw [h] at hname; cases hname

/-- A line of a file that is no include. -/
def ownLine (n : NodeId) (file : String) (p : Progress) (number : Nat) (s : List Char) :
    Progress × Except Failure Unit :=
  match Line.read s with
  | .entry e => p.write n ⟨some file, number⟩ e
  | .unknown => (p, .error (.badLine ⟨some file, number⟩ (String.ofList s)))
  | _ => (p, .ok ())

/-- From `p` on, the load of a task at a depth ends in `q` with `r`.  Files included by the lines
of a task are one level deeper than the task. -/
inductive Loads (files : Files) (n : NodeId) :
    Nat → Progress → Task → Progress → Except Failure Unit → Prop
  | again {depth : Nat} {p : Progress} {file : String} : identity file ∈ p.begun →
      Loads files n depth p (.file file) (p.tell (.skip ⟨some file, none⟩ alreadyLoaded none))
        (.ok ())
  | missing {depth : Nat} {p : Progress} {file : String} : identity file ∉ p.begun →
      files.read? file = none →
      Loads files n depth p (.file file) (p.start file) (.error .missingFile)
  | read {depth : Nat} {p q : Progress} {file text : String} {r : Except Failure Unit} :
      identity file ∉ p.begun → files.read? file = some text →
      Loads files n (depth + 1) ((p.start file).tell (.file file (identity file) depth))
        (.lines file 1 (Text.lines text.toList)) q r →
      Loads files n depth p (.file file) q r
  | done {depth : Nat} {p : Progress} {file : String} {number : Nat} :
      Loads files n depth p (.lines file number []) p (.ok ())
  | own {depth : Nat} {p p' q : Progress} {file : String} {number : Nat} {s : List Char}
      {rest : List (List Char)} {r : Except Failure Unit} : ¬IsInclude s →
      ownLine n file p number s = (p', .ok ()) →
      Loads files n depth p' (.lines file (number + 1) rest) q r →
      Loads files n depth p (.lines file number (s :: rest)) q r
  | stop {depth : Nat} {p q : Progress} {file : String} {number : Nat} {s : List Char}
      {rest : List (List Char)} {e : Failure} : ¬IsInclude s →
      ownLine n file p number s = (q, .error e) →
      Loads files n depth p (.lines file number (s :: rest)) q (.error e)
  | included {depth : Nat} {p p' q : Progress} {file name : String} {number : Nat} {s : List Char}
      {rest : List (List Char)} {r : Except Failure Unit} : Line.read s = .including name →
      Loads files n depth
        (p.tell (.inclusion ⟨some file, some number⟩ (includedFrom file name)))
        (.file (includedFrom file name)) p' (.ok ()) →
      Loads files n depth p' (.lines file (number + 1) rest) q r →
      Loads files n depth p (.lines file number (s :: rest)) q r
  | broken {depth : Nat} {p q : Progress} {file name : String} {number : Nat} {s : List Char}
      {rest : List (List Char)} {e : Failure} : Line.read s = .including name →
      Loads files n depth
        (p.tell (.inclusion ⟨some file, some number⟩ (includedFrom file name)))
        (.file (includedFrom file name)) q (.error e) →
      Loads files n depth p (.lines file number (s :: rest)) q
        (.error (.inclusion ⟨some file, number⟩ (includedFrom file name) e))

/-! ## Files begun and files read -/

/-- The files that were read, by what tells them apart. -/
def reads (events : List Event) : List String :=
  events.filterMap fun
    | .file _ id _ => some id
    | _ => none

theorem reads_tell (p : Progress) (e : Event) :
    reads (p.tell e).events = reads p.events ++ reads [e] := List.filterMap_append

theorem write_tells {n : NodeId} {place : Place} {e : Entry} {p q : Progress}
    {r : Except Failure Unit} (h : p.write n place e = (q, r)) : q.begun = p.begun ∧
    (q.events = p.events ∨ ∃ origin, q.events = p.events ++ [.entry origin e.key e.type]) := by
  unfold Progress.write at h
  split at h
  · cases h
    exact ⟨rfl, Or.inl rfl⟩
  · cases h
    exact ⟨rfl, Or.inr ⟨_, rfl⟩⟩

/-- A line that is no include begins no file, and tells at most of an entry. -/
theorem ownLine_tells {n : NodeId} {file : String} {p q : Progress} {number : Nat} {s : List Char}
    {r : Except Failure Unit} (h : ownLine n file p number s = (q, r)) : q.begun = p.begun ∧
    (q.events = p.events ∨
      ∃ origin key type, q.events = p.events ++ [.entry origin key type]) := by
  unfold ownLine at h
  split at h
  · obtain ⟨hbegun, hsame | ⟨origin, htold⟩⟩ := write_tells h
    · exact ⟨hbegun, Or.inl hsame⟩
    · exact ⟨hbegun, Or.inr ⟨origin, _, _, htold⟩⟩
  · cases h
    exact ⟨rfl, Or.inl rfl⟩
  · cases h
    exact ⟨rfl, Or.inl rfl⟩

theorem ownLine_begun {n : NodeId} {file : String} {p q : Progress} {number : Nat} {s : List Char}
    {r : Except Failure Unit} (h : ownLine n file p number s = (q, r)) :
    q.begun = p.begun ∧ reads q.events = reads p.events := by
  obtain ⟨hbegun, hsame | ⟨_, _, _, htold⟩⟩ := ownLine_tells h
  · exact ⟨hbegun, congrArg reads hsame⟩
  · rw [htold, reads, List.filterMap_append]
    exact ⟨hbegun, List.append_nil _⟩

section
variable {files : Files} {n : NodeId} {depth : Nat} {p q : Progress} {task : Task}
  {r : Except Failure Unit}

theorem Loads.begun_suffix (h : Loads files n depth p task q r) : p.begun <:+ q.begun := by
  induction h with
  | again => exact List.suffix_refl _
  | missing => exact List.suffix_cons _ _
  | read _ _ _ ih => exact (List.suffix_cons _ _).trans ih
  | done => exact List.suffix_refl _
  | own _ hline _ ih => rwa [(ownLine_begun hline).1] at ih
  | stop _ hline => exact (ownLine_begun hline).1 ▸ List.suffix_refl _
  | included _ _ _ ihFile ih => exact ihFile.trans ih
  | broken _ _ ih => exact ih

theorem Loads.begun_nodup (h : Loads files n depth p task q r) (hp : p.begun.Nodup) :
    q.begun.Nodup := by
  induction h with
  | again => exact hp
  | missing hnew => exact List.nodup_cons.mpr ⟨hnew, hp⟩
  | read hnew _ _ ih => exact ih (List.nodup_cons.mpr ⟨hnew, hp⟩)
  | done => exact hp
  | own _ hline _ ih => exact ih (by rwa [(ownLine_begun hline).1])
  | stop _ hline => rwa [(ownLine_begun hline).1]
  | included _ _ _ ihFile ih => exact ih (ihFile hp)
  | broken _ _ ih => exact ih hp

/-- Files are read in the order in which they are begun. -/
theorem Loads.reads_sublist (h : Loads files n depth p task q r)
    (hp : (reads p.events).Sublist p.begun.reverse) : (reads q.events).Sublist q.begun.reverse := by
  have htell : ∀ (p : Progress) (e : Event), reads [e] = [] →
      (reads p.events).Sublist p.begun.reverse →
      (reads (p.tell e).events).Sublist (p.tell e).begun.reverse := by
    intro p e he hp
    rw [reads_tell, he, List.append_nil]
    exact hp
  induction h with
  | again => exact htell _ _ rfl hp
  | missing =>
    rw [Progress.start, List.reverse_cons]
    exact hp.trans (List.sublist_append_left _ _)
  | @read depth p _ file _ _ _ _ _ ih =>
    refine ih ?_
    rw [reads_tell]
    have hstart : ((p.start file).tell (.file file (identity file) depth)).begun.reverse =
      p.begun.reverse ++ reads [.file file (identity file) depth] := List.reverse_cons
    rw [hstart]
    exact hp.append_right _
  | done => exact hp
  | own _ hline _ ih => exact ih (by rwa [(ownLine_begun hline).1, (ownLine_begun hline).2])
  | stop _ hline => rwa [(ownLine_begun hline).1, (ownLine_begun hline).2]
  | included _ _ _ ihFile ih => exact ih (ihFile (htell _ _ rfl hp))
  | broken _ _ ih => exact ih (htell _ _ rfl hp)

end

/-! ## Files left to read -/

/-- How many of the files were not begun yet. -/
def unread (files : Files) (begun : List String) : Nat :=
  files.countP fun e => identity e.1 ∉ begun

theorem unread_le (files : Files) (begun : List String) : unread files begun ≤ files.length :=
  List.countP_le_length

theorem unread_mono {files : Files} {begun begun' : List String} (h : begun ⊆ begun') :
    unread files begun' ≤ unread files begun := by
  refine List.countP_mono_left fun e _ he => ?_
  rw [decide_eq_true_eq] at he ⊢
  exact fun hmem => he (h hmem)

theorem exists_of_read {files : Files} {file text : String} (h : files.read? file = some text) :
    ∃ e ∈ files, identity e.1 = identity file := by
  obtain ⟨before, after, hfiles, _⟩ := List.lookup_eq_some_iff.mp h
  refine ⟨(_, text), ?_, identity_normalize file⟩
  rw [hfiles]
  exact List.mem_append_right _ List.mem_cons_self

/-- To read a file is to have one less. -/
theorem unread_lt {files : Files} {file text : String} {begun : List String}
    (hread : files.read? file = some text) (hnew : identity file ∉ begun) :
    unread files (identity file :: begun) < unread files begun := by
  obtain ⟨e, he, hid⟩ := exists_of_read hread
  obtain ⟨before, after, hfiles⟩ := List.append_of_mem he
  unfold unread
  rw [hfiles, List.countP_append, List.countP_append, List.countP_cons_of_neg,
    List.countP_cons_of_pos]
  · have hless : ∀ rest : Files, unread rest (identity file :: begun) ≤ unread rest begun :=
      fun _ => unread_mono (List.subset_cons_self _ _)
    exact Nat.add_lt_add_of_le_of_lt (hless before) (Nat.lt_succ_of_le (hless after))
  · rwa [decide_eq_true_eq, hid]
  · rw [decide_eq_true_eq, hid]
    exact fun hnot => hnot List.mem_cons_self

/-! ## Enough levels -/

theorem loadFileLines_own {visit : Progress → String → Progress × Except Failure Unit} {n : NodeId}
    {file : String} {p : Progress} {number : Nat} {s : List Char} {rest : List (List Char)}
    (h : ¬IsInclude s) : loadFileLines visit n file p number (s :: rest) =
      match ownLine n file p number s with
      | (p, .ok ()) => loadFileLines visit n file p (number + 1) rest
      | (p, .error e) => (p, .error e) := by
  rw [loadFileLines, ownLine]
  cases hs : Line.read s with
  | including name => exact absurd ⟨name, hs⟩ h
  | ignored => rfl
  | entry e =>
    dsimp only
    rcases p.write n ⟨some file, number⟩ e with ⟨q, _ | _⟩ <;> rfl
  | unknown => rfl

theorem loadFileLines_including {visit : Progress → String → Progress × Except Failure Unit}
    {n : NodeId} {file name : String} {p : Progress} {number : Nat} {s : List Char}
    {rest : List (List Char)} (h : Line.read s = .including name) :
    loadFileLines visit n file p number (s :: rest) =
      match visit (p.tell (.inclusion ⟨some file, some number⟩ (includedFrom file name)))
        (includedFrom file name) with
      | (p, .ok ()) => loadFileLines visit n file p (number + 1) rest
      | (p, .error e) =>
        (p, .error (.inclusion ⟨some file, number⟩ (includedFrom file name) e)) := by
  rw [loadFileLines, h]
  unfold includedFrom
  dsimp only
  rcases visit _ _ with ⟨q, _ | _⟩ <;> rfl

/-- The load of a task by the bounded functions. -/
def Task.run (files : Files) (n : NodeId) (levels depth : Nat) (p : Progress) :
    Task → Progress × Except Failure Unit
  | .file name => visitFile files n levels depth p name
  | .lines name number rest => loadFileLines (visitFile files n levels depth) n name p number rest

theorem run_of_loads {files : Files} {n : NodeId} {depth : Nat} {p q : Progress} {task : Task}
    {r : Except Failure Unit} (h : Loads files n depth p task q r) (levels : Nat)
    (hlevels : unread files p.begun < levels) : task.run files n levels depth p = (q, r) := by
  induction h generalizing levels with
  | again hmem =>
    obtain ⟨levels, rfl⟩ := Nat.exists_eq_add_one_of_ne_zero (Nat.ne_zero_of_lt hlevels)
    rw [Task.run, visitFile, if_pos hmem]
  | missing hnew hread =>
    obtain ⟨levels, rfl⟩ := Nat.exists_eq_add_one_of_ne_zero (Nat.ne_zero_of_lt hlevels)
    rw [Task.run, visitFile, if_neg hnew, hread]
    rfl
  | read hnew hread _ ih =>
    obtain ⟨levels, rfl⟩ := Nat.exists_eq_add_one_of_ne_zero (Nat.ne_zero_of_lt hlevels)
    rw [Task.run, visitFile, if_neg hnew, hread]
    exact ih levels (Nat.lt_of_lt_of_le (unread_lt hread hnew) (Nat.le_of_lt_succ hlevels))
  | done => rfl
  | own hown hline _ ih =>
    rw [Task.run, loadFileLines_own hown, hline]
    exact ih levels (by rwa [(ownLine_begun hline).1])
  | stop hown hline => rw [Task.run, loadFileLines_own hown, hline]
  | included hs hfile _ ihFile ih =>
    have hvisit := ihFile levels hlevels
    rw [Task.run] at hvisit
    rw [Task.run, loadFileLines_including hs, hvisit]
    exact ih levels (Nat.lt_of_le_of_lt (unread_mono hfile.begun_suffix.subset) hlevels)
  | broken hs _ ih =>
    have hvisit := ih levels hlevels
    rw [Task.run] at hvisit
    rw [Task.run, loadFileLines_including hs, hvisit]

end LayeredConf.Load
