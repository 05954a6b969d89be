import LayeredConf.Proofs.Load.Expansion
import Mathlib.Data.List.Nodup

/-!
# Names of one file

What a load tells files apart by forgets where a name starts, how far it climbs above its start and
whether it ends in a slash.  The name that a file is looked for under keeps all this.  So two names
of one file are looked for as one only if they agree in these things, and a name that is skipped
because its file was begun may name another file of the set, which is then never read.

    Path.normalize_eq_iff      which paths have the same normal path
    Loads.tracked              what is skipped was read before under a name of the same file
    identity_reads_iff         names of one file read the same if they are alike
-/

namespace LayeredConf.Load

namespace Path

/-! ## What a normal path keeps -/

/-- How many parts above its start a path climbs; from the root there is nothing above. -/
def climbs (p : List Char) : Nat := (counted (isAbsolute p) p).count dots

/-- It ends in a slash, or is a path of the root. -/
def EndsInSlash (p : List Char) : Prop :=
  p.getLast? = some '/' ∨ isAbsolute p = true ∧ fromRoot p = ['/']

/-- What a path from the root forgets is the same of two paths. -/
structure Alike (a b : List Char) : Prop where
  absolute : isAbsolute a = isAbsolute b
  climbs : climbs a = climbs b
  slash : EndsInSlash a ↔ EndsInSlash b

theorem foldl_addPart_climb (k j : Nat) :
    (List.replicate k dots).foldl (addPart false) (List.replicate j dots) =
      List.replicate (j + k) dots := by
  induction k generalizing j with
  | zero => rfl
  | succ k ih =>
    have hstep : addPart false (List.replicate j dots) dots = List.replicate (j + 1) dots := by
      cases j <;> rfl
    rw [List.replicate_succ, List.foldl_cons, hstep, ih, Nat.add_assoc, Nat.add_comm 1]

/-- The parts of a path and of its normal path are the same. -/
theorem counted_normalize_self (p : List Char) :
    counted (isAbsolute p) (normalize p) = counted (isAbsolute p) p := by
  rw [counted_normalize]
  cases isAbsolute p with
  | true => exact foldl_counted true p
  | false =>
    have hclimb := foldl_addPart_climb ((counted false p).count dots) 0
    rw [Nat.zero_add, List.replicate_zero] at hclimb
    have hread : (counted false p).reverse.foldl (addPart false) [] =
        counted true p ++ List.replicate ((counted false p).count dots) dots := by
      rw [counted_false, List.reverse_append, List.reverse_replicate, List.foldl_append,
        ← counted_false, hclimb, foldl_addPart_reverse false _ fun _ => plain_of_mem_counted]
    exact hread.trans (counted_false p).symm

/-- Parts that are not empty, with a slash between them, neither begin nor end with one. -/
theorem ends_intercalate {parts : List (List Char)} (h : ∀ x ∈ parts, x ≠ [] ∧ '/' ∉ x) :
    (['/'].intercalate parts).head? ≠ some '/' ∧ (['/'].intercalate parts).getLast? ≠ some '/' := by
  induction parts with
  | nil => exact ⟨nofun, nofun⟩
  | cons part parts ih =>
    obtain ⟨⟨hne, hslash⟩, hparts⟩ := List.forall_mem_cons.mp h
    have hhead : part.head? ≠ some '/' := fun hh => hslash (List.mem_of_head? hh)
    have hlast : part.getLast? ≠ some '/' := fun hh => hslash (List.mem_of_getLast? hh)
    by_cases hnil : parts = []
    · rw [hnil, List.intercalate_singleton]
      exact ⟨hhead, hlast⟩
    · rw [List.intercalate_cons_of_ne_nil hnil]
      have hrest := intercalate_ne_nil (fun x hx => (hparts x hx).1) hnil
      constructor
      · obtain ⟨c, r, rfl⟩ := List.exists_cons_of_ne_nil hne
        exact hhead
      · have hlast := (ih hparts).2
        rw [List.getLast?_eq_some_getLast hrest] at hlast
        rw [List.getLast?_append, List.getLast?_eq_some_getLast hrest, Option.some_or]
        exact hlast

theorem ends_reduce (rooted : Bool) (p : List Char) :
    (reduce rooted p).head? ≠ some '/' ∧ (reduce rooted p).getLast? ≠ some '/' := by
  refine ends_intercalate fun x hx => ?_
  obtain ⟨hmem, hcount⟩ := mem_counted (List.mem_reverse.mp hx)
  exact ⟨fun he => hcount (Or.inl he), slash_not_mem_of_mem_splitOn hmem⟩

theorem reduce_eq (rooted : Bool) (p : List Char) :
    reduce rooted p = ['/'].intercalate (counted rooted p).reverse := rfl

theorem intercalate_counted_ne_nil {rooted : Bool} {p : List Char} (h : counted rooted p ≠ []) :
    ['/'].intercalate (counted rooted p).reverse ≠ [] := by
  refine intercalate_ne_nil (fun x hx he => ?_) (by simpa using h)
  exact (mem_counted (List.mem_reverse.mp hx)).2 (Or.inl he)

theorem reduce_eq_nil_iff {rooted : Bool} {p : List Char} :
    reduce rooted p = [] ↔ counted rooted p = [] := by
  constructor
  · exact fun h => Decidable.byContradiction fun hne => intercalate_counted_ne_nil hne h
  · intro h
    rw [reduce_eq, h]
    rfl

/-- The slash at the end of a path. -/
def closing (p : List Char) : List Char := if p.getLast? = some '/' then ['/'] else []

/-- A normal path, by where the path starts, its joined parts and the slash at its end. -/
def assemble (rooted : Bool) (parts slash : List Char) : List Char :=
  match rooted, parts with
  | true, [] => ['/']
  | false, [] => '.' :: slash
  | true, r => '/' :: r ++ slash
  | false, r => r ++ slash

theorem normalize_eq (p : List Char) :
    normalize p = assemble (isAbsolute p) (reduce (isAbsolute p) p) (closing p) := by
  by_cases hp : p = []
  · subst hp
    rfl
  · rw [normalize, if_neg hp]
    rfl

theorem isAbsolute_normalize (p : List Char) : isAbsolute (normalize p) = isAbsolute p := by
  have hhead := (ends_reduce (isAbsolute p) p).1
  rw [normalize_eq]
  generalize isAbsolute p = rooted, reduce (isAbsolute p) p = parts at hhead
  match rooted, parts with
  | true, [] => rfl
  | false, [] => rfl
  | true, c :: r => rfl
  | false, c :: r => exact decide_eq_false hhead

theorem getLast?_closing {s : List Char} (hs : s.getLast? ≠ some '/') (p : List Char) :
    (s ++ closing p).getLast? = some '/' ↔ p.getLast? = some '/' := by
  unfold closing
  split
  · next h => simp [h]
  · next h => simp [h, hs]

theorem getLast?_normalize (p : List Char) :
    (normalize p).getLast? = some '/' ↔ EndsInSlash p := by
  rw [normalize_eq, EndsInSlash]
  cases isAbsolute p with
  | true =>
    have hlast := (ends_reduce true p).2
    rw [fromRoot]
    cases hparts : reduce true p with
    | nil => exact iff_of_true rfl (Or.inr ⟨rfl, rfl⟩)
    | cons c r =>
      rw [hparts] at hlast
      have hline := getLast?_closing (s := '/' :: c :: r) (by simpa using hlast) p
      simpa [assemble] using hline
  | false =>
    have hlast := (ends_reduce false p).2
    cases hparts : reduce false p with
    | nil =>
      have hdot := getLast?_closing (s := ['.']) (by decide) p
      simpa [assemble] using hdot
    | cons c r =>
      rw [hparts] at hlast
      simpa [assemble] using getLast?_closing hlast p

theorem fromRoot_eq_iff {a b : List Char} :
    fromRoot a = fromRoot b ↔ counted true a = counted true b := by
  refine ⟨fun h => ?_, fun h => by rw [fromRoot, fromRoot, reduce_eq, reduce_eq, h]⟩
  have hreduce : reduce true a = reduce true b := (List.cons.inj h).2
  by_cases hnil : counted true a = []
  · rw [hnil, ← reduce_eq_nil_iff.mp (hreduce ▸ reduce_eq_nil_iff.mpr hnil)]
  · have hnil' : counted true b ≠ [] := fun hb =>
      hnil (reduce_eq_nil_iff.mp (hreduce.trans (reduce_eq_nil_iff.mpr hb)))
    have hslash : ∀ p, ∀ x ∈ (counted true p).reverse, '/' ∉ x := fun p x hx =>
      slash_not_mem_of_mem_splitOn (mem_counted (List.mem_reverse.mp hx)).1
    have hsplit := congrArg (List.splitOn '/') hreduce
    rw [reduce_eq, reduce_eq, List.splitOn_intercalate '/' (hslash a) (by simpa using hnil),
      List.splitOn_intercalate '/' (hslash b) (by simpa using hnil')] at hsplit
    exact List.reverse_inj.mp hsplit

/-- The path from the root and the climb tell the parts that count. -/
theorem counted_eq_iff {rooted : Bool} {a b : List Char} :
    counted rooted a = counted rooted b ↔ fromRoot a = fromRoot b ∧
      (counted rooted a).count dots = (counted rooted b).count dots := by
  rw [fromRoot_eq_iff]
  constructor
  · intro h
    rw [← foldl_counted rooted a, ← foldl_counted rooted b, h]
    exact ⟨rfl, rfl⟩
  · rintro ⟨hparts, hcount⟩
    cases rooted with
    | true => exact hparts
    | false => rw [counted_false a, counted_false b, hparts, hcount]

/-- A normal path is the path from the root and what that forgets. -/
theorem normalize_eq_iff {a b : List Char} :
    normalize a = normalize b ↔ fromRoot a = fromRoot b ∧ Alike a b := by
  constructor
  · intro h
    have habsolute : isAbsolute a = isAbsolute b := by
      rw [← isAbsolute_normalize a, ← isAbsolute_normalize b, h]
    have hparts : counted (isAbsolute a) a = counted (isAbsolute a) b := by
      have hb := counted_normalize_self b
      rw [← habsolute, ← h, counted_normalize_self] at hb
      exact hb
    obtain ⟨hroot, hclimbs⟩ := counted_eq_iff.mp hparts
    refine ⟨hroot, habsolute, ?_, ?_⟩
    · rw [climbs, climbs, ← habsolute]
      exact hclimbs
    · rw [← getLast?_normalize a, ← getLast?_normalize b, h]
  · rintro ⟨hroot, habsolute, hclimbs, hslash⟩
    rw [climbs, climbs, ← habsolute] at hclimbs
    have hparts : counted (isAbsolute a) a = counted (isAbsolute a) b :=
      counted_eq_iff.mpr ⟨hroot, hclimbs⟩
    have hreduce : reduce (isAbsolute a) a = reduce (isAbsolute a) b := by
      rw [reduce_eq, reduce_eq, hparts]
    rw [normalize_eq, normalize_eq, ← habsolute, hreduce]
    -- only of the root the slash at the end does not matter
    by_cases hisRoot : isAbsolute a = true ∧ fromRoot a = ['/']
    · obtain ⟨habs, ha⟩ := hisRoot
      have hb : reduce true b = [] := (List.cons.inj (hroot.symm.trans ha)).2
      rw [habs, hb]
      rfl
    · have hclosing : closing a = closing b := by
        unfold EndsInSlash at hslash
        rw [← hroot, ← habsolute, or_iff_left hisRoot, or_iff_left hisRoot] at hslash
        simp only [closing, hslash]
      rw [hclosing]

end Path

/-! ## Names in a load -/

/-- The name that a file is looked for under. -/
def normalName (file : String) : String := String.ofList (Path.normalize file.toList)

theorem read?_eq_lookup (files : Files) (file : String) :
    files.read? file = files.lookup (normalName file) := rfl

/-- Every set of files is read alike under two names only if they are looked for as one. -/
theorem forall_read?_eq_iff {a b : String} :
    (∀ files : Files, files.read? a = files.read? b) ↔ normalName a = normalName b := by
  refine ⟨fun h => ?_, fun h files => by rw [read?_eq_lookup, read?_eq_lookup, h]⟩
  -- the set of one file that is looked for as `a` is
  have hfound := h [(normalName a, "")]
  rw [read?_eq_lookup, read?_eq_lookup, List.lookup_cons_self, List.lookup_cons] at hfound
  by_cases hname : normalName b = normalName a
  · exact hname.symm
  · rw [beq_eq_false_iff_ne.mpr hname] at hfound
    cases hfound

theorem normalName_eq_iff {a b : String} (h : identity a = identity b) :
    normalName a = normalName b ↔ Path.Alike a.toList b.toList := by
  rw [identity, identity, String.ofList_inj] at h
  rw [normalName, normalName, String.ofList_inj, Path.normalize_eq_iff]
  exact and_iff_right h

theorem identity_eq_of_normalName {a b : String} (h : normalName a = normalName b) :
    identity a = identity b := by
  rw [← identity_normalize a, ← identity_normalize b]
  exact congrArg identity h

/-- The names of the files that were read. -/
def readNames (events : List Event) : List String :=
  events.filterMap fun
    | .file name _ _ => some name
    | _ => none

/-- The names of the files that were skipped. -/
def skippedNames (events : List Event) : List String :=
  events.filterMap fun
    | .skip origin _ _ => origin.file?
    | _ => none

/-- Files are read under names of theirs, and skipped if a file with the same identity was read. -/
structure Tracked (events : List Event) : Prop where
  named : reads events = (readNames events).map identity
  skipped : ∀ c ∈ skippedNames events, identity c ∈ reads events

theorem Tracked.append {events more : List Event} (h : Tracked events)
    (hnamed : reads more = (readNames more).map identity)
    (hskipped : ∀ c ∈ skippedNames more, identity c ∈ reads events) : Tracked (events ++ more) := by
  have hreads : reads (events ++ more) = reads events ++ reads more := List.filterMap_append
  have hnames : readNames (events ++ more) = readNames events ++ readNames more :=
    List.filterMap_append
  have hskips : skippedNames (events ++ more) = skippedNames events ++ skippedNames more :=
    List.filterMap_append
  constructor
  · rw [hreads, hnames, List.map_append, h.named, hnamed]
  · intro c hc
    rw [hskips, List.mem_append] at hc
    rw [hreads]
    exact List.mem_append_left _ (hc.elim (h.skipped c) (hskipped c))

theorem ownLine_tracked {n : NodeId} {file : String} {p q : Progress} {number : Nat}
    {s : List Char} {r : Except Failure Unit} (h : ownLine n file p number s = (q, r))
    (hp : Tracked p.events) : Tracked q.events := by
  obtain ⟨-, hsame | ⟨_, _, _, htold⟩⟩ := ownLine_tells h
  · rwa [hsame]
  · rw [htold]
    exact hp.append rfl nofun

/-- As long as no file is missing, the files that were begun are those that were read. -/
theorem Loads.tracked {files : Files} {n : NodeId} {depth : Nat} {p q : Progress} {task : Task}
    {r : Except Failure Unit} (h : Loads files n depth p task q r) (hp : Tracked p.events)
    (hbegun : p.begun.reverse = reads p.events) :
    Tracked q.events ∧ (r = .ok () → q.begun.reverse = reads q.events) := by
  have hinclusion : ∀ (p : Progress) (origin : Origin) (target : String),
      reads (p.tell (.inclusion origin target)).events = reads p.events := by
    intro p origin target
    rw [reads_tell]
    exact List.append_nil _
  induction h with
  | @again depth p file hmem =>
    have hread : identity file ∈ reads p.events := by
      rw [← hbegun]
      exact List.mem_reverse.mpr hmem
    refine ⟨hp.append rfl fun c hc => ?_, fun _ => ?_⟩
    · rw [List.mem_singleton.mp hc]
      exact hread
    · rw [reads_tell]
      exact hbegun.trans (List.append_nil _).symm
  | missing => exact ⟨hp, nofun⟩
  | @read depth p _ file _ _ _ _ _ ih =>
    refine ih (hp.append rfl nofun) ?_
    rw [reads_tell]
    show (identity file :: p.begun).reverse = reads p.events ++ [identity file]
    rw [List.reverse_cons, hbegun]
  | done => exact ⟨hp, fun _ => hbegun⟩
  | own _ hline _ ih =>
    obtain ⟨hsame, hreads⟩ := ownLine_begun hline
    exact ih (ownLine_tracked hline hp) (by rw [hsame, hreads, hbegun])
  | stop _ hline => exact ⟨ownLine_tracked hline hp, nofun⟩
  | included _ _ _ ihFile ih =>
    obtain ⟨hfile, hbegun'⟩ := ihFile (hp.append rfl nofun) (hbegun.trans (hinclusion _ _ _).symm)
    exact ih hfile (hbegun' rfl)
  | broken _ _ ih =>
    exact ⟨(ih (hp.append rfl nofun) (hbegun.trans (hinclusion _ _ _).symm)).1, nofun⟩

/-- The names of the files that were read and skipped are those before the end of the load. -/
theorem names_conclude (q : Progress) (file : String) (r : Except Failure Unit) :
    readNames (q.conclude file r).events = readNames q.events ∧
    skippedNames (q.conclude file r).events = skippedNames q.events := by
  cases r with
  | ok => exact ⟨rfl, rfl⟩
  | error e =>
    have hnames : readNames (q.events ++ [.failed ⟨some file, none⟩ e]) =
        readNames q.events ++ [] := List.filterMap_append
    have hskips : skippedNames (q.events ++ [.failed ⟨some file, none⟩ e]) =
        skippedNames q.events ++ [] := List.filterMap_append
    rw [List.append_nil] at hnames hskips
    exact ⟨hnames, hskips⟩

/-- **Names of one file.**  Two names of one file read the same in every set of files exactly if
they are alike.  In a load, a name that is skipped is a name of one file that was read before, and
what the name is looked for as was read exactly if it is like the name of that file. -/
theorem identity_reads_iff (files : Files) (f : Forest) (n : NodeId) (file : String) :
    (∀ a b, identity a = identity b →
      ((∀ files : Files, files.read? a = files.read? b) ↔ Path.Alike a.toList b.toList)) ∧
    ∃ q r, loadInto f n files file = (q, r) ∧ ∀ c ∈ skippedNames q.events,
      ∃ b ∈ readNames q.events, identity b = identity c ∧
        (∀ a ∈ readNames q.events, identity a = identity c → a = b) ∧
        ((∃ a ∈ readNames q.events, normalName a = normalName c) ↔
          Path.Alike b.toList c.toList) := by
  refine ⟨fun a b hid => forall_read?_eq_iff.trans (normalName_eq_iff hid), ?_⟩
  obtain ⟨q, r, hload, hinto, -, hnodup, -⟩ := loadInto_expands files f n file
  obtain ⟨⟨hnamed, hskipped⟩, -⟩ := hload.tracked ⟨rfl, nofun⟩ rfl
  obtain ⟨hnames, hskips⟩ := names_conclude q file r
  refine ⟨_, r, hinto, ?_⟩
  rw [hnames, hskips]
  intro c hc
  have hread := hskipped c hc
  rw [hnamed] at hread hnodup
  obtain ⟨b, hb, hid⟩ := List.mem_map.mp hread
  have hunique : ∀ a ∈ readNames q.events, identity a = identity c → a = b :=
    fun a ha hsame => List.inj_on_of_nodup_map hnodup ha hb (hsame.trans hid.symm)
  refine ⟨b, hb, hid, hunique, ?_⟩
  rw [← normalName_eq_iff hid]
  refine ⟨?_, fun h => ⟨b, hb, h⟩⟩
  rintro ⟨a, ha, hname⟩
  rwa [hunique a ha (identity_eq_of_normalName hname)] at hname

/-- Two files of a set, one of them under a path from the root. -/
def twoStarts : Files :=
  [("main", "include shared\ninclude /shared"), ("shared", "a=1"), ("/shared", "b=2")]

/-- The second file is taken for the first one and never read. -/
theorem identity_hides :
    identity "shared" = identity "/shared" ∧
    twoStarts.read? "shared" = some "a=1" ∧ twoStarts.read? "/shared" = some "b=2" ∧
    let (q, r) := loadInto (Forest.newRoot {}).1 0 twoStarts "main"
    r.isOk = true ∧ q.forest.keys 0 = ["a"] ∧ readNames q.events = ["main", "shared"] ∧
      skippedNames q.events = ["/shared"] := by
  decide +kernel

end LayeredConf.Load
