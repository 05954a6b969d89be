import LayeredConf.Proofs.Lookup.Matches

/-!
# Absolute paths

Where no child has the key `*`, a path without `*` matches in one scope what a walk along it leads
to, and nothing else.  So the path of a node, where no key is empty, leads from the root of its
scope to the node alone, and a lookup from inside a scope is the lookup of the absolute path from
its root: in the scope because both come to the same node, and further out because the lookup from
inside goes on with the absolute path.

    matchesBelow_append    a path without `*` is a walk
    walk_path              the path of a node leads to it from the root
    find?_eq_or            a lookup is a walk in one scope or a lookup in the next
    findAll_absolute       a lookup from a node is one of the absolute path
-/

namespace LayeredConf.Forest

/-! ## Paths without the wildcard -/

section

variable {f : Forest}

/-- Below `n` a path without `*` is matched by a walk, if no child down there is under `*`. -/
theorem matchesBelow_eq_walk {n : NodeId} (hplain : ∀ ks m, f.walk n ks = some m →
    f.child m wildcard = none) {path : List String} (hpath : wildcard ∉ path) :
    f.matchesBelow path n = (f.walk n path).toList := by
  induction path generalizing n with
  | nil => rfl
  | cons k path ih =>
    rw [List.mem_cons, not_or] at hpath
    have hbranches : f.branches k n = (f.child n k).toList := by
      rw [branches, if_neg (Ne.symm hpath.1), hplain [] n rfl, Option.toList_none, List.append_nil]
    rw [matchesBelow, hbranches, walk]
    cases hc : f.child n k with
    | none => rfl
    | some c =>
      have hbelow : ∀ ks m, f.walk c ks = some m → f.child m wildcard = none := fun ks m hm =>
        hplain (k :: ks) m ((f.walk_cons_eq_some_iff n m k ks).mpr ⟨c, hc, hm⟩)
      rw [Option.toList_some, List.flatMap_singleton, ih hbelow hpath.2]

theorem matchesBelow_append {n : NodeId} (hplain : ∀ ks m, f.walk n ks = some m →
    f.child m wildcard = none) {ks : List String} (hks : wildcard ∉ ks) (path : List String) :
    f.matchesBelow (ks ++ path) n = (f.walk n ks).toList.flatMap (f.matchesBelow path) := by
  rw [matchesBelow_flatMap, matchesBelow_eq_walk hplain hks]

/-! ## The path of a node -/

theorem WellFormed.exists_child_of_mem_lineage (hf : f.WellFormed) {n x : NodeId}
    (hx : x ∈ (f.lineage n).dropLast) :
    ∃ p, f.root p = f.root n ∧ f.child p (f.key x) = some x := by
  obtain ⟨p, hp⟩ := (hf.lineage_trail n).exists_next x hx
  refine ⟨p, ?_, hf.listed x p ((parent?_eq_some_iff f x p).mp hp)⟩
  rw [← hf.root_of_parent hp, hf.root_of_mem_lineage ((List.dropLast_sublist _).subset hx)]

/-- In a tree without empty keys the path of a node leads to it. -/
theorem WellFormed.walk_path (hf : f.WellFormed) {n : NodeId}
    (hkeys : ∀ m k c, f.root m = f.root n → f.child m k = some c → k ≠ "") :
    f.walk (f.root n) (f.path n) = some n := by
  have hall : f.path n = ((f.lineage n).dropLast.map f.key).reverse := by
    refine List.filter_eq_self.mpr fun k hk => ?_
    obtain ⟨x, hx, rfl⟩ := List.mem_map.mp (List.mem_reverse.mp hk)
    obtain ⟨p, hp, hc⟩ := hf.exists_child_of_mem_lineage hx
    simpa using hkeys p _ x hp hc
  rw [hall, hf.walk_lineage]

/-- The path of a node goes on with the keys on the way to it, less the empty ones. -/
theorem WellFormed.path_of_walk (hf : f.WellFormed) {n m : NodeId} {ks : List String}
    (h : f.walk n ks = some m) : f.path m = f.path n ++ ks.filter (· ≠ "") := by
  obtain ⟨l, hl, rfl⟩ := hf.lineage_of_walk h
  have hne : f.lineage n ≠ [] := List.ne_nil_of_mem (hf.lineage_trail n).head_mem
  rw [path, path, hl, List.dropLast_append_of_ne_nil hne, List.map_append, List.reverse_append,
    List.filter_append]

/-- A path has no `*` in a tree that has no child under it. -/
theorem WellFormed.wildcard_not_mem_path (hf : f.WellFormed) {n : NodeId}
    (hkeys : ∀ m k c, f.root m = f.root n → f.child m k = some c → k ≠ wildcard) :
    wildcard ∉ f.path n := by
  intro hmem
  obtain ⟨x, hx, hkey⟩ := List.mem_map.mp (List.mem_reverse.mp (List.mem_filter.mp hmem).1)
  obtain ⟨p, hp, hc⟩ := hf.exists_child_of_mem_lineage hx
  exact hkeys p _ x hp hc hkey

theorem parent_of_isScope {n : NodeId} (hn : f.isScope n = true) : f.parent? n = none := by
  unfold isScope at hn
  unfold parent?
  split at hn
  · next outer hl => rw [hl]
  · cases hn

theorem path_of_isScope {n : NodeId} (hn : f.isScope n = true) : f.path n = [] := by
  rw [path, WellFormed.lineage_of_trail (.last (parent_of_isScope hn))]
  rfl

/-- The root of a scope has no path, so a search always goes on with the absolute path. -/
theorem outerPath_eq (n : NodeId) (path : List String) :
    f.outerPath n path = f.path n ++ path := by
  unfold outerPath
  split
  · next hn =>
    rw [path_of_isScope hn]
    rfl
  · rfl

/-- Further out, a path below a node is searched as the absolute path below its root is. -/
theorem Scopes.absolute {n s : NodeId} {path : List String} {scopes : List (NodeId × List String)}
    (hs : f.isScope s = true) (hn : f.root n = s) (h : f.Scopes s (f.path n ++ path) scopes) :
    ∃ rest, scopes = (s, f.path n ++ path) :: rest ∧ f.Scopes n path ((n, path) :: rest) := by
  have houter : f.outer? n = f.outer? s := by
    rw [outer?, outer?, hn, WellFormed.root_of_no_parent (parent_of_isScope hs)]
  cases h with
  | last ho => exact ⟨[], rfl, .last (houter.trans ho)⟩
  | outward ho hrest =>
    rw [if_pos hs, ← outerPath_eq] at hrest
    exact ⟨_, rfl, .outward (houter.trans ho) hrest⟩

end

/-! ## From scope to scope -/

section

variable {f : Forest} {n : NodeId} {path : List String} (hend : Ends f.outer? n) (hne : path ≠ [])

include hend hne

/-- A lookup lists the matches in one scope and then those of a lookup from the next. -/
theorem findAll_eq_append : f.findAll (some n) path 0 =
    f.matchesBelow path n ++ f.findAll (f.outer? n) (f.path n ++ path) 0 := by
  obtain ⟨scopes, hscopes⟩ := exists_scopes hend path
  rw [findAll_eq hend hne hscopes]
  cases hscopes with
  | last ho =>
    rw [ho]
    rfl
  | outward ho hrest =>
    have hnext := outerPath_eq (f := f) n path
    rw [outerPath] at hnext
    rw [hnext] at hrest
    rw [ho, findAll_eq (hend.of_eq_some ho) (List.append_ne_nil_of_right_ne_nil _ hne) hrest]
    rfl

theorem find?_eq_head? : f.find? (some n) path = (f.findAll (some n) path 0).head? := by
  obtain ⟨scopes, hscopes⟩ := exists_scopes hend path
  rw [find?_eq hend hne hscopes, findAll_eq hend hne hscopes]
  rfl

/-- In a scope without `*` a lookup follows the path, and goes on outside if that leads nowhere. -/
theorem find?_eq_or (hplain : ∀ ks m, f.walk n ks = some m → f.child m wildcard = none)
    (hpath : wildcard ∉ path) : f.find? (some n) path =
      (f.walk n path).or (f.find? (f.outer? n) (f.path n ++ path)) := by
  rw [find?_eq_head? hend hne, findAll_eq_append hend hne, List.head?_append,
    matchesBelow_eq_walk hplain hpath]
  cases ho : f.outer? n with
  | none => cases f.walk n path <;> rfl
  | some o =>
    rw [find?_eq_head? (hend.of_eq_some ho) (List.append_ne_nil_of_right_ne_nil _ hne)]
    cases f.walk n path <;> rfl

end

/-- In a tree that inherits from nothing a lookup lists the matches in the tree. -/
theorem findAll_eq_matchesBelow {f : Forest} {n : NodeId} (h : f.outer? n = none)
    (path : List String) : f.findAll (some n) path 0 = f.matchesBelow path n := by
  cases path with
  | nil => rfl
  | cons k path =>
    rw [findAll_eq_append (.of_none h) (List.cons_ne_nil k path), h]
    exact List.append_nil _

/-! ## Lookups from inside a scope -/

/-- **Reading from inside is reading the absolute path.**  In a scope with neither a child under `*`
nor an empty key, a lookup from a node finds what the lookup of the absolute path from the root of
the scope does, and the node's own path leads to the node alone. -/
theorem findAll_absolute {f : Forest} (hf : f.WellFormed) {s n : NodeId} (hs : f.isScope s = true)
    (hend : Ends f.outer? s)
    (hkeys : ∀ m k c, f.root m = s → f.child m k = some c → k ≠ wildcard ∧ k ≠ "")
    (hn : f.root n = s) {path : List String} (hpath : path ≠ []) :
    (∀ limit, f.findAll (some n) path limit = f.findAll (some s) (f.path n ++ path) limit) ∧
    (n ≠ s → f.findAll (some s) (f.path n) 1 = [n]) := by
  have hroot : f.root s = s := WellFormed.root_of_no_parent (parent_of_isScope hs)
  have hwalk : f.walk s (f.path n) = some n := by
    rw [← hn]
    exact hf.walk_path fun m k c hm hc => (hkeys m k c (hm.trans hn) hc).2
  have hbelow : ∀ path, f.matchesBelow (f.path n ++ path) s = f.matchesBelow path n := by
    intro path
    rw [matchesBelow_append, hwalk, Option.toList_some, List.flatMap_singleton]
    · intro ks m hm
      refine Option.eq_none_iff_forall_ne_some.mpr fun c hc => ?_
      exact (hkeys m wildcard c ((hf.root_of_walk hm).trans hroot) hc).1 rfl
    · exact hf.wildcard_not_mem_path fun m k c hm hc => (hkeys m k c (hm.trans hn) hc).1
  refine ⟨fun limit => ?_, fun hne => ?_⟩
  · have hendn : Ends f.outer? n := by
      refine .of_next fun o ho => hend.of_eq_some ?_
      rw [← ho, outer?, outer?, hn, hroot]
    obtain ⟨scopes, hscopes⟩ := exists_scopes hend (f.path n ++ path)
    obtain ⟨rest, rfl, hscopesn⟩ := hscopes.absolute hs hn
    rw [findAll_eq hend (List.append_ne_nil_of_right_ne_nil _ hpath) hscopes,
      findAll_eq hendn hpath hscopesn, matchesIn, matchesIn, List.flatMap_cons, List.flatMap_cons,
      hbelow]
  · have hpath : f.path n ≠ [] := by
      intro hnil
      rw [hnil] at hwalk
      exact hne (Option.some.inj hwalk).symm
    obtain ⟨scopes, hscopes⟩ := exists_scopes hend (f.path n)
    rw [findAll_eq hend hpath hscopes]
    rw [← List.append_nil (f.path n)] at hscopes
    obtain ⟨rest, rfl, -⟩ := hscopes.absolute hs hn
    rw [matchesIn, List.flatMap_cons, hbelow]
    rfl

/-- From the node `a` of a scope on top of a tree that holds `a.x` and `a.*`. -/
theorem findAll_absolute_outward : ∃ steps f, Run steps f ∧ f.path 5 = ["a"] ∧
    f.findAll (some 5) ["x"] 0 = [6, 2, 3] ∧ f.findAll (some 4) ["a", "x"] 0 = [6, 2, 3] ∧
    f.findAll (some 4) ["a"] 1 = [5] := by
  obtain ⟨steps, f, hrun, hend, hs, hn, hpath, hall, hkeys⟩ : ∃ steps f, Run steps f ∧
      Ends f.outer? 4 ∧ f.isScope 4 = true ∧ f.root 5 = 4 ∧ f.path 5 = ["a"] ∧
      f.findAll (some 5) ["x"] 0 = [6, 2, 3] ∧
      ∀ m < f.size, f.root m = 4 → ∀ k ∈ f.keys m, k ≠ wildcard ∧ k ≠ "" :=
    ⟨_, _, .step (.stack 0 [[("a.x", .unset)]])
      (.step (.ofArgs [("a.x", .unset), ("a.*", .unset)]) .start (by decide)) (by decide),
      ⟨[4, 0], .step (by decide) (.last (by decide))⟩, by decide, by decide, by decide, by decide,
      by decide⟩
  obtain ⟨hsame, honly⟩ := findAll_absolute hrun.wellFormed hs hend (fun m k c hm hc =>
    hkeys m (lt_size_of_child hc) hm k ((hrun.wellFormed.mem_keys_iff m k).mpr ⟨c, hc⟩)) hn
    (show ["x"] ≠ [] by decide)
  rw [hpath] at hsame honly
  exact ⟨steps, f, hrun, hpath, hall, (hsame 0).symm.trans hall, honly (by decide)⟩

end LayeredConf.Forest
