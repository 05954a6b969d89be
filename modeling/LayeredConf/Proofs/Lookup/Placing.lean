import LayeredConf.Proofs.Lookup.Stacking
import LayeredConf.Proofs.Lookup.Written

/-!
# Scopes on top of inner nodes

Arguments for a scope on top of an inner node go to the node's place in the new tree.  The place is
the node's path, which leaves out empty keys, so below a node with an empty key the arguments come
to stand one level higher.

    stack_eq_ensurePath   a scope is a new root, the node's path and the arguments at its end
    stack_places          where a lookup finds the arguments
    stack_misplaces       a node with an empty key above it
-/

namespace LayeredConf.Forest

section

variable {f : Forest} {n : NodeId} (hf : f.WellFormed)

include hf

/-! ## Walks after writing -/

section

variable (hn : n < f.size) {x m : NodeId} {ks : List String}

include hn

/-- Writing leads no walk astray. -/
theorem walk_setPath (path : List String) (v : Value) (h : f.walk x ks = some m) :
    (f.setPath n path v).1.walk x ks = some m := by
  have hensure := (ensurePath_grows hf hn path).walk h
  unfold setPath assign
  dsimp only
  split
  · exact hensure
  · exact (walk_congr (fun y => children_setValue _ _ y v) x ks).trans hensure

theorem walk_setAll (args : Assignments) (h : f.walk x ks = some m) :
    (f.setAll n args).walk x ks = some m := by
  induction args generalizing f with
  | nil => exact h
  | cons e args ih =>
    obtain ⟨he, -⟩ := f.setPath_writes n hf.region (dottedKeys e.1) e.2 hn trivial
    exact ih (he.wellFormed hf) (Nat.lt_of_lt_of_le hn he.size_le)
      (walk_setPath hf hn (dottedKeys e.1) e.2 h)

end

/-! ## The place of a node -/

theorem path_of_root_eq (h : f.root n = n) : f.path n = [] := by
  have hwalk := hf.walk_lineage n
  rw [h] at hwalk
  rw [path, hf.walk_inj hwalk (show f.walk n [] = some n from rfl)]
  rfl

/-- A scope is a new root with a way along the node's path and the arguments at its end. -/
theorem stack_eq_ensurePath (args : List Assignments) : f.stack n args =
    let r := (f.alloc "" .unset (.scope (some (f.root n)))).1.ensurePath f.size (f.path n)
    (r.1.setAll r.2 args.flatten, f.size) := by
  unfold stack setAll
  dsimp only
  rw [List.foldl_flatten]
  split
  · next hroot =>
    rw [path_of_root_eq hf hroot]
    rfl
  · rfl

end

/-- **Where the arguments of a stacked scope stand.**  If `ks` leads from the root `r` to `n`, the
value that the arguments give the path `a` stands in a scope on top of `n` where `ks` without its
empty keys and then `a` lead, and a lookup of that path finds it. -/
theorem stack_places {f g : Forest} (hf : f.WellFormed) {r n s : NodeId} (hr : r < f.size)
    (hroot : f.root r = r) {ks : List String} (hks : f.walk r ks = some n)
    {args : List Assignments} (hstack : f.stack n args = (g, s)) {a : List String} {v : Value}
    (ha : assigned? args.flatten a = some v) :
    ∃ m, g.walk s (ks.filter (· ≠ "") ++ a) = some m ∧ g.value m = v ∧
      (wildcard ∉ ks → wildcard ∉ a →
        g.find? (some s) (ks.filter (· ≠ "") ++ a) = some m) := by
  have hrootn : f.root n = r := (hf.root_of_walk hks).trans hroot
  have hpath : f.path n = ks.filter (· ≠ "") := by
    rw [hf.path_of_walk hks, path_of_root_eq hf hroot, List.nil_append]
  rw [stack_eq_ensurePath hf, hrootn, hpath] at hstack
  cases hstack
  obtain ⟨hwf, hlt⟩ := alloc_scope hf hr
  obtain ⟨he, ht, -⟩ := ensurePath_writes _ _ hwf.region (ks.filter (· ≠ "")) hlt trivial
  have hplace := walk_setAll (he.wellFormed hwf) ht args.flatten
    (ensurePath_walk hwf hlt (ks.filter (· ≠ "")))
  have hvalue := valueAt?_setAll (he.wellFormed hwf) ht args.flatten a
  rw [ha, Option.some_or] at hvalue
  obtain ⟨m, hm, hv⟩ := Option.map_eq_some_iff.mp hvalue
  have hwalk : Forest.walk _ f.size (ks.filter (· ≠ "") ++ a) = some m :=
    (walk_append _ _ _ _).trans (by rw [hplace, Option.bind_some, hm])
  refine ⟨m, hwalk, hv, fun hplain hplain' => find?_of_walk ?_ ?_ hwalk⟩
  · obtain ⟨e, -, rfl⟩ := exists_of_assigned ha
    exact List.append_ne_nil_of_right_ne_nil _ (keysOf_ne_nil _)
  · rw [List.mem_append, List.mem_filter]
    exact not_or.mpr ⟨fun h => hplain h.1, hplain'⟩

/-- The node has an empty key above it, and the arguments stand at its path without that key. -/
theorem stack_places_shortened : ∃ steps f g s m, Run steps f ∧
    f.walk 0 ["a", "", "b"] = some 3 ∧ f.stack 3 [[("x.y", .text "inner")]] = (g, s) ∧
    g.walk s ["a", "b", "x", "y"] = some m ∧ g.value m = .text "inner" ∧
    g.find? (some s) ["a", "b", "x", "y"] = some m := by
  obtain ⟨steps, f, hrun, hsize, hroot, hwalk⟩ : ∃ steps f, Run steps f ∧ 0 < f.size ∧
      f.root 0 = 0 ∧ f.walk 0 ["a", "", "b"] = some 3 :=
    ⟨_, _, .step (.ofArgs [("a..b", .text "outer")]) .start (by decide), by decide, by decide,
      by decide⟩
  obtain ⟨g, s, hstack⟩ : ∃ g s, f.stack 3 [[("x.y", .text "inner")]] = (g, s) := ⟨_, _, rfl⟩
  obtain ⟨m, hm, hvalue, hfound⟩ := stack_places hrun.wellFormed hsize hroot hwalk hstack
    (a := ["x", "y"]) (v := .text "inner") rfl
  exact ⟨steps, f, g, s, m, hrun, hwalk, hstack, hm, hvalue, hfound (by decide) (by decide)⟩

/-- The way to the node has an empty key, and in the scope on top of it that way leads to no
argument. -/
theorem stack_misplaces : ∃ steps f g s, Run steps f ∧ f.isScope 0 = true ∧
    f.walk 0 ["a", ""] = some 2 ∧ f.stack 2 [[("x", .text "inner")]] = (g, s) ∧
    assigned? [("x", .text "inner")] ["x"] = some (.text "inner") ∧
    g.walk s (["a", ""] ++ ["x"]) = none ∧ g.find? (some s) (["a", ""] ++ ["x"]) = none :=
  ⟨_, _, _, _, .step (.ofArgs [("a.", .text "outer")]) .start (by decide), by decide, by decide,
    rfl, rfl, by decide, by decide⟩

end LayeredConf.Forest
