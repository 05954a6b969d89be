import LayeredConf.Proofs.Forest.Growth
import LayeredConf.Proofs.Lookup.Frame

/-!
# Stacked scopes

What a scope on top of another tree reads at a path.  Arguments that give the path a value decide,
and what they do not come near is read from the tree below.  Between the two lie the paths on the
way to an argument: there the scope has a node without a value, which a lookup finds, so that the
value below is hidden although no argument replaces it.

    valueAt?_setAll         what assignments do to the values at all paths
    find?_stack             what a lookup finds, in the scope or below it
    stack_inherits_iff      a path is inherited iff nothing below it is assigned or it has no value
    stack_hides             a value that is hidden
-/

namespace LayeredConf.Forest

/-- The value that assignments give a path: the last one that is set. -/
def assigned? (args : Assignments) (p : List String) : Option Value :=
  match args with
  | [] => none
  | (key, v) :: args =>
    (assigned? args p).or (if p = dottedKeys key ∧ v.isUnset = false then some v else none)

/-- Do assignments write at a path or below it? -/
def Reaches (args : Assignments) (p : List String) : Prop := ∃ e ∈ args, p <+: dottedKeys e.1

instance (args : Assignments) (p : List String) : Decidable (Reaches args p) :=
  inferInstanceAs (Decidable (∃ e ∈ args, p <+: dottedKeys e.1))

/-- The value of the node that a lookup finds; to find nothing is to find no value. -/
def valueFound (f : Forest) (n : NodeId) (p : List String) : Value :=
  ((f.find? (some n) p).map f.value).getD .unset

/-! ## Assignments -/

theorem reaches_cons (e : String × Value) (args : Assignments) (p : List String) :
    Reaches (e :: args) p ↔ p <+: dottedKeys e.1 ∨ Reaches args p := by
  simp [Reaches]

/-- A path that is given a value is given it by one of the arguments. -/
theorem mem_of_assigned {args : Assignments} {p : List String} {v : Value}
    (h : assigned? args p = some v) : ∃ e ∈ args, p = dottedKeys e.1 ∧ e.2 = v ∧
      v.isUnset = false := by
  induction args with
  | nil => cases h
  | cons e args ih =>
    rw [assigned?, Option.or_eq_some_iff] at h
    rcases h with h | ⟨-, h⟩
    · obtain ⟨e', he', hp⟩ := ih h
      exact ⟨e', List.mem_cons_of_mem e he', hp⟩
    · split at h
      · next hp =>
        cases h
        exact ⟨e, List.mem_cons_self, hp.1, rfl, hp.2⟩
      · cases h

theorem exists_of_assigned {args : Assignments} {p : List String} {v : Value}
    (h : assigned? args p = some v) : ∃ e ∈ args, p = dottedKeys e.1 := by
  obtain ⟨e, he, hp, -⟩ := mem_of_assigned h
  exact ⟨e, he, hp⟩

theorem assigned?_ne_none {args : Assignments} {e : String × Value} (he : e ∈ args)
    (hset : e.2.isUnset = false) : assigned? args (dottedKeys e.1) ≠ none := by
  induction args with
  | nil => cases he
  | cons e' args ih =>
    intro hnone
    rw [assigned?, Option.or_eq_none_iff] at hnone
    rcases List.mem_cons.mp he with rfl | he
    · rw [if_pos ⟨rfl, hset⟩] at hnone
      cases hnone.2
    · exact ih he hnone.1

theorem Reaches.of_assigned {args : Assignments} {p : List String} {v : Value}
    (h : assigned? args p = some v) : Reaches args p := by
  obtain ⟨e, he, rfl⟩ := exists_of_assigned h
  exact ⟨e, he, List.prefix_refl _⟩

/-- After assignments a path has the value they give it, or else the one it had; a node that is only
on the way to another has none. -/
theorem valueAt?_setAll {f : Forest} {n : NodeId} (hf : f.WellFormed) (hn : n < f.size)
    (args : Assignments) (p : List String) :
    (f.setAll n args).valueAt? n p = (assigned? args p).or
      ((f.valueAt? n p).or (if Reaches args p then some .unset else none)) := by
  induction args generalizing f with
  | nil =>
    rw [if_neg fun h => by obtain ⟨e, he, -⟩ := h; cases he]
    exact (Option.or_none).symm
  | cons e args ih =>
    obtain ⟨he, -⟩ := f.setPath_writes n hf.region (dottedKeys e.1) e.2 hn trivial
    have hrest := ih (he.wellFormed hf) (Nat.lt_of_lt_of_le hn he.size_le)
    have hreaches : (if Reaches (e :: args) p then some Value.unset else none) =
        (if p <+: dottedKeys e.1 then some .unset else none).or
          (if Reaches args p then some .unset else none) := by
      by_cases hp : p <+: dottedKeys e.1
      · rw [if_pos hp, if_pos ((reaches_cons e args p).mpr (Or.inl hp))]
        rfl
      · rw [if_neg hp, Option.none_or]
        exact if_congr ((reaches_cons e args p).trans (or_iff_right hp)) rfl rfl
    have hstep : (f.setAll n (e :: args)) =
      (f.setPath n (dottedKeys e.1) e.2).1.setAll n args := rfl
    rw [hstep, hrest, valueAt?_setPath hf hn, hreaches, assigned?, Option.or_assoc]
    congr 1
    split
    · rfl
    · rw [Option.none_or, Option.or_assoc]

/-! ## Lookups in a scope and below it -/

/-- From the root of a scope a lookup goes on outside with the same path. -/
theorem find?_scope {f : Forest} {s r : NodeId} (hs : f.isScope s = true)
    (houter : f.outer? s = some r) (hend : Ends f.outer? r)
    (hplain : ∀ ks m, f.walk s ks = some m → f.child m wildcard = none) {p : List String}
    (hne : p ≠ []) (hp : wildcard ∉ p) :
    f.find? (some s) p = (f.walk s p).or (f.find? (some r) p) := by
  rw [find?_eq_or (.of_some houter hend) hne hplain hp, houter, path_of_isScope hs,
    List.nil_append]

/-- New nodes are a region. -/
theorem WellFormed.new_region {f : Forest} (hf : f.WellFormed) : f.Region fun n => f.size ≤ n where
  toWellFormed := hf
  closed _ _ _ hc := iff_of_false (Nat.not_le.mpr (lt_size_of_child hc))
    (Nat.not_le.mpr (hf.lt_of_child hc))
  fresh _ hn := hn

section

variable {f g : Forest} {r s : NodeId} {args : List Assignments}

/-- A scope on top of a root is a new root with all arguments written below it. -/
theorem stack_eq (hroot : f.root r = r) : f.stack r args =
    ((f.alloc "" .unset (.scope (some r))).1.setAll f.size args.flatten, f.size) := by
  unfold stack setAll
  dsimp only
  rw [hroot, if_pos rfl, List.foldl_flatten]
  rfl

variable (hf : f.WellFormed) (hr : r < f.size)

include hf hr

theorem alloc_scope : (f.alloc "" .unset (.scope (some r))).1.WellFormed ∧
    f.size < (f.alloc "" .unset (.scope (some r))).1.size := by
  obtain ⟨he, hlt, -⟩ := f.alloc_writes hf.region (some r) fun o ho => by
    cases ho
    exact hr
  exact ⟨he.wellFormed hf, hlt⟩

variable (hstack : f.stack r args = (g, s))

include hstack

theorem stack_same {m : NodeId} (hm : m < f.size) : g.node m = f.node m := by
  have he := f.stack_edits r hf.new_region hr args
  rw [hstack] at he
  exact he.same hf.new_region m (Nat.not_le.mpr hm)

variable (hroot : f.root r = r)

include hroot

theorem link_stack : g.link s = .scope (some r) := by
  rw [stack_eq hroot] at hstack
  cases hstack
  obtain ⟨hwf, hlt⟩ := alloc_scope hf hr
  rw [link_setAll hwf hlt args.flatten hlt, link, node_alloc, if_pos rfl]

/-- The tree of the scope has the paths of the arguments, and nothing else. -/
theorem valueAt?_stack {p : List String} (hp : p ≠ []) : g.valueAt? s p =
    (assigned? args.flatten p).or (if Reaches args.flatten p then some .unset else none) := by
  rw [stack_eq hroot] at hstack
  cases hstack
  obtain ⟨hwf, hlt⟩ := alloc_scope hf hr
  obtain ⟨k, ks, rfl⟩ := List.exists_cons_of_ne_nil hp
  have hempty : (f.alloc "" .unset (.scope (some r))).1.walk f.size (k :: ks) = none := by
    rw [walk, child, children, node_alloc, if_pos rfl]
    rfl
  rw [valueAt?_setAll hwf hlt, valueAt?, hempty, Option.map_none, Option.none_or]

/-- No child is under `*`, if no argument has it in its path. -/
theorem stack_plain (hargs : ∀ e ∈ args.flatten, wildcard ∉ dottedKeys e.1) (ks : List String)
    (m : NodeId) (hm : g.walk s ks = some m) : g.child m wildcard = none := by
  refine Option.eq_none_iff_forall_ne_some.mpr fun c hc => ?_
  have hwalk : g.walk s (ks ++ [wildcard]) = some c :=
    (g.walk_concat_eq_some_iff s c ks wildcard).mpr ⟨m, hm, hc⟩
  have hvalue := valueAt?_stack hf hr hstack hroot (List.append_ne_nil_of_right_ne_nil ks
    (List.cons_ne_nil wildcard []))
  rw [valueAt?, hwalk, Option.map_some] at hvalue
  have hreaches : Reaches args.flatten (ks ++ [wildcard]) := by
    refine Classical.byContradiction fun hnot => ?_
    rw [if_neg hnot, Option.or_none] at hvalue
    exact hnot (.of_assigned hvalue.symm)
  obtain ⟨e, he, hstart⟩ := hreaches
  exact hargs e he (hstart.subset (List.mem_append_right _ List.mem_cons_self))

/-- What a lookup sees in a stacked scope: the value that the arguments give the path; no value if
they only lead through it; else what it sees below. -/
theorem find?_stack (hend : Ends f.outer? r)
    (hargs : ∀ e ∈ args.flatten, wildcard ∉ dottedKeys e.1) {p : List String} (hne : p ≠ [])
    (hp : wildcard ∉ p) : (g.find? (some s) p).map g.value =
      (assigned? args.flatten p).or (if Reaches args.flatten p then some .unset
        else (f.find? (some r) p).map f.value) := by
  have hlink := link_stack hf hr hstack hroot
  have hsame : ∀ m, ¬ f.size ≤ m → g.node m = f.node m := fun m hm =>
    stack_same hf hr hstack (Nat.not_le.mp hm)
  have hout : ∀ m, Leads f.outer? r m → ¬ f.size ≤ m := fun m hm =>
    Nat.not_le.mpr (hf.lt_of_leads hr hm)
  have hs : g.isScope s = true := by
    unfold link at hlink
    rw [isScope, hlink]
  have houter : g.outer? s = some r := by
    rw [outer?, WellFormed.root_of_no_parent (parent_of_isScope hs), inherited?_eq_some_iff, hlink]
  have hbelow := hf.new_region.find?_map_congr hsame Node.value hout hend hne
  have hvalue := valueAt?_stack hf hr hstack hroot hne
  rw [find?_scope hs houter (hf.new_region.ends_congr hsame hout hend)
    (stack_plain hf hr hstack hroot hargs) hne hp, Option.map_or]
  show (g.valueAt? s p).or ((g.find? (some r) p).map fun m => (g.node m).value) = _
  rw [hvalue, hbelow, Option.or_assoc]
  congr 1
  split <;> rfl

end

/-- **What a stacked scope inherits.**  In a scope on top of a root, a path has the value that the
arguments give it, or else the value below, except where they write below the path and not at it:
there the value below is hidden.  So the scope inherits the path just when the arguments give it a
value, or do not write below it, or there is no value below. -/
theorem stack_inherits_iff {f g : Forest} (hf : f.WellFormed) {r s : NodeId} (hr : r < f.size)
    (hroot : f.root r = r) (hend : Ends f.outer? r) {args : List Assignments}
    (hstack : f.stack r args = (g, s)) (hargs : ∀ e ∈ args.flatten, wildcard ∉ dottedKeys e.1)
    {p : List String} (hne : p ≠ []) (hp : wildcard ∉ p) :
    g.valueFound s p = (assigned? args.flatten p).getD
      (if Reaches args.flatten p then .unset else f.valueFound r p) ∧
    (g.valueFound s p = (assigned? args.flatten p).getD (f.valueFound r p) ↔
      (assigned? args.flatten p = none → Reaches args.flatten p → f.valueFound r p = .unset)) := by
  have hvalue : g.valueFound s p = (assigned? args.flatten p).getD
      (if Reaches args.flatten p then .unset else f.valueFound r p) := by
    rw [valueFound, find?_stack hf hr hstack hroot hend hargs hne hp]
    cases assigned? args.flatten p with
    | some v => rfl
    | none =>
      rw [Option.none_or, Option.getD_none]
      split <;> rfl
  refine ⟨hvalue, ?_⟩
  rw [hvalue]
  cases assigned? args.flatten p with
  | some v => exact iff_of_true rfl nofun
  | none =>
    rw [Option.getD_none, Option.getD_none]
    split
    · next h => exact ⟨fun heq _ _ => heq.symm, fun heq => (heq rfl h).symm⟩
    · next h => exact iff_of_true rfl fun _ hreaches => absurd hreaches h

/-- A path that is assigned, one on the way to it and one apart from it. -/
theorem stack_inherits_iff_apart : ∃ steps f g s, Run steps f ∧
    f.stack 0 [[("a.b", .text "inner")]] = (g, s) ∧ g.valueFound s ["a", "b"] = .text "inner" ∧
    g.valueFound s ["a"] = .unset ∧ g.valueFound s ["c"] = .text "outer" := by
  obtain ⟨steps, f, hrun, hsize, hroot, houter, hbelow⟩ : ∃ steps f, Run steps f ∧ 0 < f.size ∧
      f.root 0 = 0 ∧ f.outer? 0 = none ∧ f.valueFound 0 ["c"] = .text "outer" :=
    ⟨_, _, .step (.ofArgs [("a", .text "outer"), ("c", .text "outer")]) .start (by decide),
      by decide, by decide, by decide, rfl⟩
  obtain ⟨g, s, hstack⟩ : ∃ g s, f.stack 0 [[("a.b", .text "inner")]] = (g, s) := ⟨_, _, rfl⟩
  have hreads := fun p hne hp => (stack_inherits_iff hrun.wellFormed hsize hroot (.of_none houter)
    hstack (by decide) (p := p) hne hp).1
  exact ⟨steps, f, g, s, hrun, hstack, hreads ["a", "b"] (by decide) (by decide),
    hreads ["a"] (by decide) (by decide), (hreads ["c"] (by decide) (by decide)).trans hbelow⟩

/-- The scope gives `a` no value, and what is below is not inherited. -/
theorem stack_hides : ∃ steps f g s, Run steps f ∧ f.root 0 = 0 ∧ f.outer? 0 = none ∧
    f.stack 0 [[("a.b", .text "inner")]] = (g, s) ∧
    assigned? [("a.b", .text "inner")] ["a"] = none ∧ f.valueFound 0 ["a"] = .text "outer" ∧
    g.valueFound s ["a"] = .unset :=
  ⟨_, _, _, _, .step (.ofArgs [("a", .text "outer")]) .start (by decide), by decide, by decide, rfl,
    rfl, rfl, rfl⟩

end LayeredConf.Forest
