import LayeredConf.Proofs.Forest.Pushing

/-!
# Filled keys

A key is filled value by value.  The first value stays at the node of the key; at the second one the
node is emptied and becomes a list of both, and the values after it are pushed to the list.  So a
value that is filled in is held afterwards, once, and nothing that was held is lost.

    collect f m v         what a node does with one value more
    held f m              the values that a node and its children hold
    held_collect          one value more is held, whatever the node was before
    Collected f m vs      the node `m` holds `vs`, as a leaf or as a list
    Collected.collect     Collected f m vs → Collected (f.collect m v).1 m (vs ++ [v])
    fill_collects         filling a key once, and time and again
-/

namespace LayeredConf.Forest

/-- A leaf becomes a list of its value. -/
def listed (f : Forest) (m : NodeId) : Forest := (f.pushValue m (f.value m)).1.setValue m .unset

/-- Adds a value to a node: an unset leaf takes it as its own, any other node as a new child. -/
def collect (f : Forest) (m : NodeId) (v : Value) : Forest × NodeId :=
  if f.isLeaf m then
    if (f.value m).isUnset then (f.setValue m v, m) else (f.listed m).pushValue m v
  else f.pushValue m v

theorem fill_eq_collect (f : Forest) (n : NodeId) (key : String) (v : Value) : f.fill n key v =
    (f.ensurePath n (dottedKeys key)).1.collect (f.ensurePath n (dottedKeys key)).2 v := rfl

/-- Fills a key with one value after the other. -/
def fillAll (f : Forest) (n : NodeId) (key : String) (vs : List Value) : Forest :=
  vs.foldl (fun f v => (f.fill n key v).1) f

/-! ## Pushed values -/

section

variable (f : Forest) {n m : NodeId} (v : Value)

theorem walk_setValue (ks : List String) : (f.setValue m v).walk n ks = f.walk n ks :=
  walk_congr (f.children_setValue m · v) n ks

theorem size_pushValue : (f.pushValue m v).1.size = f.size + 1 :=
  (size_modify _ _ _).trans (f.size_addChild m (f.pushKey m))

variable (hm : m < f.size)

include hm

theorem children_pushValue :
    (f.pushValue m v).1.children m = (f.children m).append [(f.pushKey m, f.size)] := by
  rw [pushValue, children_setValue, children, f.node_push hm, if_neg (Nat.ne_of_lt hm), if_pos rfl]

theorem value_pushValue (x : NodeId) :
    (f.pushValue m v).1.value x = if x = f.size then v else f.value x := by
  have hnew : f.size < (f.push m).1.size := by
    rw [push, size_addChild]
    exact Nat.lt_succ_self _
  show ((f.push m).1.setValue f.size v).value x = _
  rw [value_setValue _ v hnew]
  split
  · rfl
  · next hx =>
    rw [value, f.node_push hm, if_neg hx]
    split
    · next h => rw [h]; rfl
    · rfl

theorem walk_pushValue {x : NodeId} {ks : List String} (hx : f.walk n ks = some x) :
    (f.pushValue m v).1.walk n ks = some x := by
  rw [pushValue, walk_setValue]
  exact (f.push_grows hm).walk hx

/-- The pushed value comes after those of the children that were there. -/
theorem childValues_pushValue (hf : f.WellFormed) :
    ((f.pushValue m v).1.childIds m).map (f.pushValue m v).1.value =
      (f.childIds m).map f.value ++ [v] := by
  have hpushed := ((f.pushValue_writes m hf.region v hm trivial).1.wellFormed hf).agrees m
  rw [f.children_pushValue v hm] at hpushed
  rw [childIds, f.children_pushValue v hm, (hf.agrees m).nodes_append hpushed, List.map_append]
  refine congrArg₂ (· ++ ·) (List.map_congr_left fun c hc => ?_) ?_
  · rw [f.value_pushValue v hm, if_neg]
    exact Nat.ne_of_lt (hf.lt_of_child (hf.child_of_mem_childIds hc))
  · show [(f.pushValue m v).1.value f.size] = [v]
    rw [f.value_pushValue v hm, if_pos rfl]

end

/-! ## Lists -/

/-- The children of the node are numbered from 1 and hold the values, in this order. -/
def Numbered (f : Forest) (m : NodeId) (vs : List Value) : Prop :=
  f.keys m = (List.range' 1 vs.length).map toString ∧ (f.childIds m).map f.value = vs

section

variable {f : Forest} {n m : NodeId} {v : Value} {vs : List Value}

theorem numbered_nil (hleaf : f.children m = {}) : f.Numbered m [] := by
  rw [Numbered, keys, childIds, hleaf]
  exact ⟨rfl, rfl⟩

variable (hf : f.WellFormed) (hm : m < f.size)

include hf hm

/-- The next number is free. -/
theorem Numbered.pushValue (h : f.Numbered m vs) (v : Value) :
    (f.pushValue m v).1.Numbered m (vs ++ [v]) := by
  obtain ⟨hkeys, hvalues⟩ := h
  have hlength : (f.keys m).length = vs.length := by
    rw [hkeys, List.length_map, List.length_range']
  have hfree : toString (vs.length + 1) ∉ f.keys m := by
    rw [hkeys]
    intro hmem
    obtain ⟨i, hi, htext⟩ := List.mem_map.mp hmem
    have hlt := (List.mem_range'_1.mp hi).2
    rw [eq_of_toString_eq htext] at hlt
    omega
  have hkey : f.pushKey m = toString (vs.length + 1) := by
    have hmap := (hf.agrees m).same.mem_iff.not.mpr hfree
    show toString (freeIndex _ _ ((f.keys m).length + 1)) = _
    rw [hlength, freeIndex_of_not_mem hmap]
  refine ⟨?_, ?_⟩
  · rw [keys, f.children_pushValue v hm, List.length_append, hkey]
    show f.keys m ++ [toString (vs.length + 1)] = _
    rw [hkeys, List.length_singleton, List.range'_concat, List.map_append, Nat.one_mul,
      Nat.add_comm 1]
    rfl
  · rw [f.childValues_pushValue v hm hf, hvalues]

theorem numbered_listed (hleaf : f.children m = {}) : (f.listed m).Numbered m [f.value m] := by
  obtain ⟨hkeys, hvalues⟩ := Numbered.pushValue hf hm (numbered_nil hleaf) (f.value m)
  refine ⟨?_, ?_⟩
  · rw [keys, listed, children_setValue]
    exact hkeys
  · refine Eq.trans ?_ hvalues
    rw [childIds, listed, children_setValue]
    refine List.map_congr_left fun c hc => ?_
    have hnew : c = f.size := by
      rw [f.children_pushValue _ hm, hleaf] at hc
      simpa [Children.nodes, Children.append, Children.get?] using hc
    rw [value_setValue _ _ (f.size_pushValue _ ▸ Nat.lt_succ_of_lt hm), if_neg]
    -- its only child is new
    rw [hnew]
    exact Nat.ne_of_gt hm

theorem listed_edits : Edits (fun _ => True) f (f.listed m) :=
  (f.pushValue_writes m hf.region (f.value m) hm trivial).1.trans (setValue_edits _ m _ trivial)

omit hf in
theorem value_listed : (f.listed m).value m = .unset := by
  rw [listed, value_setValue _ _ (f.size_pushValue _ ▸ Nat.lt_succ_of_lt hm), if_pos rfl]

end

/-! ## One value more -/

/-- The set values of a node and its children. -/
def held (f : Forest) (m : NodeId) : List Value :=
  (f.value m :: (f.childIds m).map f.value).filter fun v => !v.isUnset

/-- Those of the node at a path; where there is no node nothing is held. -/
def heldAt (f : Forest) (n : NodeId) (path : List String) : List Value :=
  ((f.walk n path).map f.held).getD []

section

variable {f : Forest} {n m : NodeId} {v : Value} {ks : List String}

theorem collect_unset (hleaf : f.children m = {}) (hunset : f.value m = .unset) (v : Value) :
    f.collect m v = (f.setValue m v, m) := by
  rw [collect, isLeaf, keys, hleaf, hunset]
  rfl

theorem collect_leaf (hleaf : f.children m = {}) (hset : (f.value m).isUnset = false) (v : Value) :
    f.collect m v = (f.listed m).pushValue m v := by
  rw [collect, isLeaf, keys, hleaf, hset]
  rfl

theorem collect_list (h : f.keys m ≠ []) (v : Value) : f.collect m v = f.pushValue m v := by
  rw [collect, isLeaf, if_neg (by simpa using h)]

theorem held_of_unset_leaf (hleaf : f.children m = {}) (hunset : f.value m = .unset) :
    f.held m = [] := by
  rw [held, childIds, hleaf, hunset]
  rfl

variable (hf : f.WellFormed) (hm : m < f.size)

include hf hm

theorem walk_collect {x : NodeId} (v : Value) (hx : f.walk n ks = some x) :
    (f.collect m v).1.walk n ks = some x := by
  unfold collect
  split
  · split
    · rwa [walk_setValue]
    · refine walk_pushValue _ v (Nat.lt_of_lt_of_le hm (listed_edits hf hm).size_le) ?_
      rw [listed, walk_setValue]
      exact f.walk_pushValue _ hm hx
  · exact f.walk_pushValue v hm hx

theorem held_pushValue (hv : v.isUnset = false) : (f.pushValue m v).1.held m = f.held m ++ [v] := by
  rw [held, f.childValues_pushValue v hm hf, f.value_pushValue v hm, if_neg (Nat.ne_of_lt hm),
    ← List.cons_append, List.filter_append, List.filter_singleton, hv]
  rfl

/-- A node takes one value more to those it holds, which are all kept. -/
theorem held_collect (hv : v.isUnset = false) :
    ((f.collect m v).1.held m).Perm (v :: f.held m) := by
  by_cases hkeys : f.keys m = []
  · have hleaf := (hf.agrees m).eq_empty hkeys
    cases hset : (f.value m).isUnset with
    | true =>
      have hunset := Value.eq_unset_of_isUnset hset
      rw [collect_unset hleaf hunset, held_of_unset_leaf hleaf hunset, held, childIds,
        children_setValue, hleaf, value_setValue f v hm, if_pos rfl]
      simp [hv]
    | false =>
      -- the value of the leaf is that of the first child now
      have he := listed_edits hf hm
      have hheld : (f.listed m).held m = f.held m := by
        rw [held, (numbered_listed hf hm hleaf).2, value_listed hm, held, childIds, hleaf]
        simp [Value.isUnset]
      rw [collect_leaf hleaf hset,
        held_pushValue (he.wellFormed hf) (Nat.lt_of_lt_of_le hm he.size_le) hv, hheld]
      exact List.perm_append_singleton v _
  · rw [collect_list hkeys, held_pushValue hf hm hv]
    exact List.perm_append_singleton v _

end

/-! ## The node of a key -/

section

variable {f : Forest} {n m : NodeId} {v : Value} {ks : List String}

theorem ensurePath_of_walk (h : f.walk n ks = some m) : f.ensurePath n ks = (f, m) := by
  induction ks generalizing n with
  | nil => exact congrArg (f, ·) (Option.some.inj h)
  | cons k ks ih =>
    obtain ⟨c, hc, hwalk⟩ := (f.walk_cons_eq_some_iff n m k ks).mp h
    rw [ensurePath, ensureChild, hc]
    exact ih hwalk

theorem fill_of_walk {key : String} (h : f.walk n (dottedKeys key) = some m) (v : Value) :
    f.fill n key v = f.collect m v := by
  rw [fill_eq_collect, ensurePath_of_walk h]

variable (hf : f.WellFormed) (hn : n < f.size)

include hf hn

/-- Where there was no node, there is an unset leaf now. -/
theorem ensurePath_of_walk_none (h : f.walk n ks = none) :
    (f.ensurePath n ks).1.children (f.ensurePath n ks).2 = {} ∧
      (f.ensurePath n ks).1.value (f.ensurePath n ks).2 = .unset := by
  have hwalk := ensurePath_walk hf hn ks
  have hwf := (f.ensurePath_writes n hf.region ks hn trivial).1.wellFormed hf
  refine ⟨(hwf.agrees _).eq_empty (List.eq_nil_iff_forall_not_mem.mpr fun k hk => ?_), ?_⟩
  · -- a child would lie at a path that goes on
    obtain ⟨c, hc⟩ := (hwf.mem_keys_iff _ k).mp hk
    have hpath := (walk_concat_eq_some_iff _ n c ks k).mpr ⟨_, hwalk, hc⟩
    have hvalue := valueAt?_ensurePath hf hn ks (ks ++ [k])
    have hlonger : ¬ks ++ [k] <+: ks := fun hprefix => by
      have hle := hprefix.length_le
      rw [List.length_append, List.length_singleton] at hle
      omega
    rw [valueAt?, hpath, valueAt?, walk_append, h, if_neg hlonger] at hvalue
    cases hvalue
  · have hvalue := valueAt?_ensurePath hf hn ks ks
    rw [valueAt?, hwalk, valueAt?, h, if_pos (List.prefix_refl ks)] at hvalue
    exact Option.some.inj hvalue

theorem held_ensurePath :
    (f.ensurePath n ks).1.held (f.ensurePath n ks).2 = f.heldAt n ks := by
  unfold heldAt
  cases h : f.walk n ks with
  | some m =>
    rw [ensurePath_of_walk h]
    rfl
  | none =>
    obtain ⟨hleaf, hunset⟩ := ensurePath_of_walk_none hf hn h
    exact held_of_unset_leaf hleaf hunset

theorem heldAt_fill (key : String) (hv : v.isUnset = false) :
    ((f.fill n key v).1.heldAt n (dottedKeys key)).Perm (v :: f.heldAt n (dottedKeys key)) := by
  obtain ⟨he, hm, -⟩ := f.ensurePath_writes n hf.region (dottedKeys key) hn trivial
  have hwf := he.wellFormed hf
  rw [fill_eq_collect, ← held_ensurePath hf hn, heldAt,
    walk_collect hwf hm v (ensurePath_walk hf hn _)]
  exact held_collect hwf hm hv

end

/-! ## One value after the other -/

/-- The node holds the values and no others: a single one as a leaf, two or more as a list. -/
inductive Collected (f : Forest) (m : NodeId) : List Value → Prop
  | nothing : f.children m = {} → f.value m = .unset → Collected f m []
  | leaf {v : Value} : f.children m = {} → f.value m = v → Collected f m [v]
  | list {vs : List Value} : 2 ≤ vs.length → f.value m = .unset → f.Numbered m vs →
      Collected f m vs

section

variable {f : Forest} {n m : NodeId} {v : Value} {vs ws : List Value} {key : String}
variable (hf : f.WellFormed)

include hf

theorem Collected.collect (hm : m < f.size) (h : f.Collected m vs)
    (hvs : ∀ w ∈ vs, w.isUnset = false) (v : Value) :
    (f.collect m v).1.Collected m (vs ++ [v]) := by
  cases h with
  | nothing hleaf hunset =>
    rw [collect_unset hleaf hunset]
    refine .leaf ((f.children_setValue m m v).trans hleaf) ?_
    rw [value_setValue f v hm, if_pos rfl]
  | leaf hleaf hvalue =>
    subst hvalue
    have he := listed_edits hf hm
    have hlt := Nat.lt_of_lt_of_le hm he.size_le
    rw [collect_leaf hleaf (hvs _ (List.mem_singleton_self _))]
    refine .list (Nat.le_refl _) ?_
      ((numbered_listed hf hm hleaf).pushValue (he.wellFormed hf) hlt v)
    rw [value_pushValue _ v hlt, if_neg (Nat.ne_of_lt hlt), value_listed hm]
  | list hlength hunset hnumbered =>
    have hne : f.keys m ≠ [] := by
      intro hnil
      rw [hnumbered.1, List.map_eq_nil_iff, List.range'_eq_nil_iff] at hnil
      rw [hnil] at hlength
      cases hlength
    rw [collect_list hne]
    refine .list ?_ ?_ (hnumbered.pushValue hf hm v)
    · rw [List.length_append]
      exact Nat.le_add_right_of_le hlength
    · rw [f.value_pushValue v hm, if_neg (Nat.ne_of_lt hm), hunset]

variable (hn : n < f.size)

include hn

theorem Collected.fillAll (hm : f.walk n (dottedKeys key) = some m) (h : f.Collected m vs)
    (hvs : ∀ w ∈ vs ++ ws, w.isUnset = false) :
    (f.fillAll n key ws).walk n (dottedKeys key) = some m ∧
      (f.fillAll n key ws).Collected m (vs ++ ws) := by
  induction ws generalizing f vs with
  | nil =>
    rw [List.append_nil]
    exact ⟨hm, h⟩
  | cons v ws ih =>
    have hlt := hf.lt_of_walk hn hm
    have he := f.fill_edits n hf.region key v hn trivial
    have hstep := h.collect hf hlt (fun w hw => hvs w (List.mem_append_left _ hw)) v
    have hwalk := walk_collect hf hlt v hm
    rw [← fill_of_walk hm] at hstep hwalk
    rw [List.append_cons] at hvs ⊢
    exact ih (he.wellFormed hf) (Nat.lt_of_lt_of_le hn he.size_le) hwalk hstep hvs

/-- The first fill makes sure of the node, as does writing nothing before it. -/
theorem fillAll_ensurePath (hne : vs ≠ []) :
    (f.ensurePath n (dottedKeys key)).1.fillAll n key vs = f.fillAll n key vs := by
  cases vs with
  | nil => exact absurd rfl hne
  | cons v vs =>
    rw [Forest.fillAll, Forest.fillAll, List.foldl_cons, List.foldl_cons,
      fill_of_walk (ensurePath_walk hf hn _), fill_eq_collect]

end

/-- **Filling a key collects.**  Whatever there is at the path of the key, to fill in a value adds
this value to those that the node there and its children hold, and takes none away.  Where nothing
is held, no node or an unset leaf, values filled in one after the other are held in this order: one
by a leaf, and two or more by the children of an unset node, which have the numbers from 1 as their
keys. -/
theorem fill_collects {f : Forest} {n : NodeId} (hf : f.WellFormed) (hn : n < f.size)
    (key : String) :
    (∀ v : Value, v.isUnset = false →
      ((f.fill n key v).1.heldAt n (dottedKeys key)).Perm (v :: f.heldAt n (dottedKeys key))) ∧
    ∀ vs : List Value, vs ≠ [] → (∀ v ∈ vs, v.isUnset = false) →
      (∀ m, f.walk n (dottedKeys key) = some m → f.children m = {} ∧ f.value m = .unset) →
      ∃ m, (f.fillAll n key vs).walk n (dottedKeys key) = some m ∧
        (f.fillAll n key vs).Collected m vs := by
  refine ⟨fun v hv => heldAt_fill hf hn key hv, fun vs hne hvs hnothing => ?_⟩
  obtain ⟨he, hm, -⟩ := f.ensurePath_writes n hf.region (dottedKeys key) hn trivial
  have hstart : (f.ensurePath n (dottedKeys key)).1.Collected
      (f.ensurePath n (dottedKeys key)).2 [] := by
    cases h : f.walk n (dottedKeys key) with
    | some m =>
      rw [ensurePath_of_walk h]
      exact .nothing (hnothing m h).1 (hnothing m h).2
    | none =>
      obtain ⟨hleaf, hunset⟩ := ensurePath_of_walk_none hf hn h
      exact .nothing hleaf hunset
  have hfill := hstart.fillAll (he.wellFormed hf) (Nat.lt_of_lt_of_le hn he.size_le)
    (ensurePath_walk hf hn _) hvs
  rw [fillAll_ensurePath hf hn hne] at hfill
  exact ⟨_, hfill⟩

/-- A node that has a value and children with gaps, and a key that is filled three times. -/
theorem fill_collects_gaps : ∃ steps f, Run steps f ∧
    f.heldAt 0 ["a"] = [.text "x", .text "y", .text "z"] ∧
    ((f.fill 0 "a" (.text "v")).1.heldAt 0 ["a"]).Perm
      [.text "v", .text "x", .text "y", .text "z"] ∧
    f.walk 0 ["b", "c"] = none ∧
    ∃ m, (f.fillAll 0 "b.c" [.bool true, .text "", .bool true]).walk 0 ["b", "c"] = some m ∧
      (f.fillAll 0 "b.c" [.bool true, .text "", .bool true]).Collected m
        [.bool true, .text "", .bool true] := by
  obtain ⟨steps, f, hrun, hsize, hheld, hwalk⟩ : ∃ steps f, Run steps f ∧ 0 < f.size ∧
      f.heldAt 0 ["a"] = [.text "x", .text "y", .text "z"] ∧ f.walk 0 ["b", "c"] = none :=
    ⟨_, _, .step (.ofArgs [("a", .text "x"), ("a.1", .text "y"), ("a.3", .text "z"),
      ("a.2", .unset), ("b", .text "w")]) .start (by decide), by decide, rfl, by decide⟩
  have hone := (fill_collects hrun.wellFormed hsize "a").1 (.text "v") rfl
  have hall := (fill_collects hrun.wellFormed hsize "b.c").2 [.bool true, .text "", .bool true]
    (by decide) (by decide)
  rw [show dottedKeys "a" = ["a"] by decide, hheld] at hone
  rw [show dottedKeys "b.c" = ["b", "c"] by decide, hwalk] at hall
  exact ⟨steps, f, hrun, hheld, hone, hwalk, hall fun m hm => nomatch hm⟩

end LayeredConf.Forest
