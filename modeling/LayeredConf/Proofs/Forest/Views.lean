import LayeredConf.Proofs.Forest.Growth
import LayeredConf.Proofs.Tree.Entries
import LayeredConf.Tree.Json

/-!
# Views

The tree at a node is the node with the trees at its children, and depends on no node but those
below it.  Writing at a path from a node puts the value into the tree at this node.

    view_eq              the tree at a node, by its children
    view_congr           what is not below a node is not in its tree
    view_setPath         a write puts its value into the tree
    view_distinct        no two children in a tree have one key
    view_writeLeaves_newRoot
                         the leaves of a tree, written into a new scope, make it anew
-/

namespace LayeredConf.Forest

open LayeredConf.Tree

section

variable {f g : Forest} {n m c c' : NodeId} {k : String}

/-! ## Below a node -/

theorem WellFormed.lineage_of_child (hf : f.WellFormed) (hc : f.child n k = some c) :
    f.lineage c = c :: f.lineage n := hf.lineage_of_parent (hf.parent_of_child hc)

theorem WellFormed.mem_lineage_of_child (hf : f.WellFormed) (hc : f.child n k = some c)
    (hm : c ∈ f.lineage m) : n ∈ f.lineage m := by
  obtain ⟨l, hl, hsuffix⟩ := (hf.lineage_trail m).of_mem hm
  rw [(hl.unique (hf.lineage_trail c)), hf.lineage_of_child hc] at hsuffix
  exact hsuffix.subset (List.mem_cons_of_mem _ (hf.lineage_trail n).head_mem)

/-- A node is not below its child. -/
theorem WellFormed.not_mem_lineage_of_child (hf : f.WellFormed) (hc : f.child n k = some c) :
    c ∉ f.lineage n := (hf.lineage_trail n).not_mem_of_next (hf.parent_of_child hc)

/-- Nothing is below two children. -/
theorem WellFormed.eq_of_mem_lineage (hf : f.WellFormed) {k' : String}
    (hc : f.child n k = some c) (hc' : f.child n k' = some c') (hm : c ∈ f.lineage m)
    (hm' : c' ∈ f.lineage m) : c = c' := by
  obtain ⟨l, hl, hsuffix⟩ := (hf.lineage_trail m).of_mem hm
  obtain ⟨l', hl', hsuffix'⟩ := (hf.lineage_trail m).of_mem hm'
  rw [hl.unique (hf.lineage_trail c), hf.lineage_of_child hc] at hsuffix
  rw [hl'.unique (hf.lineage_trail c'), hf.lineage_of_child hc'] at hsuffix'
  have hle := List.suffix_of_suffix_length_le hsuffix hsuffix' (by simp)
  exact (List.cons.inj (hle.eq_of_length (by simp))).1

/-! ## The tree at a node -/

theorem WellFormed.lineage_length_le (hf : f.WellFormed) (hn : n < f.size) :
    (f.lineage n).length ≤ f.size := by
  have hl := hf.lineage_trail n
  have hsub : f.lineage n ⊆ List.range f.size := fun x hx =>
    List.mem_range.mpr (hf.lt_of_mem_trail hl hn hx)
  simpa using hl.nodup.length_le_of_subset hsub

theorem viewDown_succ (hf : f.WellFormed) {depth : Nat}
    (hd : f.size ≤ depth + (f.lineage n).length) :
    f.viewDown (depth + 1) n = f.viewDown depth n := by
  induction depth generalizing n with
  | zero =>
    have hnone : f.childIds n = [] := by
      refine List.eq_nil_iff_forall_not_mem.mpr fun c hc => ?_
      have hchild := hf.child_of_mem_childIds hc
      have hle := hf.lineage_length_le (hf.lt_of_child hchild)
      rw [hf.lineage_of_child hchild, List.length_cons] at hle
      omega
    rw [viewDown, viewDown, hnone]
    rfl
  | succ depth ih =>
    rw [viewDown, viewDown]
    congr 1
    refine List.map_congr_left fun c hc => ih ?_
    rw [hf.lineage_of_child (hf.child_of_mem_childIds hc), List.length_cons]
    omega

theorem viewDown_eq_view (hf : f.WellFormed) {depth : Nat} (hd : f.size ≤ depth) (n : NodeId) :
    f.viewDown depth n = f.view n := by
  obtain ⟨more, rfl⟩ := Nat.exists_eq_add_of_le hd
  induction more with
  | zero => rfl
  | succ more ih =>
    rw [← Nat.add_assoc, viewDown_succ hf (by omega)]
    exact ih (Nat.le_add_right _ _)

theorem view_eq (hf : f.WellFormed) (n : NodeId) :
    f.view n = .node (f.key n) (f.value n) (f.node n).flags ((f.childIds n).map f.view) := by
  rw [← viewDown_eq_view hf (Nat.le_succ f.size) n]
  rfl

theorem viewDown_congr (hf : f.WellFormed) (h : ∀ m, n ∈ f.lineage m → g.node m = f.node m)
    (depth : Nat) : g.viewDown depth n = f.viewDown depth n := by
  induction depth generalizing n with
  | zero =>
    have hnode := h n (hf.lineage_trail n).head_mem
    rw [viewDown, viewDown, key, value, hnode]
    rfl
  | succ depth ih =>
    have hnode := h n (hf.lineage_trail n).head_mem
    rw [viewDown, viewDown, key, value, childIds, children, hnode]
    refine congrArg _ (List.map_congr_left fun c hc => ih fun m hm => h m ?_)
    exact hf.mem_lineage_of_child (hf.child_of_mem_childIds hc) hm

/-- What is not below a node is not in its tree. -/
theorem view_congr (hf : f.WellFormed) (hsize : f.size ≤ g.size)
    (h : ∀ m, n ∈ f.lineage m → g.node m = f.node m) : g.view n = f.view n := by
  rw [view, viewDown_congr hf h, viewDown_eq_view hf hsize]

theorem key_view (hf : f.WellFormed) (n : NodeId) : (f.view n).key = f.key n := by
  rw [view_eq hf]
  rfl

theorem keys_view (hf : f.WellFormed) (n : NodeId) :
    (f.view n).children.map Tree.key = f.keys n := by
  rw [view_eq hf, Tree.children, List.map_map, ← hf.map_key_childIds]
  exact List.map_congr_left fun c _ => key_view hf c

theorem WellFormed.nodup_childIds (hf : f.WellFormed) (n : NodeId) : (f.childIds n).Nodup := by
  have hkeys := hf.distinct n
  rw [← hf.map_key_childIds] at hkeys
  exact List.Pairwise.of_map f.key (fun _ _ hne he => hne (congrArg f.key he)) hkeys

/-! ## Writes -/

/-- Nothing is below a node that is not there, but the node itself. -/
theorem lt_of_mem_lineage (hc : c < f.size) (hm : c ∈ f.lineage m) : m < f.size := by
  refine Nat.not_le.mp fun hle => ?_
  have hnone : f.parent? m = none := by
    rw [parent?, f.node_of_size_le m hle]
  rw [WellFormed.lineage_of_trail (.last hnone), List.mem_singleton] at hm
  exact absurd hc (Nat.not_lt.mpr (hm ▸ hle))

/-- A change below a child changes the tree of the child. -/
theorem view_of_child (hf : f.WellFormed) (hg : g.WellFormed) (hsize : f.size ≤ g.size)
    (hc : f.child n k = some c) (h : ∀ m < f.size, c ∉ f.lineage m → g.node m = f.node m)
    {change : Tree → Tree} (hview : g.view c = change (f.view c)) :
    g.view n = adjust k change (f.view n) := by
  have hn := h n (lt_size_of_child hc) (hf.not_mem_lineage_of_child hc)
  have hmem : c ∈ f.childIds n := hf.mem_childIds_iff.mpr ⟨k, hc⟩
  have hkey : ∀ d ∈ f.childIds n, (f.view d).key = k ↔ d = c := by
    intro d hd
    have hchild := hf.child_of_mem_childIds hd
    rw [key_view hf]
    refine ⟨fun hk => ?_, fun hdc => hdc ▸ hf.key_of_child hc⟩
    rw [hk, hc] at hchild
    exact (Option.some.inj hchild).symm
  rw [view_eq hg, view_eq hf, adjust, upsert_map (hf.nodup_childIds n) change hmem hkey, key, value,
    childIds, children, hn]
  refine congrArg _ (List.map_congr_left fun d hd => ?_)
  have hchild := hf.child_of_mem_childIds hd
  split
  · next hdc => rw [hdc, hview]
  · next hdc =>
    refine view_congr hf hsize fun m hm => ?_
    have hnot : c ∉ f.lineage m := fun hmc => hdc (hf.eq_of_mem_lineage hchild hc hm hmc)
    exact h m (lt_of_mem_lineage (hf.lt_of_child hchild) hm) hnot

theorem view_assign (hf : f.WellFormed) (hn : n < f.size) (v : Value) :
    (f.assign n v).view n = put v [] (f.view n) := by
  unfold assign
  cases hv : v.isUnset with
  | true =>
    rw [if_pos rfl, view_eq hf, put, hv]
    rfl
  | false =>
    have hg : (f.setValue n v).WellFormed :=
      hf.modify n ({ · with value := v }) (fun _ => rfl) (fun _ => rfl) fun _ => rfl
    have hnode (m : NodeId) :
        (f.setValue n v).node m = if m = n then { f.node n with value := v } else f.node m := by
      rw [setValue, node_modify]
      by_cases hm : m = n
      · rw [if_pos ⟨hm, hn⟩, if_pos hm]
      · rw [if_neg fun h => hm h.1, if_neg hm]
    have hsize : f.size ≤ (f.setValue n v).size := Nat.le_of_eq (size_modify f n _).symm
    rw [if_neg Bool.false_ne_true, view_eq hg, view_eq hf, put, hv, key, value, childIds, children,
      hnode, if_pos rfl]
    refine congrArg _ (List.map_congr_left fun c hc => view_congr hf hsize fun m hm => ?_)
    rw [hnode, if_neg]
    rintro rfl
    exact hf.not_mem_lineage_of_child (hf.child_of_mem_childIds hc) hm

theorem view_ensureChild (hf : f.WellFormed) (hn : n < f.size) (k : String) :
    (f.ensureChild n k).1.view n = adjust k id (f.view n) := by
  have hg := (f.ensureChild_writes n hf.region k hn trivial).1.wellFormed hf
  unfold ensureChild at hg ⊢
  split at hg
  · next c hc =>
    have hkey : k ∈ (f.view n).children.map Tree.key := by
      rw [keys_view hf, hf.mem_keys_iff]
      exact ⟨c, hc⟩
    rw [view_eq hf] at hkey ⊢
    rw [Tree.children] at hkey
    rw [adjust, upsert_id_of_mem hkey]
  · next hk =>
    have hkey : k ∉ (f.view n).children.map Tree.key := by
      rw [keys_view hf, hf.mem_keys_iff, hk]
      rintro ⟨c, hc⟩
      cases hc
    have hnode := node_addChild f n k hn hk
    have hne : n ≠ f.size := Nat.ne_of_lt hn
    have hsize : f.size ≤ (f.addChild n k).1.size := (f.addChild_grows n k hn hk).size_le
    have hnew : (f.addChild n k).1.view f.size = .node k .unset 0 [] := by
      rw [view_eq hg, key, value, childIds, children, hnode, if_pos rfl]
      rfl
    have hold : ∀ c ∈ f.childIds n, (f.addChild n k).1.view c = f.view c := by
      refine fun c hc => view_congr hf hsize fun m hm => ?_
      have hchild := hf.child_of_mem_childIds hc
      have hlt := lt_of_mem_lineage (hf.lt_of_child hchild) hm
      rw [hnode, if_neg (Nat.ne_of_lt hlt), if_neg]
      rintro rfl
      exact hf.not_mem_lineage_of_child hchild hm
    rw [view_eq hf, Tree.children] at hkey
    have hself : (f.addChild n k).1.node n =
        { f.node n with toChildren := (f.children n).append [(k, f.size)] } := by
      rw [hnode, if_neg hne, if_pos rfl]
    have hids : (f.addChild n k).1.childIds n = f.childIds n ++ [f.size] := by
      have hagrees := hg.agrees n
      rw [children, hself] at hagrees
      rw [childIds, children, hself, (hf.agrees n).nodes_append hagrees]
      rfl
    rw [view_eq hg, view_eq hf, adjust, upsert_of_not_mem id hkey, hids, List.map_append,
      List.map_congr_left hold, List.map_singleton, hnew, key, value, hself]
    rfl

theorem Grows.lineage (hg : Grows f g) (hf : f.WellFormed) (hn : n < f.size) :
    g.lineage n = f.lineage n := by
  have hl := hf.lineage_trail n
  refine WellFormed.lineage_of_trail (hl.congr fun x hx => parent?_congr (hg.link ?_))
  exact hf.lt_of_mem_trail hl hn hx

theorem node_ensurePath (hf : f.WellFormed) (hn : n < f.size) (path : List String)
    (hm : m < f.size) (hbelow : n ∉ f.lineage m) :
    (f.ensurePath n path).1.node m = f.node m := by
  induction path generalizing f n with
  | nil => rfl
  | cons k ks ih =>
    obtain ⟨he, hc, -⟩ := f.ensureChild_writes n hf.region k hn trivial
    have hgrows := f.ensureChild_grows n k hn
    have hchild := f.child_ensureChild n k hn
    have hwf := he.wellFormed hf
    have hlt := Nat.lt_of_lt_of_le hm hgrows.size_le
    have hstep : (f.ensureChild n k).1.node m = f.node m := by
      unfold ensureChild
      split
      · rfl
      · next hk =>
        rw [node_addChild f n k hn hk, if_neg (Nat.ne_of_lt hm), if_neg]
        rintro rfl
        exact hbelow (hf.lineage_trail m).head_mem
    refine (ih hwf hc hlt fun hmem => hbelow ?_).trans hstep
    rw [← hgrows.lineage hf hm]
    exact hwf.mem_lineage_of_child hchild hmem

/-- Writing at a path changes nothing but what is below the node that it starts from. -/
theorem node_setPath (hf : f.WellFormed) (hn : n < f.size) (path : List String) (v : Value)
    (hm : m < f.size) (hbelow : n ∉ f.lineage m) :
    (f.setPath n path v).1.node m = f.node m := by
  have hgrows := ensurePath_grows hf hn path
  have hwf := (f.ensurePath_writes n hf.region path hn trivial).1.wellFormed hf
  have hwalk := ensurePath_walk hf hn path
  have hne : m ≠ (f.ensurePath n path).2 := by
    rintro rfl
    have hmem := hwf.mem_lineage_of_walk hwalk
    rw [hgrows.lineage hf hm] at hmem
    exact hbelow hmem
  refine Eq.trans ?_ (node_ensurePath hf hn path hm hbelow)
  unfold setPath assign
  dsimp only
  split
  · rfl
  · rw [setValue, node_modify, if_neg fun h => hne h.1]

/-- **Writing at a path puts the value into the tree.** -/
theorem view_setPath (hf : f.WellFormed) (hn : n < f.size) (path : List String) (v : Value) :
    (f.setPath n path v).1.view n = put v path (f.view n) := by
  induction path generalizing f n with
  | nil => exact view_assign hf hn v
  | cons k ks ih =>
    obtain ⟨he, hc, -⟩ := f.ensureChild_writes n hf.region k hn trivial
    have hwf := he.wellFormed hf
    have hwrite := (setPath_writes _ _ hwf.region ks v hc trivial).1
    have hview := view_of_child hwf (hwrite.wellFormed hwf) hwrite.size_le
      (f.child_ensureChild n k hn) (fun m => node_setPath hwf hc ks v) (ih hwf hc)
    refine hview.trans ?_
    have hid : ∀ t : Tree, (id t).key = t.key := fun _ => rfl
    rw [view_ensureChild hf hn, adjust_adjust hid, put, Function.comp_id]

end

/-! ## Distinct keys -/

theorem key_viewDown (f : Forest) (depth : Nat) (n : NodeId) :
    (f.viewDown depth n).key = f.key n := by
  cases depth <;> rfl

theorem viewDown_distinct {f : Forest} (hf : f.WellFormed) (depth : Nat) (n : NodeId) :
    (f.viewDown depth n).Distinct := by
  induction depth generalizing n with
  | zero => exact ⟨List.nodup_nil, trivial⟩
  | succ depth ih =>
    refine ⟨?_, distinctAll_iff.mpr fun t ht => ?_⟩
    · have hkeys : (f.childIds n).map (Tree.key ∘ f.viewDown depth) = f.keys n := by
        rw [← hf.map_key_childIds]
        exact List.map_congr_left fun c _ => key_viewDown f depth c
      rw [List.map_map, hkeys]
      exact hf.distinct n
    · obtain ⟨c, -, rfl⟩ := List.mem_map.mp ht
      exact ih c

/-- No two children in the tree at a node have one key. -/
theorem view_distinct {f : Forest} (hf : f.WellFormed) (n : NodeId) : (f.view n).Distinct :=
  viewDown_distinct hf f.size n

/-! ## Writing the leaves of a tree -/

theorem toList_dotted (path : List String) :
    (dotted path).toList = ['.'].intercalate (path.map String.toList) := String.toList_intercalate

/-- The dotted form of a path whose keys have no dots stands for the path. -/
theorem dottedKeys_dotted {path : List String} (hne : path ≠ [])
    (hpath : ∀ k ∈ path, '.' ∉ k.toList) : dottedKeys (dotted path) = path := by
  have hparts : ∀ s ∈ path.map String.toList, '.' ∉ s := by
    simpa using hpath
  rw [dottedKeys, keysOf, toList_dotted, List.splitOn_intercalate '.' hparts (by simpa using hne),
    List.map_map]
  exact (List.map_congr_left fun k _ => String.ofList_toList).trans (List.map_id path)

theorem view_writeLeaves {f : Forest} {n : NodeId} (hf : f.WellFormed) (hn : n < f.size)
    {es : List (List String × Value)}
    (hes : ∀ e ∈ es, e.1 ≠ [] ∧ ∀ k ∈ e.1, '.' ∉ k.toList) :
    (f.writeLeaves n es).view n = putAll es (f.view n) := by
  induction es generalizing f with
  | nil => rfl
  | cons e es ih =>
    obtain ⟨⟨hne, hpath⟩, hes⟩ := List.forall_mem_cons.mp hes
    have hset : f.setDotted n (dotted e.1) e.2 = f.setPath n e.1 e.2 := by
      rw [setDotted, dottedKeys_dotted hne hpath]
    have hwrite := (f.setPath_writes n hf.region e.1 e.2 hn trivial).1
    have hrest := ih (hwrite.wellFormed hf) (Nat.lt_of_lt_of_le hn hwrite.size_le) hes
    rw [view_setPath hf hn, ← hset] at hrest
    exact hrest

theorem view_newRoot {f : Forest} (hf : f.WellFormed) :
    f.newRoot.1.view f.newRoot.2 = .node "" .unset 0 [] := by
  have hg : f.newRoot.1.WellFormed := (f.newRoot_writes hf.region).1.wellFormed hf
  rw [view_eq hg, key, value, childIds, children, node_newRoot]
  rfl

/-- The leaves of a tree, written into a new scope, make the tree anew. -/
theorem view_writeLeaves_newRoot {f : Forest} (hf : f.WellFormed) {t : Tree} (hd : t.Distinct)
    (hh : t.Hollow) (hkeys : t.KeysBelow ('.' ∉ ·.toList)) (hinner : t.children ≠ []) :
    (f.newRoot.1.writeLeaves f.newRoot.2 t.entries).view f.newRoot.2 =
      .node "" t.value 0 (bareAll t.children) := by
  obtain ⟨hwrite, hn, -⟩ := f.newRoot_writes hf.region
  rw [view_writeLeaves (hwrite.wellFormed hf) hn, view_newRoot hf, putAll_entries t hd hh]
  refine fun e he => ⟨?_, keysBelow_path t hkeys e he⟩
  obtain ⟨k, v, flags, _ | ⟨t, ts⟩⟩ := t
  · exact absurd rfl hinner
  · exact path_ne_nil_of_mem_entriesAll he

end LayeredConf.Forest
