import LayeredConf.Proofs.Forest.Grafting
import LayeredConf.Proofs.Forest.Run

/-!
# What merging does

To merge a node into another is to graft the tree that is read at it before anything is written, so
wherever the two lie, what is merged are the values that the source had.  A node that is merged
again finds all of its values there and changes nothing, unless it has changed itself.

    keysFrom f source ks      the keys that come to the node at a path from the receiver
    merge_grafted             a merge grafts the tree of the source
    graft_eq_self             nothing happens if all values are there
    merge_copies              what a merge does, node by node
-/

namespace LayeredConf.Forest

/-- The keys that a source brings to the node at a path from the receiver: its own key to the
receiver itself, and those of the nodes below it to the nodes at their paths. -/
def keysFrom (f : Forest) (source : NodeId) : List String → List String
  | [] => [f.key source]
  | k :: ks => if k = f.key source then ((f.walk source ks).map f.keys).getD [] else []

/-! ## The tree of the source -/

section

variable {f : Forest} (hf : f.WellFormed)

include hf

theorem find?_views (n : NodeId) (k : String) :
    ((f.childIds n).map f.view).find? (·.key = k) = (f.child n k).map f.view := by
  have hlookup : ∀ l : List (String × NodeId), (∀ e ∈ l, f.key e.2 = e.1) →
      ((l.map (·.2)).map f.view).find? (·.key = k) = (l.lookup k).map f.view := by
    intro l hl
    induction l with
    | nil => rfl
    | cons e l ih =>
      obtain ⟨hkey, hl⟩ := List.forall_mem_cons.mp hl
      rw [List.map_cons, List.map_cons, List.lookup_cons]
      by_cases hk : k = e.1
      · rw [List.find?_cons_of_pos (by simp [key_view hf, hkey, hk])]
        simp [hk]
      · rw [List.find?_cons_of_neg (by simp [key_view hf, hkey, Ne.symm hk]), ih hl]
        simp [beq_false_of_ne hk]
  rw [childIds, Children.nodes_eq, child, (hf.agrees n).get?_eq_lookup]
  exact hlookup _ fun e he => hf.key_of_child ((hf.child_eq_some_iff n e.1 e.2).mpr he)

theorem childrenAt_views (n : NodeId) (ks : List String) :
    (Tree.childrenAt ((f.childIds n).map f.view) ks).map Tree.key =
      ((f.walk n ks).map f.keys).getD [] := by
  induction ks generalizing n with
  | nil =>
    have hkeys := keys_view hf n
    rw [view_eq hf, Tree.children] at hkeys
    exact hkeys
  | cons k ks ih =>
    rw [Tree.childrenAt, find?_views hf, walk]
    cases f.child n k with
    | none => rfl
    | some c =>
      show (Tree.childrenAt (f.view c).children ks).map Tree.key = _
      rw [view_eq hf]
      exact ih c

theorem valueAt?_views (n : NodeId) {ks : List String} (hks : ks ≠ []) :
    Tree.valueAt? ((f.childIds n).map f.view) ks = f.valueAt? n ks := by
  induction ks generalizing n with
  | nil => exact absurd rfl hks
  | cons k ks ih =>
    rw [Tree.valueAt?, find?_views hf, valueAt?, walk]
    cases f.child n k with
    | none => rfl
    | some c =>
      show (if ks = [] then some (f.view c).value
        else Tree.valueAt? (f.view c).children ks) = f.valueAt? c ks
      rw [view_eq hf]
      by_cases hks : ks = []
      · rw [if_pos hks, hks]
        rfl
      · rw [if_neg hks]
        exact ih c hks

theorem valueAt?_view (source : NodeId) (ks : List String) :
    Tree.valueAt? [f.view source] (f.key source :: ks) = f.valueAt? source ks := by
  have hself := Tree.valueAt?_cons_self (t := f.view source) ks []
  rw [key_view hf] at hself
  rw [hself, view_eq hf]
  by_cases hks : ks = []
  · rw [if_pos hks, hks]
    rfl
  · rw [if_neg hks]
    exact valueAt?_views hf source hks

theorem childrenAt_view (source : NodeId) (ks : List String) :
    (Tree.childrenAt [f.view source] ks).map Tree.key = f.keysFrom source ks := by
  cases ks with
  | nil => exact congrArg (· :: []) (key_view hf source)
  | cons k ks =>
    rw [keysFrom]
    by_cases hk : k = f.key source
    · have hself := Tree.childrenAt_cons_self (t := f.view source) ks []
      rw [key_view hf] at hself
      rw [if_pos hk, hk, hself, view_eq hf]
      exact childrenAt_views hf source ks
    · have hnot : k ∉ [f.view source].map Tree.key := by simpa [key_view hf] using hk
      rw [if_neg hk, Tree.childrenAt_of_not_mem ks hnot]
      rfl

theorem merge_grafted {n : NodeId} (hn : n < f.size) (source : NodeId) :
    Grafted f n [f.view source] (f.merge n source).1 ∧
    (f.merge n source).1.child n (f.key source) = some (f.merge n source).2 := by
  have hg := graft_grafted hf hn (f.view source) (view_distinct hf source)
  rwa [key_view hf] at hg

end

/-! ## Grafting what is there -/

theorem setValue_eq_self {f : Forest} {n : NodeId} {v : Value} (h : f.value n = v) :
    f.setValue n v = f := by
  refine ext_node (size_modify f n _) fun m => ?_
  rw [setValue, node_modify]
  split
  · next hm => rw [hm.1, ← h]; rfl
  · rfl

mutual

theorem graft_eq_self {f : Forest} {n : NodeId} (t : Tree) (hd : t.Distinct)
    (h : ∀ ks v, Tree.valueAt? [t] ks = some v → f.valueAt? n ks = some v) :
    (f.graft n t).1 = f := by
  cases t with
  | node k v flags ts =>
    have hself (ks : List String) : Tree.valueAt? [.node k v flags ts] (k :: ks) =
        if ks = [] then some v else Tree.valueAt? ts ks := Tree.valueAt?_cons_self ks []
    obtain ⟨c, hwalk, hvalue⟩ := Option.map_eq_some_iff.mp (h [k] v (hself []))
    obtain ⟨_, hc, ⟨⟩⟩ := (f.walk_cons_eq_some_iff n c k []).mp hwalk
    have hplace : f.place n k = (f, c) := by rw [place, hc]
    rw [graft, hplace]
    dsimp only
    rw [setValue_eq_self hvalue]
    refine graftAll_eq_self ts hd.2 hd.1 fun ks v' hv' => ?_
    have hks : ks ≠ [] := by
      rintro rfl
      cases hv'
    have hbelow := h (k :: ks) v' ((hself ks).trans ((if_neg hks).trans hv'))
    rw [valueAt?, walk, hc] at hbelow
    exact hbelow

theorem graftAll_eq_self {f : Forest} {n : NodeId} (ts : List Tree) (hd : Tree.DistinctAll ts)
    (hkeys : (ts.map Tree.key).Nodup)
    (h : ∀ ks v, Tree.valueAt? ts ks = some v → f.valueAt? n ks = some v) :
    f.graftAll n ts = f := by
  cases ts with
  | nil => rw [graftAll]
  | cons t ts =>
    obtain ⟨hnew, hkeys⟩ := List.nodup_cons.mp hkeys
    have hfirst : (f.graft n t).1 = f := by
      refine graft_eq_self t hd.1 fun ks v hv => h ks v ?_
      cases ks with
      | nil => cases hv
      | cons k ks =>
        by_cases hk : t.key = k
        · subst hk
          rwa [Tree.valueAt?_cons_self] at hv ⊢
        · rw [Tree.valueAt?_cons_of_ne ks hk] at hv
          cases hv
    rw [graftAll, hfirst]
    refine graftAll_eq_self ts hd.2 hkeys fun ks v hv => h ks v ?_
    cases ks with
    | nil => cases hv
    | cons k ks =>
      by_cases hk : t.key = k
      · subst hk
        rw [Tree.valueAt?_of_not_mem ks hnew] at hv
        cases hv
      · rwa [Tree.valueAt?_cons_of_ne ks hk]

end

/-! ## Node by node -/

section

variable {f g : Forest} {n m c : NodeId} {t : Tree}

/-- What is neither the node nor below the grafted tree is as it was. -/
theorem Grafted.node_beside (hg : Grafted f n [t] g) (hc : g.child n t.key = some c)
    (hm : c ∉ g.lineage m) (hlt : m < f.size) :
    g.value m = f.value m ∧ (m ≠ n → g.node m = f.node m) := by
  by_cases hbelow : n ∈ g.lineage m
  · obtain ⟨ks, hks⟩ := hg.wellFormed.exists_walk_of_mem_lineage hbelow
    cases ks with
    | nil =>
      cases hks
      exact ⟨hg.value [] n rfl, fun hne => absurd rfl hne⟩
    | cons k ks =>
      have hk : k ∉ [t].map Tree.key := by
        intro hk
        obtain rfl : k = t.key := List.mem_singleton.mp hk
        obtain ⟨d, hd, hwalk⟩ := (g.walk_cons_eq_some_iff n m _ ks).mp hks
        rw [hc] at hd
        cases hd
        exact hm (hg.wellFormed.mem_lineage_of_walk hwalk)
      have hvalue := hg.value _ m hks
      rw [Tree.valueAt?_of_not_mem ks hk, Option.getD_none] at hvalue
      have hchildren := hg.children_of_nil hks (Tree.childrenAt_of_not_mem ks hk)
      obtain ⟨hkey, hlink, hflags⟩ := hg.kept m hlt
      exact ⟨hvalue, fun _ => node_eq_of_fields hkey hvalue hflags hlink hchildren⟩
  · have hsame := hg.same m hbelow
    exact ⟨congrArg Node.value hsame, fun _ => hsame⟩

end

/-- **A merge is a copy that adds.**  Wherever the two nodes lie, what the receiver has under the
key of the source has then the values of the source, as it was before, and at other paths the values
it had.  A node that gains children is sorted; others keep theirs as they are.  All nodes keep their
keys and links, and their values, unless they are below the copy.  If the source is not, it is left
as it was, and to merge it again changes nothing. -/
theorem merge_copies {f : Forest} (hf : f.WellFormed) {n source : NodeId} (hn : n < f.size)
    (hsource : source < f.size) : ∃ g c, f.merge n source = (g, c) ∧ g.WellFormed ∧
    (∀ m, f.view m =
      .node (f.key m) (f.value m) (f.node m).flags ((f.childIds m).map f.view)) ∧
    g.child n (f.key source) = some c ∧
    (∀ ks, g.valueAt? c ks = (f.valueAt? source ks).or (f.valueAt? n (f.key source :: ks))) ∧
    (∀ ks m, g.walk n ks = some m → ∃ added, (∀ e ∈ added, f.size ≤ e.2) ∧
      added.map (·.1) = (f.keysFrom source ks).filter (· ∉ f.keys m) ∧
      g.children m =
        if added = [] then f.children m else ((f.children m).append added).sort) ∧
    (∀ m < f.size, (∀ ks, g.walk n ks ≠ some m) → g.node m = f.node m) ∧
    (∀ m < f.size, g.key m = f.key m ∧ g.link m = f.link m ∧
      (c ∉ g.lineage m → g.value m = f.value m)) ∧
    ((∀ m, source ∈ g.lineage m → c ∉ g.lineage m) →
      (∀ m, source ∈ f.lineage m → g.node m = f.node m) ∧ g.merge n source = (g, c)) := by
  obtain ⟨hg, hc⟩ := merge_grafted hf hn source
  generalize hmerge : f.merge n source = r at hg hc
  obtain ⟨g, c⟩ := r
  dsimp only at hg hc
  have hkey : (f.view source).key = f.key source := key_view hf source
  refine ⟨g, c, rfl, hg.wellFormed, view_eq hf, hc, fun ks => ?_, fun ks m hm => ?_,
    fun m hm hnot => ?_, fun m hm => ?_, fun hapart => ?_⟩
  · have hvalues := hg.valueAt?_eq (f.key source :: ks)
    rw [valueAt?_view hf, valueAt?, walk, hc] at hvalues
    exact hvalues
  · obtain ⟨added, hids, hkeys, hchildren⟩ := hg.children ks m hm
    rw [childrenAt_view hf] at hkeys
    exact ⟨added, hids, hkeys, hchildren⟩
  · refine hg.same m fun hmem => ?_
    obtain ⟨ks, hks⟩ := hg.wellFormed.exists_walk_of_mem_lineage hmem
    exact hnot ks hks
  · obtain ⟨hkey', hlink, -⟩ := hg.kept m hm
    exact ⟨hkey', hlink, fun hcm => (hg.node_beside (hkey ▸ hc) hcm hm).1⟩
  · have hkeep : ∀ m, source ∈ f.lineage m → g.node m = f.node m := by
      intro m hm
      have hlt := lt_of_mem_lineage hsource hm
      rw [← hg.lineage_eq hf hlt] at hm
      refine (hg.node_beside (hkey ▸ hc) (hapart m hm) hlt).2 ?_
      -- the copy would be below the source if the receiver were
      rintro rfl
      have hcm : source ∈ g.lineage c := by
        rw [hg.wellFormed.lineage_of_child hc]
        exact List.mem_cons_of_mem _ hm
      exact hapart c hcm (hg.wellFormed.lineage_trail c).head_mem
    refine ⟨hkeep, ?_⟩
    have hview : g.view source = f.view source := view_congr hf hg.size_le hkeep
    have hself : (g.graft n (f.view source)).1 = g := by
      refine graft_eq_self _ (view_distinct hf source) fun ks v hv => ?_
      rw [hg.valueAt?_eq, hv]
      rfl
    have hagain := (merge_grafted hg.wellFormed (Nat.lt_of_lt_of_le hn hg.size_le) source).2
    rw [merge, hview, hself, (hg.kept source hsource).1, hc] at hagain
    rw [merge, hview]
    exact Prod.ext hself (Option.some.inj hagain).symm

/-- A node from below is copied to the root, which is sorted.  Then what it is a child of is copied
below it, without the copy itself. -/
theorem merge_copies_overlapping : ∃ steps f g h, Run steps f ∧ f.keys 0 = ["b", "a"] ∧
    f.merge 0 2 = (g, 4) ∧ g.keys 0 = ["a", "b", "x"] ∧ g.merge 0 2 = (g, 4) ∧
    g.merge 2 1 = (h, 5) ∧ h.valueAt? 5 ["x"] = some (.text "1") ∧
    h.valueAt? 5 ["x", "b"] = none := by
  have hsort : sortKeys ["b", "a", "x"] = ["a", "b", "x"] :=
    sortKeys_eq_of_others (by decide) (by decide) (by decide)
  obtain ⟨steps, f, hrun, hsize, hkeys, hfirst, hsorted, hsize', hapart, hsecond, hx, hxb⟩ :
      ∃ steps f, Run steps f ∧ f.size = 4 ∧ f.keys 0 = ["b", "a"] ∧ (f.merge 0 2).2 = 4 ∧
      (f.merge 0 2).1.keys 0 = ["a", "b", "x"] ∧ (f.merge 0 2).1.size = 5 ∧
      ((List.range 5).all fun m => 2 ∈ (f.merge 0 2).1.lineage m →
        4 ∉ (f.merge 0 2).1.lineage m) = true ∧
      ((f.merge 0 2).1.merge 2 1).2 = 5 ∧
      (f.merge 0 2).1.valueAt? 1 ["x"] = some (.text "1") ∧
      ((f.merge 0 2).1.valueAt? 1 ["x", "b"]).or ((f.merge 0 2).1.valueAt? 2
        ((f.merge 0 2).1.key 1 :: ["x", "b"])) = none :=
    ⟨_, _, .step (.ofArgs [("b.x", .text "1"), ("a", .text "2")]) .start (by decide),
      rfl, rfl, rfl, hsort, rfl, by decide, rfl, rfl, rfl⟩
  obtain ⟨g, c, hmerge, hwf, -, -, -, -, -, -, hagain⟩ :=
    merge_copies hrun.wellFormed (show 0 < f.size by omega) (show 2 < f.size by omega)
  rw [hmerge] at hfirst hsorted hsize' hapart hsecond hx hxb
  dsimp only at hfirst hsorted hsize' hapart hsecond hx hxb
  subst hfirst
  obtain ⟨h, c', hmerge', -, -, -, hvalues, -⟩ :=
    merge_copies hwf (show 2 < g.size by omega) (show 1 < g.size by omega)
  rw [hmerge'] at hsecond
  obtain rfl : c' = 5 := hsecond
  refine ⟨steps, f, g, h, hrun, hkeys, hmerge, hsorted, (hagain fun m hm => ?_).2, hmerge', ?_, ?_⟩
  · have hlt : m < 5 := hsize' ▸ lt_of_mem_lineage (show 2 < g.size by omega) hm
    exact of_decide_eq_true (List.all_eq_true.mp hapart m (List.mem_range.mpr hlt)) hm
  · rw [hvalues, hx]
    rfl
  · rw [hvalues, hxb]

end LayeredConf.Forest
