import LayeredConf.Proofs.Forest.Views
import LayeredConf.Proofs.Tree.Paths
import Mathlib.Data.List.Induction
import Mathlib.Tactic.Tauto

/-!
# Grafting

Trees are grafted below a node child by child, each placed, given its value and then grown in turn.
What comes of it can be said node by node: a node takes over the value at its path, if the trees
have one there, and gains those of the keys there that it did not have, in their order.  A node that
gains children is sorted each time, which is to sort it once in the end.

    gained old added        the children of a node that gains some
    Grafted f n ts g        `g` is `f` with the trees grafted below `n`
    Grafted.cons            one tree after the other
    graftAll_grafted        grafting does so
-/

namespace LayeredConf.Forest

/-- The children of a node that gains some: sorted, unless none are gained. -/
def gained (old : Children) (added : List (String × NodeId)) : Children :=
  if added = [] then old else (old.append added).sort

/-- The trees have been grafted below `n`. -/
structure Grafted (f : Forest) (n : NodeId) (ts : List Tree) (g : Forest) : Prop where
  size_le : f.size ≤ g.size
  wellFormed : g.WellFormed
  kept : ∀ m < f.size,
    g.key m = f.key m ∧ g.link m = f.link m ∧ (g.node m).flags = (f.node m).flags
  /-- Nothing happens but below `n`. -/
  same : ∀ m, n ∉ g.lineage m → g.node m = f.node m
  value : ∀ ks m, g.walk n ks = some m → g.value m = (Tree.valueAt? ts ks).getD (f.value m)
  children : ∀ ks m, g.walk n ks = some m → ∃ added, (∀ e ∈ added, f.size ≤ e.2) ∧
    added.map (·.1) = ((Tree.childrenAt ts ks).map Tree.key).filter (· ∉ f.keys m) ∧
    g.children m = gained (f.children m) added

/-! ## Gaining children -/

section

variable (old : Children) (added : List (String × NodeId))

theorem gained_nil : gained old [] = old := if_pos rfl

theorem get?_gained (k : String) :
    (gained old added).get? k = (old.get? k).or (added.lookup k) := by
  rw [← Children.get?_append]
  unfold gained
  split
  · next h => rw [h, Children.append_nil]
  · exact Children.get?_sort _ k

theorem gained_perm :
    (gained old added).childOrder.Perm (old.childOrder ++ added.map (·.1)) := by
  unfold gained
  split
  · next h => rw [h, List.map_nil, List.append_nil]
  · exact sortKeys_perm _

theorem gained_gained (more : List (String × NodeId)) :
    gained (gained old added) more = gained old (added ++ more) := by
  by_cases hmore : more = []
  · rw [hmore, gained_nil, List.append_nil]
  · by_cases hadded : added = []
    · rw [hadded, gained_nil, List.nil_append]
    · unfold gained
      rw [if_neg hmore, if_neg hadded, if_neg (List.append_ne_nil_of_left_ne_nil hadded more),
        ← Children.append_append]
      -- the keys are sorted once more, with those of `more`
      show Children.mk _ (sortKeys (sortKeys _ ++ more.map (·.1))) = _
      rw [sortKeys_append]
      rfl

end

namespace Grafted

variable {f g h : Forest} {n m c : NodeId} {k : String} {ks : List String}
variable {t : Tree} {ts : List Tree}

/-! ## What grafting keeps and brings -/

theorem keys_perm (hg : Grafted f n ts g) (hm : g.walk n ks = some m) : (g.keys m).Perm
    (f.keys m ++ ((Tree.childrenAt ts ks).map Tree.key).filter (· ∉ f.keys m)) := by
  obtain ⟨added, -, hkeys, hchildren⟩ := hg.children ks m hm
  rw [← hkeys, keys, hchildren]
  exact gained_perm _ _

theorem mem_keys_iff (hg : Grafted f n ts g) (hm : g.walk n ks = some m) :
    k ∈ g.keys m ↔ k ∈ f.keys m ∨ k ∈ (Tree.childrenAt ts ks).map Tree.key := by
  rw [(hg.keys_perm hm).mem_iff, List.mem_append, List.mem_filter, decide_eq_true_iff]
  tauto

theorem children_of_nil (hg : Grafted f n ts g) (hm : g.walk n ks = some m)
    (hnil : Tree.childrenAt ts ks = []) : g.children m = f.children m := by
  obtain ⟨added, -, hkeys, hchildren⟩ := hg.children ks m hm
  rw [hnil] at hkeys
  rw [hchildren, List.map_eq_nil_iff.mp hkeys, gained_nil]

/-- There is a way along each path that the trees have. -/
theorem exists_walk (hg : Grafted f n ts g) (hks : (Tree.valueAt? ts ks).isSome) :
    ∃ m, g.walk n ks = some m := by
  induction ks using List.reverseRecOn with
  | nil => exact ⟨n, rfl⟩
  | append_singleton ks k ih =>
    obtain ⟨p, hp⟩ : ∃ p, g.walk n ks = some p := by
      rcases Tree.valueAt?_of_concat ts ks k hks with rfl | hks
      · exact ⟨n, rfl⟩
      · exact ih hks
    have hk : k ∈ g.keys p :=
      (hg.mem_keys_iff hp).mpr (Or.inr ((Tree.valueAt?_concat_isSome ts ks k).mp hks))
    obtain ⟨c, hc⟩ := (hg.wellFormed.mem_keys_iff p k).mp hk
    exact ⟨c, (walk_concat_eq_some_iff g n c ks k).mpr ⟨p, hp, hc⟩⟩

section

variable (hg : Grafted f n ts g)

include hg

theorem lineage_eq (hf : f.WellFormed) (hm : m < f.size) : g.lineage m = f.lineage m := by
  have hl := hf.lineage_trail m
  refine WellFormed.lineage_of_trail (hl.congr fun x hx => parent?_congr ?_)
  exact (hg.kept x (hf.lt_of_mem_trail hl hm hx)).2.1

theorem child_of (hm : g.walk n ks = some m) (hc : f.child m k = some c) :
    g.child m k = some c := by
  obtain ⟨added, -, -, hchildren⟩ := hg.children ks m hm
  unfold child at hc ⊢
  rw [hchildren, get?_gained, hc]
  rfl

theorem child_cases (hm : g.walk n ks = some m) (hc : g.child m k = some c) :
    f.child m k = some c ∨ f.size ≤ c ∧ k ∈ (Tree.childrenAt ts ks).map Tree.key := by
  obtain ⟨added, hnew, hkeys, hchildren⟩ := hg.children ks m hm
  rw [child, hchildren, get?_gained, Option.or_eq_some_iff] at hc
  rcases hc with hold | ⟨-, hadded⟩
  · exact Or.inl hold
  · obtain ⟨l, l', rfl, -⟩ := List.lookup_eq_some_iff.mp hadded
    have hmem : (k, c) ∈ l ++ (k, c) :: l' := List.mem_append_right _ List.mem_cons_self
    have hk := List.mem_map_of_mem (f := (·.1)) hmem
    rw [hkeys] at hk
    exact Or.inr ⟨hnew _ hmem, (List.mem_filter.mp hk).1⟩

/-- The ways to nodes are kept. -/
theorem walk_of (hm : f.walk n ks = some m) : g.walk n ks = some m := by
  induction ks using List.reverseRecOn generalizing m with
  | nil => exact hm
  | append_singleton ks k ih =>
    obtain ⟨p, hp, hc⟩ := (walk_concat_eq_some_iff f n m ks k).mp hm
    exact (walk_concat_eq_some_iff g n m ks k).mpr ⟨p, ih hp, hg.child_of (ih hp) hc⟩

/-- A way that is new leads to a new node, and the trees have it. -/
theorem walk_cases (hm : g.walk n ks = some m) :
    f.walk n ks = some m ∨ f.size ≤ m ∧ (Tree.valueAt? ts ks).isSome := by
  induction ks using List.reverseRecOn generalizing m with
  | nil => exact Or.inl hm
  | append_singleton ks k ih =>
    obtain ⟨p, hp, hc⟩ := (walk_concat_eq_some_iff g n m ks k).mp hm
    rcases hg.child_cases hp hc with hold | ⟨hnew, hk⟩
    · rcases ih hp with hwalk | ⟨hpnew, -⟩
      · exact Or.inl ((walk_concat_eq_some_iff f n m ks k).mpr ⟨p, hwalk, hold⟩)
      · exact absurd (lt_size_of_child hold) (Nat.not_lt.mpr hpnew)
    · exact Or.inr ⟨hnew, (Tree.valueAt?_concat_isSome ts ks k).mpr hk⟩

/-- **The values below the node.**  Each path that the trees have has their value, each other one
the value that it had. -/
theorem valueAt?_eq (ks : List String) :
    g.valueAt? n ks = (Tree.valueAt? ts ks).or (f.valueAt? n ks) := by
  unfold Forest.valueAt?
  cases hm : g.walk n ks with
  | none =>
    have hold : f.walk n ks = none := Option.eq_none_iff_forall_ne_some.mpr fun m hw => by
      rw [hg.walk_of hw] at hm
      cases hm
    have hgiven : Tree.valueAt? ts ks = none := Option.eq_none_iff_forall_ne_some.mpr fun v hv => by
      obtain ⟨m, hw⟩ := hg.exists_walk (Option.isSome_of_eq_some hv)
      rw [hw] at hm
      cases hm
    rw [hold, hgiven]
    rfl
  | some m =>
    have hvalue := hg.value ks m hm
    rw [Option.map_some, hvalue]
    cases hv : Tree.valueAt? ts ks with
    | some v => rfl
    | none =>
      rcases hg.walk_cases hm with hold | ⟨-, hgiven⟩
      · rw [hold]
        rfl
      · rw [hv] at hgiven
        cases hgiven

end

/-! ## One tree after the other -/

theorem nil (hf : f.WellFormed) (n : NodeId) : Grafted f n [] f where
  size_le := Nat.le_refl _
  wellFormed := hf
  kept _ _ := ⟨rfl, rfl, rfl⟩
  same _ _ := rfl
  value ks _ _ := by cases ks <;> rfl
  children ks m _ := ⟨[], by simp, by cases ks <;> rfl, (gained_nil _).symm⟩

section

variable (hn : n < f.size) (ht : Grafted f n [t] h) (hts : Grafted h n ts g)
variable (hnew : t.key ∉ ts.map Tree.key)

include ht hts

/-- What comes after a tree does not meet it, so it finds nothing that the tree has changed. -/
theorem cons_of_ne (hk : t.key ≠ k) (hm : g.walk n (k :: ks) = some m) :
    h.value m = f.value m ∧ h.children m = f.children m := by
  have hnot : k ∉ [t].map Tree.key := by simpa using hk.symm
  rcases hts.walk_cases hm with hwalk | ⟨hsize, -⟩
  · have hvalue := ht.value (k :: ks) m hwalk
    rw [Tree.valueAt?_of_not_mem ks hnot] at hvalue
    exact ⟨hvalue, ht.children_of_nil hwalk (Tree.childrenAt_of_not_mem ks hnot)⟩
  · have hle := Nat.le_trans ht.size_le hsize
    rw [h.value_of_size_le m hsize, f.value_of_size_le m hle, children_of_size_le h m hsize,
      children_of_size_le f m hle]
    exact ⟨rfl, rfl⟩

include hnew

omit ht in
theorem cons_of_eq (hm : g.walk n (t.key :: ks) = some m) :
    h.walk n (t.key :: ks) = some m ∧ g.value m = h.value m ∧ g.children m = h.children m := by
  have hvalue := hts.value (t.key :: ks) m hm
  rw [Tree.valueAt?_of_not_mem ks hnew] at hvalue
  refine ⟨?_, hvalue, hts.children_of_nil hm (Tree.childrenAt_of_not_mem ks hnew)⟩
  rcases hts.walk_cases hm with hwalk | ⟨-, hgiven⟩
  · exact hwalk
  · rw [Tree.valueAt?_of_not_mem ks hnew] at hgiven
    cases hgiven

/-- The node itself gains the key of the first tree and then those of the others. -/
theorem cons_children_self : ∃ added, (∀ e ∈ added, f.size ≤ e.2) ∧
    added.map (·.1) = ((t :: ts).map Tree.key).filter (· ∉ f.keys n) ∧
    g.children n = gained (f.children n) added := by
  obtain ⟨first, hfirst, hfirstKeys, hh⟩ := ht.children [] n rfl
  obtain ⟨rest, hrest, hrestKeys, hg⟩ := hts.children [] n rfl
  refine ⟨first ++ rest, ?_, ?_, ?_⟩
  · intro e he
    rcases List.mem_append.mp he with he | he
    · exact hfirst e he
    · exact Nat.le_trans ht.size_le (hrest e he)
  · have hsame : (ts.map Tree.key).filter (· ∉ h.keys n) =
        (ts.map Tree.key).filter (· ∉ f.keys n) := by
      refine List.filter_congr fun k hk => ?_
      have hne : k ≠ t.key := fun heq => hnew (heq ▸ hk)
      have hiff : k ∈ h.keys n ↔ k ∈ f.keys n ∨ k ∈ [t.key] :=
        ht.mem_keys_iff (show h.walk n [] = some n from rfl)
      simp [hiff, hne]
    have hsplit : (t :: ts).map Tree.key = [t.key] ++ ts.map Tree.key := rfl
    rw [List.map_append, hfirstKeys, hrestKeys, hsplit, List.filter_append, ← hsame]
    rfl
  · rw [hg, hh]
    exact gained_gained _ _ _

include hn

/-- First one tree, then others with other keys. -/
theorem cons : Grafted f n (t :: ts) g where
  size_le := Nat.le_trans ht.size_le hts.size_le
  wellFormed := hts.wellFormed
  kept m hm := by
    obtain ⟨hkey, hlink, hflags⟩ := ht.kept m hm
    obtain ⟨hkey', hlink', hflags'⟩ := hts.kept m (Nat.lt_of_lt_of_le hm ht.size_le)
    exact ⟨hkey'.trans hkey, hlink'.trans hlink, hflags'.trans hflags⟩
  same m hm := by
    refine (hts.same m hm).trans (ht.same m fun hmem => hm ?_)
    have hlt := lt_of_mem_lineage (Nat.lt_of_lt_of_le hn ht.size_le) hmem
    rwa [hts.lineage_eq ht.wellFormed hlt]
  value ks m hm := by
    cases ks with
    | nil => exact (hts.value [] m hm).trans (ht.value [] m hm)
    | cons k ks =>
      by_cases hk : t.key = k
      · subst hk
        obtain ⟨hwalk, hvalue, -⟩ := cons_of_eq hts hnew hm
        rw [hvalue, ht.value _ m hwalk, Tree.valueAt?_cons_self, Tree.valueAt?_cons_self]
      · rw [hts.value _ m hm, (cons_of_ne ht hts hk hm).1, Tree.valueAt?_cons_of_ne ks hk]
  children ks m hm := by
    cases ks with
    | nil =>
      cases hm
      exact cons_children_self ht hts hnew
    | cons k ks =>
      by_cases hk : t.key = k
      · subst hk
        obtain ⟨hwalk, -, hchildren⟩ := cons_of_eq hts hnew hm
        obtain ⟨added, hadded⟩ := ht.children _ m hwalk
        rw [Tree.childrenAt_cons_self] at hadded
        rw [hchildren, Tree.childrenAt_cons_self]
        exact ⟨added, hadded⟩
      · obtain ⟨added, hids, hkeys, hchildren⟩ := hts.children _ m hm
        have hsame := (cons_of_ne ht hts hk hm).2
        rw [Tree.childrenAt_cons_of_ne ks hk]
        refine ⟨added, fun e he => Nat.le_trans ht.size_le (hids e he), ?_, ?_⟩
        · rw [hkeys, keys, hsame, keys]
        · rw [hchildren, hsame]

end

end Grafted

/-! ## One tree -/

/-- The child of `n` under a key has been made sure of, and `n` sorted if it is new. -/
structure Placed (f : Forest) (n : NodeId) (k : String) (h : Forest) (c : NodeId) : Prop where
  child : h.child n k = some c
  size_le : f.size ≤ h.size
  wellFormed : h.WellFormed
  kept : ∀ m < f.size, h.node m = { f.node m with toChildren := h.children m }
  value : ∀ m, h.value m = f.value m
  /-- Elsewhere nothing has happened. -/
  same : ∀ m, m ≠ n → m ≠ c → h.node m = f.node m
  children : ∀ m, m ≠ n → h.children m = f.children m
  gains : ∃ added, (∀ e ∈ added, f.size ≤ e.2) ∧
    added.map (·.1) = [k].filter (· ∉ f.keys n) ∧ h.children n = gained (f.children n) added

section

variable {f g h : Forest} {n m c : NodeId} {k : String} {ks : List String}

theorem node_place_new (f : Forest) (n : NodeId) (k : String) (hn : n < f.size)
    (hk : f.child n k = none) (m : NodeId) : (f.place n k).1.node m =
      if m = f.size then { key := k, link := .child n }
      else if m = n then
        { f.node n with toChildren := ((f.children n).append [(k, f.size)]).sort }
      else f.node m := by
  have hadd := node_addChild f n k hn hk
  have hne : n ≠ f.size := Nat.ne_of_lt hn
  have hsize : n < (f.addChild n k).1.size := by
    rw [size_addChild]
    exact Nat.lt_succ_of_lt hn
  rw [place, hk]
  show ((f.addChild n k).1.sort n).node m = _
  rw [Forest.sort, modifyChildren, node_modify]
  by_cases hm : m = n
  · rw [if_pos ⟨hm, hsize⟩, hm, if_neg hne, if_pos rfl, hadd, if_neg hne, if_pos rfl]
  · rw [if_neg fun h => hm h.1, hadd]
    simp only [if_neg hm]

theorem place_placed (hf : f.WellFormed) (hn : n < f.size) (k : String) :
    Placed f n k (f.place n k).1 (f.place n k).2 := by
  obtain ⟨he, -, -⟩ := f.place_writes n hf.region k hn trivial
  cases hk : f.child n k with
  | some c =>
    have hplace : f.place n k = (f, c) := by rw [place, hk]
    have hmem : k ∈ f.keys n := (hf.mem_keys_iff n k).mpr ⟨c, hk⟩
    rw [hplace]
    exact ⟨hk, Nat.le_refl _, hf, fun _ _ => rfl, fun _ => rfl, fun _ _ _ => rfl,
      fun _ _ => rfl, [], by simp, by simp [hmem], (gained_nil _).symm⟩
  | none =>
    have hnode := f.node_place_new n k hn hk
    have hnew : (f.place n k).2 = f.size := by
      rw [place, hk]
      rfl
    have hmem : k ∉ f.keys n := by
      rw [hf.mem_keys_iff, hk]
      rintro ⟨c, hc⟩
      cases hc
    have hne : n ≠ f.size := Nat.ne_of_lt hn
    have hself : (f.place n k).1.children n =
        ((f.children n).append [(k, f.size)]).sort := by
      rw [Forest.children, hnode, if_neg hne, if_pos rfl]
    have hchildren : ∀ m, m ≠ n → (f.place n k).1.children m = f.children m := by
      intro m hm
      rw [Forest.children, hnode, if_neg hm]
      split
      · next h => exact (children_of_size_le f m (Nat.le_of_eq h.symm)).symm
      · rfl
    refine ⟨?_, he.size_le, he.wellFormed hf, fun m hm => ?_, fun m => ?_, fun m hm hc => ?_,
      hchildren, [(k, f.size)], by simp, by simp [hmem], hself⟩
    · unfold child at hk ⊢
      rw [hself, hnew, Children.get?_sort, Children.get?_append, hk]
      simp
    · rw [Forest.children, hnode, if_neg (Nat.ne_of_lt hm)]
      split
      · next h => rw [h]
      · rfl
    · rw [Forest.value, hnode]
      split
      · next h => exact (f.value_of_size_le m (Nat.le_of_eq h.symm)).symm
      · split
        · next h => rw [h]; rfl
        · rfl
    · rw [hnew] at hc
      rw [hnode, if_neg hc, if_neg hm]

namespace Placed

variable {v : Value} {ts : List Tree} (hp : Placed f n k h c)
variable (hg : Grafted (h.setValue c v) c ts g)

include hp

theorem value_setValue (v : Value) (m : NodeId) :
    (h.setValue c v).value m = if m = c then v else f.value m := by
  have hc := hp.wellFormed.lt_of_child hp.child
  rw [← hp.value]
  exact Forest.value_setValue h v hc m

include hg

theorem child_grafted : c ∉ g.lineage n ∧ g.child n k = some c := by
  have hchild : (h.setValue c v).child n k = some c :=
    (child_congr (children_setValue h c n v) k).trans hp.child
  have hwf : (h.setValue c v).WellFormed :=
    hp.wellFormed.modify c ({ · with value := v }) (fun _ => rfl) (fun _ => rfl) fun _ => rfl
  have hnot : c ∉ g.lineage n := by
    rw [hg.lineage_eq hwf (lt_size_of_child hchild)]
    exact hwf.not_mem_lineage_of_child hchild
  exact ⟨hnot, (child_congr (congrArg Node.toChildren (hg.same n hnot)) k).trans hchild⟩

/-- What is not below the placed child is as it was, but for the children of `n`. -/
theorem node_grafted (hm : c ∉ g.lineage m) : g.node m = h.node m := by
  have hne : m ≠ c := by
    rintro rfl
    exact hm (hg.wellFormed.lineage_trail m).head_mem
  rw [hg.same m hm, Forest.setValue, node_modify, if_neg fun hmc => hne hmc.1]

/-- Below other children nothing has happened. -/
theorem beside {k' : String} (hk : k' ≠ k) (hm : g.walk n (k' :: ks) = some m) :
    g.value m = f.value m ∧ g.children m = f.children m := by
  obtain ⟨d, hd, hwalk⟩ := (g.walk_cons_eq_some_iff n m k' ks).mp hm
  obtain ⟨-, hc⟩ := hp.child_grafted hg
  have hdm := hg.wellFormed.mem_lineage_of_walk hwalk
  have hcm : c ∉ g.lineage m := by
    intro hcm
    have hdc := hg.wellFormed.eq_of_mem_lineage hd hc hdm hcm
    refine hk ?_
    rw [← hg.wellFormed.key_of_child hd, ← hg.wellFormed.key_of_child hc, hdc]
  have hmn : m ≠ n := by
    rintro rfl
    exact hg.wellFormed.not_mem_lineage_of_child hd hdm
  have hnode := hp.node_grafted hg hcm
  rw [← hp.value, ← hp.children m hmn]
  exact ⟨congrArg Node.value hnode, congrArg Node.toChildren hnode⟩

/-- The placed child and what is below it had no more than they had before. -/
theorem below (hm : g.walk c ks = some m) :
    (h.setValue c v).children m = f.children m ∧
    (ks ≠ [] → (h.setValue c v).value m = f.value m) := by
  have hmn : m ≠ n := by
    rintro rfl
    exact (hp.child_grafted hg).1 (hg.wellFormed.mem_lineage_of_walk hm)
  refine ⟨(children_setValue h c m v).trans (hp.children m hmn), fun hks => ?_⟩
  have hmc : m ≠ c := by
    rintro rfl
    exact hks (hg.wellFormed.walk_inj hm rfl)
  rw [hp.value_setValue, if_neg hmc]

/-- To graft a tree is to place its root, give it the value and graft the children below it. -/
theorem grafted (flags : Int) : Grafted f n [.node k v flags ts] g where
  size_le := by
    refine Nat.le_trans hp.size_le (Nat.le_trans (Nat.le_of_eq ?_) hg.size_le)
    exact (h.size_setValue c v).symm
  wellFormed := hg.wellFormed
  kept m hm := by
    have hlt : m < (h.setValue c v).size := by
      rw [size_setValue]
      exact Nat.lt_of_lt_of_le hm hp.size_le
    have hfield : ∀ {α : Type} (field : Node → α), (∀ x v, field { x with value := v } = field x) →
        (∀ x l, field { x with toChildren := l } = field x) →
        field ((h.setValue c v).node m) = field (f.node m) := by
      intro α field hvalue hchildren
      rw [Forest.setValue, field_modify_of_eq field h c m _ fun x => hvalue x v, hp.kept m hm,
        hchildren]
    obtain ⟨hkey, hlink, hflags⟩ := hg.kept m hlt
    exact ⟨hkey.trans (hfield Node.key (fun _ _ => rfl) fun _ _ => rfl),
      hlink.trans (hfield Node.link (fun _ _ => rfl) fun _ _ => rfl),
      hflags.trans (hfield Node.flags (fun _ _ => rfl) fun _ _ => rfl)⟩
  same m hm := by
    obtain ⟨-, hc⟩ := hp.child_grafted hg
    have hcm : c ∉ g.lineage m := fun hcm => hm (hg.wellFormed.mem_lineage_of_child hc hcm)
    rw [hp.node_grafted hg hcm]
    refine hp.same m ?_ ?_
    · rintro rfl
      exact hm (hg.wellFormed.lineage_trail m).head_mem
    · rintro rfl
      exact hcm (hg.wellFormed.lineage_trail m).head_mem
  value ks m hm := by
    obtain ⟨hnot, hc⟩ := hp.child_grafted hg
    cases ks with
    | nil =>
      cases hm
      exact (congrArg Node.value (hp.node_grafted hg hnot)).trans (hp.value n)
    | cons k' ks =>
      by_cases hk : k' = k
      · subst hk
        obtain ⟨d, hd, hwalk⟩ := (g.walk_cons_eq_some_iff n m k' ks).mp hm
        rw [hc] at hd
        cases hd
        have hself : Tree.valueAt? [.node k' v flags ts] (k' :: ks) =
            if ks = [] then some v else Tree.valueAt? ts ks := Tree.valueAt?_cons_self ks []
        rw [hg.value ks m hwalk, hself]
        by_cases hks : ks = []
        · subst hks
          cases hwalk
          rw [if_pos rfl, hp.value_setValue, if_pos rfl]
          rfl
        · rw [if_neg hks, (hp.below hg hwalk).2 hks]
      · have hnot : k' ∉ [Tree.node k v flags ts].map Tree.key := by simpa [Tree.key] using hk
        rw [(hp.beside hg hk hm).1, Tree.valueAt?_of_not_mem ks hnot]
        rfl
  children ks m hm := by
    obtain ⟨hnot, hc⟩ := hp.child_grafted hg
    cases ks with
    | nil =>
      cases hm
      obtain ⟨added, hids, hkeys, hchildren⟩ := hp.gains
      exact ⟨added, hids, hkeys,
        (congrArg Node.toChildren (hp.node_grafted hg hnot)).trans hchildren⟩
    | cons k' ks =>
      by_cases hk : k' = k
      · subst hk
        obtain ⟨d, hd, hwalk⟩ := (g.walk_cons_eq_some_iff n m k' ks).mp hm
        rw [hc] at hd
        cases hd
        have hself : Tree.childrenAt [.node k' v flags ts] (k' :: ks) = Tree.childrenAt ts ks :=
          Tree.childrenAt_cons_self ks []
        have hbelow := (hp.below hg hwalk).1
        have hsize : f.size ≤ (h.setValue c v).size :=
          Nat.le_trans hp.size_le (Nat.le_of_eq (h.size_setValue c v).symm)
        obtain ⟨added, hids, hkeys, hchildren⟩ := hg.children ks m hwalk
        rw [keys, hbelow] at hkeys
        rw [hbelow] at hchildren
        rw [hself]
        exact ⟨added, fun e he => Nat.le_trans hsize (hids e he), hkeys, hchildren⟩
      · have hnot : k' ∉ [Tree.node k v flags ts].map Tree.key := by simpa [Tree.key] using hk
        refine ⟨[], by simp, ?_, ?_⟩
        · rw [Tree.childrenAt_of_not_mem ks hnot]
          rfl
        · rw [(hp.beside hg hk hm).2, gained_nil]

end Placed

end

/-! ## All trees -/

mutual

theorem graft_grafted {f : Forest} {n : NodeId} (hf : f.WellFormed) (hn : n < f.size) (t : Tree)
    (hd : t.Distinct) : Grafted f n [t] (f.graft n t).1 ∧
    (f.graft n t).1.child n t.key = some (f.graft n t).2 := by
  cases t with
  | node k v flags ts =>
    have hp := place_placed hf hn k
    have hc := hp.wellFormed.lt_of_child hp.child
    have hwf : ((f.place n k).1.setValue (f.place n k).2 v).WellFormed :=
      hp.wellFormed.modify _ ({ · with value := v }) (fun _ => rfl) (fun _ => rfl) fun _ => rfl
    have hlt : (f.place n k).2 < ((f.place n k).1.setValue (f.place n k).2 v).size := by
      rwa [size_setValue]
    have hg := graftAll_grafted hwf hlt ts hd.2 hd.1
    rw [graft]
    exact ⟨hp.grafted hg flags, (hp.child_grafted hg).2⟩

theorem graftAll_grafted {f : Forest} {n : NodeId} (hf : f.WellFormed) (hn : n < f.size)
    (ts : List Tree) (hd : Tree.DistinctAll ts) (hkeys : (ts.map Tree.key).Nodup) :
    Grafted f n ts (f.graftAll n ts) := by
  cases ts with
  | nil =>
    rw [graftAll]
    exact .nil hf n
  | cons t ts =>
    obtain ⟨hnew, hkeys⟩ := List.nodup_cons.mp hkeys
    obtain ⟨ht, -⟩ := graft_grafted hf hn t hd.1
    have hrest := graftAll_grafted ht.wellFormed (Nat.lt_of_lt_of_le hn ht.size_le) ts hd.2 hkeys
    rw [graftAll]
    exact .cons hn ht hrest hnew

end

end LayeredConf.Forest
