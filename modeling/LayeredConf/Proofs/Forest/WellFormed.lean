import LayeredConf.Proofs.Forest.Fields
import LayeredConf.Proofs.Trail

/-!
# Well-formed forests

A forest is well formed if map and order of all children agree, parents and children do, every climb
from parent to parent ends, and scopes inherit from nodes that are there.  The changes that forests
are made of keep it so: a release, a new node, a sort, a new key for a detached node, and a new
parent for a node that does not lie above it.

    WellFormed.release        f.WellFormed → (f.release p k).WellFormed
    WellFormed.insertChild    the same for `insertChild p c` when no climb from `p` passes `c`
    WellFormed.lineage_trail  `lineage` is the climb from a node
-/

namespace LayeredConf.Forest

structure WellFormed (f : Forest) : Prop where
  /-- Map and order of a node's children have the same keys, each once. -/
  agrees : ∀ n, (f.children n).Agrees
  /-- A child has the key that it is listed under and belongs to the node that lists it. -/
  linked : ∀ n k c, f.child n k = some c → f.key c = k ∧ f.link c = .child n
  /-- A node that belongs to a parent is listed by it. -/
  listed : ∀ n p, f.link n = .child p → f.child p (f.key n) = some n
  climbs : ∀ n, Ends f.parent? n
  inRange : ∀ n r, f.link n = .scope (some r) → r < f.size

namespace WellFormed

variable {f g : Forest}

/-! ## What well-formedness gives -/

/-- No key is listed twice. -/
theorem distinct (hf : f.WellFormed) (n : NodeId) : (f.keys n).Nodup := (hf.agrees n).distinct

theorem mem_keys_iff (hf : f.WellFormed) (n : NodeId) (k : String) :
    k ∈ f.keys n ↔ ∃ c, f.child n k = some c := (hf.agrees n).mem_order_iff

theorem key_of_child (hf : f.WellFormed) {n c : NodeId} {k : String} (h : f.child n k = some c) :
    f.key c = k := (hf.linked n k c h).1

theorem link_of_child (hf : f.WellFormed) {n c : NodeId} {k : String} (h : f.child n k = some c) :
    f.link c = .child n := (hf.linked n k c h).2

theorem parent_of_child (hf : f.WellFormed) {n c : NodeId} {k : String}
    (h : f.child n k = some c) : f.parent? c = some n := by
  rw [parent?_eq_some_iff]
  exact hf.link_of_child h

theorem lt_of_child (hf : f.WellFormed) {n c : NodeId} {k : String} (h : f.child n k = some c) :
    c < f.size := by
  apply lt_size_of_link
  rw [hf.link_of_child h]
  exact Link.noConfusion

theorem lt_of_parent (hf : f.WellFormed) {n p : NodeId} (h : f.link n = .child p) : p < f.size :=
  lt_size_of_child (hf.listed n p h)

theorem child_eq_some_iff (hf : f.WellFormed) (n : NodeId) (k : String) (c : NodeId) :
    f.child n k = some c ↔ (k, c) ∈ (f.children n).entries := (hf.agrees n).get?_eq_some_iff

theorem mem_childIds_iff (hf : f.WellFormed) {n c : NodeId} :
    c ∈ f.childIds n ↔ ∃ k, f.child n k = some c := (hf.agrees n).mem_nodes_iff

theorem child_of_mem_childIds (hf : f.WellFormed) {n c : NodeId} (hc : c ∈ f.childIds n) :
    f.child n (f.key c) = some c := by
  obtain ⟨k, hchild⟩ := hf.mem_childIds_iff.mp hc
  rwa [hf.key_of_child hchild]

theorem map_key_childIds (hf : f.WellFormed) (n : NodeId) :
    (f.childIds n).map f.key = f.keys n := by
  rw [childIds, keys, Children.nodes_eq, List.map_map, ← (hf.agrees n).map_fst_entries]
  exact List.map_congr_left fun e he =>
    hf.key_of_child ((hf.child_eq_some_iff n e.1 e.2).mpr he)

/-! ## Climbing -/

theorem lineage_of_trail {n : NodeId} {l : List NodeId} (h : Trail f.parent? n l) :
    f.lineage n = l := by
  have hclimb : ∀ fuel, l.length ≤ fuel + 1 → f.climb fuel n = l := by
    induction h with
    | last hn =>
      intro fuel _
      cases fuel with
      | zero => rfl
      | succ fuel => rw [climb, hn]
    | step hs ht ih =>
      intro fuel hle
      have hpos := ht.length_pos
      rw [List.length_cons] at hle
      cases fuel with
      | zero => omega
      | succ fuel =>
        rw [climb, hs]
        exact congrArg _ (ih fuel (by omega))
  refine hclimb f.size (h.length_le fun x y hxy => ?_)
  apply lt_size_of_link
  rw [(parent?_eq_some_iff f x y).mp hxy]
  exact Link.noConfusion

theorem lineage_trail (hf : f.WellFormed) (n : NodeId) : Trail f.parent? n (f.lineage n) := by
  obtain ⟨l, hl⟩ := hf.climbs n
  rwa [lineage_of_trail hl]

theorem lt_of_mem_trail (hf : f.WellFormed) {n x : NodeId} {l : List NodeId}
    (h : Trail f.parent? n l) (hn : n < f.size) (hx : x ∈ l) : x < f.size := by
  by_cases hne : x = n
  · rw [hne]
    exact hn
  · obtain ⟨y, -, hy⟩ := h.exists_before hx hne
    exact hf.lt_of_parent ((parent?_eq_some_iff f y x).mp hy)

theorem root_mem_lineage (hf : f.WellFormed) (n : NodeId) : f.root n ∈ f.lineage n := by
  unfold root
  rw [List.getLastD_eq_getLast?]
  cases hl : (f.lineage n).getLast? with
  | none => exact (hf.lineage_trail n).head_mem
  | some r => exact List.mem_of_getLast? hl

theorem root_lt (hf : f.WellFormed) {n : NodeId} (hn : n < f.size) : f.root n < f.size :=
  hf.lt_of_mem_trail (hf.lineage_trail n) hn (hf.root_mem_lineage n)

theorem lineage_of_parent (hf : f.WellFormed) {n p : NodeId} (h : f.parent? n = some p) :
    f.lineage n = n :: f.lineage p := lineage_of_trail (.step h (hf.lineage_trail p))

theorem root_of_parent (hf : f.WellFormed) {n p : NodeId} (h : f.parent? n = some p) :
    f.root n = f.root p := by
  have hp := (hf.lineage_trail p).head_mem
  unfold root
  rw [hf.lineage_of_parent h, List.getLastD_cons, List.getLastD_eq_getLast?,
    List.getLastD_eq_getLast?, List.getLast?_eq_some_getLast (List.ne_nil_of_mem hp)]
  rfl

theorem root_of_no_parent {n : NodeId} (h : f.parent? n = none) : f.root n = n := by
  unfold root
  rw [lineage_of_trail (.last h)]
  rfl

/-- A leaf lies above no other node. -/
theorem not_mem_of_leaf (hf : f.WellFormed) {n c : NodeId} {l : List NodeId}
    (h : Trail f.parent? n l) (hleaf : f.keys c = []) (hne : c ≠ n) : c ∉ l := by
  intro hc
  obtain ⟨x, -, hx⟩ := h.exists_before hc hne
  have hchild := hf.listed x c ((parent?_eq_some_iff f x c).mp hx)
  have hkey := (hf.mem_keys_iff c (f.key x)).mpr ⟨x, hchild⟩
  rw [hleaf] at hkey
  cases hkey

/-! ## Walking down -/

/-- The nodes that a walk passes come first in the lineage of the node it leads to. -/
theorem lineage_of_walk (hf : f.WellFormed) {n m : NodeId} {ks : List String}
    (h : f.walk n ks = some m) :
    ∃ l, f.lineage m = l ++ f.lineage n ∧ ks = (l.map f.key).reverse := by
  induction ks generalizing n with
  | nil =>
    cases h
    exact ⟨[], rfl, rfl⟩
  | cons k ks ih =>
    obtain ⟨c, hc, hm⟩ := (f.walk_cons_eq_some_iff n m k ks).mp h
    obtain ⟨l, hl, hks⟩ := ih hm
    refine ⟨l ++ [c], ?_, ?_⟩
    · rw [hl, hf.lineage_of_parent (hf.parent_of_child hc), List.append_assoc]
      rfl
    · rw [List.map_append, List.reverse_append, ← hks, List.map_singleton, hf.key_of_child hc]
      rfl

theorem mem_lineage_of_walk (hf : f.WellFormed) {n m : NodeId}
    {ks : List String} (h : f.walk n ks = some m) : n ∈ f.lineage m := by
  obtain ⟨l, hl, -⟩ := hf.lineage_of_walk h
  rw [hl]
  exact List.mem_append_right _ (hf.lineage_trail n).head_mem

/-- What lies below a node, a walk from it leads to. -/
theorem exists_walk_of_mem_lineage (hf : f.WellFormed) {n m : NodeId}
    (hm : n ∈ f.lineage m) : ∃ ks, f.walk n ks = some m := by
  have hup : ∀ a l, Trail f.parent? a l → n ∈ l → ∃ ks, f.walk n ks = some a := by
    intro a l hl
    induction hl with
    | last _ =>
      intro hn
      rw [List.mem_singleton.mp hn]
      exact ⟨[], rfl⟩
    | @step a b l hs _ ih =>
      intro hn
      rcases List.mem_cons.mp hn with rfl | hn
      · exact ⟨[], rfl⟩
      · obtain ⟨ks, hks⟩ := ih hn
        have hchild := hf.listed a b ((parent?_eq_some_iff f a b).mp hs)
        exact ⟨ks ++ [f.key a], (walk_concat_eq_some_iff f n a ks _).mpr ⟨b, hks, hchild⟩⟩
  exact hup m _ (hf.lineage_trail m) hm

/-- A node is reached from another one by one path of keys at most. -/
theorem walk_inj (hf : f.WellFormed) {n m : NodeId} {ks ks' : List String}
    (h : f.walk n ks = some m) (h' : f.walk n ks' = some m) : ks = ks' := by
  obtain ⟨l, hl, rfl⟩ := hf.lineage_of_walk h
  obtain ⟨l', hl', rfl⟩ := hf.lineage_of_walk h'
  rw [hl] at hl'
  rw [List.append_cancel_right hl']

theorem lt_of_walk (hf : f.WellFormed) {n m : NodeId} {ks : List String} (hn : n < f.size)
    (h : f.walk n ks = some m) : m < f.size := by
  induction ks generalizing n with
  | nil =>
    cases h
    exact hn
  | cons k ks ih =>
    obtain ⟨c, hc, hm⟩ := (f.walk_cons_eq_some_iff n m k ks).mp h
    exact ih (hf.lt_of_child hc) hm

theorem root_of_walk (hf : f.WellFormed) {n m : NodeId} {ks : List String}
    (h : f.walk n ks = some m) : f.root m = f.root n := by
  induction ks generalizing n with
  | nil =>
    cases h
    rfl
  | cons k ks ih =>
    obtain ⟨c, hc, hm⟩ := (f.walk_cons_eq_some_iff n m k ks).mp h
    rw [ih hm, hf.root_of_parent (hf.parent_of_child hc)]

theorem root_of_mem_lineage (hf : f.WellFormed) {n x : NodeId} (hx : x ∈ f.lineage n) :
    f.root x = f.root n := by
  have hup : ∀ a l, Trail f.parent? a l → x ∈ l → f.root x = f.root a := by
    intro a l hl
    induction hl with
    | last _ =>
      intro hx
      rw [List.mem_singleton.mp hx]
    | step hs _ ih =>
      intro hx
      rcases List.mem_cons.mp hx with rfl | hx
      · rfl
      · rw [hf.root_of_parent hs, ih hx]
  exact hup n _ (hf.lineage_trail n) hx

/-- The keys of a lineage lead back from the root to the node. -/
theorem walk_lineage (hf : f.WellFormed) (n : NodeId) :
    f.walk (f.root n) ((f.lineage n).dropLast.map f.key).reverse = some n := by
  have hdown : ∀ a l, Trail f.parent? a l →
      f.walk (l.getLastD a) (l.dropLast.map f.key).reverse = some a := by
    intro a l hl
    induction hl with
    | last _ => rfl
    | @step a b l hs ht ih =>
      have hne : l ≠ [] := List.ne_nil_of_length_pos ht.length_pos
      have hlast : (a :: l).getLastD a = l.getLastD b := by
        rw [List.getLastD_cons, List.getLastD_eq_getLast?, List.getLastD_eq_getLast?,
          List.getLast?_eq_some_getLast hne]
        rfl
      rw [List.dropLast_cons_of_ne_nil hne, List.map_cons, List.reverse_cons, hlast, walk_append,
        ih, Option.bind_some, walk, hf.listed a b ((parent?_eq_some_iff f a b).mp hs)]
      rfl
  exact hdown n _ (hf.lineage_trail n)

/-! ## Changes that keep keys, links and children -/

theorem congr (hf : f.WellFormed) (hagrees : ∀ n, (g.children n).Agrees)
    (hchild : ∀ n k, g.child n k = f.child n k) (hkey : ∀ n, g.key n = f.key n)
    (hlink : ∀ n, g.link n = f.link n) (hsize : f.size ≤ g.size) : g.WellFormed where
  agrees := hagrees
  linked n k c h := by
    rw [hchild] at h
    rw [hkey, hlink]
    exact hf.linked n k c h
  listed n p h := by
    rw [hlink] at h
    rw [hchild, hkey]
    exact hf.listed n p h
  climbs n := (hf.climbs n).mono fun x => Or.inl (parent?_congr (hlink x))
  inRange n r h := by
    rw [hlink] at h
    exact Nat.lt_of_lt_of_le (hf.inRange n r h) hsize

/-- A change of values or flags. -/
theorem modify (hf : f.WellFormed) (n : NodeId) (g : Node → Node)
    (hkey : ∀ x, (g x).key = x.key) (hlink : ∀ x, (g x).link = x.link)
    (hchildren : ∀ x, (g x).toChildren = x.toChildren) : (f.modify n g).WellFormed := by
  have hc (m : NodeId) : (f.modify n g).children m = f.children m :=
    field_modify_of_eq Node.toChildren f n m g hchildren
  refine hf.congr (fun m => ?_) (fun m => child_congr (hc m))
    (fun m => field_modify_of_eq Node.key f n m g hkey)
    (fun m => field_modify_of_eq Node.link f n m g hlink) (Nat.le_of_eq (size_modify _ _ _).symm)
  rw [hc]
  exact hf.agrees m

theorem sort (hf : f.WellFormed) (n : NodeId) : (f.sort n).WellFormed := by
  refine hf.congr (fun m => ?_) (fun m k => ?_) (fun m => key_modifyChildren f n m _)
    (fun m => link_modifyChildren f n m _) (Nat.le_of_eq (size_sort _ _).symm)
  · rw [children_sort]
    split
    · exact (hf.agrees n).sort
    · exact hf.agrees m
  · unfold child
    rw [children_sort]
    split
    · next hm => rw [hm, Children.get?_sort]
    · rfl

/-! ## Releases -/

theorem release (hf : f.WellFormed) (p : NodeId) (k : String) : (f.release p k).WellFormed where
  agrees n := by
    rw [children_release _ _ _ _ (hf.agrees p)]
    split
    · exact (hf.agrees p).erase k
    · exact hf.agrees n
  linked n k' c h := by
    rw [child_release] at h
    split at h
    · cases h
    · next hn =>
      obtain ⟨hk, hl⟩ := hf.linked n k' c h
      refine ⟨by rw [key_release, hk], ?_⟩
      rw [link_release, if_neg, hl]
      intro hc
      obtain ⟨hk', hl'⟩ := hf.linked p k c hc
      rw [hl] at hl'
      exact hn ⟨Link.child.inj hl', hk.symm.trans hk'⟩
  listed n q h := by
    rw [link_release] at h
    split at h
    · cases h
    · next hn =>
      have hc := hf.listed n q h
      rw [key_release, child_release, if_neg, hc]
      rintro ⟨rfl, hk⟩
      rw [hk] at hc
      exact hn hc
  climbs n := by
    refine (hf.climbs n).mono fun x => ?_
    by_cases hx : f.child p k = some x
    · right
      rw [parent?_eq_none_iff, link_release, if_pos hx]
      exact fun _ => Link.noConfusion
    · exact Or.inl (parent?_congr (by rw [link_release, if_neg hx]))
  inRange n r h := by
    rw [link_release] at h
    split at h
    · cases h
    · rw [size_release]
      exact hf.inRange n r h

theorem detach (hf : f.WellFormed) (n : NodeId) : (f.detach n).WellFormed := by
  unfold Forest.detach
  split
  · exact hf.release _ _
  · exact hf

/-! ## New nodes -/

/-- A new node is no child and inherits from a node that is there, if from any. -/
theorem alloc (hf : f.WellFormed) (k : String) (v : Value) (l : Link) (hl : ∀ p, l ≠ .child p)
    (hr : ∀ r, l = .scope (some r) → r < f.size) : (f.alloc k v l).1.WellFormed where
  agrees n := by
    unfold children
    rw [node_alloc]
    split
    · exact Children.agrees_empty
    · exact hf.agrees n
  linked n k' c h := by
    unfold child children at h
    rw [node_alloc] at h
    split at h
    · cases h
    · have hne : c ≠ f.size := Nat.ne_of_lt (hf.lt_of_child h)
      unfold key link
      rw [node_alloc, if_neg hne]
      exact hf.linked n k' c h
  listed n p h := by
    unfold link at h
    rw [node_alloc] at h
    split at h
    · exact absurd h (hl p)
    · next hn =>
      have hne : p ≠ f.size := Nat.ne_of_lt (hf.lt_of_parent h)
      unfold child children key
      rw [node_alloc, node_alloc, if_neg hne, if_neg hn]
      exact hf.listed n p h
  climbs n := by
    refine (hf.climbs n).mono fun x => ?_
    by_cases hx : x = f.size
    · right
      rw [parent?_eq_none_iff]
      intro p
      unfold link
      rw [node_alloc, if_pos hx]
      exact hl p
    · left
      apply parent?_congr
      unfold link
      rw [node_alloc, if_neg hx]
  inRange n r h := by
    rw [size_alloc]
    apply Nat.lt_succ_of_lt
    unfold link at h
    rw [node_alloc] at h
    split at h
    · exact hr r h
    · exact hf.inRange n r h

theorem newNode (hf : f.WellFormed) (k : String) (v : Value) : (f.newNode k v).1.WellFormed :=
  hf.alloc k v .detached (fun _ => Link.noConfusion) (fun _ => Link.noConfusion)

/-! ## Giving a node a new parent -/

theorem link_detach_of_ne (hf : f.WellFormed) {c m : NodeId} (h : m ≠ c) :
    (f.detach c).link m = f.link m := by
  unfold Forest.detach
  split
  · next p hp =>
    rw [parent?_eq_some_iff] at hp
    rw [link_release, hf.listed c p hp, if_neg]
    exact fun he => h (Option.some.inj he).symm
  · rfl

/-- A node that moves changes itself, its old and its new parent, and the node that it displaces. -/
theorem node_insertChild (hf : f.WellFormed) {p c m : NodeId} (hp : m ≠ p) (hc : m ≠ c)
    (hold : f.link c ≠ .child m) (hdis : f.child p (f.key c) ≠ some m) :
    (f.insertChild p c).node m = f.node m := by
  have hdetach : (f.detach c).node m = f.node m := by
    unfold Forest.detach
    split
    · next q hq =>
      have hl := (parent?_eq_some_iff f c q).mp hq
      refine node_release f q m _ ?_ ?_
      · rintro rfl
        exact hold hl
      · rw [hf.listed c q hl]
        exact fun he => hc (Option.some.inj he).symm
    · rfl
  unfold Forest.insertChild
  rw [node_modify, if_neg fun h => hc h.1, modifyChildren, node_modify, if_neg fun h => hp h.1,
    node_release _ _ _ _ hp, hdetach]
  rw [child_detach]
  split
  · exact (Option.some_ne_none m).symm
  · exact hdis

theorem link_insertChild (hf : f.WellFormed) (p c m : NodeId) (hc : c < f.size) :
    (f.insertChild p c).link m =
      if m = c then .child p
      else if f.child p (f.key c) = some m then .detached else f.link m := by
  have hc' : c < ((f.detach c).release p (f.key c)).size := by rwa [size_release, size_detach]
  unfold Forest.insertChild
  rw [link_modify_link _ _ _ _ (Or.inl (by rwa [size_modifyChildren])),
    link_modifyChildren]
  by_cases hm : m = c
  · rw [if_pos hm, if_pos hm]
  · rw [if_neg hm, if_neg hm, link_release, child_detach, hf.link_detach_of_ne hm]
    by_cases hl : f.link c = .child p
    · -- the parent lists `c` itself under this key
      simp [hl, hf.listed c p hl, Ne.symm hm]
    · rw [if_neg (fun hc : f.link c = _ ∧ _ => hl hc.1)]

theorem insertChild (hf : f.WellFormed) (p c : NodeId) (hp : p < f.size) (hc : c < f.size)
    (hup : ∀ l, Trail f.parent? p l → c ∉ l) : (f.insertChild p c).WellFormed where
  agrees n := by
    rw [children_insertChild f p c n hf.agrees hp]
    split
    · -- the key is free when the node is inserted under it
      exact ((hf.agrees p).erase _).insert (by simp) c
    · split
      · exact (hf.agrees n).erase _
      · exact hf.agrees n
  linked n k d h := by
    rw [key_insertChild, hf.link_insertChild p c d hc]
    rw [child_insertChild f p c n k hp] at h
    split at h
    · next hn =>
      obtain rfl := Option.some.inj h
      exact ⟨hn.2.symm, by rw [if_pos rfl, hn.1]⟩
    · next hn =>
      split at h
      · cases h
      · next hl =>
        obtain ⟨hk, hd⟩ := hf.linked n k d h
        refine ⟨hk, ?_⟩
        -- `d` is neither the node that moves nor the one that it displaces
        rw [if_neg (by rintro rfl; exact hl ⟨hd, hk.symm⟩), if_neg, hd]
        intro hdis
        obtain ⟨hk', hd'⟩ := hf.linked p _ d hdis
        rw [hd] at hd'
        exact hn ⟨Link.child.inj hd', hk.symm.trans hk'⟩
  listed n q h := by
    rw [hf.link_insertChild p c n hc] at h
    rw [key_insertChild, child_insertChild f p c q _ hp]
    split at h
    · next hn =>
      rw [if_pos ⟨(Link.child.inj h).symm, by rw [hn]⟩, hn]
    · next hn =>
      split at h
      · cases h
      · next hdis =>
        have hlist := hf.listed n q h
        rw [if_neg, if_neg, hlist]
        · rintro ⟨hq, hk⟩
          have hc := hf.listed c q hq
          rw [← hk, hlist] at hc
          exact hn (Option.some.inj hc)
        · rintro ⟨rfl, hk⟩
          rw [← hk] at hdis
          exact hdis hlist
  climbs n := by
    obtain ⟨l, hl⟩ := hf.climbs p
    refine Ends.redirect hl (hup l hl) (fun x hx => ?_) ?_ (hf.climbs n)
    · by_cases hd : f.child p (f.key c) = some x
      · right
        rw [← Option.not_isSome_iff_eq_none, Option.isSome_iff_exists]
        rintro ⟨q, hq⟩
        rw [parent?_eq_some_iff, hf.link_insertChild p c x hc, if_neg hx, if_pos hd] at hq
        cases hq
      · left
        apply parent?_congr
        rw [hf.link_insertChild p c x hc, if_neg hx, if_neg hd]
    · rw [parent?_eq_some_iff, hf.link_insertChild p c c hc, if_pos rfl]
  inRange n r h := by
    rw [size_insertChild]
    rw [hf.link_insertChild p c n hc] at h
    split at h
    · cases h
    · split at h
      · cases h
      · exact hf.inRange n r h

/-- A new child. -/
theorem addChild (hf : f.WellFormed) (n : NodeId) (k : String) (hn : n < f.size) :
    (f.addChild n k).1.WellFormed := by
  have hnew := hf.newNode k .unset
  have hsize : (f.newNode k .unset).1.size = f.size + 1 := size_alloc _ _ _ _
  refine hnew.insertChild n f.size (by rw [hsize]; exact Nat.lt_succ_of_lt hn)
    (by rw [hsize]; exact Nat.lt_succ_self _) fun l hl => ?_
  refine hnew.not_mem_of_leaf hl ?_ (Nat.ne_of_gt hn)
  unfold Forest.newNode keys children
  rw [node_alloc, if_pos rfl]

/-! ## Giving a node a new key -/

/-- The key of a node that is no child is nobody's business. -/
theorem setKey (hf : f.WellFormed) (n : NodeId) (k : String) (hn : f.link n = .detached) :
    (f.modify n ({ · with key := k })).WellFormed := by
  have hlink (m : NodeId) : (f.modify n ({ · with key := k })).link m = f.link m :=
    field_modify_of_eq Node.link f n m _ fun _ => rfl
  have hchildren (m : NodeId) : (f.modify n ({ · with key := k })).children m = f.children m :=
    field_modify_of_eq Node.toChildren f n m _ fun _ => rfl
  have hkey (m p : NodeId) (h : f.link m = .child p) :
      (f.modify n ({ · with key := k })).key m = f.key m := by
    unfold key
    rw [node_modify, if_neg]
    rintro ⟨rfl, -⟩
    rw [hn] at h
    cases h
  refine ⟨fun m => ?_, fun m k' c h => ?_, fun m p h => ?_, fun m => ?_, fun m r h => ?_⟩
  · rw [hchildren]
    exact hf.agrees m
  · rw [child_congr (hchildren m)] at h
    obtain ⟨hk, hl⟩ := hf.linked m k' c h
    exact ⟨(hkey c m hl).trans hk, (hlink c).trans hl⟩
  · rw [hlink] at h
    rw [child_congr (hchildren p), hkey m p h]
    exact hf.listed m p h
  · exact (hf.climbs m).mono fun x => Or.inl (parent?_congr (hlink x))
  · rw [hlink] at h
    rw [size_modify]
    exact hf.inRange m r h

/-- A child on its way to a new key is nobody's child. -/
theorem link_release_setKey (hf : f.WellFormed) {n p : NodeId} (h : f.link n = .child p)
    (k : String) (m : NodeId) :
    ((f.release p (f.key n)).modify n ({ · with key := k })).link m =
      if m = n then .detached else f.link m := by
  refine (field_modify_of_eq Node.link (f.release p (f.key n)) n m ({ · with key := k })
    fun _ => rfl).trans ?_
  refine (link_release f p m (f.key n)).trans ?_
  rw [hf.listed n p h]
  simp only [Option.some.injEq, eq_comm]

theorem release_setKey (hf : f.WellFormed) {n p : NodeId} (h : f.link n = .child p) (k : String) :
    ((f.release p (f.key n)).modify n ({ · with key := k })).WellFormed := by
  refine (hf.release p (f.key n)).setKey n k ?_
  rw [link_release, hf.listed n p h, if_pos rfl]

theorem rekey (hf : f.WellFormed) (n : NodeId) (k : String) : (f.rekey n k).WellFormed := by
  unfold Forest.rekey
  split
  · next p hp =>
    have hl := (parent?_eq_some_iff f n p).mp hp
    refine (hf.release_setKey hl k).insertChild p n ?_ ?_ fun l ht hm => ?_
    · rw [size_modify, size_release]
      exact hf.lt_of_parent hl
    · rw [size_modify, size_release]
      exact hf.lt_of_child (hf.listed n p hl)
    · -- the climb from the old parent did not pass the node, and is the same now
      obtain ⟨l', hl'⟩ := hf.climbs p
      have hn := hl'.not_mem_of_next hp
      have hsame : Trail ((f.release p (f.key n)).modify n ({ · with key := k })).parent? p l' := by
        refine hl'.congr fun x hx => parent?_congr ?_
        rw [hf.link_release_setKey hl, if_neg]
        rintro rfl
        exact hn hx
      rw [ht.unique hsame] at hm
      exact hn hm
  · exact hf

end WellFormed

end LayeredConf.Forest
