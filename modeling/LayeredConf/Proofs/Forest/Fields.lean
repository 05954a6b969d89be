import LayeredConf.Forest.Merging
import LayeredConf.Proofs.Forest.Children

/-!
# Fields of nodes

What the changes of a forest do to the key, the children and the link of every node.  A change is
described field by field, so that no later proof unfolds it.

    child_release         the child under a key after a release
    children_release      map and order after it, if they agree
    link_release          and the link of a node
    child_detach          the same for taking a node away from its parent
    child_insertChild     and for giving it a new one
    node_alloc            the nodes after a new one
-/

namespace LayeredConf.Forest

def link (f : Forest) (n : NodeId) : Link := (f.node n).link

/-! ## Links -/

theorem parent?_eq_some_iff (f : Forest) (n p : NodeId) :
    f.parent? n = some p ↔ f.link n = .child p := by
  unfold parent? link
  cases (f.node n).link <;> simp

theorem parent?_eq_none_iff (f : Forest) (n : NodeId) :
    f.parent? n = none ↔ ∀ p, f.link n ≠ .child p := by
  unfold parent? link
  cases (f.node n).link <;> simp

theorem inherited?_eq_some_iff (f : Forest) (n o : NodeId) :
    f.inherited? n = some o ↔ f.link n = .scope (some o) := by
  unfold inherited? link
  cases (f.node n).link <;> simp

theorem parent?_congr {f g : Forest} {n : NodeId} (h : g.link n = f.link n) :
    g.parent? n = f.parent? n := by
  unfold link at h
  unfold parent?
  rw [h]

/-! ## Changes of one node -/

theorem node_of_size_le (f : Forest) (n : NodeId) (h : f.size ≤ n) : f.node n = {} := by
  unfold size at h
  simp [node, Array.getD_eq_getD_getElem?, h]

theorem children_of_size_le (f : Forest) (n : NodeId) (hn : f.size ≤ n) : f.children n = {} := by
  rw [children, f.node_of_size_le n hn]

theorem node_eq_of_fields {x y : Node} (hkey : x.key = y.key) (hvalue : x.value = y.value)
    (hflags : x.flags = y.flags) (hlink : x.link = y.link)
    (hchildren : x.toChildren = y.toChildren) : x = y := by
  cases x
  cases y
  simp_all

/-- A forest is its nodes. -/
theorem ext_node {f g : Forest} (hsize : f.size = g.size) (h : ∀ n, f.node n = g.node n) :
    f = g := by
  obtain ⟨ns⟩ := f
  obtain ⟨ms⟩ := g
  refine congrArg Forest.mk (Array.ext hsize fun i hi hj => ?_)
  have hnode := h i
  simp only [node, Array.getD_eq_getD_getElem?, Array.getElem?_eq_getElem hi,
    Array.getElem?_eq_getElem hj, Option.getD_some] at hnode
  exact hnode

theorem lt_size_of_link (f : Forest) (n : NodeId) (h : f.link n ≠ .detached) : n < f.size := by
  by_cases hn : n < f.size
  · exact hn
  · rw [link, f.node_of_size_le n (Nat.not_lt.mp hn)] at h
    exact absurd rfl h

theorem lt_size_of_child {f : Forest} {n c : NodeId} {k : String} (h : f.child n k = some c) :
    n < f.size := by
  by_cases hn : n < f.size
  · exact hn
  · rw [child, children, f.node_of_size_le n (Nat.not_lt.mp hn)] at h
    cases h

@[simp] theorem size_modify (f : Forest) (n : NodeId) (g : Node → Node) :
    (f.modify n g).size = f.size := by
  simp [modify, size]

theorem node_modify (f : Forest) (n m : NodeId) (g : Node → Node) :
    (f.modify n g).node m = if m = n ∧ n < f.size then g (f.node n) else f.node m := by
  simp only [node, modify, size, Array.getD_eq_getD_getElem?, Array.getElem?_modify]
  by_cases hm : m = n
  · subst hm
    by_cases hlt : m < f.nodes.size <;> simp [hlt]
  · simp [hm, Ne.symm hm]

/-- A field after a change of one node; nothing is seen of a change where there is no node, unless
it is one of a node with the defaults. -/
theorem field_modify {α : Type} (field : Node → α) (f : Forest) (n m : NodeId) (g : Node → Node)
    (h : n < f.size ∨ field (g {}) = field {}) :
    field ((f.modify n g).node m) = if m = n then field (g (f.node n)) else field (f.node m) := by
  rw [node_modify]
  by_cases hm : m = n
  · subst hm
    by_cases hlt : m < f.size
    · rw [if_pos ⟨rfl, hlt⟩, if_pos rfl]
    · rw [if_neg (fun hc => hlt hc.2), if_pos rfl, f.node_of_size_le m (Nat.not_lt.mp hlt)]
      exact (h.resolve_left hlt).symm
  · rw [if_neg (fun hc => hm hc.1), if_neg hm]

/-- A field that a change of one node keeps. -/
theorem field_modify_of_eq {α : Type} (field : Node → α) (f : Forest) (n m : NodeId)
    (g : Node → Node) (h : ∀ x, field (g x) = field x) :
    field ((f.modify n g).node m) = field (f.node m) := by
  rw [field_modify field f n m g (Or.inr (h _)), h]
  split
  · next hm => rw [hm]
  · rfl

section

variable (f : Forest) (n m : NodeId)

@[simp] theorem key_modify_link (l : Link) :
    (f.modify n ({ · with link := l })).key m = f.key m :=
  field_modify_of_eq Node.key f n m _ fun _ => rfl

@[simp] theorem children_modify_link (l : Link) :
    (f.modify n ({ · with link := l })).children m = f.children m :=
  field_modify_of_eq Node.toChildren f n m _ fun _ => rfl

@[simp] theorem size_modifyChildren (g : Children → Children) :
    (f.modifyChildren n g).size = f.size := size_modify f n _

theorem link_modify_link (l : Link) (h : n < f.size ∨ l = .detached) :
    (f.modify n ({ · with link := l })).link m = if m = n then l else f.link m :=
  field_modify Node.link f n m _ h

@[simp] theorem key_modifyChildren (g : Children → Children) :
    (f.modifyChildren n g).key m = f.key m :=
  field_modify_of_eq Node.key f n m _ fun _ => rfl

@[simp] theorem link_modifyChildren (g : Children → Children) :
    (f.modifyChildren n g).link m = f.link m :=
  field_modify_of_eq Node.link f n m _ fun _ => rfl

theorem children_modifyChildren (g : Children → Children) (h : n < f.size ∨ g {} = {}) :
    (f.modifyChildren n g).children m =
      if m = n then g (f.children n) else f.children m :=
  field_modify Node.toChildren f n m _ h

end

/-! ## Children under keys -/

theorem child_congr {f g : Forest} {n : NodeId} (h : g.children n = f.children n) (k : String) :
    g.child n k = f.child n k := by
  unfold child
  rw [h]

theorem walk_cons_eq_some_iff (f : Forest) (n m : NodeId) (k : String) (ks : List String) :
    f.walk n (k :: ks) = some m ↔ ∃ c, f.child n k = some c ∧ f.walk c ks = some m := by
  rw [walk]
  cases f.child n k <;> simp

theorem walk_append (f : Forest) (n : NodeId) (ks ks' : List String) :
    f.walk n (ks ++ ks') = (f.walk n ks).bind fun m => f.walk m ks' := by
  induction ks generalizing n with
  | nil => rfl
  | cons k ks ih =>
    rw [List.cons_append, walk, walk]
    cases f.child n k with
    | none => rfl
    | some c => exact ih c

theorem walk_concat_eq_some_iff (f : Forest) (n m : NodeId) (ks : List String) (k : String) :
    f.walk n (ks ++ [k]) = some m ↔ ∃ p, f.walk n ks = some p ∧ f.child p k = some m := by
  rw [walk_append, Option.bind_eq_some_iff]
  refine exists_congr fun p => and_congr_right fun _ => ?_
  rw [walk_cons_eq_some_iff]
  simp [walk]

theorem walk_congr {f g : Forest} (h : ∀ n, g.children n = f.children n) (n : NodeId)
    (ks : List String) : g.walk n ks = f.walk n ks := by
  induction ks generalizing n with
  | nil => rfl
  | cons k ks ih =>
    rw [walk, walk, child_congr (h n)]
    cases f.child n k with
    | none => rfl
    | some c => exact ih c

/-! ## Releases -/

section

variable (f : Forest) (p m : NodeId) (k k' : String)

theorem size_release : (f.release p k).size = f.size := by
  unfold release
  split <;> simp

theorem key_release : (f.release p k).key m = f.key m := by
  unfold release
  split
  · rfl
  · rw [key_modify_link, key_modifyChildren]

theorem child_release :
    (f.release p k).child m k' = if m = p ∧ k' = k then none else f.child m k' := by
  unfold release
  split
  · next hnone =>
    split
    · next hk => rw [hk.1, hk.2, hnone]
    · rfl
  · unfold child
    rw [children_modify_link, children_modifyChildren _ _ _ _ (Or.inr rfl)]
    by_cases hm : m = p
    · rw [if_pos hm, Children.get?_erase, hm]
      simp
    · rw [if_neg hm, if_neg (fun hc => hm hc.1)]

/-- Map and order lose the key, if they agree on it. -/
theorem children_release (h : (f.children p).Agrees) :
    (f.release p k).children m = if m = p then (f.children p).erase k else f.children m := by
  unfold release
  split
  · next hnone =>
    split
    · next hm => rw [hm, h.erase_of_free hnone]
    · rfl
  · rw [children_modify_link, children_modifyChildren _ _ _ _ (Or.inr rfl)]

theorem link_release :
    (f.release p k).link m = if f.child p k = some m then .detached else f.link m := by
  unfold release
  split
  · next h => rw [h]; simp
  · next c h =>
    rw [link_modify_link _ _ _ _ (Or.inr rfl), link_modifyChildren, h]
    simp [eq_comm]

/-- A release changes the parent and the child. -/
theorem node_release (hm : m ≠ p) (hc : f.child p k ≠ some m) :
    (f.release p k).node m = f.node m := by
  unfold release
  split
  · rfl
  · next c h =>
    have hmc : m ≠ c := by
      rintro rfl
      exact hc h
    rw [node_modify, if_neg fun hn => hmc hn.1, modifyChildren, node_modify,
      if_neg fun hn => hm hn.1]

end

/-! ## Taking a node away from its parent -/

section

variable (f : Forest) (c m : NodeId) (k : String)

theorem size_detach : (f.detach c).size = f.size := by
  unfold detach
  split
  · exact size_release _ _ _
  · rfl

theorem key_detach : (f.detach c).key m = f.key m := by
  unfold detach
  split
  · exact key_release _ _ _ _
  · rfl

theorem child_detach :
    (f.detach c).child m k = if f.link c = .child m ∧ k = f.key c then none else f.child m k := by
  unfold detach
  split
  · next p hp =>
    rw [parent?_eq_some_iff] at hp
    rw [child_release, hp]
    simp only [Link.child.injEq, eq_comm]
  · next hnone =>
    rw [if_neg]
    rintro ⟨hl, -⟩
    rw [← parent?_eq_some_iff, hnone] at hl
    cases hl

theorem children_detach (h : ∀ p, (f.children p).Agrees) :
    (f.detach c).children m =
      if f.link c = .child m then (f.children m).erase (f.key c) else f.children m := by
  unfold detach
  split
  · next p hp =>
    rw [parent?_eq_some_iff] at hp
    rw [children_release f p m _ (h p), hp]
    by_cases hm : m = p
    · simp [hm]
    · rw [if_neg hm, if_neg (fun hc => hm (Link.child.inj hc).symm)]
  · next hnone =>
    rw [if_neg]
    intro hl
    rw [← parent?_eq_some_iff, hnone] at hl
    cases hl

end

/-! ## Giving a node a new parent -/

section

variable (f : Forest) (p c m : NodeId) (k : String)

theorem size_insertChild : (f.insertChild p c).size = f.size := by
  simp only [insertChild, size_modify, size_modifyChildren, size_release, size_detach]

theorem key_insertChild : (f.insertChild p c).key m = f.key m := by
  unfold insertChild
  rw [key_modify_link, key_modifyChildren, key_release, key_detach]

theorem child_insertChild (hp : p < f.size) :
    (f.insertChild p c).child m k =
      if m = p ∧ k = f.key c then some c
      else if f.link c = .child m ∧ k = f.key c then none else f.child m k := by
  have hp' : p < ((f.detach c).release p (f.key c)).size := by rwa [size_release, size_detach]
  have hrest (x : NodeId) := child_release (f.detach c) p x (f.key c) k
  have hold := child_detach f c m k
  unfold child at hrest hold ⊢
  unfold insertChild
  rw [children_modify_link,
    children_modifyChildren _ _ _ _ (Or.inl hp')]
  by_cases hm : m = p
  · subst hm
    rw [if_pos rfl, Children.get?_insert, hrest, hold]
    by_cases hk : k = f.key c <;> simp [hk]
  · rw [if_neg hm, hrest, hold, if_neg (fun hc : m = p ∧ _ => hm hc.1),
      if_neg (fun hc : m = p ∧ _ => hm hc.1)]

theorem children_insertChild (h : ∀ p, (f.children p).Agrees) (hp : p < f.size) :
    (f.insertChild p c).children m =
      if m = p then ((f.children p).erase (f.key c)).insert (f.key c) c
      else if f.link c = .child m then (f.children m).erase (f.key c) else f.children m := by
  have hp' : p < ((f.detach c).release p (f.key c)).size := by rwa [size_release, size_detach]
  have hdetach (x : NodeId) := children_detach f c x h
  have hagrees : ((f.detach c).children p).Agrees := by
    rw [hdetach]
    split
    · exact (h p).erase _
    · exact h p
  unfold insertChild
  rw [children_modify_link, children_modifyChildren _ _ _ _ (Or.inl hp'),
    children_release _ p p _ hagrees, children_release _ p m _ hagrees, if_pos rfl]
  by_cases hm : m = p
  · rw [if_pos hm, if_pos hm, hdetach]
    split
    · rw [((h p).erase _).erase_of_free (by simp)]
    · rfl
  · rw [if_neg hm, if_neg hm, if_neg hm, hdetach]

end

/-! ## New nodes -/

theorem size_alloc (f : Forest) (k : String) (v : Value) (l : Link) :
    (f.alloc k v l).1.size = f.size + 1 := by
  simp [alloc, size]

theorem node_alloc (f : Forest) (k : String) (v : Value) (l : Link) (m : NodeId) :
    (f.alloc k v l).1.node m =
      if m = f.size then { key := k, value := v, link := l } else f.node m := by
  simp only [node, alloc, size, Array.getD_eq_getD_getElem?, Array.getElem?_push]
  split <;> rfl

theorem node_newRoot (f : Forest) : f.newRoot.1.node f.newRoot.2 = { link := .scope none } := by
  rw [newRoot, node_alloc]
  exact if_pos rfl

/-! ## Sorting -/

theorem size_sort (f : Forest) (n : NodeId) : (f.sort n).size = f.size := size_modify _ _ _

theorem children_sort (f : Forest) (n m : NodeId) :
    (f.sort n).children m = if m = n then (f.children n).sort else f.children m := by
  refine children_modifyChildren f n m Children.sort (Or.inr ?_)
  simp [Children.sort, sortKeys]

end LayeredConf.Forest
