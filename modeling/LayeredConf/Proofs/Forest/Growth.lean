import LayeredConf.Proofs.Forest.Edits

/-!
# Growth

Writing at a path takes nothing away.  The nodes that are there keep their places, and children
come after those they have; the new nodes lie on the path and are unset until the last of them gets
its value.

    Grows f g             `g` is `f` with more children and new, unset nodes
    ensurePath_grows      to make sure of a path lets a forest grow
    ensurePath_walk       the path then leads to the node
    ensurePath_new        and every new node lies on it
    valueAt?_setPath      what a write does to the values at all paths
-/

namespace LayeredConf.Forest

/-- All that was there is there; what is new is unset. -/
structure Grows (f g : Forest) : Prop where
  size_le : f.size ≤ g.size
  kept : ∀ n < f.size, ∃ added,
    g.node n = { f.node n with toChildren := (f.children n).append added }
  unset : ∀ n, f.size ≤ n → g.value n = .unset

/-! ## What growth keeps -/

section

variable {f g h : Forest} {n m c : NodeId} {k : String} {ks : List String}

theorem value_of_size_le (f : Forest) (n : NodeId) (hn : f.size ≤ n) : f.value n = .unset := by
  rw [value, f.node_of_size_le n hn]

theorem Grows.refl (f : Forest) : Grows f f where
  size_le := Nat.le_refl _
  kept n _ := ⟨[], by rw [Children.append_nil]; rfl⟩
  unset := f.value_of_size_le

theorem Grows.trans (hg : Grows f g) (hh : Grows g h) : Grows f h where
  size_le := Nat.le_trans hg.size_le hh.size_le
  kept n hn := by
    obtain ⟨added, hnode⟩ := hg.kept n hn
    obtain ⟨added', hnode'⟩ := hh.kept n (Nat.lt_of_lt_of_le hn hg.size_le)
    refine ⟨added ++ added', ?_⟩
    rw [hnode', children, hnode, Children.append_append]
  unset n hn := by
    by_cases hlt : n < g.size
    · obtain ⟨added, hnode⟩ := hh.kept n hlt
      rw [value, hnode]
      exact hg.unset n hn
    · exact hh.unset n (Nat.not_lt.mp hlt)

/-- Of the nodes that were there only the children differ. -/
theorem Grows.field {α : Type} (hg : Grows f g) (hn : n < f.size) (field : Node → α)
    (h : ∀ x toChildren, field { x with toChildren } = field x) :
    field (g.node n) = field (f.node n) := by
  obtain ⟨added, hnode⟩ := hg.kept n hn
  rw [hnode]
  exact h _ _

theorem Grows.value (hg : Grows f g) (hn : n < f.size) : g.value n = f.value n :=
  hg.field hn Node.value fun _ _ => rfl

theorem Grows.key (hg : Grows f g) (hn : n < f.size) : g.key n = f.key n :=
  hg.field hn Node.key fun _ _ => rfl

theorem Grows.link (hg : Grows f g) (hn : n < f.size) : g.link n = f.link n :=
  hg.field hn Node.link fun _ _ => rfl

theorem Grows.child (hg : Grows f g) (hc : f.child n k = some c) : g.child n k = some c := by
  obtain ⟨added, hnode⟩ := hg.kept n (lt_size_of_child hc)
  rw [Forest.child, children, hnode, Children.get?_append]
  unfold Forest.child at hc
  rw [hc]
  rfl

theorem Grows.walk (hg : Grows f g) (hm : f.walk n ks = some m) : g.walk n ks = some m := by
  induction ks generalizing n with
  | nil => exact hm
  | cons k ks ih =>
    obtain ⟨c, hc, hm⟩ := (f.walk_cons_eq_some_iff n m k ks).mp hm
    exact (g.walk_cons_eq_some_iff n m k ks).mpr ⟨c, hg.child hc, ih hm⟩

variable (hf : f.WellFormed) (hwf : g.WellFormed)

include hf hwf

/-- A node that was there has the parent that it had. -/
theorem Grows.child_of_lt (hg : Grows f g) (hc : g.child n k = some c) (hlt : c < f.size) :
    f.child n k = some c := by
  have hkey := (hg.key hlt).symm.trans (hwf.key_of_child hc)
  have hlink := (hg.link hlt).symm.trans (hwf.link_of_child hc)
  rw [← hkey]
  exact hf.listed c n hlink

/-- So no new way leads to it. -/
theorem Grows.walk_of_lt (hg : Grows f g) (hm : g.walk n ks = some m) (hlt : m < f.size) :
    f.walk n ks = some m := by
  suffices hn : f.walk n ks = some m ∧ n < f.size from hn.1
  induction ks generalizing n with
  | nil =>
    cases hm
    exact ⟨rfl, hlt⟩
  | cons k ks ih =>
    obtain ⟨c, hc, hm⟩ := (g.walk_cons_eq_some_iff n m k ks).mp hm
    obtain ⟨hwalk, hclt⟩ := ih hm
    have hchild := hg.child_of_lt hf hwf hc hclt
    exact ⟨(f.walk_cons_eq_some_iff n m k ks).mpr ⟨c, hchild, hwalk⟩, lt_size_of_child hchild⟩

end

/-! ## Making sure of a path -/

section

variable (f : Forest) (n : NodeId)

theorem node_addChild (k : String) (hn : n < f.size) (hk : f.child n k = none) (m : NodeId) :
    (f.addChild n k).1.node m =
      if m = f.size then { key := k, link := .child n }
      else if m = n then { f.node n with toChildren := (f.children n).append [(k, f.size)] }
      else f.node m := by
  have hnew : ∀ x, (f.newNode k .unset).1.node x =
    if x = f.size then { key := k } else f.node x := f.node_alloc k .unset .detached
  have hne : n ≠ f.size := Nat.ne_of_lt hn
  -- the new node has no parent to leave and takes no child's place
  have hdetach : (f.newNode k .unset).1.detach f.size = (f.newNode k .unset).1 := by
    rw [detach, parent?, hnew, if_pos rfl]
  have hrelease : (f.newNode k .unset).1.release n k = (f.newNode k .unset).1 := by
    rw [release, child, children, hnew, if_neg hne]
    unfold child children at hk
    rw [hk]
  have hkey : (f.newNode k .unset).1.key f.size = k := by rw [key, hnew, if_pos rfl]
  have hsize : (f.newNode k .unset).1.size = f.size + 1 := size_alloc _ _ _ _
  rw [addChild]
  show ((f.newNode k .unset).1.insertChild n f.size).node m = _
  rw [insertChild, hkey, hdetach, hrelease, modifyChildren, node_modify, node_modify, node_modify,
    size_modify, hsize]
  by_cases hm : m = f.size
  · rw [if_pos hm, if_pos ⟨hm, Nat.lt_succ_self _⟩, if_neg fun h => hne h.1.symm, hnew, if_pos rfl]
  · rw [if_neg hm, if_neg fun h => hm h.1]
    by_cases hmn : m = n
    · rw [if_pos hmn, if_pos ⟨hmn, Nat.lt_succ_of_lt hn⟩, hnew, if_neg hne]
      show { f.node n with toChildren := (f.children n).insert k f.size } = _
      rw [Children.insert_of_free hk]
    · rw [if_neg hmn, if_neg fun h => hmn h.1, hnew, if_neg hm]

theorem addChild_grows (k : String) (hn : n < f.size) (hk : f.child n k = none) :
    Grows f (f.addChild n k).1 where
  size_le := by
    rw [size_addChild]
    exact Nat.le_succ _
  kept m hm := by
    rw [node_addChild f n k hn hk, if_neg (Nat.ne_of_lt hm)]
    split
    · next h =>
      rw [h]
      exact ⟨_, rfl⟩
    · exact ⟨[], by rw [Children.append_nil]; rfl⟩
  unset m hm := by
    rw [value, node_addChild f n k hn hk]
    split
    · rfl
    · rw [if_neg (Nat.ne_of_gt (Nat.lt_of_lt_of_le hn hm))]
      exact f.value_of_size_le m hm

theorem ensureChild_grows (k : String) (hn : n < f.size) : Grows f (f.ensureChild n k).1 := by
  unfold ensureChild
  split
  · exact .refl f
  · next hk => exact f.addChild_grows n k hn hk

theorem child_ensureChild (k : String) (hn : n < f.size) :
    (f.ensureChild n k).1.child n k = some (f.ensureChild n k).2 := by
  unfold ensureChild
  split
  · next c hc => exact hc
  · next hk =>
    rw [child, children, node_addChild f n k hn hk, if_neg (Nat.ne_of_lt hn), if_pos rfl,
      Children.get?_append]
    unfold child at hk
    rw [hk, Option.none_or, List.lookup_cons, beq_self_eq_true]
    rfl

theorem eq_of_ensureChild (k : String) {x : NodeId} (hx : f.size ≤ x)
    (hlt : x < (f.ensureChild n k).1.size) : x = (f.ensureChild n k).2 := by
  unfold ensureChild at hlt ⊢
  split at hlt
  · exact absurd hlt (Nat.not_lt.mpr hx)
  · rw [size_addChild] at hlt
    exact Nat.le_antisymm (Nat.le_of_lt_succ hlt) hx

variable {f n} (hf : f.WellFormed) (hn : n < f.size)

include hf hn

theorem ensurePath_grows (path : List String) : Grows f (f.ensurePath n path).1 := by
  induction path generalizing f n with
  | nil => exact .refl f
  | cons k ks ih =>
    obtain ⟨he, hc, -⟩ := f.ensureChild_writes n hf.region k hn trivial
    exact (f.ensureChild_grows n k hn).trans (ih (he.wellFormed hf) hc)

theorem ensurePath_walk (path : List String) :
    (f.ensurePath n path).1.walk n path = some (f.ensurePath n path).2 := by
  induction path generalizing f n with
  | nil => rfl
  | cons k ks ih =>
    obtain ⟨he, hc, -⟩ := f.ensureChild_writes n hf.region k hn trivial
    have hgrows := ensurePath_grows (he.wellFormed hf) hc ks
    exact (walk_cons_eq_some_iff _ n _ k ks).mpr
      ⟨_, hgrows.child (f.child_ensureChild n k hn), ih (he.wellFormed hf) hc⟩

theorem ensurePath_new (path : List String) {x : NodeId} (hx : f.size ≤ x)
    (hlt : x < (f.ensurePath n path).1.size) :
    ∃ ks, ks <+: path ∧ (f.ensurePath n path).1.walk n ks = some x := by
  induction path generalizing f n with
  | nil => exact absurd hlt (Nat.not_lt.mpr hx)
  | cons k ks ih =>
    obtain ⟨he, hc, -⟩ := f.ensureChild_writes n hf.region k hn trivial
    have hgrows := ensurePath_grows (he.wellFormed hf) hc ks
    have hchild := hgrows.child (f.child_ensureChild n k hn)
    by_cases hfirst : x < (f.ensureChild n k).1.size
    · refine ⟨[k], ⟨ks, rfl⟩, (walk_cons_eq_some_iff _ n x k []).mpr ⟨_, hchild, ?_⟩⟩
      rw [f.eq_of_ensureChild n k hx hfirst]
      rfl
    · obtain ⟨ks', hstart, hwalk⟩ := ih (he.wellFormed hf) hc (Nat.not_lt.mp hfirst) hlt
      exact ⟨k :: ks', List.cons_prefix_cons.mpr ⟨rfl, hstart⟩,
        (walk_cons_eq_some_iff _ n x k ks').mpr ⟨_, hchild, hwalk⟩⟩

end

/-! ## Values at paths -/

/-- The value of the node that a path of children leads to. -/
def valueAt? (f : Forest) (n : NodeId) (path : List String) : Option Value :=
  (f.walk n path).map f.value

theorem size_setValue (f : Forest) (n : NodeId) (v : Value) : (f.setValue n v).size = f.size :=
  size_modify f n _

theorem key_setValue (f : Forest) (n m : NodeId) (v : Value) :
    (f.setValue n v).key m = f.key m :=
  field_modify_of_eq Node.key f n m ({ · with value := v }) fun _ => rfl

theorem children_setValue (f : Forest) (n m : NodeId) (v : Value) :
    (f.setValue n v).children m = f.children m :=
  field_modify_of_eq Node.toChildren f n m ({ · with value := v }) fun _ => rfl

theorem value_setValue (f : Forest) {n : NodeId} (v : Value) (hn : n < f.size) (m : NodeId) :
    (f.setValue n v).value m = if m = n then v else f.value m :=
  field_modify Node.value f n m ({ · with value := v }) (Or.inl hn)

theorem link_assign (f : Forest) (n m : NodeId) (v : Value) : (f.assign n v).link m = f.link m := by
  unfold assign
  split
  · rfl
  · exact field_modify_of_eq Node.link f n m ({ · with value := v }) fun _ => rfl

section

variable {f : Forest} {n : NodeId} (hf : f.WellFormed) (hn : n < f.size)

include hf hn

theorem link_setAll (args : Assignments) {m : NodeId} (hm : m < f.size) :
    (f.setAll n args).link m = f.link m := by
  induction args generalizing f with
  | nil => rfl
  | cons e args ih =>
    obtain ⟨he, -⟩ := f.setPath_writes n hf.region (dottedKeys e.1) e.2 hn trivial
    have hstep : (f.setDotted n e.1 e.2).1.link m = f.link m :=
      (link_assign _ _ m e.2).trans ((ensurePath_grows hf hn (dottedKeys e.1)).link hm)
    exact (ih (he.wellFormed hf) (Nat.lt_of_lt_of_le hn he.size_le)
      (Nat.lt_of_lt_of_le hm he.size_le)).trans hstep

/-- The nodes on the way to a path are there; those that were not are unset. -/
theorem valueAt?_ensurePath (path p : List String) :
    (f.ensurePath n path).1.valueAt? n p =
      (f.valueAt? n p).or (if p <+: path then some .unset else none) := by
  have hgrows := ensurePath_grows hf hn path
  have hwf := (f.ensurePath_writes n hf.region path hn trivial).1.wellFormed hf
  unfold valueAt?
  cases hold : f.walk n p with
  | some m =>
    rw [hgrows.walk hold, Option.map_some, Option.map_some, hgrows.value (hf.lt_of_walk hn hold)]
    rfl
  | none =>
    -- what a path leads to only now is new
    have hnew : ∀ x, (f.ensurePath n path).1.walk n p = some x → f.size ≤ x := by
      refine fun x hx => Nat.not_lt.mp fun hlt => ?_
      rw [hgrows.walk_of_lt hf hwf hx hlt] at hold
      cases hold
    rw [Option.map_none, Option.none_or]
    split
    · next hp =>
      obtain ⟨rest, rfl⟩ := hp
      have hwalk := ensurePath_walk hf hn (p ++ rest)
      rw [walk_append] at hwalk
      obtain ⟨x, hx, -⟩ := Option.bind_eq_some_iff.mp hwalk
      rw [hx, Option.map_some, hgrows.unset x (hnew x hx)]
    · next hp =>
      refine Option.map_eq_none_iff.mpr (Option.eq_none_iff_forall_ne_some.mpr fun x hx => hp ?_)
      have hlt := hwf.lt_of_walk (Nat.lt_of_lt_of_le hn hgrows.size_le) hx
      obtain ⟨ks, hstart, hks⟩ := ensurePath_new hf hn path (hnew x hx) hlt
      rwa [hwf.walk_inj hx hks]

/-- A write gives the path its value, if it is set, and makes sure of the nodes on the way. -/
theorem valueAt?_setPath (path : List String) (v : Value) (p : List String) :
    (f.setPath n path v).1.valueAt? n p =
      if p = path ∧ v.isUnset = false then some v
      else (f.valueAt? n p).or (if p <+: path then some .unset else none) := by
  obtain ⟨he, hm, -⟩ := f.ensurePath_writes n hf.region path hn trivial
  have hwf := he.wellFormed hf
  have hensure := valueAt?_ensurePath hf hn path p
  have hpath := ensurePath_walk hf hn path
  unfold setPath assign
  generalize f.ensurePath n path = r at hm hwf hensure hpath ⊢
  obtain ⟨g, m⟩ := r
  dsimp only at hm hwf hensure hpath ⊢
  cases hv : v.isUnset with
  | true => rw [if_pos rfl, if_neg fun h => Bool.noConfusion h.2, hensure]
  | false =>
    have hwalk : (g.setValue m v).walk n p = g.walk n p :=
      walk_congr (children_setValue g m · v) n p
    have hvalue := g.value_setValue v hm
    rw [if_neg Bool.false_ne_true, ← hensure]
    unfold valueAt?
    rw [hwalk]
    by_cases hp : p = path
    · rw [if_pos ⟨hp, rfl⟩, hp, hpath, Option.map_some, hvalue, if_pos rfl]
    · rw [if_neg fun h => hp h.1]
      refine Option.map_congr fun x hx => ?_
      rw [hvalue, if_neg]
      rintro rfl
      exact hp (hwf.walk_inj hx hpath)

end

end LayeredConf.Forest
