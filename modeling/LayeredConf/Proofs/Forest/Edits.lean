import LayeredConf.Proofs.Forest.WellFormed
import Mathlib.Logic.Relation

/-!
# Edits

All that writing, merging and sorting do to a forest is a sequence of small edits: a value or flags,
a new node, a new child, a new order of children, a release, a new key.  No edit gives a node that
is there a new parent; only `attach` does.  So a property that every edit keeps is kept by every
write.

An edit changes the node it is made at and its relatives, so edits at nodes of a region leave alone
what lies outside of it.  A region is a set of nodes that no child leads out of or into, a union of
trees, with all nodes to come.

    Region f P              `P` is such a set, in a well-formed forest
    Edits P f g             `g` comes from `f` by edits at nodes of `P`
    Writes P f (g, m)       so it does, and `m` is one of its nodes, in `P`
    Edits.region            f.Region P → g.Region P
    Edits.same              nodes outside of `P` are as they were
    ensurePath_writes       writing at a path edits, like all that writes
    graft_writes            and so does merging
-/

namespace LayeredConf.Forest

/-- A set of nodes with all nodes to come; a child is in it just when its parent is. -/
structure Region (f : Forest) (P : NodeId → Prop) : Prop extends WellFormed f where
  closed : ∀ n k c, f.child n k = some c → (P n ↔ P c)
  fresh : ∀ n, f.size ≤ n → P n

/-- A small change at a node of `P`. -/
inductive Edit (P : NodeId → Prop) : Forest → Forest → Prop
  /-- A change of a node's value or flags. -/
  | write {f : Forest} (n : NodeId) (g : Node → Node) (hkey : ∀ x, (g x).key = x.key)
      (hlink : ∀ x, (g x).link = x.link)
      (hchildren : ∀ x, (g x).toChildren = x.toChildren) (hp : P n) : Edit P f (f.modify n g)
  /-- A new node that is no child. -/
  | create {f : Forest} (k : String) (v : Value) (l : Link) (hl : ∀ p, l ≠ .child p)
      (hr : ∀ r, l = .scope (some r) → r < f.size) : Edit P f (f.alloc k v l).1
  | addChild {f : Forest} (n : NodeId) (k : String) (hn : n < f.size) (hp : P n) :
      Edit P f (f.addChild n k).1
  | sort {f : Forest} (n : NodeId) (hp : P n) : Edit P f (f.sort n)
  | release {f : Forest} (p : NodeId) (k : String) (hp : P p) : Edit P f (f.release p k)
  | rekey {f : Forest} (n : NodeId) (k : String) (hp : P n) : Edit P f (f.rekey n k)

def Edits (P : NodeId → Prop) : Forest → Forest → Prop := Relation.ReflTransGen (Edit P)

/-! ## Regions -/

section

variable {P : NodeId → Prop} {f g : Forest}

theorem WellFormed.region (hf : f.WellFormed) : f.Region fun _ => True :=
  ⟨hf, fun _ _ _ _ => Iff.rfl, fun _ _ => trivial⟩

/-- A region stays one when nothing changes outside of it. -/
theorem Region.of_same (hr : f.Region P) (hg : g.WellFormed) (hsize : f.size ≤ g.size)
    (hsame : ∀ m, ¬ P m → g.node m = f.node m) : g.Region P := by
  refine ⟨hg, fun n k c hc => ⟨fun hn => ?_, fun hp => ?_⟩,
    fun n hn => hr.fresh n (Nat.le_trans hsize hn)⟩
  · refine Classical.byContradiction fun hout => ?_
    have hl := hg.link_of_child hc
    rw [link, hsame c hout] at hl
    exact hout ((hr.closed n _ c (hr.listed c n hl)).mp hn)
  · refine Classical.byContradiction fun hout => ?_
    rw [child, children, hsame n hout] at hc
    exact hout ((hr.closed n k c hc).mpr hp)

theorem Region.of_child (hr : f.Region P) {n c : NodeId} {k : String} (h : f.child n k = some c)
    (hn : P n) : P c := (hr.closed n k c h).mp hn

theorem Region.of_parent (hr : f.Region P) {n p : NodeId} (h : f.link n = .child p) (hn : P n) :
    P p := (hr.closed p _ n (hr.listed n p h)).mpr hn

theorem Region.walk_iff (hr : f.Region P) {n m : NodeId} {ks : List String}
    (h : f.walk n ks = some m) : P n ↔ P m := by
  induction ks generalizing n with
  | nil =>
    cases h
    exact Iff.rfl
  | cons k ks ih =>
    obtain ⟨c, hc, hm⟩ := (f.walk_cons_eq_some_iff n m k ks).mp h
    exact (hr.closed n k c hc).trans (ih hm)

theorem Region.node_release (hr : f.Region P) {p m : NodeId} (k : String) (hp : P p)
    (hm : ¬ P m) : (f.release p k).node m = f.node m := by
  refine Forest.node_release f p m k ?_ ?_
  · rintro rfl
    exact hm hp
  · exact fun hc => hm (hr.of_child hc hp)

theorem Region.node_insertChild (hr : f.Region P) {p c m : NodeId} (hp : P p) (hc : P c)
    (hm : ¬ P m) : (f.insertChild p c).node m = f.node m := by
  refine hr.toWellFormed.node_insertChild ?_ ?_ ?_ ?_
  · rintro rfl
    exact hm hp
  · rintro rfl
    exact hm hc
  · exact fun hl => hm (hr.of_parent hl hc)
  · exact fun hd => hm (hr.of_child hd hp)

end

/-! ## What edits keep -/

theorem size_addChild (f : Forest) (n : NodeId) (k : String) :
    (f.addChild n k).1.size = f.size + 1 :=
  (size_insertChild _ _ _).trans (size_alloc _ _ _ _)

theorem size_rekey (f : Forest) (n : NodeId) (k : String) : (f.rekey n k).size = f.size := by
  unfold rekey
  split
  · rw [size_insertChild, size_modify, size_release]
  · rfl

section

variable {P : NodeId → Prop} {f g h : Forest}

theorem Edit.wellFormed (he : Edit P f g) (hf : f.WellFormed) : g.WellFormed := by
  cases he with
  | write n g hkey hlink hchildren => exact hf.modify n g hkey hlink hchildren
  | create k v l hl hr => exact hf.alloc k v l hl hr
  | addChild n k hn => exact hf.addChild n k hn
  | sort n => exact hf.sort n
  | release p k => exact hf.release p k
  | rekey n k => exact hf.rekey n k

theorem Edit.size_le (he : Edit P f g) : f.size ≤ g.size := by
  have hlt := Nat.le_succ f.size
  cases he with
  | write n g => exact Nat.le_of_eq (size_modify f n g).symm
  | create k v l => rwa [size_alloc]
  | addChild n k => rwa [size_addChild]
  | sort n => exact Nat.le_of_eq (size_sort f n).symm
  | release p k => exact Nat.le_of_eq (size_release f p k).symm
  | rekey n k => exact Nat.le_of_eq (size_rekey f n k).symm

theorem Region.node_addChild (hr : f.Region P) {n m : NodeId} (k : String) (hp : P n)
    (hm : ¬ P m) : (f.addChild n k).1.node m = f.node m := by
  have hsize := hr.fresh f.size (Nat.le_refl _)
  have halloc : ∀ x, ¬ P x → (f.newNode k .unset).1.node x = f.node x := by
    intro x hx
    unfold newNode
    rw [node_alloc, if_neg]
    rintro rfl
    exact hx hsize
  have hnew : (f.newNode k .unset).1.Region P := by
    refine hr.of_same (hr.newNode k .unset) ?_ halloc
    unfold newNode
    rw [size_alloc]
    exact Nat.le_succ _
  exact (hnew.node_insertChild hp hsize hm).trans (halloc m hm)

theorem Region.node_rekey (hr : f.Region P) {n m : NodeId} (k : String) (hp : P n)
    (hm : ¬ P m) : (f.rekey n k).node m = f.node m := by
  unfold rekey
  split
  · next p h =>
    have hl := (parent?_eq_some_iff f n p).mp h
    have hpp := hr.of_parent hl hp
    have hsame : ∀ x, ¬ P x →
        ((f.release p (f.key n)).modify n ({ · with key := k })).node x = f.node x := by
      intro x hx
      rw [node_modify, if_neg, hr.node_release _ hpp hx]
      rintro ⟨rfl, -⟩
      exact hx hp
    have hreg : ((f.release p (f.key n)).modify n ({ · with key := k })).Region P :=
      hr.of_same (hr.release_setKey hl k) (Nat.le_of_eq (by rw [size_modify, size_release])) hsame
    rw [hreg.node_insertChild hpp hp hm, hsame m hm]
  · rfl

/-- An edit in a region keeps what lies outside of it. -/
theorem Edit.same (he : Edit P f g) (hr : f.Region P) (m : NodeId) (hm : ¬ P m) :
    g.node m = f.node m := by
  have hne : ∀ n, P n → m ≠ n := by
    rintro n hn rfl
    exact hm hn
  cases he with
  | write n g _ _ _ hp => rw [node_modify, if_neg fun h => hne n hp h.1]
  | create k v l => rw [node_alloc, if_neg (hne _ (hr.fresh _ (Nat.le_refl _)))]
  | addChild n k _ hp => exact hr.node_addChild k hp hm
  | sort n hp =>
    rw [Forest.sort, modifyChildren, node_modify, if_neg fun h => hne n hp h.1]
  | release p k hp => exact hr.node_release k hp hm
  | rekey n k hp => exact hr.node_rekey k hp hm

theorem Edit.region (he : Edit P f g) (hr : f.Region P) : g.Region P :=
  hr.of_same (he.wellFormed hr.toWellFormed) he.size_le (he.same hr)

theorem Edit.edits (he : Edit P f g) : Edits P f g := .single he

theorem Edits.refl (f : Forest) : Edits P f f := Relation.ReflTransGen.refl

theorem Edits.trans (h₁ : Edits P f g) (h₂ : Edits P g h) : Edits P f h :=
  Relation.ReflTransGen.trans h₁ h₂

theorem Edits.wellFormed (he : Edits P f g) (hf : f.WellFormed) : g.WellFormed := by
  induction he with
  | refl => exact hf
  | tail _ he ih => exact he.wellFormed ih

theorem Edits.size_le (he : Edits P f g) : f.size ≤ g.size := by
  induction he with
  | refl => exact Nat.le_refl _
  | tail _ he ih => exact Nat.le_trans ih he.size_le

theorem Edits.region (he : Edits P f g) (hr : f.Region P) : g.Region P := by
  induction he with
  | refl => exact hr
  | tail _ he ih => exact he.region ih

theorem Edits.same (he : Edits P f g) (hr : f.Region P) (m : NodeId) (hm : ¬ P m) :
    g.node m = f.node m := by
  induction he with
  | refl => rfl
  | tail hs he ih => rw [he.same (Edits.region hs hr) m hm, ih]

theorem Edits.foldl {α : Type} (step : Forest → α → Forest) (Q : Forest → Prop) (l : List α)
    (hstep : ∀ f, ∀ a ∈ l, Q f → Edits P f (step f a) ∧ Q (step f a)) (hf : Q f) :
    Edits P f (l.foldl step f) ∧ Q (l.foldl step f) := by
  induction l generalizing f with
  | nil => exact ⟨.refl f, hf⟩
  | cons a l ih =>
    obtain ⟨he, hq⟩ := hstep f a List.mem_cons_self hf
    obtain ⟨he', hq'⟩ := ih (fun f b hb => hstep f b (List.mem_cons_of_mem a hb)) hq
    exact ⟨he.trans he', hq'⟩

end

/-! ## Writing -/

section

variable {P : NodeId → Prop} (f : Forest) (n : NodeId)

theorem setValue_edits (v : Value) (hp : P n) : Edits P f (f.setValue n v) :=
  (Edit.write n ({ · with value := v }) (fun _ => rfl) (fun _ => rfl) (fun _ => rfl) hp).edits

theorem setFlags_edits (flags : Int) (hp : P n) : Edits P f (f.setFlags n flags) :=
  (Edit.write n ({ · with flags := flags }) (fun _ => rfl) (fun _ => rfl) (fun _ => rfl) hp).edits

theorem assign_edits (v : Value) (hp : P n) : Edits P f (f.assign n v) := by
  unfold assign
  split
  · exact .refl f
  · exact f.setValue_edits n v hp

/-- An operation that edits and returns a node of the new forest. -/
def Writes (P : NodeId → Prop) (f : Forest) (r : Forest × NodeId) : Prop :=
  Edits P f r.1 ∧ r.2 < r.1.size ∧ P r.2

theorem addChild_writes (hr : f.Region P) (k : String) (hn : n < f.size) (hp : P n) :
    Writes P f (f.addChild n k) := by
  refine ⟨(Edit.addChild n k hn hp).edits, ?_, hr.fresh _ (Nat.le_refl _)⟩
  rw [size_addChild]
  exact Nat.lt_succ_self _

theorem ensureChild_writes (hr : f.Region P) (k : String) (hn : n < f.size) (hp : P n) :
    Writes P f (f.ensureChild n k) := by
  unfold ensureChild
  split
  · next c hc => exact ⟨.refl f, hr.lt_of_child hc, hr.of_child hc hp⟩
  · exact f.addChild_writes n hr k hn hp

theorem ensurePath_writes (hr : f.Region P) (path : List String) (hn : n < f.size) (hp : P n) :
    Writes P f (f.ensurePath n path) := by
  induction path generalizing f n with
  | nil => exact ⟨.refl f, hn, hp⟩
  | cons k ks ih =>
    obtain ⟨he, hc, hpc⟩ := f.ensureChild_writes n hr k hn hp
    obtain ⟨he', hm⟩ := ih _ _ (he.region hr) hc hpc
    exact ⟨he.trans he', hm⟩

theorem setPath_writes (hr : f.Region P) (path : List String) (v : Value) (hn : n < f.size)
    (hp : P n) : Writes P f (f.setPath n path v) := by
  obtain ⟨he, hm, hpm⟩ := f.ensurePath_writes n hr path hn hp
  have ha := assign_edits (f.ensurePath n path).1 (f.ensurePath n path).2 v hpm
  exact ⟨he.trans ha, Nat.lt_of_lt_of_le hm ha.size_le, hpm⟩

theorem setAll_edits (hr : f.Region P) (args : Assignments) (hn : n < f.size) (hp : P n) :
    Edits P f (f.setAll n args) := by
  refine (Edits.foldl (f := f) _ (fun g => g.Region P ∧ n < g.size) args (fun g a _ hg => ?_)
    ⟨hr, hn⟩).1
  obtain ⟨he, -⟩ := g.setPath_writes n hg.1 (dottedKeys a.1) a.2 hg.2 hp
  exact ⟨he, he.region hg.1, Nat.lt_of_lt_of_le hg.2 he.size_le⟩

theorem pushValue_writes (hr : f.Region P) (v : Value) (hn : n < f.size) (hp : P n) :
    Writes P f (f.pushValue n v) := by
  obtain ⟨he, hc, hpc⟩ := f.addChild_writes n hr (f.pushKey n) hn hp
  have hv := setValue_edits (f.push n).1 (f.push n).2 v hpc
  exact ⟨he.trans hv, Nat.lt_of_lt_of_le hc hv.size_le, hpc⟩

theorem pushAll_edits (hr : f.Region P) (vs : List Value) (hn : n < f.size) (hp : P n) :
    Edits P f (f.pushAll n vs) := by
  refine (Edits.foldl (f := f) _ (fun g => g.Region P ∧ n < g.size) vs (fun g v _ hg => ?_)
    ⟨hr, hn⟩).1
  obtain ⟨he, -⟩ := g.pushValue_writes n hg.1 v hg.2 hp
  exact ⟨he, he.region hg.1, Nat.lt_of_lt_of_le hg.2 he.size_le⟩

theorem fill_edits (hr : f.Region P) (key : String) (v : Value) (hn : n < f.size) (hp : P n) :
    Edits P f (f.fill n key v).1 := by
  obtain ⟨he, hm, hpm⟩ := f.ensurePath_writes n hr (dottedKeys key) hn hp
  have hg := he.region hr
  unfold fill
  generalize f.ensurePath n (dottedKeys key) = r at he hm hpm hg ⊢
  obtain ⟨g, m⟩ := r
  dsimp only at he hm hpm hg ⊢
  split
  · split
    · exact he.trans (g.setValue_edits m v hpm)
    · -- the old value becomes the first item of the list
      obtain ⟨he₁, -⟩ := g.pushValue_writes m hg (g.value m) hm hpm
      have he₂ := he₁.trans (setValue_edits (g.pushValue m (g.value m)).1 m .unset hpm)
      obtain ⟨he₃, -⟩ :=
        pushValue_writes _ m (he₂.region hg) v (Nat.lt_of_lt_of_le hm he₂.size_le) hpm
      exact he.trans (he₂.trans he₃)
  · exact he.trans (g.pushValue_writes m hg v hm hpm).1

theorem detach_edits (hr : f.Region P) (hp : P n) : Edits P f (f.detach n) := by
  unfold detach
  split
  · next p h => exact (Edit.release p _ (hr.of_parent ((parent?_eq_some_iff f n p).mp h) hp)).edits
  · exact .refl f

theorem erase_edits (hr : f.Region P) (path : List String) (hp : P n) :
    Edits P f (f.erase n path).1 := by
  unfold erase
  split
  · exact .refl f
  · split
    · exact .refl f
    · next owner h => exact (Edit.release owner _ ((hr.walk_iff h).mp hp)).edits

end

/-! ## Sorting and merging -/

section

variable {P : NodeId → Prop}

theorem sortDown_edits (depth : Nat) (f : Forest) (hr : f.Region P) (n : NodeId) (hp : P n) :
    Edits P f (sortDown depth f n) := by
  induction depth generalizing f n with
  | zero => exact (Edit.sort n hp).edits
  | succ depth ih =>
    have hs : Edits P f (f.sort n) := (Edit.sort n hp).edits
    have hsorted := hs.region hr
    refine hs.trans (Edits.foldl _ (fun g => g.Region P) _ (fun g c hc hg => ?_) hsorted).1
    have hpc : P c := by
      obtain ⟨k, hk⟩ := (hsorted.agrees n).mem_map_iff.mp hc
      exact hsorted.of_child hk hp
    have he : Edits P g (if g.isLeaf c then g else sortDown depth g c) := by
      split
      · exact .refl g
      · exact ih g hg c hpc
    exact ⟨he, he.region hg⟩

theorem place_writes (f : Forest) (n : NodeId) (hr : f.Region P) (k : String)
    (hn : n < f.size) (hp : P n) : Writes P f (f.place n k) := by
  unfold place
  split
  · next c hc => exact ⟨.refl f, hr.lt_of_child hc, hr.of_child hc hp⟩
  · obtain ⟨he, hc, hpc⟩ := f.addChild_writes n hr k hn hp
    refine ⟨he.trans (Edit.sort n hp).edits, ?_, hpc⟩
    rw [size_sort]
    exact hc

mutual

theorem graft_writes (f : Forest) (n : NodeId) (hr : f.Region P) (hn : n < f.size) (hp : P n)
    (t : Tree) : Writes P f (f.graft n t) := by
  cases t with
  | node k v flags children =>
    obtain ⟨he, hc, hpc⟩ := f.place_writes n hr k hn hp
    have hv := he.trans (setValue_edits (f.place n k).1 (f.place n k).2 v hpc)
    have hlt : (f.place n k).2 < ((f.place n k).1.setValue (f.place n k).2 v).size := by
      rwa [setValue, size_modify]
    have hall := graftAll_edits ((f.place n k).1.setValue (f.place n k).2 v) (f.place n k).2
      (hv.region hr) hlt hpc children
    rw [graft]
    exact ⟨hv.trans hall, Nat.lt_of_lt_of_le hlt hall.size_le, hpc⟩

theorem graftAll_edits (f : Forest) (n : NodeId) (hr : f.Region P) (hn : n < f.size) (hp : P n)
    (ts : List Tree) : Edits P f (f.graftAll n ts) := by
  cases ts with
  | nil =>
    rw [graftAll]
    exact .refl f
  | cons t ts =>
    obtain ⟨he, -⟩ := graft_writes f n hr hn hp t
    rw [graftAll]
    exact he.trans (graftAll_edits _ n (he.region hr) (Nat.lt_of_lt_of_le hn he.size_le) hp ts)

end

end

/-! ## New trees -/

section

variable {P : NodeId → Prop} (f : Forest)

/-- The root of a new scope. -/
theorem alloc_writes (hr : f.Region P) (outer : Option NodeId)
    (ho : ∀ o ∈ outer, o < f.size) : Writes P f (f.alloc "" .unset (.scope outer)) := by
  refine ⟨(Edit.create "" .unset _ (fun _ => Link.noConfusion) ?_).edits, ?_,
    hr.fresh _ (Nat.le_refl _)⟩
  · intro r h
    exact ho r (Link.scope.inj h)
  · rw [size_alloc]
    exact Nat.lt_succ_self _

theorem newRoot_writes (hr : f.Region P) : Writes P f f.newRoot :=
  f.alloc_writes hr none fun _ h => nomatch h

theorem ofArgs_edits (hr : f.Region P) (args : Assignments) : Edits P f (f.ofArgs args).1 := by
  obtain ⟨he, hn, hp⟩ := f.newRoot_writes hr
  exact he.trans (setAll_edits _ _ (he.region hr) args hn hp)

theorem stack_edits (n : NodeId) (hr : f.Region P) (hn : n < f.size) (args : List Assignments) :
    Edits P f (f.stack n args).1 := by
  obtain ⟨hnew, hlt, hp⟩ := f.alloc_writes hr (some (f.root n)) fun _ h => by
    cases h
    exact hr.root_lt hn
  have htarget : Writes P f (if f.root n = n
      then ((f.alloc "" .unset (.scope (some (f.root n)))).1, f.size)
      else (f.alloc "" .unset (.scope (some (f.root n)))).1.ensurePath f.size (f.path n)) := by
    split
    · exact ⟨hnew, hlt, hp⟩
    · obtain ⟨he, hm⟩ := ensurePath_writes _ _ (hnew.region hr) (f.path n) hlt hp
      exact ⟨hnew.trans he, hm⟩
  obtain ⟨he, hm, hpm⟩ := htarget
  refine he.trans (Edits.foldl _ (fun g => g.Region P ∧ _ < g.size) args (fun g a _ hg => ?_)
    ⟨he.region hr, hm⟩).1
  have hset := setAll_edits g _ hg.1 a hg.2 hpm
  exact ⟨hset, hset.region hg.1, Nat.lt_of_lt_of_le hg.2 hset.size_le⟩

end

end LayeredConf.Forest
