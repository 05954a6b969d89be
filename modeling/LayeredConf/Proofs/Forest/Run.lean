import LayeredConf.Proofs.Forest.Edits

/-!
# Runs

A run is any sequence of operations on nodes that are there, from the empty forest on.  Every
operation but `attach` edits, and `attach` gives a node a new parent that does not lie below it; so
parents agree with their children, and the map of the children with their order, in every forest
that a run comes to.

    Run steps f            `f` after the operations of `steps`, each with the forest that it met
    Run.wellFormed         Run steps f → f.WellFormed
    run_agrees             maps, orders, keys and parents agree after every run
-/

namespace LayeredConf.Forest

/-- What callers can do to a forest.  To add nodes without a value is to `set` an unset one. -/
inductive Operation where
  | newNode (k : String) (v : Value)
  | newRoot
  | ofArgs (args : Assignments)
  | stack (n : NodeId) (args : List Assignments)
  | attach (p c : NodeId)
  | erase (n : NodeId) (parts : List PathPart)
  | detach (n : NodeId)
  | rekey (n : NodeId) (k : String)
  | merge (n : NodeId) (source : Option NodeId)
  | sort (n : NodeId)
  | sortAll (n : NodeId)
  | set (n : NodeId) (parts : List PathPart) (v : Value)
  | setDotted (n : NodeId) (key : String) (v : Value)
  | setAll (n : NodeId) (args : Assignments)
  | push (n : NodeId)
  | pushAll (n : NodeId) (vs : List Value)
  | fill (n : NodeId) (key : String) (v : Value)
  | setValue (n : NodeId) (v : Value)
  | setFlags (n : NodeId) (flags : Int)

namespace Operation

/-- The forest after an operation; one that fails changes nothing. -/
def apply (f : Forest) : Operation → Forest
  | .newNode k v => (f.newNode k v).1
  | .newRoot => f.newRoot.1
  | .ofArgs args => (f.ofArgs args).1
  | .stack n args => (f.stack n args).1
  | .attach p c => (f.attach p c).toOption.getD f
  | .erase n parts => (f.erase n (keyPath parts)).1
  | .detach n => f.detach n
  | .rekey n k => f.rekey n k
  | .merge _ none => f
  | .merge n (some source) => (f.merge n source).1
  | .sort n => f.sort n
  | .sortAll n => f.sortAll n
  | .set n parts v => (f.set n parts v).1
  | .setDotted n key v => (f.setDotted n key v).1
  | .setAll n args => f.setAll n args
  | .push n => (f.push n).1
  | .pushAll n vs => f.pushAll n vs
  | .fill n key v => (f.fill n key v).1
  | .setValue n v => f.setValue n v
  | .setFlags n flags => f.setFlags n flags

/-- The nodes that an operation is given. -/
def nodes : Operation → List NodeId
  | .newNode _ _ | .newRoot | .ofArgs _ => []
  | .attach p c => [p, c]
  | .merge n source => n :: source.toList
  | .stack n _ | .erase n _ | .detach n | .rekey n _ | .sort n | .sortAll n | .set n _ _
  | .setDotted n _ _ | .setAll n _ | .push n | .pushAll n _ | .fill n _ _ | .setValue n _
  | .setFlags n _ => [n]

/-- The nodes that it writes at: what it merges or stacks a scope on is only read. -/
def sites : Operation → List NodeId
  | .merge n _ => [n]
  | .stack _ _ => []
  | op => op.nodes

end Operation

/-- The operations of a run, the last one first, each with the forest that it met. -/
inductive Run : List (Forest × Operation) → Forest → Prop
  | start : Run [] {}
  | step {steps : List (Forest × Operation)} {f : Forest} (op : Operation) :
      Run steps f → (∀ n ∈ op.nodes, n < f.size) → Run ((f, op) :: steps) (op.apply f)

/-! ## Operations -/

theorem apply_attach (f : Forest) (p c : NodeId) :
    (Operation.attach p c).apply f = if c ∈ f.lineage p then f else f.insertChild p c := by
  show (f.attach p c).toOption.getD f = _
  unfold attach
  split <;> rfl

theorem WellFormed.attach {f : Forest} (hf : f.WellFormed) (p c : NodeId) (hp : p < f.size)
    (hc : c < f.size) : ((Operation.attach p c).apply f).WellFormed := by
  rw [apply_attach]
  split
  · exact hf
  · next hup =>
    refine hf.insertChild p c hp hc fun l hl => ?_
    rwa [← lineage_of_trail hl]

/-- Every operation edits where it writes, but for giving a node a new parent. -/
theorem Operation.edits {P : NodeId → Prop} {f : Forest} (hr : f.Region P) (op : Operation)
    (hop : ∀ n ∈ op.nodes, n < f.size) (hsites : ∀ n ∈ op.sites, P n)
    (hattach : ∀ p c, op ≠ .attach p c) : Edits P f (op.apply f) := by
  have hone {n : NodeId} (hn : op.nodes = [n]) : n < f.size := hop n (by simp [hn])
  have hsite {n : NodeId} (hn : op.sites = [n]) : P n := hsites n (by simp [hn])
  cases op with
  | newNode k v =>
    exact (Edit.create k v .detached (fun _ => Link.noConfusion) (fun _ => Link.noConfusion)).edits
  | newRoot => exact (f.newRoot_writes hr).1
  | ofArgs args => exact f.ofArgs_edits hr args
  | stack n args => exact f.stack_edits n hr (hone rfl) args
  | attach p c => exact absurd rfl (hattach p c)
  | erase n parts => exact f.erase_edits n hr (keyPath parts) (hsite rfl)
  | detach n => exact f.detach_edits n hr (hsite rfl)
  | rekey n k => exact (Edit.rekey n k (hsite rfl)).edits
  | merge n source =>
    cases source with
    | none => exact .refl f
    | some source =>
      exact (f.graft_writes n hr (hop n List.mem_cons_self) (hsite rfl) (f.view source)).1
  | sort n => exact (Edit.sort n (hsite rfl)).edits
  | sortAll n => exact sortDown_edits f.size f hr n (hsite rfl)
  | set n parts v =>
    have hw := f.setPath_writes n hr (keyPath parts) v (hone rfl) (hsite rfl)
    show Edits P f (f.set n parts v).1
    unfold Forest.set
    split
    · exact .refl f
    · exact hw.1
  | setDotted n key v => exact (f.setPath_writes n hr (dottedKeys key) v (hone rfl) (hsite rfl)).1
  | setAll n args => exact f.setAll_edits n hr args (hone rfl) (hsite rfl)
  | push n => exact (f.addChild_writes n hr (f.pushKey n) (hone rfl) (hsite rfl)).1
  | pushAll n vs => exact f.pushAll_edits n hr vs (hone rfl) (hsite rfl)
  | fill n key v => exact f.fill_edits n hr key v (hone rfl) (hsite rfl)
  | setValue n v => exact f.setValue_edits n v (hsite rfl)
  | setFlags n flags => exact f.setFlags_edits n flags (hsite rfl)

theorem Operation.wellFormed {f : Forest} (hf : f.WellFormed) (op : Operation)
    (hop : ∀ n ∈ op.nodes, n < f.size) : (op.apply f).WellFormed := by
  by_cases h : ∃ p c, op = .attach p c
  · obtain ⟨p, c, rfl⟩ := h
    exact hf.attach p c (hop p (by simp [nodes])) (hop c (by simp [nodes]))
  · exact (op.edits hf.region hop (fun _ _ => trivial) fun p c he => h ⟨p, c, he⟩).wellFormed hf

theorem Operation.size_le {f : Forest} (hf : f.WellFormed) (op : Operation)
    (hop : ∀ n ∈ op.nodes, n < f.size) : f.size ≤ (op.apply f).size := by
  by_cases h : ∃ p c, op = .attach p c
  · obtain ⟨p, c, rfl⟩ := h
    rw [apply_attach]
    split
    · exact Nat.le_refl _
    · exact Nat.le_of_eq (size_insertChild f p c).symm
  · exact (op.edits hf.region hop (fun _ _ => trivial) fun p c he => h ⟨p, c, he⟩).size_le

/-- What lies outside of the region in which an operation writes stays as it is. -/
theorem Operation.same {P : NodeId → Prop} {f : Forest} (hr : f.Region P) (op : Operation)
    (hop : ∀ n ∈ op.nodes, n < f.size) (hsites : ∀ n ∈ op.sites, P n) (m : NodeId)
    (hm : ¬ P m) : (op.apply f).node m = f.node m := by
  by_cases h : ∃ p c, op = .attach p c
  · obtain ⟨p, c, rfl⟩ := h
    rw [apply_attach]
    split
    · rfl
    · exact hr.node_insertChild (hsites p (by simp [sites, nodes]))
        (hsites c (by simp [sites, nodes])) hm
  · exact (op.edits hr hop hsites fun p c he => h ⟨p, c, he⟩).same hr m hm

/-! ## Runs -/

theorem wellFormed_empty : WellFormed {} := by
  have hnode (n : NodeId) : ({} : Forest).node n = {} := node_of_size_le _ n (Nat.zero_le n)
  refine ⟨fun n => ?_, fun n k c h => ?_, fun n p h => ?_, fun n => ?_, fun n r h => ?_⟩
  · rw [children, hnode]
    exact Children.agrees_empty
  · rw [child, children, hnode] at h
    cases h
  · rw [link, hnode] at h
    cases h
  · apply Ends.of_none
    rw [parent?, hnode]
  · rw [link, hnode] at h
    cases h

theorem Run.wellFormed {steps : List (Forest × Operation)} {f : Forest} (h : Run steps f) :
    f.WellFormed := by
  induction h with
  | start => exact wellFormed_empty
  | step op _ hop ih => exact op.wellFormed ih hop

/-- **The invariant of runs.**  After every run the order of each node's children lists just the
keys of its map, each once; each entry of a map is a child with that key that belongs to the node,
and is in no other map; each node that belongs to a parent is the entry at its own key there; and
every climb from parent to parent ends. -/
theorem run_agrees {steps : List (Forest × Operation)} {f : Forest} (h : Run steps f) :
    (∀ n, (f.children n).childOrder.Nodup ∧ ((f.children n).childMap.map (·.1)).Nodup ∧
      ∀ k, k ∈ (f.children n).childOrder ↔ k ∈ (f.children n).childMap.map (·.1)) ∧
    (∀ n, ∀ e ∈ (f.children n).childMap,
      f.child n e.1 = some e.2 ∧ f.key e.2 = e.1 ∧ (f.node e.2).link = .child n) ∧
    (∀ n p, (f.node n).link = .child p → f.child p (f.key n) = some n) ∧
    (∀ n m k l c, (k, c) ∈ (f.children n).childMap → (l, c) ∈ (f.children m).childMap →
      n = m ∧ k = l) ∧
    ∀ n, ∃ l, Trail f.parent? n l := by
  have hf := h.wellFormed
  have hentry : ∀ n, ∀ e ∈ (f.children n).childMap,
      f.child n e.1 = some e.2 ∧ f.key e.2 = e.1 ∧ (f.node e.2).link = .child n := by
    intro n e he
    have hchild : f.child n e.1 = some e.2 := (hf.agrees n).get?_eq_some_iff_mem.mpr he
    exact ⟨hchild, hf.key_of_child hchild, hf.link_of_child hchild⟩
  refine ⟨fun n => ?_, hentry, hf.listed, ?_, hf.climbs⟩
  · have hn := hf.agrees n
    exact ⟨hn.distinct, hn.distinctMap, fun k => hn.same.mem_iff.symm⟩
  · intro n m k l c hn hm
    obtain ⟨-, hk, hlink⟩ := hentry n _ hn
    obtain ⟨-, hl, hlink'⟩ := hentry m _ hm
    constructor
    · rw [hlink] at hlink'
      exact Link.child.inj hlink'
    · exact hk.symm.trans hl

/-- A child takes the key of its sibling, which it displaces from the map and from the order. -/
theorem run_agrees_displaced : ∃ steps f, Run steps f ∧
    f.children 0 = { childMap := [("b", 1)], childOrder := ["b"] } ∧
    (f.node 2).link = .detached ∧
    (∀ n k, k ∈ (f.children n).childOrder ↔ k ∈ (f.children n).childMap.map (·.1)) ∧
    ∀ n, ∃ l, Trail f.parent? n l := by
  have h₁ : Run _ _ := .step (.newNode "b" .unset) (.step (.newNode "a" .unset)
    (.step .newRoot .start (by decide)) (by decide)) (by decide)
  have h₂ : Run _ _ := .step (.rekey 1 "b") (.step (.attach 0 2) (.step (.attach 0 1) h₁
    (by decide)) (by decide)) (by decide)
  have hagree := run_agrees h₂
  exact ⟨_, _, h₂, by decide, by decide, fun n => (hagree.1 n).2.2, hagree.2.2.2.2⟩

end LayeredConf.Forest
