import LayeredConf.Proofs.Lookup.Frame

/-!
# Writes in a scope

A scope reads from the trees that it inherits from and never writes to them.  Whatever is called on
the nodes of its tree, all nodes of other trees stay as they are: the nodes of the tree and those to
come are a region, and every operation writes in it.  So no lookup that starts in what the scope
inherits sees a difference, unless it leads back into the scope's own tree.

    ScopeRun f s g        `g` comes from `f` by operations on nodes of the tree of `s`
    ScopeRun.same         nodes of other trees stay as they are
    scopeRun_keeps        and lookups outside find what they found
-/

namespace LayeredConf.Forest

/-- The nodes of a tree, by its root, and all nodes to come. -/
def Own (f : Forest) (s n : NodeId) : Prop := f.size ≤ n ∨ f.root n = s

/-- An operation on nodes that are, in a later forest `g`, in the tree of `s`.  A node that becomes
a child is of that tree too, or it was, or it is new. -/
def Operation.InScope (f : Forest) (s : NodeId) (g : Forest) : Operation → Prop
  | .attach p c => g.root p = s ∧ (g.root c = s ∨ f.Own s c)
  | op => ∀ n ∈ op.sites, g.root n = s

/-- Operations on the nodes of a tree, one after the other. -/
inductive ScopeRun (f : Forest) (s : NodeId) : Forest → Prop
  | start : ScopeRun f s f
  | step {g : Forest} (op : Operation) : ScopeRun f s g → (∀ n ∈ op.nodes, n < g.size) →
      op.InScope f s g → ScopeRun f s (op.apply g)

section

variable {f g : Forest} {s : NodeId}

theorem WellFormed.own_region (hf : f.WellFormed) (s : NodeId) : f.Region (f.Own s) := by
  refine ⟨hf, fun n k c hc => ?_, fun n hn => Or.inl hn⟩
  have hn := lt_size_of_child hc
  have hlt := hf.lt_of_child hc
  unfold Own
  rw [hf.root_of_parent (hf.parent_of_child hc)]
  exact ⟨fun h => Or.inr (h.resolve_left (Nat.not_le.mpr hn)),
    fun h => Or.inr (h.resolve_left (Nat.not_le.mpr hlt))⟩

/-- What is in the tree later was in it, or is new. -/
theorem Region.own_of_root (hr : f.Region (f.Own s))
    (hsame : ∀ m, ¬ f.Own s m → g.node m = f.node m) {n : NodeId} (hn : g.root n = s) :
    f.Own s n := by
  refine Classical.byContradiction fun hout => ?_
  rw [hr.root_congr hsame hout] at hn
  exact hout (Or.inr hn)

/-- Operations in a scope leave alone what lies outside of it. -/
theorem ScopeRun.same (hf : f.WellFormed) (h : ScopeRun f s g) :
    g.Region (f.Own s) ∧ ∀ m, ¬ f.Own s m → g.node m = f.node m := by
  have hr := hf.own_region s
  induction h with
  | start => exact ⟨hr, fun _ _ => rfl⟩
  | @step g op _ hop hin ih =>
    obtain ⟨hg, hsame⟩ := ih
    have hsites : ∀ n ∈ op.sites, f.Own s n := by
      have hown : ∀ n, g.root n = s → f.Own s n := fun n hn => hr.own_of_root hsame hn
      intro n hn
      cases op with
      | attach p c =>
        rcases List.mem_pair.mp hn with rfl | rfl
        · exact hown _ hin.1
        · exact hin.2.elim (hown _) id
      | _ => exact hown n (hin n hn)
    have hstep := op.same hg hop hsites
    refine ⟨hg.of_same (op.wellFormed hg.toWellFormed hop) (op.size_le hg.toWellFormed hop) hstep,
      fun m hm => ?_⟩
    rw [hstep m hm, hsame m hm]

/-- A node of the forest from which no scope leads into the tree of `s`. -/
theorem WellFormed.not_own_of_leads (hf : f.WellFormed) {n : NodeId} (hn : n < f.size)
    (hapart : ∀ m, Leads f.outer? n m → f.root m ≠ s) {m : NodeId} (hm : Leads f.outer? n m) :
    ¬ f.Own s m :=
  not_or.mpr ⟨Nat.not_le.mpr (hf.lt_of_leads hn hm), hapart m hm⟩

end

/-- **Writes in a scope do not reach what it inherits.**  A scope `s` inherits from `r`, and from
there no scope leads back into its tree.  Operations on nodes of the tree of `s` keep every node of
every other tree as it was, and searches and lookups that start in the tree of `r` find the same
nodes, which are as they were. -/
theorem scopeRun_keeps {f g : Forest} (hf : f.WellFormed) {s r : NodeId}
    (hs : f.inherited? s = some r) (hapart : ∀ m, Leads f.outer? r m → f.root m ≠ s)
    (hrun : ScopeRun f s g) :
    (∀ n < f.size, f.root n ≠ s → g.node n = f.node n) ∧
    ∀ n, f.root n = f.root r → ∀ path limit,
      (∀ result, g.Searches limit n path [] result ↔ f.Searches limit n path [] result) ∧
      (∀ result, f.Searches limit n path [] result → ∀ m ∈ result, g.node m = f.node m) ∧
      (Ends f.outer? n → g.findAll (some n) path limit = f.findAll (some n) path limit) := by
  have hr := hf.own_region s
  obtain ⟨hg, hsame⟩ := hrun.same hf
  refine ⟨fun n hn hroot => hsame n (not_or.mpr ⟨Nat.not_le.mpr hn, hroot⟩),
    fun n hn path limit => ?_⟩
  have hrlt : r < f.size := hf.inRange s r ((inherited?_eq_some_iff f s r).mp hs)
  have hlt : n < f.size := by
    refine Nat.lt_of_not_le fun hle => ?_
    have hroot : f.root n = n := by
      apply WellFormed.root_of_no_parent
      rw [parent?, f.node_of_size_le n hle]
    exact absurd (hf.root_lt hrlt) (by rw [← hn, hroot]; exact Nat.not_lt.mpr hle)
  have haway : ∀ m, Leads f.outer? n m → ¬ f.Own s m := by
    refine fun m hm => hf.not_own_of_leads hlt (fun m hm => ?_) hm
    rcases Relation.ReflTransGen.cases_head hm with rfl | ⟨o, ho, hm⟩
    · rw [hn]
      exact hapart r .refl
    · -- all nodes of a tree lead to the same scope outside
      rw [outer?, hn] at ho
      exact hapart m (.head ho hm)
  refine ⟨hr.searches_iff hsame hg haway limit path [], fun result hres m hm => ?_,
    fun hend => hr.findAll_congr hsame haway hend path limit⟩
  refine hsame m (hr.searches_mem haway hres (isFull_nil limit) ?_ m hm)
  exact fun _ h => absurd h List.not_mem_nil

/-- A scope takes a copy of what it inherits and gives it another key. -/
theorem scopeRun_keeps_merged : ∃ steps f g, Run steps f ∧ f.inherited? 3 = some 0 ∧
    ScopeRun f 3 g ∧ g.keys 3 = ["b"] ∧ g.node 1 = f.node 1 ∧
    g.findAll (some 0) ["a", "x"] 0 = [2] := by
  obtain ⟨steps, f, hrun, hs, htrail, hroot, hone, hlt, hall, g, hscope, hkeys⟩ :
      ∃ steps f, Run steps f ∧ f.inherited? 3 = some 0 ∧ Trail f.outer? 0 [0] ∧ f.root 0 = 0 ∧
        f.root 1 = 0 ∧ 1 < f.size ∧ f.findAll (some 0) ["a", "x"] 0 = [2] ∧
        ∃ g, ScopeRun f 3 g ∧ g.keys 3 = ["b"] :=
    ⟨_, _, .step (.stack 0 []) (.step (.ofArgs [("a.x", .unset)]) .start (by decide)) (by decide),
      by decide, .last (by decide), by decide, by decide, by decide, by decide,
      _, .step (.rekey 4 "b") (.step (.merge 3 (some 1)) .start (by decide)
        (List.forall_mem_singleton.mpr (by decide))) (by decide)
        (List.forall_mem_singleton.mpr (by decide)), by decide +kernel⟩
  have hapart : ∀ m, Leads f.outer? 0 m → f.root m ≠ 3 := by
    intro m hm
    rw [List.mem_singleton.mp (htrail.mem_iff_leads.mpr hm), hroot]
    decide
  obtain ⟨hkeep, hlook⟩ := scopeRun_keeps hrun.wellFormed hs hapart hscope
  have hsame := (hlook 0 rfl ["a", "x"] 0).2.2 ⟨[0], htrail⟩
  exact ⟨steps, f, g, hrun, hs, hscope, hkeys, hkeep 1 hlt (by rw [hone]; decide),
    hsame.trans hall⟩

end LayeredConf.Forest
