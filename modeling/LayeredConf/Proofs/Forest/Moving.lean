import LayeredConf.Proofs.Forest.Run
import Mathlib.Data.List.Induction

/-!
# Moving nodes

`attach` fails just when the node that is to move is the receiver or lies above it.  Otherwise the
node comes to the end of the receiver's children with all that is below it; its old parent loses
one entry, and a child of the receiver with its key is set free.  Old parent, receiver and the child
that is set free can be related, or be one, so the move is described field by field for all nodes.

    Moved f p c g        `g` is `f` with `c` moved below `p`
    insertChild_moved    what `insertChild` does
    Moved.below          what is below `c` is left as it is
    Moved.walk_free      below the child that is set free all is as it was, but for `c`
    attach_moves         `attach` moves the node or fails
-/

namespace LayeredConf.Forest

/-- The node `c` has become the last child of `p`, in place of a child of `p` with its key. -/
structure Moved (f : Forest) (p c : NodeId) (g : Forest) : Prop where
  wellFormed : g.WellFormed
  size_eq : g.size = f.size
  kept : ∀ m, g.key m = f.key m ∧ g.value m = f.value m ∧ (g.node m).flags = (f.node m).flags
  children_receiver : g.children p =
    { childMap := (f.children p).childMap.filter (·.1 ≠ f.key c) ++ [(f.key c, c)]
      childOrder := (f.children p).childOrder.filter (· ≠ f.key c) ++ [f.key c] }
  /-- The old parent loses one entry, and its key in the order. -/
  children_former : ∀ q, q ≠ p → f.link c = .child q → g.children q =
    { childMap := (f.children q).childMap.erase (f.key c, c)
      childOrder := (f.children q).childOrder.erase (f.key c) }
  children_others : ∀ m, m ≠ p → f.link c ≠ .child m → g.children m = f.children m
  link_self : g.link c = .child p
  link_free : ∀ d, d ≠ c → f.child p (f.key c) = some d → g.link d = .detached
  link_others : ∀ m, m ≠ c → f.child p (f.key c) ≠ some m → g.link m = f.link m

/-! ## The fields of nodes -/

/-- Fields other than links and children are kept. -/
theorem field_release {α : Type} (field : Node → α)
    (h : ∀ x l cs, field { x with link := l, toChildren := cs } = field x) (f : Forest)
    (p m : NodeId) (k : String) : field ((f.release p k).node m) = field (f.node m) := by
  unfold release
  split
  · rfl
  · next c _ =>
    exact (field_modify_of_eq field _ c m ({ · with link := .detached })
      fun x => h x .detached x.toChildren).trans
      (field_modify_of_eq field f p m (fun x => { x with toChildren := x.toChildren.erase k })
        fun x => h x x.link _)

theorem field_insertChild {α : Type} (field : Node → α)
    (h : ∀ x l cs, field { x with link := l, toChildren := cs } = field x) (f : Forest)
    (p c m : NodeId) : field ((f.insertChild p c).node m) = field (f.node m) := by
  have hdetach : field ((f.detach c).node m) = field (f.node m) := by
    unfold detach
    split
    · exact field_release field h f _ m _
    · rfl
  unfold insertChild
  rw [field_modify_of_eq field _ c m ({ · with link := .child p }) fun x => h x _ x.toChildren,
    modifyChildren, field_modify_of_eq field _ p m
      (fun x => { x with toChildren := x.toChildren.insert (f.key c) c }) fun x => h x x.link _,
    field_release field h, hdetach]

/-- Without its key an entry is gone, and nothing else. -/
theorem filter_ne_eq_erase {l : List (String × NodeId)} (h : (l.map (·.1)).Nodup) {k : String}
    {c : NodeId} (hc : (k, c) ∈ l) : l.filter (·.1 ≠ k) = l.erase (k, c) := by
  rw [(List.Nodup.of_map _ h).erase_eq_filter]
  refine List.filter_congr fun e he => ?_
  have hiff : e.1 = k ↔ e = (k, c) := by
    constructor
    · rintro rfl
      have hfirst := (Record.lookup_eq_some_iff_mem l h e.1 c).mpr hc
      rw [(Record.lookup_eq_some_iff_mem l h e.1 e.2).mpr he] at hfirst
      exact Prod.ext rfl (Option.some.inj hfirst)
    · rintro rfl
      rfl
  rw [Bool.eq_iff_iff, decide_eq_true_iff, bne_iff_ne]
  exact not_congr hiff

section

variable {f g : Forest} {p c d m : NodeId}

theorem insertChild_moved (hf : f.WellFormed) (hp : p < f.size) (hc : c < f.size)
    (hup : ¬ Leads f.parent? p c) : Moved f p c (f.insertChild p c) where
  wellFormed := hf.insertChild p c hp hc fun l hl hmem => hup (hl.mem_iff_leads.mp hmem)
  size_eq := size_insertChild f p c
  kept m := ⟨key_insertChild f p c m, field_insertChild Node.value (fun _ _ _ => rfl) f p c m,
    field_insertChild Node.flags (fun _ _ _ => rfl) f p c m⟩
  children_receiver := by
    rw [children_insertChild f p c p hf.agrees hp, if_pos rfl,
      Children.insert_of_free (by simp) c, Children.append, (hf.agrees p).order_erase]
    rfl
  children_former q hq hl := by
    have hmem := (hf.agrees q).get?_eq_some_iff_mem.mp (hf.listed c q hl)
    rw [children_insertChild f p c q hf.agrees hp, if_neg hq, if_pos hl, Children.erase,
      filter_ne_eq_erase (hf.agrees q).distinctMap hmem]
  children_others m hm hl := by
    rw [children_insertChild f p c m hf.agrees hp, if_neg hm, if_neg hl]
  link_self := by rw [hf.link_insertChild p c c hc, if_pos rfl]
  link_free d hd hchild := by rw [hf.link_insertChild p c d hc, if_neg hd, if_pos hchild]
  link_others m hm hchild := by rw [hf.link_insertChild p c m hc, if_neg hm, if_neg hchild]

/-! ## Whole nodes -/

namespace Moved

variable (h : Moved f p c g)

include h

/-- No other node is touched. -/
theorem same (hp : m ≠ p) (hc : m ≠ c) (hformer : f.link c ≠ .child m)
    (hfree : f.child p (f.key c) ≠ some m) : g.node m = f.node m := by
  obtain ⟨hkey, hvalue, hflags⟩ := h.kept m
  exact node_eq_of_fields hkey hvalue hflags (h.link_others m hc hfree)
    (h.children_others m hp hformer)

variable (hf : f.WellFormed)

include hf

theorem child_iff (hm : m ≠ p) (k : String) (x : NodeId) :
    g.child m k = some x ↔ f.child m k = some x ∧ x ≠ c := by
  by_cases hl : f.link c = .child m
  · have hdistinct := List.Nodup.of_map _ (hf.agrees m).distinctMap
    rw [child, child, (h.wellFormed.agrees m).get?_eq_some_iff_mem, h.children_former m hm hl,
      (hf.agrees m).get?_eq_some_iff_mem, hdistinct.mem_erase_iff, and_comm]
    refine and_congr_right fun hmem => not_congr ?_
    rw [Prod.mk.injEq, and_iff_right_iff_imp]
    rintro rfl
    exact (hf.key_of_child ((hf.agrees m).get?_eq_some_iff_mem.mpr hmem)).symm
  · rw [child_congr (h.children_others m hm hl)]
    refine (and_iff_left_of_imp fun hchild => ?_).symm
    rintro rfl
    exact hl (hf.link_of_child hchild)

variable (hup : ¬ Leads f.parent? p c)

include hup

/-- What is below the node moves with it, as it is. -/
theorem below (hc : m ≠ c) (hm : Leads f.parent? m c) : g.node m = f.node m := by
  refine h.same ?_ hc (fun hl => ?_) fun hchild => ?_
  · rintro rfl
    exact hup hm
  · exact (hf.climbs m).not_leads ((parent?_eq_some_iff f c m).mpr hl) hm
  · -- from a child of the receiver the way up is by the receiver
    rcases Relation.ReflTransGen.cases_head hm with rfl | ⟨q, hq, hrest⟩
    · exact hc rfl
    · rw [hf.parent_of_child hchild] at hq
      cases hq
      exact hup hrest

/-- Below the child that is set free all is as it was, but for the node that has moved. -/
theorem walk_free (hd : d ≠ c) (hchild : f.child p (f.key c) = some d) (ks : List String)
    (m : NodeId) : g.walk d ks = some m ↔ f.walk d ks = some m ∧ ¬ Leads f.parent? m c := by
  have hparent : f.parent? d = some p := hf.parent_of_child hchild
  have hreceiver : ∀ ks, f.walk d ks ≠ some p := fun ks hks =>
    (hf.lineage_trail p).not_mem_of_next hparent (hf.mem_lineage_of_walk hks)
  have hstep : ∀ {x m : NodeId} {k : String}, f.child x k = some m →
      (¬ Leads f.parent? m c ↔ m ≠ c ∧ ¬ Leads f.parent? x c) := by
    intro x m k hx
    rw [← not_or, not_iff_not]
    constructor
    · intro hm
      rcases Relation.ReflTransGen.cases_head hm with rfl | ⟨q, hq, hrest⟩
      · exact Or.inl rfl
      · rw [hf.parent_of_child hx] at hq
        cases hq
        exact Or.inr hrest
    · rintro (rfl | hm)
      · exact .refl
      · exact .head (hf.parent_of_child hx) hm
  induction ks using List.reverseRecOn generalizing m with
  | nil =>
    show some d = some m ↔ some d = some m ∧ _
    refine (and_iff_left_of_imp ?_).symm
    rintro ⟨⟩
    exact (hstep hchild).mpr ⟨hd, hup⟩
  | append_singleton ks k ih =>
    rw [walk_concat_eq_some_iff, walk_concat_eq_some_iff]
    constructor
    · rintro ⟨x, hx, hm⟩
      obtain ⟨hwalk, hxc⟩ := (ih x).mp hx
      have hxp : x ≠ p := fun he => hreceiver ks (he ▸ hwalk)
      obtain ⟨hm, hmc⟩ := (h.child_iff hf hxp k m).mp hm
      exact ⟨⟨x, hwalk, hm⟩, (hstep hm).mpr ⟨hmc, hxc⟩⟩
    · rintro ⟨⟨x, hwalk, hm⟩, hup⟩
      obtain ⟨hmc, hxc⟩ := (hstep hm).mp hup
      have hxp : x ≠ p := fun he => hreceiver ks (he ▸ hwalk)
      exact ⟨x, (ih x).mpr ⟨hwalk, hxc⟩, (h.child_iff hf hxp k m).mpr ⟨hm, hmc⟩⟩

end Moved

end

/-- **A move is of one subtree, or of none.**  `attach` fails just when parents lead from the
receiver to the node, which may be the receiver, and then nothing changes.  Otherwise the node
becomes the receiver's last child; its old parent loses one entry, and a child of the receiver with
its key is set free with what is below it, less the node.  All that is below the node is left as it
is, and so is every node but these four. -/
theorem attach_moves {f : Forest} (hf : f.WellFormed) {p c : NodeId} (hp : p < f.size)
    (hc : c < f.size) :
    (∀ e, f.attach p c = .error e ↔ e = .ownSubtree (f.key c) ∧ Leads f.parent? p c) ∧
    (Leads f.parent? p c → (Operation.attach p c).apply f = f) ∧
    (¬ Leads f.parent? p c → ∃ g, f.attach p c = .ok g ∧ Moved f p c g ∧
      g.child p (f.key c) = some c ∧
      (∀ d, d ≠ c → f.child p (f.key c) = some d → ∀ ks m,
        g.walk d ks = some m ↔ f.walk d ks = some m ∧ ¬ Leads f.parent? m c) ∧
      (∀ m, m ≠ c → Leads f.parent? m c → g.node m = f.node m) ∧
      ∀ m, m ≠ p → m ≠ c → f.link c ≠ .child m → f.child p (f.key c) ≠ some m →
        g.node m = f.node m) := by
  have hleads : c ∈ f.lineage p ↔ Leads f.parent? p c := (hf.lineage_trail p).mem_iff_leads
  have hattach : f.attach p c = if c ∈ f.lineage p then .error (.ownSubtree (f.key c))
      else .ok (f.insertChild p c) := rfl
  refine ⟨fun e => ?_, fun hup => ?_, fun hup => ?_⟩
  · rw [hattach]
    by_cases hup : c ∈ f.lineage p
    · rw [if_pos hup, Except.error.injEq, eq_comm, and_iff_left (hleads.mp hup)]
    · rw [if_neg hup]
      exact iff_of_false nofun fun h => hup (hleads.mpr h.2)
  · rw [apply_attach, if_pos (hleads.mpr hup)]
  · have hmoved := insertChild_moved hf hp hc hup
    refine ⟨_, by rw [hattach, if_neg fun h => hup (hleads.mp h)], hmoved, ?_, ?_, ?_, ?_⟩
    · rw [child_insertChild f p c p _ hp, if_pos ⟨rfl, rfl⟩]
    · exact fun d hd hchild ks m => hmoved.walk_free hf hup hd hchild ks m
    · exact fun m hm hbelow => hmoved.below hf hup hm hbelow
    · exact fun m => hmoved.same

/-- A node takes the place of its parent, which is set free with another child. -/
theorem attach_moves_up : ∃ steps f g, Run steps f ∧ f.children 0 = ⟨[("a", 1)], ["a"]⟩ ∧
    f.children 1 = ⟨[("b", 2), ("a", 3)], ["b", "a"]⟩ ∧ f.children 3 = ⟨[("x", 4)], ["x"]⟩ ∧
    f.attach 0 3 = .ok g ∧ g.children 0 = ⟨[("a", 3)], ["a"]⟩ ∧ g.link 1 = .detached ∧
    g.children 1 = ⟨[("b", 2)], ["b"]⟩ ∧ g.walk 1 ["b"] = some 2 ∧ g.node 4 = f.node 4 := by
  obtain ⟨steps, f, hrun, hsize, hzero, hone, hthree, hkey, hlink, hlineage, hlineage₂,
      hlineage₄⟩ : ∃ steps f, Run steps f ∧ f.size = 5 ∧ f.children 0 = ⟨[("a", 1)], ["a"]⟩ ∧
        f.children 1 = ⟨[("b", 2), ("a", 3)], ["b", "a"]⟩ ∧ f.children 3 = ⟨[("x", 4)], ["x"]⟩ ∧
        f.key 3 = "a" ∧ f.link 3 = .child 1 ∧ f.lineage 0 = [0] ∧ f.lineage 2 = [2, 1, 0] ∧
        f.lineage 4 = [4, 3, 1, 0] :=
    ⟨_, _, .step (.ofArgs [("a.b", .unset), ("a.a.x", .unset)]) .start (by decide), by decide,
      by decide, by decide, by decide, by decide, by decide, by decide, by decide, by decide⟩
  have hf := hrun.wellFormed
  have hleads (n m : NodeId) : m ∈ f.lineage n ↔ Leads f.parent? n m :=
    (hf.lineage_trail n).mem_iff_leads
  obtain ⟨-, -, hok⟩ := attach_moves hf (show 0 < f.size by omega) (show 3 < f.size by omega)
  obtain ⟨g, hattach, hmoved, -, hfree, hbelow, -⟩ := hok (by rw [← hleads, hlineage]; decide)
  have hchild : f.child 0 (f.key 3) = some 1 := by rw [child, hzero, hkey]; rfl
  refine ⟨steps, f, g, hrun, hzero, hone, hthree, hattach, ?_,
    hmoved.link_free 1 (by decide) hchild, ?_, (hfree 1 (by decide) hchild ["b"] 2).mpr ⟨?_, ?_⟩,
    hbelow 4 (by decide) ((hleads 4 3).mp (by rw [hlineage₄]; decide))⟩
  · rw [hmoved.children_receiver, hzero, hkey]
    rfl
  · rw [hmoved.children_former 1 (by decide) hlink, hone, hkey]
    decide
  · rw [walk, child, hone]
    rfl
  · rw [← hleads, hlineage₂]
    decide

end LayeredConf.Forest
