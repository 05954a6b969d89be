import LayeredConf.Lookup
import LayeredConf.Proofs.Forest.Run

/-!
# Links

A link leads up: from a child to its parent, and from the root of a scope to the root that it
inherits from.  Scopes come to an end from every node if links do.  No edit can spoil that; only
`attach` can, and it does when a node is put below one that leads up to it.  It refuses to do so
along parents, and along no other links.

    LeadsUp f n m               links lead from `n` to `m`
    scopesEnd_iff               scopes end from every node just when links do
    Edits.linksEnd              edits keep it so
    linksEnd_insertChild        `insertChild p c` does when `p` does not lead up to `c`
    not_linksEnd_insertChild    and does not when it does
-/

namespace LayeredConf.Forest

/-- The node that a node's link leads to. -/
def above? (f : Forest) (n : NodeId) : Option NodeId :=
  match f.link n with
  | .detached => none
  | .child p => some p
  | .scope outer => outer

def LeadsUp (f : Forest) : NodeId → NodeId → Prop := Leads f.above?

/-- Do the scopes outside of every node come to an end? -/
def ScopesEnd (f : Forest) : Prop := ∀ n, Ends f.outer? n

def LinksEnd (f : Forest) : Prop := ∀ n, Ends f.above? n

section

variable {f g : Forest} {n p : NodeId}

theorem above?_of_link (h : f.link n = .child p) : f.above? n = some p := by
  unfold above?
  rw [h]

theorem above?_congr (h : g.link n = f.link n) : g.above? n = f.above? n := by
  unfold above?
  rw [h]

theorem above?_of_detached (h : f.link n = .detached) : f.above? n = none := by
  unfold above?
  rw [h]

/-- Without a parent, a link leads to what the node inherits from. -/
theorem above?_of_no_parent (h : f.parent? n = none) : f.above? n = f.inherited? n := by
  rw [parent?_eq_none_iff] at h
  unfold above? inherited?
  rw [show (f.node n).link = f.link n from rfl]
  cases hl : f.link n with
  | detached => rfl
  | child p => exact absurd hl (h p)
  | scope outer => rfl

theorem WellFormed.lt_of_above (hf : f.WellFormed) (h : f.above? n = some p) : p < f.size := by
  cases hl : f.link n with
  | detached =>
    rw [above?_of_detached hl] at h
    cases h
  | child q =>
    rw [above?_of_link hl] at h
    cases h
    exact hf.lt_of_parent hl
  | scope outer =>
    unfold above? at h
    rw [hl] at h
    exact hf.inRange n p (by rw [hl]; exact congrArg _ h)

/-! ## Scopes and links -/

theorem WellFormed.outer_of_parent (hf : f.WellFormed) (h : f.parent? n = some p) :
    f.outer? n = f.outer? p := by
  unfold outer?
  rw [hf.root_of_parent h]

theorem WellFormed.outer_of_walk (hf : f.WellFormed) {ks : List String}
    (h : f.walk n ks = some m) : f.outer? m = f.outer? n := by
  rw [outer?, outer?, hf.root_of_walk h]

theorem outer_of_no_parent (h : f.parent? n = none) : f.outer? n = f.above? n := by
  unfold outer?
  rw [WellFormed.root_of_no_parent h, above?_of_no_parent h]

/-- Links end where the scope outside leads to an end. -/
theorem WellFormed.ends_above (hf : f.WellFormed)
    (h : ∀ o, f.outer? n = some o → Ends f.above? o) : Ends f.above? n := by
  obtain ⟨l, hl⟩ := hf.climbs n
  induction hl with
  | last hn => exact .of_next fun o ho => h o (by rw [outer_of_no_parent hn, ho])
  | step hs _ ih =>
    refine .of_some (above?_of_link ((parent?_eq_some_iff f _ _).mp hs)) (ih fun o ho => h o ?_)
    rw [hf.outer_of_parent hs, ho]

theorem WellFormed.scopesEnd_iff (hf : f.WellFormed) : f.ScopesEnd ↔ f.LinksEnd := by
  constructor
  · intro h n
    obtain ⟨l, hl⟩ := h n
    induction hl with
    | last hn =>
      refine hf.ends_above fun o ho => ?_
      rw [hn] at ho
      cases ho
    | step hs _ ih =>
      refine hf.ends_above fun o ho => ?_
      rw [hs] at ho
      cases ho
      exact ih
  · intro h n
    obtain ⟨l, hl⟩ := h n
    induction hl with
    | @last x hn =>
      apply Ends.of_none
      have hp : f.parent? x = none := by
        rw [parent?_eq_none_iff]
        intro p hp
        rw [above?_of_link hp] at hn
        cases hn
      rw [outer_of_no_parent hp, hn]
    | @step x y l hs _ ih =>
      cases hp : f.parent? x with
      | none => exact .of_some (by rw [outer_of_no_parent hp, hs]) ih
      | some p =>
        rw [above?_of_link ((parent?_eq_some_iff f x p).mp hp)] at hs
        cases hs
        exact .of_next fun o ho => ih.of_eq_some (by rw [← hf.outer_of_parent hp, ho])

/-! ## Edits -/

theorem WellFormed.above_insertChild (hf : f.WellFormed) (p c m : NodeId) (hc : c < f.size) :
    (f.insertChild p c).above? m =
      if m = c then some p else if f.child p (f.key c) = some m then none else f.above? m := by
  have hl := hf.link_insertChild p c m hc
  by_cases hm : m = c
  · rw [if_pos hm] at hl ⊢
    exact above?_of_link hl
  · rw [if_neg hm] at hl ⊢
    by_cases hd : f.child p (f.key c) = some m
    · rw [if_pos hd] at hl ⊢
      exact above?_of_detached hl
    · rw [if_neg hd] at hl ⊢
      exact above?_congr hl

/-- A node moves below one that does not lead up to it. -/
theorem WellFormed.linksEnd_insertChild (hf : f.WellFormed) (p c : NodeId) (hc : c < f.size)
    (h : f.LinksEnd) (hup : ¬ f.LeadsUp p c) : (f.insertChild p c).LinksEnd := by
  intro n
  obtain ⟨l, hl⟩ := h p
  refine Ends.redirect (c := c) hl (fun hm => hup (hl.mem_iff_leads.mp hm)) (fun x hx => ?_)
    ?_ (h n)
  · rw [hf.above_insertChild p c x hc, if_neg hx]
    split
    · exact Or.inr rfl
    · exact Or.inl rfl
  · rw [hf.above_insertChild p c c hc, if_pos rfl]

/-- After a new node, links still lead to nodes that were there before. -/
theorem WellFormed.lt_of_above_alloc (hf : f.WellFormed) (k : String) (v : Value) (l : Link)
    (hl : ∀ p, l ≠ .child p) (hr : ∀ r, l = .scope (some r) → r < f.size) {x y : NodeId}
    (h : (f.alloc k v l).1.above? x = some y) : y < f.size := by
  by_cases hx : x = f.size
  · have hnew : (f.alloc k v l).1.link x = l := by
      unfold link
      rw [node_alloc, if_pos hx]
    rw [above?, hnew] at h
    cases l with
    | detached => cases h
    | child p => exact absurd rfl (hl p)
    | scope outer => exact hr y (congrArg _ h)
  · rw [above?_congr (show (f.alloc k v l).1.link x = f.link x by
      unfold link; rw [node_alloc, if_neg hx])] at h
    exact hf.lt_of_above h

theorem WellFormed.linksEnd_alloc (hf : f.WellFormed) (k : String) (v : Value) (l : Link)
    (hl : ∀ p, l ≠ .child p) (hr : ∀ r, l = .scope (some r) → r < f.size) (h : f.LinksEnd) :
    (f.alloc k v l).1.LinksEnd := by
  intro n
  refine .of_next fun m hm => ?_
  have hlt := hf.lt_of_above_alloc k v l hl hr hm
  obtain ⟨t, ht⟩ := h m
  refine ht.ends_of_avoids (c := f.size) (fun hmem => ?_) fun x hx => Or.inl (above?_congr ?_)
  · obtain ⟨x, -, hx⟩ := ht.exists_before hmem (Nat.ne_of_gt hlt)
    exact absurd (hf.lt_of_above hx) (Nat.lt_irrefl _)
  · unfold link
    rw [node_alloc, if_neg hx]

theorem WellFormed.linksEnd_addChild (hf : f.WellFormed) (n : NodeId) (k : String)
    (hn : n < f.size) (h : f.LinksEnd) : (f.addChild n k).1.LinksEnd := by
  have hnew : (f.newNode k .unset).1.LinksEnd :=
    hf.linksEnd_alloc k .unset .detached (fun _ => Link.noConfusion) (fun _ => Link.noConfusion) h
  have hlt : f.size < (f.newNode k .unset).1.size := by
    unfold Forest.newNode
    rw [size_alloc]
    exact Nat.lt_succ_self _
  refine (hf.newNode k .unset).linksEnd_insertChild n f.size hlt hnew ?_
  obtain ⟨l, hl⟩ := hnew n
  rw [LeadsUp, ← hl.mem_iff_leads]
  intro hm
  -- nothing leads to the new node yet
  obtain ⟨x, -, hx⟩ := hl.exists_before hm (Nat.ne_of_gt hn)
  exact absurd (hf.lt_of_above_alloc k .unset .detached (fun _ => Link.noConfusion)
    (fun _ => Link.noConfusion) hx) (Nat.lt_irrefl _)

theorem WellFormed.link_rekey (hf : f.WellFormed) (n m : NodeId) (k : String) :
    (f.rekey n k).link m = f.link m ∨ (f.rekey n k).link m = .detached := by
  unfold Forest.rekey
  split
  · next p hp =>
    have hl := (parent?_eq_some_iff f n p).mp hp
    have hlt := hf.lt_of_child (hf.listed n p hl)
    rw [(hf.release_setKey hl k).link_insertChild p n m (by rwa [size_modify, size_release])]
    by_cases hm : m = n
    · left
      rw [if_pos hm, hm, hl]
    · rw [if_neg hm, hf.link_release_setKey hl, if_neg hm]
      split
      · exact Or.inr rfl
      · exact Or.inl rfl
  · exact Or.inl rfl

theorem LinksEnd.of_link (h : f.LinksEnd)
    (hl : ∀ m, g.link m = f.link m ∨ g.link m = .detached) : g.LinksEnd :=
  fun n => (h n).mono fun m => (hl m).imp above?_congr above?_of_detached

theorem Edit.linksEnd {P : NodeId → Prop} (he : Edit P f g) (hf : f.WellFormed)
    (h : f.LinksEnd) : g.LinksEnd := by
  cases he with
  | write n g hkey hlink hchildren =>
    exact h.of_link fun m => Or.inl (field_modify_of_eq Node.link f n m g hlink)
  | create k v l hl hr => exact hf.linksEnd_alloc k v l hl hr h
  | addChild n k hn => exact hf.linksEnd_addChild n k hn h
  | sort n => exact h.of_link fun m => Or.inl (field_modify_of_eq Node.link f n m _ fun _ => rfl)
  | release p k =>
    refine h.of_link fun m => ?_
    rw [link_release]
    split
    · exact Or.inr rfl
    · exact Or.inl rfl
  | rekey n k => exact h.of_link fun m => hf.link_rekey n m k

theorem Edits.linksEnd {P : NodeId → Prop} (he : Edits P f g) (hf : f.WellFormed)
    (h : f.LinksEnd) : g.LinksEnd := by
  induction he with
  | refl => exact h
  | tail hs he ih => exact he.linksEnd (Edits.wellFormed hs hf) ih

/-! ## Giving a node a new parent -/

/-- A node put below one that leads up to it closes a loop. -/
theorem WellFormed.not_linksEnd_insertChild (hf : f.WellFormed) (p c : NodeId) (hc : c < f.size)
    (h : f.LinksEnd) (hup : f.LeadsUp p c) : ¬ (f.insertChild p c).LinksEnd := by
  have hleads : ∀ a l, Trail f.above? a l → c ∈ l → (∀ x ∈ l, f.child p (f.key c) ≠ some x) →
      Leads (f.insertChild p c).above? a c := by
    intro a l hl
    induction hl with
    | last _ =>
      intro hc _
      rw [List.mem_singleton.mp hc]
      exact .refl
    | @step x y l hs _ ih =>
      intro hmem hdis
      by_cases hx : x = c
      · rw [hx]
        exact .refl
      · refine .head ?_ (ih ((List.mem_cons.mp hmem).resolve_left (Ne.symm hx))
          fun z hz => hdis z (List.mem_cons_of_mem _ hz))
        rw [hf.above_insertChild p c x hc, if_neg hx, if_neg (hdis x List.mem_cons_self), hs]
  intro hend
  obtain ⟨l, hl⟩ := h p
  refine (hend p).not_leads (a := c) (by rw [hf.above_insertChild p c c hc, if_pos rfl]) ?_
  refine hleads p l hl (hl.mem_iff_leads.mpr hup) fun x hx hd => ?_
  -- the sibling that is displaced comes before `p` and not after it
  exact hl.not_mem_of_next (above?_of_link (hf.link_of_child hd)) hx

end

end LayeredConf.Forest
