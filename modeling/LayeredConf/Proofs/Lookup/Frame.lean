import LayeredConf.Proofs.Lookup.Absolute
import LayeredConf.Proofs.Lookup.Listing

/-!
# Lookups outside of a region

A search reads the children of the nodes that it comes to and the links above them.  When nothing
has changed outside of a region, a search that stays outside of it finds what it found before.

    Region.root_congr        nodes outside have the same root
    Region.searches_iff      searches that stay outside find the same
    Region.searches_mem      and find nodes outside
    Region.findAll_congr     so do lookups
-/

namespace LayeredConf.Forest

section

variable {P : NodeId → Prop} {f g : Forest} {n : NodeId}

/-! ## Climbing -/

theorem Region.lineage_iff (hr : f.Region P) {x : NodeId} (hx : x ∈ f.lineage n) : P x ↔ P n := by
  have hwalk := hr.walk_lineage x
  rw [hr.root_of_mem_lineage hx] at hwalk
  exact (hr.walk_iff hwalk).symm.trans (hr.walk_iff (hr.walk_lineage n))

variable (hr : f.Region P) (hsame : ∀ m, ¬ P m → g.node m = f.node m)

include hr hsame

theorem Region.lineage_congr (hn : ¬ P n) : g.lineage n = f.lineage n := by
  refine WellFormed.lineage_of_trail ((hr.lineage_trail n).congr fun x hx => parent?_congr ?_)
  unfold link
  rw [hsame x fun hp => hn ((hr.lineage_iff hx).mp hp)]

theorem Region.root_congr (hn : ¬ P n) : g.root n = f.root n := by
  unfold root
  rw [hr.lineage_congr hsame hn]

theorem Region.path_congr (hn : ¬ P n) : g.path n = f.path n := by
  unfold path
  rw [hr.lineage_congr hsame hn, List.map_congr_left]
  intro x hx
  unfold key
  rw [hsame x fun hp => hn ((hr.lineage_iff ((List.dropLast_sublist _).subset hx)).mp hp)]

theorem Region.outer_congr (hn : ¬ P n) : g.outer? n = f.outer? n := by
  have hroot : ¬ P (f.root n) := fun hp => hn ((hr.lineage_iff (hr.root_mem_lineage n)).mp hp)
  rw [outer?, outer?, hr.root_congr hsame hn, inherited?, inherited?, hsame _ hroot]

/-! ## Searching -/

omit hr hsame in
/-- Scopes lead from nodes of the forest to nodes of the forest. -/
theorem WellFormed.lt_of_leads (hf : f.WellFormed) (hn : n < f.size) {m : NodeId}
    (hm : Leads f.outer? n m) : m < f.size := by
  cases hm with
  | refl => exact hn
  | tail _ hs => exact hf.inRange _ m ((inherited?_eq_some_iff f _ m).mp hs)

theorem Region.matchBelow_congr (limit : Nat) (path : List String) (found : List NodeId)
    (hn : ¬ P n) : g.matchBelow limit path n found = f.matchBelow limit path n found := by
  induction path generalizing n found with
  | nil => rfl
  | cons k ks ih =>
    have hbranches : g.branches k n = f.branches k n := by
      unfold branches childIds child children
      rw [hsame n hn]
    rw [matchBelow_cons, matchBelow_cons, hbranches]
    refine List.foldl_ext _ _ _ fun found c hc => ?_
    obtain ⟨k', hk', -⟩ := (mem_branches_iff hr.toWellFormed k n c).mp hc
    rw [ih found fun hp => hn ((hr.closed n k' c hk').mpr hp)]

theorem Region.outerPath_congr (path : List String) (hn : ¬ P n) :
    g.outerPath n path = f.outerPath n path := by
  rw [outerPath_eq, outerPath_eq, hr.path_congr hsame hn]

/-- A search that stays outside of the region. -/
theorem Region.searches_of (hn : ∀ m, Leads f.outer? n m → ¬ P m) {limit : Nat}
    {path : List String} {found result : List NodeId}
    (h : f.Searches limit n path found result) : g.Searches limit n path found result := by
  induction h with
  | @full n path found hfull =>
    rw [← hr.matchBelow_congr hsame limit path found (hn n .refl)] at hfull ⊢
    exact .full hfull
  | @last n path found hfull ho =>
    rw [← hr.matchBelow_congr hsame limit path found (hn n .refl)] at hfull ⊢
    exact .last hfull ((hr.outer_congr hsame (hn n .refl)).trans ho)
  | @outward n o path found result hfull ho _ ih =>
    have hrest := ih fun m hm => hn m (.head ho hm)
    rw [← hr.outerPath_congr hsame path (hn n .refl)] at hrest
    rw [← hr.matchBelow_congr hsame limit path found (hn n .refl)] at hfull hrest
    exact .outward hfull ((hr.outer_congr hsame (hn n .refl)).trans ho) hrest

theorem Region.leads_iff (hn : ∀ m, Leads f.outer? n m → ¬ P m) (m : NodeId) :
    Leads g.outer? n m ↔ Leads f.outer? n m := by
  constructor
  · intro h
    induction h with
    | refl => exact .refl
    | tail _ hs ih => exact ih.tail ((hr.outer_congr hsame (hn _ ih)).symm.trans hs)
  · intro h
    induction h with
    | refl => exact .refl
    | tail hl hs ih => exact ih.tail ((hr.outer_congr hsame (hn _ hl)).trans hs)

theorem Region.searches_iff (hg : g.Region P) (hn : ∀ m, Leads f.outer? n m → ¬ P m)
    (limit : Nat) (path : List String) (found result : List NodeId) :
    g.Searches limit n path found result ↔ f.Searches limit n path found result := by
  refine ⟨hg.searches_of (fun m hm => (hsame m hm).symm) fun m hm => hn m ?_,
    hr.searches_of hsame hn⟩
  exact (hr.leads_iff hsame hn m).mp hm

omit hsame in
theorem Region.searches_mem (hn : ∀ m, Leads f.outer? n m → ¬ P m) {limit : Nat}
    {path : List String} {found result : List NodeId}
    (h : f.Searches limit n path found result) (hfull : isFull limit found = false)
    (hfound : ∀ m ∈ found, ¬ P m) : ∀ m ∈ result, ¬ P m := by
  have hmatch : ∀ n path found, isFull limit found = false → (∀ m ∈ found, ¬ P m) → ¬ P n →
      ∀ m ∈ f.matchBelow limit path n found, ¬ P m := by
    intro n path found hfull hfound hn m hm
    rw [f.matchBelow_eq limit path n found hfull] at hm
    rcases List.mem_append.mp (mem_of_mem_upTo hm) with hm | hm
    · exact hfound m hm
    · obtain ⟨ks, hks, -⟩ := (mem_matchesBelow_iff hr.toWellFormed path n m).mp hm
      exact fun hp => hn ((hr.walk_iff hks).mpr hp)
  induction h with
  | full _ => exact hmatch _ _ _ hfull hfound (hn _ .refl)
  | last _ _ => exact hmatch _ _ _ hfull hfound (hn _ .refl)
  | outward hgo ho _ ih =>
    exact ih (fun m hm => hn m (.head ho hm)) hgo (hmatch _ _ _ hfull hfound (hn _ .refl))

theorem Region.ends_congr (hn : ∀ m, Leads f.outer? n m → ¬ P m) (hend : Ends f.outer? n) :
    Ends g.outer? n := by
  obtain ⟨l, hl⟩ := hend
  exact ⟨l, hl.congr fun x hx => hr.outer_congr hsame (hn x (hl.mem_iff_leads.mp hx))⟩

theorem Region.findAll_congr (hn : ∀ m, Leads f.outer? n m → ¬ P m) (hend : Ends f.outer? n)
    (path : List String) (limit : Nat) :
    g.findAll (some n) path limit = f.findAll (some n) path limit := by
  by_cases hpath : path = []
  · simp [findAll, hpath]
  · obtain ⟨result, h⟩ := f.exists_searches limit n hend path []
    rw [f.findAll_of_searches limit n path result hend hpath h,
      g.findAll_of_searches limit n path result (hr.ends_congr hsame hn hend) hpath
        (hr.searches_of hsame hn h)]

/-- The node that a lookup finds is as it was. -/
theorem Region.find?_map_congr {α : Type} (field : Node → α)
    (hn : ∀ m, Leads f.outer? n m → ¬ P m) (hend : Ends f.outer? n) {path : List String}
    (hpath : path ≠ []) :
    (g.find? (some n) path).map (fun m => field (g.node m)) =
      (f.find? (some n) path).map fun m => field (f.node m) := by
  rw [find?, find?, hr.findAll_congr hsame hn hend path 1]
  refine Option.map_congr fun m hm => ?_
  obtain ⟨result, h⟩ := f.exists_searches 1 n hend path []
  rw [f.findAll_of_searches 1 n path result hend hpath h] at hm
  have hout := hr.searches_mem hn h (isFull_nil 1) (fun _ hm => absurd hm List.not_mem_nil) m
    (List.mem_of_mem_head? hm)
  rw [hsame m hout]

end

end LayeredConf.Forest
