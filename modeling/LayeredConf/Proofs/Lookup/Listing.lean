import Mathlib.Data.List.Forall2
import Mathlib.Data.List.Nodup
import LayeredConf.Proofs.Lookup.Matches

/-!
# The order of matches

Without a limit, a lookup lists the nodes of one scope after the other.  In one scope it lists the
nodes whose path of keys fits the path that is asked for, and no node twice; they stand in the order
of their paths, where the first keys that differ decide.

    Fits                a key of a path that is asked for and a key that it matches
    Precedes            the order of paths of keys below a node
    matchesBelow_lists  the matches in one scope are such a list
    findAll_lists       and those of a lookup are one such list for each of its scopes
-/

namespace LayeredConf.Forest

/-- `*` matches every key and is matched by every key; any other key matches itself. -/
def Fits (asked k : String) : Prop := asked = wildcard ∨ k = asked ∨ k = wildcard

/-- Where a key comes among those that match: `*` takes the children of a node in their order, any
other key comes before a child under the key `*`. -/
def rank (f : Forest) (n : NodeId) (asked k : String) : Nat :=
  if asked = wildcard then (f.keys n).idxOf k else if k = asked then 0 else 1

/-- The order of paths of keys below a node: that of the first keys that differ. -/
inductive Precedes (f : Forest) :
    NodeId → List String → List String → List String → Prop
  | head {n : NodeId} {asked k k' : String} {path ks ks' : List String} :
      f.rank n asked k < f.rank n asked k' →
      Precedes f n (asked :: path) (k :: ks) (k' :: ks')
  | tail {n c : NodeId} {asked k : String} {path ks ks' : List String} :
      f.child n k = some c → Precedes f c path ks ks' →
      Precedes f n (asked :: path) (k :: ks) (k :: ks')

/-- The list of the nodes below `n` whose paths of keys fit `path`: each of them once, in the order
of their paths. -/
structure Lists (f : Forest) (n : NodeId) (path : List String) (found : List NodeId) : Prop where
  mem : ∀ m, m ∈ found ↔ ∃ ks, f.walk n ks = some m ∧ List.Forall₂ Fits path ks
  once : found.Nodup
  ordered : found.Pairwise fun a b => ∀ ks ks',
    f.walk n ks = some a → f.walk n ks' = some b → f.Precedes n path ks ks'

section

variable {f : Forest}

theorem Precedes.irrefl {n : NodeId} {path ks : List String} : ¬ f.Precedes n path ks ks := by
  induction ks generalizing n path with
  | nil => rintro ⟨⟩
  | cons k ks ih =>
    rintro (h | ⟨-, h⟩)
    · exact Nat.lt_irrefl _ h
    · exact ih h

/-! ## Branches -/

theorem mem_branches_iff (hf : f.WellFormed) (asked : String) (n c : NodeId) :
    c ∈ f.branches asked n ↔ ∃ k, f.child n k = some c ∧ Fits asked k := by
  unfold branches Fits
  split
  · next hasked =>
    constructor
    · intro hc
      obtain ⟨k, hk⟩ := hf.mem_childIds_iff.mp hc
      exact ⟨k, hk, Or.inl hasked⟩
    · rintro ⟨k, hk, -⟩
      exact hf.mem_childIds_iff.mpr ⟨k, hk⟩
  · next hasked =>
    rw [List.mem_append, Option.mem_toList, Option.mem_toList]
    constructor
    · rintro (h | h)
      · exact ⟨asked, h, Or.inr (Or.inl rfl)⟩
      · exact ⟨wildcard, h, Or.inr (Or.inr rfl)⟩
    · rintro ⟨k, hk, h | rfl | rfl⟩
      · exact absurd h hasked
      · exact Or.inl hk
      · exact Or.inr hk

theorem idxOf_pairwise {l : List String} (h : l.Nodup) :
    l.Pairwise fun a b => l.idxOf a < l.idxOf b := by
  rw [List.pairwise_iff_getElem]
  intro i j hi hj hij
  rw [h.idxOf_getElem i hi, h.idxOf_getElem j hj]
  exact hij

theorem branches_pairwise (hf : f.WellFormed) (asked : String) (n : NodeId) :
    (f.branches asked n).Pairwise fun c d =>
      f.rank n asked (f.key c) < f.rank n asked (f.key d) := by
  unfold branches rank
  split
  · have hpos : ((f.childIds n).map f.key).Pairwise fun a b =>
        (f.keys n).idxOf a < (f.keys n).idxOf b := by
      rw [hf.map_key_childIds]
      exact idxOf_pairwise (hf.distinct n)
    exact List.Pairwise.of_map f.key (fun _ _ hlt => hlt) hpos
  · next hasked =>
    refine List.pairwise_append.mpr ⟨?_, ?_, ?_⟩
    · cases f.child n asked <;> simp
    · cases f.child n wildcard <;> simp
    · intro c hc d hd
      rw [Option.mem_toList] at hc hd
      rw [hf.key_of_child hc, hf.key_of_child hd, if_pos rfl, if_neg (Ne.symm hasked)]
      exact Nat.one_pos

/-! ## One scope -/

theorem mem_matchesBelow_iff (hf : f.WellFormed) (path : List String) (n m : NodeId) :
    m ∈ f.matchesBelow path n ↔ ∃ ks, f.walk n ks = some m ∧ List.Forall₂ Fits path ks := by
  induction path generalizing n with
  | nil =>
    rw [matchesBelow, List.mem_singleton]
    constructor
    · rintro rfl
      exact ⟨[], rfl, .nil⟩
    · rintro ⟨_, hwalk, ⟨⟩⟩
      exact (Option.some.inj hwalk).symm
  | cons asked path ih =>
    rw [matchesBelow, List.mem_flatMap]
    constructor
    · rintro ⟨c, hc, hm⟩
      obtain ⟨k, hk, hfits⟩ := (mem_branches_iff hf asked n c).mp hc
      obtain ⟨ks, hks, hrest⟩ := (ih c).mp hm
      exact ⟨k :: ks, (f.walk_cons_eq_some_iff n m k ks).mpr ⟨c, hk, hks⟩, .cons hfits hrest⟩
    · rintro ⟨_, hwalk, hfits⟩
      cases hfits with
      | @cons _ k _ ks hfits hrest =>
        obtain ⟨c, hk, hks⟩ := (f.walk_cons_eq_some_iff n m k ks).mp hwalk
        exact ⟨c, (mem_branches_iff hf asked n c).mpr ⟨k, hk, hfits⟩,
          (ih c).mpr ⟨ks, hks, hrest⟩⟩

theorem matchesBelow_pairwise (hf : f.WellFormed) (path : List String) (n : NodeId) :
    (f.matchesBelow path n).Pairwise fun a b => ∃ ks ks',
      f.walk n ks = some a ∧ f.walk n ks' = some b ∧ f.Precedes n path ks ks' := by
  induction path generalizing n with
  | nil => exact List.pairwise_singleton _ _
  | cons asked path ih =>
    have hstep : ∀ c ∈ f.branches asked n, f.child n (f.key c) = some c := by
      intro c hc
      obtain ⟨k, hk, -⟩ := (mem_branches_iff hf asked n c).mp hc
      rwa [hf.key_of_child hk]
    rw [matchesBelow, List.pairwise_flatMap]
    constructor
    · intro c hc
      refine (ih c).imp ?_
      rintro a b ⟨ks, ks', ha, hb, hlt⟩
      exact ⟨f.key c :: ks, f.key c :: ks',
        (f.walk_cons_eq_some_iff _ _ _ _).mpr ⟨c, hstep c hc, ha⟩,
        (f.walk_cons_eq_some_iff _ _ _ _).mpr ⟨c, hstep c hc, hb⟩, .tail (hstep c hc) hlt⟩
    · refine (branches_pairwise hf asked n).imp_of_mem ?_
      intro c d hc hd hlt a ha b hb
      obtain ⟨ks, hks, -⟩ := (mem_matchesBelow_iff hf path c a).mp ha
      obtain ⟨ks', hks', -⟩ := (mem_matchesBelow_iff hf path d b).mp hb
      exact ⟨f.key c :: ks, f.key d :: ks',
        (f.walk_cons_eq_some_iff _ _ _ _).mpr ⟨c, hstep c hc, hks⟩,
        (f.walk_cons_eq_some_iff _ _ _ _).mpr ⟨d, hstep d hd, hks'⟩, .head hlt⟩

theorem matchesBelow_lists (hf : f.WellFormed) (path : List String) (n : NodeId) :
    f.Lists n path (f.matchesBelow path n) where
  mem := mem_matchesBelow_iff hf path n
  once := by
    refine (matchesBelow_pairwise hf path n).imp ?_
    rintro a b ⟨ks, ks', ha, hb, hlt⟩ rfl
    rw [hf.walk_inj ha hb] at hlt
    exact hlt.irrefl
  ordered := by
    refine (matchesBelow_pairwise hf path n).imp ?_
    rintro a b ⟨ks, ks', ha, hb, hlt⟩ ks₁ ks₂ h₁ h₂
    rwa [hf.walk_inj h₁ ha, hf.walk_inj h₂ hb]

/-! ## All scopes -/

theorem Scopes.trail {n : NodeId} {path : List String} {scopes : List (NodeId × List String)}
    (h : f.Scopes n path scopes) : Trail f.outer? n (scopes.map (·.1)) := by
  induction h with
  | last hn => exact .last hn
  | outward hs _ ih => exact .step hs ih

/-- No tree is searched twice. -/
theorem Scopes.pairwise {n : NodeId} {path : List String} {scopes : List (NodeId × List String)}
    (h : f.Scopes n path scopes) : scopes.Pairwise fun s t => f.root s.1 ≠ f.root t.1 := by
  induction h with
  | last _ => exact List.pairwise_singleton _ _
  | @outward n o path scopes hs hscopes ih =>
    refine List.pairwise_cons.mpr ⟨fun t ht hroot => ?_, ih⟩
    -- the scope would lead out to where the search came from
    have hback : f.outer? t.1 = some o := by
      rw [← hs, outer?, outer?, hroot]
    exact hscopes.trail.not_mem_of_next hback (List.mem_map_of_mem ht)

theorem matchesIn_nodup (hf : f.WellFormed) {scopes : List (NodeId × List String)}
    (h : scopes.Pairwise fun s t => f.root s.1 ≠ f.root t.1) : (f.matchesIn scopes).Nodup := by
  have hroot : ∀ s : NodeId × List String, ∀ m ∈ f.matchesBelow s.2 s.1,
      f.root m = f.root s.1 := by
    intro s m hm
    obtain ⟨ks, hks, -⟩ := (mem_matchesBelow_iff hf s.2 s.1 m).mp hm
    exact hf.root_of_walk hks
  refine List.nodup_flatMap.mpr ⟨fun s _ => (matchesBelow_lists hf s.2 s.1).once, h.imp ?_⟩
  intro s t hne m hs ht
  exact hne ((hroot s m hs).symm.trans (hroot t m ht))

end

/-- **What a lookup lists.**  Where scopes come to an end, a lookup without a limit lists the
matches in each scope, nearest scope first, and lists no node twice. -/
theorem findAll_lists {f : Forest} (hf : f.WellFormed) {n : NodeId} (hend : Ends f.outer? n)
    {path : List String} (hpath : path ≠ []) :
    ∃ scopes found, f.Scopes n path scopes ∧
      List.Forall₂ (fun s l => f.Lists s.1 s.2 l) scopes found ∧
      f.findAll (some n) path 0 = found.flatten ∧ (f.findAll (some n) path 0).Nodup := by
  obtain ⟨scopes, hscopes⟩ := exists_scopes hend path
  have hall : f.findAll (some n) path 0 = f.matchesIn scopes := findAll_eq hend hpath hscopes 0
  refine ⟨scopes, scopes.map fun s => f.matchesBelow s.2 s.1, hscopes, ?_, ?_, ?_⟩
  · rw [List.forall₂_map_right_iff, List.forall₂_same]
    exact fun s _ => matchesBelow_lists hf s.2 s.1
  · rw [hall, matchesIn, List.flatMap_def]
  · rw [hall]
    exact matchesIn_nodup hf hscopes.pairwise

/-- From inside a scope: what is found outside lies at the path from the root, and a child under
the key comes before one under the key `*`. -/
theorem findAll_lists_outward : ∃ steps f, Run steps f ∧ Ends f.outer? 5 ∧ f.path 5 = ["a"] ∧
    f.findAll (some 5) ["x"] 0 = [6, 2, 3] ∧ ∃ scopes found, f.Scopes 5 ["x"] scopes ∧
      List.Forall₂ (fun s l => f.Lists s.1 s.2 l) scopes found ∧ found.flatten = [6, 2, 3] := by
  obtain ⟨steps, f, hrun, hend, hpath, hall⟩ : ∃ steps f, Run steps f ∧ Ends f.outer? 5 ∧
      f.path 5 = ["a"] ∧ f.findAll (some 5) ["x"] 0 = [6, 2, 3] :=
    ⟨_, _, .step (.stack 0 [[("a.x", .unset)]])
      (.step (.ofArgs [("a.x", .unset), ("a.*", .unset)]) .start (by decide)) (by decide),
      ⟨[5, 0], .step (by decide) (.last (by decide))⟩, by decide, by decide⟩
  obtain ⟨scopes, found, hscopes, hlists, hflat, -⟩ :=
    findAll_lists hrun.wellFormed hend (show ["x"] ≠ [] by decide)
  rw [hall] at hflat
  exact ⟨steps, f, hrun, hend, hpath, hall, scopes, found, hscopes, hlists, hflat.symm⟩

end LayeredConf.Forest
