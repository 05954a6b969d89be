import LayeredConf.Proofs.Lookup.Ending

/-!
# What searches find

A search stops in the middle of a scope, between the matches of a key and those of the key `*`, or
on its way to the next scope; wherever that is, it has found the first of all matches, as many as
its limit asks for.  `matchesBelow` and `Scopes` say what there is to find: the matches in one scope
and the scopes to match in.

    matchBelow_eq         a search in one scope finds as many of its matches as it may
    findAll_eq            a search finds as many of the matches in all scopes as it may
    findAll_eq_take       so one with a limit finds the first that one without finds
-/

namespace LayeredConf.Forest

/-- The children of a node that a key of a path leads to. -/
def branches (f : Forest) (k : String) (n : NodeId) : List NodeId :=
  if k = wildcard then f.childIds n else (f.child n k).toList ++ (f.child n wildcard).toList

/-- All matches of a path below a node. -/
def matchesBelow (f : Forest) : List String → NodeId → List NodeId
  | [], n => [n]
  | k :: ks, n => (f.branches k n).flatMap (f.matchesBelow ks)

/-- The scopes to match a path in, nearest first: each with the node to start from and the path to
match below it, which is a path from the root once a search comes from inside a scope. -/
inductive Scopes (f : Forest) : NodeId → List String → List (NodeId × List String) → Prop
  | last {n : NodeId} {path : List String} : f.outer? n = none → Scopes f n path [(n, path)]
  | outward {n o : NodeId} {path : List String} {scopes : List (NodeId × List String)} :
      f.outer? n = some o → Scopes f o (if f.isScope n then path else f.path n ++ path) scopes →
      Scopes f n path ((n, path) :: scopes)

/-- As much of a list as a limit allows. -/
def upTo {α : Type} (limit : Nat) (l : List α) : List α := if limit = 0 then l else l.take limit

/-! ## Limits on lists -/

section

variable {limit : Nat} {l m : List NodeId}

theorem upTo_of_length_le (h : limit = 0 ∨ l.length ≤ limit) : upTo limit l = l := by
  unfold upTo
  split
  · rfl
  · next hlimit => exact List.take_of_length_le (h.resolve_left hlimit)

theorem upTo_upTo_append : upTo limit (upTo limit l ++ m) = upTo limit (l ++ m) := by
  unfold upTo
  by_cases h : limit = 0
  · simp only [if_pos h]
  · simp only [if_neg h]
    rw [List.take_append, List.take_append, List.take_take, Nat.min_self, List.length_take]
    congr 2
    omega

theorem upTo_upTo : upTo limit (upTo limit l) = upTo limit l := by
  have h : upTo limit (upTo limit l ++ []) = upTo limit (l ++ []) := upTo_upTo_append
  rwa [List.append_nil, List.append_nil] at h

theorem mem_of_mem_upTo {m : NodeId} (h : m ∈ upTo limit l) : m ∈ l := by
  unfold upTo at h
  split at h
  · exact h
  · exact List.mem_of_mem_take h

theorem isFull_iff : isFull limit l = true ↔ 0 < limit ∧ limit ≤ l.length := by
  simp [isFull]

theorem isFull_eq_false_iff : isFull limit l = false ↔ limit = 0 ∨ l.length < limit := by
  rw [← Bool.not_eq_true, isFull_iff]
  omega

theorem isFull_nil (limit : Nat) : isFull limit [] = false := by
  cases limit <;> rfl

/-- A full search has no use for more. -/
theorem upTo_append_of_full (h : isFull limit l = true) : upTo limit (l ++ m) = upTo limit l := by
  rw [isFull_iff] at h
  unfold upTo
  rw [if_neg (by omega), if_neg (by omega), List.take_append_of_le_length h.2]

end

/-! ## One scope -/

section

variable (f : Forest) (limit : Nat)

/-- A search follows one branch after the other, until it is full. -/
theorem matchBelow_cons (k : String) (ks : List String) (n : NodeId) (found : List NodeId) :
    f.matchBelow limit (k :: ks) n found = (f.branches k n).foldl
      (fun found c => if isFull limit found then found else f.matchBelow limit ks c found)
      found := by
  rw [matchBelow, branches]
  split
  · rfl
  · rw [List.foldl_append]
    cases f.child n k <;> cases f.child n wildcard <;> rfl

theorem foldl_follow (visit : NodeId → List NodeId → List NodeId) (below : NodeId → List NodeId)
    (hvisit : ∀ c found, isFull limit found = false →
      visit c found = upTo limit (found ++ below c)) (cs found : List NodeId) :
    cs.foldl (fun found c => if isFull limit found then found else visit c found)
      (upTo limit found) = upTo limit (found ++ cs.flatMap below) := by
  induction cs generalizing found with
  | nil => simp
  | cons c cs ih =>
    have hstep : (if isFull limit (upTo limit found) then upTo limit found
        else visit c (upTo limit found)) = upTo limit (found ++ below c) := by
      rw [← upTo_upTo_append]
      cases hfull : isFull limit (upTo limit found) with
      | true => rw [if_pos rfl, upTo_append_of_full hfull, upTo_upTo]
      | false => rw [if_neg Bool.false_ne_true, hvisit c _ hfull]
    rw [List.foldl_cons, hstep, ih, List.append_assoc, List.flatMap_cons]

theorem matchBelow_eq (path : List String) (n : NodeId) (found : List NodeId)
    (h : isFull limit found = false) :
    f.matchBelow limit path n found = upTo limit (found ++ f.matchesBelow path n) := by
  induction path generalizing n found with
  | nil =>
    have hroom := isFull_eq_false_iff.mp h
    have hlen : (found ++ [n]).length = found.length + 1 := List.length_append
    show found ++ [n] = upTo limit (found ++ [n])
    exact (upTo_of_length_le (by omega)).symm
  | cons k ks ih =>
    have hroom := isFull_eq_false_iff.mp h
    have hfound : upTo limit found = found := upTo_of_length_le (by omega)
    have hfold := foldl_follow limit (f.matchBelow limit ks) (f.matchesBelow ks) ih
      (f.branches k n) found
    rw [hfound] at hfold
    rw [matchBelow_cons, hfold, matchesBelow]

/-- The rest of a path is matched below each match of its beginning. -/
theorem matchesBelow_flatMap (path rest : List String) (n : NodeId) :
    f.matchesBelow (path ++ rest) n = (f.matchesBelow path n).flatMap (f.matchesBelow rest) := by
  induction path generalizing n with
  | nil => exact (List.flatMap_singleton ..).symm
  | cons k path ih =>
    rw [List.cons_append, matchesBelow, matchesBelow, List.flatMap_assoc]
    exact List.flatMap_congr fun c _ => ih c

theorem matchesBelow_wildcard (n : NodeId) : f.matchesBelow [wildcard] n = f.childIds n := by
  rw [matchesBelow, branches, if_pos rfl]
  exact List.flatMap_singleton' _

end

/-! ## All scopes -/

section

variable {f : Forest} {limit : Nat} {n : NodeId} {path : List String}
variable {scopes : List (NodeId × List String)}

theorem exists_scopes (h : Ends f.outer? n) (path : List String) :
    ∃ scopes, f.Scopes n path scopes := by
  obtain ⟨l, hl⟩ := h
  induction hl generalizing path with
  | last hn => exact ⟨_, .last hn⟩
  | @step n o l hs _ ih =>
    obtain ⟨scopes, hscopes⟩ := ih (if f.isScope n then path else f.path n ++ path)
    exact ⟨_, .outward hs hscopes⟩

/-- All matches in some scopes. -/
def matchesIn (f : Forest) (scopes : List (NodeId × List String)) : List NodeId :=
  scopes.flatMap fun s => f.matchesBelow s.2 s.1

theorem searches_eq {found result : List NodeId} (h : f.Searches limit n path found result)
    (hscopes : f.Scopes n path scopes) (hfull : isFull limit found = false) :
    result = upTo limit (found ++ f.matchesIn scopes) := by
  induction h generalizing scopes with
  | @full n path found hstop =>
    rw [f.matchBelow_eq limit path n found hfull] at hstop ⊢
    cases hscopes with
    | last _ => simp [matchesIn]
    | @outward _ _ _ scopes _ _ =>
      have hrest := upTo_append_of_full (m := f.matchesIn scopes) hstop
      rw [upTo_upTo, upTo_upTo_append, List.append_assoc] at hrest
      exact hrest.symm
  | @last n path found _ hn =>
    rw [f.matchBelow_eq limit path n found hfull]
    cases hscopes with
    | last _ => simp [matchesIn]
    | outward hs _ => rw [hn] at hs; cases hs
  | @outward n o path found result hgo hs _ ih =>
    cases hscopes with
    | last hn => rw [hn] at hs; cases hs
    | @outward _ o' _ scopes hs' hscopes =>
      rw [hs] at hs'
      cases hs'
      rw [ih hscopes hgo, f.matchBelow_eq limit path n found hfull, upTo_upTo_append,
        List.append_assoc, matchesIn, matchesIn, List.flatMap_cons]

theorem findAll_eq (h : Ends f.outer? n) (hpath : path ≠ []) (hscopes : f.Scopes n path scopes)
    (limit : Nat) : f.findAll (some n) path limit = upTo limit (f.matchesIn scopes) := by
  obtain ⟨result, hresult⟩ := f.exists_searches limit n h path []
  rw [f.findAll_of_searches limit n path result h hpath hresult]
  exact searches_eq hresult hscopes (isFull_nil limit)

/-- A lookup for one node finds the first of them. -/
theorem find?_eq (h : Ends f.outer? n) (hpath : path ≠ []) (hscopes : f.Scopes n path scopes) :
    f.find? (some n) path = (f.matchesIn scopes).head? := by
  rw [find?, findAll_eq h hpath hscopes]
  exact List.head?_take.trans (if_neg Nat.one_ne_zero)

end

/-- **The limit is a cut.**  Where scopes come to an end, a search with a limit finds the first of
the nodes that one without finds, and `find?` the very first, if there is one. -/
theorem findAll_eq_take (f : Forest) (node : Option NodeId) (hend : ∀ n ∈ node, Ends f.outer? n)
    (path : List String) (k : Nat) (hk : 0 < k) :
    f.findAll node path k = (f.findAll node path 0).take k ∧
    f.find? node path = (f.findAll node path 0).head? ∧
    (f.find? node path = none ↔ f.findAll node path 0 = []) := by
  have hcut : ∀ k, 0 < k → f.findAll node path k = (f.findAll node path 0).take k := by
    intro k hk
    cases node with
    | none => simp [findAll]
    | some n =>
      by_cases hpath : path = []
      · obtain ⟨k, rfl⟩ := Nat.exists_eq_succ_of_ne_zero (Nat.ne_of_gt hk)
        simp [findAll, hpath]
      · obtain ⟨scopes, hscopes⟩ := exists_scopes (hend n rfl) path
        rw [findAll_eq (hend n rfl) hpath hscopes, findAll_eq (hend n rfl) hpath hscopes]
        show (if k = 0 then _ else _) = _
        rw [if_neg (Nat.ne_of_gt hk)]
        rfl
  have hfirst : f.find? node path = (f.findAll node path 0).head? := by
    rw [find?, hcut 1 Nat.one_pos, List.head?_take, if_neg Nat.one_ne_zero]
  refine ⟨hcut k hk, hfirst, ?_⟩
  rw [hfirst, List.head?_eq_none_iff]

/-- A key matches in a scope, in the one outside, and there once more under the key `*`; a limit
of two leaves out the last. -/
theorem findAll_eq_take_two : ∃ steps f, Run steps f ∧ Ends f.outer? 3 ∧
    f.findAll (some 3) ["a"] 0 = [4, 1, 2] ∧ f.findAll (some 3) ["a"] 2 = [4, 1] ∧
    f.find? (some 3) ["a"] = some 4 := by
  have houter : Run _ _ := .step (.attach 0 2) (.step (.attach 0 1) (.step (.newNode "*" .unset)
    (.step (.newNode "a" .unset) (.step .newRoot .start (by decide)) (by decide)) (by decide))
    (by decide)) (by decide)
  obtain ⟨steps, f, hrun, hend, hall⟩ : ∃ steps f, Run steps f ∧ Ends f.outer? 3 ∧
      f.findAll (some 3) ["a"] 0 = [4, 1, 2] :=
    ⟨_, _, .step (.attach 3 4) (.step (.newNode "a" .unset) (.step (.stack 0 []) houter
      (by decide)) (by decide)) (by decide), ⟨[3, 0], .step (by decide) (.last (by decide))⟩,
      by decide⟩
  obtain ⟨htake, hfirst, -⟩ := findAll_eq_take f (some 3) (fun n hn => by cases hn; exact hend)
    ["a"] 2 (by decide)
  rw [hall] at htake hfirst
  exact ⟨steps, f, hrun, hend, hall, htake, hfirst⟩

end LayeredConf.Forest
