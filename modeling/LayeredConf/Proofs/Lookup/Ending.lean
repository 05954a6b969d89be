import LayeredConf.Proofs.Lookup.Links

/-!
# Where searches end

A search goes from scope to scope until it is full or comes to a scope that inherits from nothing.
`Searches` is that loop without a bound on its rounds.  Every search ends, whatever its limit, just
when scopes come to an end from every node, and then the bound of `findAll` is never met.

Scopes can fail to end.  `attach` refuses to put a node below itself, but not below a scope that
inherits from its tree, and after that a search goes round for ever.  In every other run all
searches end.

    searches_iff              every search ends iff scopes end from every node
    findAll_of_searches       `findAll` is what the search finds
    run_scopes_end_iff        scopes end all along a run iff no step closes a loop
    run_closes_loop           a run that does
-/

namespace LayeredConf.Forest

/-- Going from scope to scope, with the nodes found so far, a search comes to an end and has found
`result`. -/
inductive Searches (f : Forest) (limit : Nat) :
    NodeId → List String → List NodeId → List NodeId → Prop
  | full {n : NodeId} {path : List String} {found : List NodeId} :
      isFull limit (f.matchBelow limit path n found) = true →
      Searches f limit n path found (f.matchBelow limit path n found)
  | last {n : NodeId} {path : List String} {found : List NodeId} :
      isFull limit (f.matchBelow limit path n found) = false → f.outer? n = none →
      Searches f limit n path found (f.matchBelow limit path n found)
  | outward {n o : NodeId} {path : List String} {found result : List NodeId} :
      isFull limit (f.matchBelow limit path n found) = false → f.outer? n = some o →
      Searches f limit o (f.outerPath n path) (f.matchBelow limit path n found) result →
      Searches f limit n path found result

/-! ## Searches and scopes -/

theorem exists_searches (f : Forest) (limit : Nat) (n : NodeId) (h : Ends f.outer? n)
    (path : List String) (found : List NodeId) :
    ∃ result, f.Searches limit n path found result := by
  obtain ⟨l, hl⟩ := h
  induction hl generalizing path found with
  | @last n hn =>
    cases hfull : isFull limit (f.matchBelow limit path n found) with
    | true => exact ⟨_, .full hfull⟩
    | false => exact ⟨_, .last hfull hn⟩
  | @step n o l hs _ ih =>
    cases hfull : isFull limit (f.matchBelow limit path n found) with
    | true => exact ⟨_, .full hfull⟩
    | false =>
      obtain ⟨result, hr⟩ := ih (f.outerPath n path) (f.matchBelow limit path n found)
      exact ⟨result, .outward hfull hs hr⟩

/-- A search without a limit ends only where scopes do. -/
theorem ends_of_searches (f : Forest) (n : NodeId) (path : List String)
    (found result : List NodeId) (h : f.Searches 0 n path found result) : Ends f.outer? n := by
  induction h with
  | full hfull => simp [isFull] at hfull
  | last _ hn => exact .of_none hn
  | outward _ hs _ ih => exact .of_some hs ih

theorem searches_iff (f : Forest) :
    f.ScopesEnd ↔ ∀ n path limit, ∃ result, f.Searches limit n path [] result := by
  constructor
  · intro h n path limit
    exact f.exists_searches limit n (h n) path []
  · intro h n
    obtain ⟨result, hr⟩ := h n [] 0
    exact f.ends_of_searches n [] [] result hr

/-! ## The bound of `findAll` -/

theorem matchScopes_of_searches (f : Forest) (limit : Nat) (n : NodeId) (path : List String)
    (found result l : List NodeId) (scopes : Nat) (h : f.Searches limit n path found result)
    (hl : Trail f.outer? n l) (hle : l.length ≤ scopes + 1) :
    f.matchScopes limit scopes n path found = result := by
  induction h generalizing l scopes with
  | full hfull =>
    cases scopes with
    | zero => rfl
    | succ scopes => rw [matchScopes, if_pos hfull]
  | last hfull hn =>
    cases scopes with
    | zero => rfl
    | succ scopes => rw [matchScopes, if_neg (by rw [hfull]; exact Bool.false_ne_true), hn]
  | outward hfull hs _ ih =>
    cases hl with
    | last hn => rw [hn] at hs; cases hs
    | step hs' ht =>
      rw [hs] at hs'
      cases hs'
      have hpos := ht.length_pos
      rw [List.length_cons] at hle
      cases scopes with
      | zero => omega
      | succ scopes =>
        rw [matchScopes, if_neg (by rw [hfull]; exact Bool.false_ne_true), hs]
        exact ih _ scopes ht (by omega)

theorem lt_size_of_outer (f : Forest) (n o : NodeId) (h : f.outer? n = some o) : n < f.size := by
  by_cases hn : n < f.size
  · exact hn
  · have hnode := f.node_of_size_le n (Nat.not_lt.mp hn)
    have hp : f.parent? n = none := by rw [parent?, hnode]
    rw [outer_of_no_parent hp, above?, link, hnode] at h
    cases h

theorem size_lt_scopeBound (f : Forest) (limit : Nat) : f.size < f.scopeBound limit := by
  unfold scopeBound
  have := Nat.le_mul_of_pos_right (f.size + 1) (show 0 < f.size + 1 + limit by omega)
  omega

theorem findAll_of_searches (f : Forest) (limit : Nat) (n : NodeId) (path : List String)
    (result : List NodeId) (hend : Ends f.outer? n) (hpath : path ≠ [])
    (h : f.Searches limit n path [] result) : f.findAll (some n) path limit = result := by
  obtain ⟨l, hl⟩ := hend
  have hle := hl.length_le (f.lt_size_of_outer)
  have hlt := f.size_lt_scopeBound limit
  show (if path = [] then [n] else _) = _
  rw [if_neg hpath]
  exact f.matchScopes_of_searches limit n path [] result l _ h hl (by omega)

/-! ## Runs -/

/-- The operation puts a node below one that leads up to it, though not along parents. -/
def Operation.ClosesLoop (f : Forest) : Operation → Prop
  | .attach p c => c ∉ f.lineage p ∧ f.LeadsUp p c
  | _ => False

theorem Operation.scopesEnd_iff {f : Forest} (hf : f.WellFormed) (op : Operation)
    (hop : ∀ n ∈ op.nodes, n < f.size) (h : f.ScopesEnd) :
    (op.apply f).ScopesEnd ↔ ¬ op.ClosesLoop f := by
  rw [(op.wellFormed hf hop).scopesEnd_iff]
  rw [hf.scopesEnd_iff] at h
  by_cases hattach : ∃ p c, op = .attach p c
  · obtain ⟨p, c, rfl⟩ := hattach
    have hc : c < f.size := hop c (by simp [nodes])
    rw [apply_attach]
    show _ ↔ ¬ (c ∉ f.lineage p ∧ f.LeadsUp p c)
    by_cases hup : c ∈ f.lineage p
    · rw [if_pos hup]
      exact ⟨fun _ hloop => hloop.1 hup, fun _ => h⟩
    · rw [if_neg hup]
      constructor
      · intro hend hloop
        exact hf.not_linksEnd_insertChild p c hc h hloop.2 hend
      · intro hloop
        exact hf.linksEnd_insertChild p c hc h fun hl => hloop ⟨hup, hl⟩
  · have hedits := op.edits hf.region hop (fun _ _ => trivial) fun p c he => hattach ⟨p, c, he⟩
    refine ⟨fun _ hloop => ?_, fun _ => hedits.linksEnd hf h⟩
    cases op with
    | attach p c => exact hattach ⟨p, c, rfl⟩
    | _ => exact hloop

theorem scopesEnd_empty : ScopesEnd {} := by
  rw [wellFormed_empty.scopesEnd_iff]
  intro n
  apply Ends.of_none
  apply above?_of_detached
  rw [link, node_of_size_le {} n (Nat.zero_le n)]

theorem Run.scopesEnd_iff {steps : List (Forest × Operation)} {f : Forest} (h : Run steps f) :
    ((∀ s ∈ steps, s.1.ScopesEnd) ∧ f.ScopesEnd) ↔ ∀ s ∈ steps, ¬ s.2.ClosesLoop s.1 := by
  induction h with
  | start => simp [scopesEnd_empty]
  | @step steps f op hrun hop ih =>
    rw [List.forall_mem_cons, List.forall_mem_cons, ← ih]
    constructor
    · rintro ⟨⟨hf, hsteps⟩, hend⟩
      exact ⟨(op.scopesEnd_iff hrun.wellFormed hop hf).mp hend, hsteps, hf⟩
    · rintro ⟨hloop, hsteps, hf⟩
      exact ⟨⟨hf, hsteps⟩, (op.scopesEnd_iff hrun.wellFormed hop hf).mpr hloop⟩

/-- **Where lookups end.**  Scopes end from every node in all forests of a run just when no step of
it puts a node below one that leads up to it through a scope.  They end in a forest just when every
search in it ends, and then `findAll` is what the search finds. -/
theorem run_scopes_end_iff {steps : List (Forest × Operation)} {f : Forest} (h : Run steps f) :
    (((∀ s ∈ steps, s.1.ScopesEnd) ∧ f.ScopesEnd) ↔ ∀ s ∈ steps, ¬ s.2.ClosesLoop s.1) ∧
    (f.ScopesEnd ↔ ∀ n path limit, ∃ result, f.Searches limit n path [] result) ∧
    (f.ScopesEnd → ∀ n path limit result, path ≠ [] → f.Searches limit n path [] result →
      f.findAll (some n) path limit = result) := by
  refine ⟨h.scopesEnd_iff, f.searches_iff, fun hend n path limit result hpath hr => ?_⟩
  exact f.findAll_of_searches limit n path result (hend n) hpath hr

/-- A new node goes below the root of a scope: it is not one that the root leads up to. -/
theorem run_scopes_end_attach : ∃ steps f, Run steps f ∧ (∀ s ∈ steps, ¬ s.2.ClosesLoop s.1) ∧
    f.parent? 2 = some 1 ∧ f.ScopesEnd := by
  obtain ⟨g, steps, hrun, hsteps, htrail, hp⟩ : ∃ g steps, Run ((g, .attach 1 2) :: steps)
      ((Operation.attach 1 2).apply g) ∧ (∀ s ∈ steps, ¬ s.2.ClosesLoop s.1) ∧
      Trail g.above? 1 [1, 0] ∧ ((Operation.attach 1 2).apply g).parent? 2 = some 1 :=
    ⟨_, _, .step (.attach 1 2) (.step (.newNode "x" .unset) (.step (.stack 0 [])
      (.step .newRoot .start (by decide)) (by decide)) (by decide)) (by decide),
      List.forall_mem_cons.mpr ⟨id, List.forall_mem_cons.mpr ⟨id,
        List.forall_mem_cons.mpr ⟨id, List.forall_mem_nil _⟩⟩⟩,
      .step (by decide) (.last (by decide)), by decide⟩
  have hall : ∀ s ∈ (g, Operation.attach 1 2) :: steps, ¬ s.2.ClosesLoop s.1 := by
    refine List.forall_mem_cons.mpr ⟨?_, hsteps⟩
    rintro ⟨-, hup⟩
    exact absurd (htrail.mem_iff_leads.mpr hup) (by decide)
  exact ⟨_, _, hrun, hall, hp, ((run_scopes_end_iff hrun).1.mpr hall).2⟩

/-- A scope on top of a root takes the root as a child: a search from the root that has no limit
goes round for ever. -/
theorem run_closes_loop : ∃ steps f, Run steps f ∧ ∃ n, ¬ Ends f.outer? n ∧
    ∀ path, path ≠ [] → ¬ ∃ result, f.Searches 0 n path [] result := by
  obtain ⟨steps, f, hrun, hself⟩ : ∃ steps f, Run steps f ∧ f.outer? 0 = some 0 :=
    ⟨_, _, .step (.attach 1 0) (.step (.stack 0 []) (.step .newRoot .start (by decide))
      (by decide)) (by decide), by decide⟩
  have hnot : ¬ Ends f.outer? 0 := not_ends_of_eq_some_self hself
  refine ⟨steps, f, hrun, 0, hnot, fun path _ => ?_⟩
  rintro ⟨result, hr⟩
  exact hnot (f.ends_of_searches 0 path [] result hr)

end LayeredConf.Forest
