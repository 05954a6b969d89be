import LayeredConf.Proofs.Lookup.Listing
import LayeredConf.Proofs.Lookup.Written
import LayeredConf.Proofs.Lookup.Absolute
import LayeredConf.Proofs.Record

/-!
# Values by key

`keyedValues` lists the nodes that match up to `*` in all scopes, looks up the rest of the path from
each of them, and keeps the first value for each key.  A lookup with a key in place of the `*` goes
from scope to scope with the whole path.  Where no key is empty, `*` or the inherited name, the two
agree: the rest of the path is looked up from the nearest node with the key, on through the scopes
outside of it, and nearer scopes have nothing at the whole path.

    PlainKeys f n            the keys in the scopes of `n` are such keys
    find?_append             a lookup from the end of a walk
    lookup_keyed             the first value for a key
    keyedValues_eq_find?     it is what a lookup with the key finds
-/

namespace LayeredConf.Forest

/-- No child in the scopes of `n` is under `*`, an empty key or the name of what records inherit
from. -/
def PlainKeys (f : Forest) (n : NodeId) : Prop :=
  ∀ o, Leads f.outer? n o → ∀ m k c, f.root m = f.root o → f.child m k = some c →
    k ≠ wildcard ∧ k ≠ "" ∧ k ≠ Record.inheritedName

/-! ## Records -/

section

variable {α β : Type}

theorem lookup_foldl_first (acc fields : List (String × α)) (k : String) :
    (fields.foldl (fun r (k, v) => if (r.lookup k).isSome then r else r ++ [(k, v)]) acc).lookup k =
      (acc.lookup k).or (fields.lookup k) := by
  induction fields generalizing acc with
  | nil => exact Option.or_none.symm
  | cons e fields ih =>
    obtain ⟨k', v⟩ := e
    rw [List.foldl_cons, ih, List.lookup_cons]
    dsimp only
    by_cases hk : k = k'
    · rw [hk, beq_self_eq_true]
      cases hold : acc.lookup k' with
      | some w => rw [Option.isSome_some, if_pos rfl, hold, Option.some_or, Option.some_or]
      | none =>
        rw [Option.isSome_none, if_neg Bool.false_ne_true, List.lookup_append, hold,
          List.lookup_cons, beq_self_eq_true]
        rfl
    · rw [beq_false_of_ne hk]
      split
      · rfl
      · rw [List.lookup_append, List.lookup_cons, beq_false_of_ne hk, List.lookup_nil,
          Option.or_none]

theorem nodup_foldl_first {acc : List (String × α)} (h : (acc.map (·.1)).Nodup)
    (fields : List (String × α)) : ((fields.foldl (fun r (k, v) =>
      if (r.lookup k).isSome then r else r ++ [(k, v)]) acc).map (·.1)).Nodup := by
  induction fields generalizing acc with
  | nil => exact h
  | cons e fields ih =>
    refine ih ?_
    dsimp only
    split
    · exact h
    · next hnew =>
      rw [Record.lookup_isSome_iff] at hnew
      rw [List.map_append]
      exact h.append (List.nodup_singleton _) (by simpa using hnew)

/-- The first field for a name is the one that a lookup finds. -/
theorem lookup_firstFields (fields : List (String × α)) (k : String) :
    (firstFields fields).lookup k = fields.lookup k := lookup_foldl_first [] fields k

theorem nodup_firstFields (fields : List (String × α)) :
    ((firstFields fields).map (·.1)).Nodup :=
  nodup_foldl_first (show (([] : List (String × α)).map (·.1)).Nodup from List.nodup_nil) fields

/-- A record of distinct fields has them, but for the inherited name. -/
theorem lookup_ofAssigned {fields : List (String × α)} (h : (fields.map (·.1)).Nodup)
    (k : String) : (Record.ofAssigned fields).lookup k =
      if k = Record.inheritedName then none else fields.lookup k := by
  have hsub : ((fields.filter (·.1 ≠ Record.inheritedName)).map (·.1)).Nodup :=
    h.sublist (List.filter_sublist.map _)
  have hperm : (Record.ofAssigned fields).Perm (fields.filter (·.1 ≠ Record.inheritedName)) := by
    rw [Record.ofAssigned, Record.ofPairs, Record.foldl_put hsub]
    exact Record.enumerate_perm _
  rw [← Record.lookup_filter_ne]
  apply Option.ext
  intro v
  rw [Record.lookup_eq_some_iff_mem _ ((hperm.map _).nodup_iff.mpr hsub),
    Record.lookup_eq_some_iff_mem _ hsub, hperm.mem_iff]

/-- Distinct names stay apart when fields are left out and values change. -/
theorem lookup_filterMap (g : α → Option β) {l : List (String × α)} (h : (l.map (·.1)).Nodup)
    (k : String) :
    (l.filterMap fun e => (g e.2).map (e.1, ·)).lookup k = (l.lookup k).bind g := by
  induction l with
  | nil => rfl
  | cons e l ih =>
    obtain ⟨k', x⟩ := e
    rw [List.map_cons, List.nodup_cons] at h
    have hrest := ih h.2
    rw [List.filterMap_cons, List.lookup_cons]
    by_cases hk : k = k'
    · have hnone : l.lookup k = none := by
        rw [← Option.not_isSome_iff_eq_none, Record.lookup_isSome_iff, hk]
        exact h.1
      rw [hnone] at hrest
      subst hk
      cases hg : g x with
      | none => simpa [hg] using hrest
      | some y => simp [hg]
    · cases hg : g x with
      | none => simpa [hg, beq_false_of_ne hk] using hrest
      | some y => simpa [hg, List.lookup_cons, beq_false_of_ne hk] using hrest

end

/-! ## Plain keys -/

section

variable {f : Forest} {n m : NodeId} {path ks : List String} (hf : f.WellFormed)

theorem PlainKeys.outer (h : f.PlainKeys n) {o : NodeId} (ho : f.outer? n = some o) :
    f.PlainKeys o := fun _ hlead => h _ (.head ho hlead)

include hf

theorem PlainKeys.wildcard_not_mem_path (h : f.PlainKeys n) : wildcard ∉ f.path n :=
  hf.wildcard_not_mem_path fun m k c hm hc => (h n .refl m k c hm hc).1

theorem PlainKeys.child_wildcard (h : f.PlainKeys n) (ks : List String) (m : NodeId)
    (hm : f.walk n ks = some m) : f.child m wildcard = none :=
  Option.eq_none_iff_forall_ne_some.mpr fun c hc =>
    (h n .refl m wildcard c (hf.root_of_walk hm) hc).1 rfl

theorem PlainKeys.path_of_walk (h : f.PlainKeys n) (hm : f.walk n ks = some m) :
    f.path m = f.path n ++ ks := by
  rw [hf.path_of_walk hm, List.filter_eq_self.mpr]
  intro k hk
  obtain ⟨l, r, rfl⟩ := List.append_of_mem hk
  obtain ⟨x, hx, hrest⟩ := Option.bind_eq_some_iff.mp ((walk_append f n l (k :: r)).symm.trans hm)
  obtain ⟨c, hc, -⟩ := (f.walk_cons_eq_some_iff x m k r).mp hrest
  exact decide_eq_true (h n .refl x k c (hf.root_of_walk hx) hc).2.1

/-- What matches `head.*` in one scope is a child there. -/
theorem plain_of_mem_matchesBelow (h : f.PlainKeys n) {head : List String}
    (hm : m ∈ f.matchesBelow (head ++ [wildcard]) n) :
    f.key m ≠ wildcard ∧ f.key m ≠ "" ∧ f.key m ≠ Record.inheritedName := by
  obtain ⟨ks, hks, hfits⟩ := (mem_matchesBelow_iff hf _ n m).mp hm
  have hlen := hfits.length_eq
  rcases List.eq_nil_or_concat ks with rfl | ⟨ks, k, rfl⟩
  · simp at hlen
  · obtain ⟨p, hp, hc⟩ := (walk_concat_eq_some_iff f n m ks k).mp (List.concat_eq_append ▸ hks)
    rw [hf.key_of_child hc]
    exact h n .refl p k m (hf.root_of_walk hp) hc

theorem PlainKeys.of_walk (h : f.PlainKeys n) (hm : f.walk n ks = some m) : f.PlainKeys m := by
  intro o ho x k c hx hc
  rcases Relation.ReflTransGen.cases_head ho with rfl | ⟨o', ho', hlead⟩
  · exact h n .refl x k c (hx.trans (hf.root_of_walk hm)) hc
  · exact h o (.head (hf.outer_of_walk hm ▸ ho') hlead) x k c hx hc

/-- From the end of a walk a lookup finds what one from its start finds along the whole path. -/
theorem find?_append (hend : Ends f.outer? n) (h : f.PlainKeys n) (hks : wildcard ∉ ks)
    (hne : ks ≠ []) (hm : f.walk n ks = some m) (hpath : wildcard ∉ path) :
    f.find? (some m) path = f.find? (some n) (ks ++ path) := by
  by_cases hnil : path = []
  · rw [hnil, List.append_nil, find?_of_walk hne hks hm]
    rfl
  · have houter := hf.outer_of_walk hm
    have hendm : Ends f.outer? m := .of_next fun o ho => hend.of_eq_some (houter ▸ ho)
    have hall : wildcard ∉ ks ++ path := fun hmem => (List.mem_append.mp hmem).elim hks hpath
    rw [find?_eq_or hendm hnil ((h.of_walk hf hm).child_wildcard hf) hpath,
      find?_eq_or hend (List.append_ne_nil_of_right_ne_nil _ hnil) (h.child_wildcard hf) hall,
      walk_append, hm, Option.bind_some, houter, h.path_of_walk hf hm, List.append_assoc]

end

/-! ## The first value for a key -/

/-- The value that the rest of a path has from a node, by the node's key. -/
def keyedAt? (f : Forest) (tail : List String) (m : NodeId) : Option (String × Value) :=
  (f.find? (some m) tail).map fun v => (f.key m, f.value v)

section

variable {f : Forest} (hf : f.WellFormed)

include hf

/-- Of the children of a node only the one under the key counts. -/
theorem lookup_childIds (n : NodeId) (tail : List String) (k : String) :
    ((f.childIds n).filterMap (f.keyedAt? tail)).lookup k =
      (f.child n k).bind fun c => (f.find? (some c) tail).map f.value := by
  have hentry : (f.childIds n).filterMap (f.keyedAt? tail) =
      (f.children n).entries.filterMap fun e =>
        ((f.find? (some e.2) tail).map f.value).map (e.1, ·) := by
    rw [childIds, Children.nodes_eq, List.filterMap_map]
    refine List.filterMap_congr fun e he => ?_
    have hkey : f.key e.2 = e.1 := hf.key_of_child ((hf.child_eq_some_iff n e.1 e.2).mpr he)
    rw [Function.comp_apply, keyedAt?, hkey, Option.map_map]
    rfl
  rw [hentry, child, (hf.agrees n).get?_eq_lookup]
  exact lookup_filterMap (fun c => (f.find? (some c) tail).map f.value)
    (hf.agrees n).nodup_entries k

theorem matchesBelow_concat_wildcard {n : NodeId} (h : f.PlainKeys n) {head : List String}
    (hhead : wildcard ∉ head) :
    f.matchesBelow (head ++ [wildcard]) n = (f.walk n head).toList.flatMap f.childIds := by
  rw [matchesBelow_append (h.child_wildcard hf) hhead]
  exact congrArg (List.flatMap · _) (funext f.matchesBelow_wildcard)

section

variable {n : NodeId} {head tail : List String} {k : String} (hend : Ends f.outer? n)
variable (h : f.PlainKeys n) (hhead : wildcard ∉ head) (htail : wildcard ∉ tail)
variable (hk : k ≠ wildcard)

include hend h hhead htail hk

/-- In one scope: the node with the key, if there is one, is followed with the rest of the path on
through the scopes outside, so there is nothing left for nodes out there to add. -/
theorem lookup_keyed_scope
    (hrest : ((f.findAll (f.outer? n) (f.path n ++ (head ++ [wildcard])) 0).filterMap
        (f.keyedAt? tail)).lookup k =
      (f.find? (f.outer? n) (f.path n ++ (head ++ k :: tail))).map f.value) :
    ((f.findAll (some n) (head ++ [wildcard]) 0).filterMap (f.keyedAt? tail)).lookup k =
      (f.find? (some n) (head ++ k :: tail)).map f.value := by
  have hkey : wildcard ∉ head ++ [k] := by
    simpa using not_or.mpr ⟨hhead, Ne.symm hk⟩
  have hall : wildcard ∉ head ++ k :: tail := by
    simpa using not_or.mpr ⟨hhead, not_or.mpr ⟨Ne.symm hk, htail⟩⟩
  have hfind := find?_eq_or hend (List.append_ne_nil_of_right_ne_nil head
    (List.cons_ne_nil k tail)) (h.child_wildcard hf) hall
  rw [findAll_eq_append hend (List.append_ne_nil_of_right_ne_nil head (List.cons_ne_nil _ _)),
    List.filterMap_append, List.lookup_append, hrest, matchesBelow_concat_wildcard hf h hhead]
  cases hb : f.walk n head with
  | none =>
    rw [hfind, walk_append, hb]
    rfl
  | some b =>
    rw [Option.toList_some, List.flatMap_singleton, lookup_childIds hf]
    cases hc : f.child b k with
    | none =>
      rw [hfind, walk_append, hb, Option.bind_some, walk, hc]
      rfl
    | some m =>
      have hm : f.walk n (head ++ [k]) = some m :=
        (f.walk_concat_eq_some_iff n m head k).mpr ⟨b, hb, hc⟩
      rw [Option.bind_some, find?_append hf hend h hkey (List.append_ne_nil_of_right_ne_nil head
        (List.cons_ne_nil k [])) hm htail, List.append_assoc, List.singleton_append, hfind]
      cases f.walk n (head ++ k :: tail) with
      | some v => rfl
      | none => exact Option.or_self

/-- **The nearest value for a key.**  Of the nodes at `head.*`, with what the rest of the path has
from them, the first one with the key has what a lookup with the key finds. -/
theorem lookup_keyed :
    ((f.findAll (some n) (head ++ [wildcard]) 0).filterMap (f.keyedAt? tail)).lookup k =
      (f.find? (some n) (head ++ k :: tail)).map f.value := by
  obtain ⟨l, hl⟩ := id hend
  induction hl generalizing head with
  | last ho =>
    refine lookup_keyed_scope hf hend h hhead htail hk ?_
    rw [ho]
    rfl
  | @step n o l ho _ ih =>
    have hpath : wildcard ∉ f.path n ++ head := fun hmem =>
      (List.mem_append.mp hmem).elim (h.wildcard_not_mem_path hf) hhead
    refine lookup_keyed_scope hf hend h hhead htail hk ?_
    rw [ho, ← List.append_assoc, ← List.append_assoc]
    exact ih (hend.of_eq_some ho) (h.outer ho) hpath

end

/-- The nodes at `head.*` are children in the scopes. -/
theorem plain_of_mem_findAll {n : NodeId} (hend : Ends f.outer? n) (h : f.PlainKeys n)
    {head : List String} {m : NodeId} (hm : m ∈ f.findAll (some n) (head ++ [wildcard]) 0) :
    f.key m ≠ wildcard ∧ f.key m ≠ "" ∧ f.key m ≠ Record.inheritedName := by
  have hne : ∀ head : List String, head ++ [wildcard] ≠ [] := fun head =>
    List.append_ne_nil_of_right_ne_nil head (List.cons_ne_nil _ _)
  obtain ⟨l, hl⟩ := id hend
  induction hl generalizing head with
  | last ho =>
    rw [findAll_eq_append hend (hne head), ho] at hm
    exact plain_of_mem_matchesBelow hf h (by simpa [findAll] using hm)
  | @step n o l ho _ ih =>
    rw [findAll_eq_append hend (hne head), ho, List.mem_append, ← List.append_assoc] at hm
    rcases hm with hm | hm
    · exact plain_of_mem_matchesBelow hf h hm
    · exact ih (hend.of_eq_some ho) (h.outer ho) hm

theorem lookup_found_of_not_plain {n : NodeId} (hend : Ends f.outer? n) (h : f.PlainKeys n)
    (head tail : List String) {k : String} (hk : k = wildcard ∨ k = Record.inheritedName) :
    ((f.findAll (some n) (head ++ [wildcard]) 0).filterMap (f.keyedAt? tail)).lookup k = none := by
  rw [← Option.not_isSome_iff_eq_none, Record.lookup_isSome_iff, List.mem_map]
  rintro ⟨e, he, rfl⟩
  obtain ⟨m, hm, hme⟩ := List.mem_filterMap.mp he
  obtain ⟨v, -, rfl⟩ := Option.map_eq_some_iff.mp hme
  obtain ⟨hwild, -, hinherited⟩ := plain_of_mem_findAll hf hend h hm
  exact hk.elim hwild hinherited

/-- A check of all keys of a forest. -/
theorem plainKeys_of_all {n : NodeId} (h : ∀ m < f.size, ∀ k ∈ f.keys m,
    k ≠ wildcard ∧ k ≠ "" ∧ k ≠ Record.inheritedName) : f.PlainKeys n :=
  fun _ _ m k c _ hc => h m (lt_size_of_child hc) k ((hf.mem_keys_iff m k).mpr ⟨c, hc⟩)

end

theorem splitAtWildcard_append (head : List String) {tail : List String}
    (htail : wildcard ∉ tail) :
    splitAtWildcard (head ++ wildcard :: tail) = (head ++ [wildcard], tail) := by
  have hrest : ((head ++ wildcard :: tail).reverse.takeWhile (· ≠ wildcard)).reverse = tail := by
    rw [List.reverse_append, List.reverse_cons, List.append_assoc, List.takeWhile_append_of_pos]
    · simp
    · exact fun k hk => decide_eq_true fun he => htail (he ▸ List.mem_reverse.mp hk)
  unfold splitAtWildcard
  rw [hrest]
  dsimp only
  rw [if_pos (List.mem_append_right _ List.mem_cons_self)]
  have hcount : (head ++ wildcard :: tail).length - tail.length = (head ++ [wildcard]).length := by
    simp only [List.length_append, List.length_cons, List.length_nil]
    omega
  rw [hcount, List.append_cons head wildcard tail, List.take_left, List.drop_left]

section

variable {f : Forest} {n : NodeId} {parts : List PathPart} {head tail : List String}
variable (hparts : keyPath parts = head ++ wildcard :: tail) (htail : wildcard ∉ tail)

include hparts htail

theorem keyedValues_eq : f.keyedValues (some n) parts = Record.ofAssigned (firstFields
    ((f.findAll (some n) (head ++ [wildcard]) 0).filterMap (f.keyedAt? tail))) := by
  have hne : parts ≠ [] := by
    rintro rfl
    exact absurd hparts.symm (List.append_ne_nil_of_right_ne_nil _ (List.cons_ne_nil _ _))
  rw [keyedValues, if_neg hne, hparts, splitAtWildcard_append head htail]
  rfl

theorem lookup_keyedValues (hf : f.WellFormed) (hend : Ends f.outer? n) (h : f.PlainKeys n)
    (k : String) : (f.keyedValues (some n) parts).lookup k =
      ((f.findAll (some n) (head ++ [wildcard]) 0).filterMap (f.keyedAt? tail)).lookup k := by
  rw [keyedValues_eq hparts htail, lookup_ofAssigned (nodup_firstFields _), lookup_firstFields]
  split
  · next hk => exact (lookup_found_of_not_plain hf hend h head tail (Or.inr hk)).symm
  · rfl

/-- There is no value by the key `*`. -/
theorem lookup_wildcard (hf : f.WellFormed) (hend : Ends f.outer? n) (h : f.PlainKeys n) :
    (f.keyedValues (some n) parts).lookup wildcard = none := by
  rw [lookup_keyedValues hparts htail hf hend h,
    lookup_found_of_not_plain hf hend h head tail (Or.inl rfl)]

end

/-- **Values by key are what lookups with the keys find.**  Where the scopes of a node end and have
only plain keys, the record of the values at `head.*.tail` has a field for a key just when a lookup
with the key in place of the `*` finds a node, and the field holds that node's value.  It has none
for `*` itself, with which a lookup finds the first node at the whole path. -/
theorem keyedValues_eq_find? {f : Forest} (hf : f.WellFormed) {n : NodeId}
    (hend : Ends f.outer? n) (hkeys : f.PlainKeys n) {parts : List PathPart}
    {head tail : List String} (hparts : keyPath parts = head ++ wildcard :: tail)
    (hhead : wildcard ∉ head) (htail : wildcard ∉ tail) :
    ((f.keyedValues (some n) parts).map (·.1)).Nodup ∧
    (∀ k, k ≠ wildcard → (f.keyedValues (some n) parts).lookup k =
      (f.find? (some n) (head ++ k :: tail)).map f.value) ∧
    (f.keyedValues (some n) parts).lookup wildcard = none := by
  refine ⟨?_, fun k hk => ?_, lookup_wildcard hparts htail hf hend hkeys⟩
  · rw [keyedValues_eq hparts htail]
    exact (Record.names_ofPairs _).1
  · rw [lookup_keyedValues hparts htail hf hend hkeys,
      lookup_keyed hf hend hkeys hhead htail hk]

/-- A scope defines the key without the rest of the path, which is looked up on from there. -/
theorem keyedValues_eq_find?_outward : ∃ steps f, Run steps f ∧ f.PlainKeys 4 ∧
    f.findAll (some 4) ["a", "*"] 0 = [6, 2] ∧
    (f.keyedValues (some 4) [.text "a.*.x"]).lookup "b" = some (.text "outer") := by
  obtain ⟨steps, f, hrun, htrail, hkeys, hall, hfound, hvalue⟩ : ∃ steps f, Run steps f ∧
      Trail f.outer? 4 [4, 0] ∧ (∀ m < f.size, ∀ k ∈ f.keys m,
        k ≠ wildcard ∧ k ≠ "" ∧ k ≠ Record.inheritedName) ∧
      f.findAll (some 4) ["a", "*"] 0 = [6, 2] ∧ f.find? (some 4) ["a", "b", "x"] = some 3 ∧
      f.value 3 = .text "outer" :=
    ⟨_, _, .step (.stack 0 [[("a.b.y", .text "inner")]])
      (.step (.ofArgs [("a.b.x", .text "outer")]) .start (by decide)) (by decide),
      .step (by decide) (.last (by decide)), by decide, by decide, by decide, rfl⟩
  have hplain := plainKeys_of_all hrun.wellFormed (n := 4) hkeys
  obtain ⟨-, hlookup, -⟩ := keyedValues_eq_find? hrun.wellFormed ⟨_, htrail⟩ hplain
    (show keyPath [.text "a.*.x"] = ["a"] ++ wildcard :: ["x"] by decide) (by decide) (by decide)
  refine ⟨steps, f, hrun, hplain, hall, ?_⟩
  rw [hlookup "b" (by decide)]
  exact (congrArg _ hfound).trans (congrArg some hvalue)

/-- A lookup with `*` for a key finds a node, and there is no value by that key. -/
theorem keyedValues_no_wildcard : ∃ steps f, Run steps f ∧ Ends f.outer? 0 ∧ f.PlainKeys 0 ∧
    keyPath [.text "*"] = [] ++ wildcard :: [] ∧
    (f.find? (some 0) ([] ++ wildcard :: [])).map f.value = some (.text "1") ∧
    (f.keyedValues (some 0) [.text "*"]).lookup wildcard = none := by
  obtain ⟨steps, f, hrun, houter, hkeys, hvalue⟩ : ∃ steps f, Run steps f ∧ f.outer? 0 = none ∧
      (∀ m < f.size, ∀ k ∈ f.keys m,
        k ≠ wildcard ∧ k ≠ "" ∧ k ≠ Record.inheritedName) ∧
      (f.find? (some 0) ([] ++ wildcard :: [])).map f.value = some (.text "1") :=
    ⟨_, _, .step (.ofArgs [("a", .text "1")]) .start (by decide), by decide, by decide, rfl⟩
  have hparts : keyPath [.text "*"] = [] ++ wildcard :: [] := by decide
  have hplain := plainKeys_of_all hrun.wellFormed (n := 0) hkeys
  exact ⟨steps, f, hrun, .of_none houter, hplain, hparts, hvalue,
    lookup_wildcard hparts (by decide) hrun.wellFormed (.of_none houter) hplain⟩

end LayeredConf.Forest
