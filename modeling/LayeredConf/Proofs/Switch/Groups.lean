import LayeredConf.Proofs.Lookup.Absolute
import LayeredConf.Proofs.Switch.Evaluation

/-!
# Groups together and one by one

A path that ends in `*` evaluates all groups under a node, and each key carries the key of its
group.  A group evaluated alone gives the same pairs under their own keys.  Put together again under
keys that carry the group's, what the groups give alone is what they give together: the keys of one
group stay apart, so grouping its pairs by key first changes no order, and where keys of two groups
fall together the values of the first come first.

    groupPairs_named      a group under `*` gives the pairs it gives alone, under other keys
    evalSwitches_single   a group evaluated alone
    evalSwitches_union    all groups under a node
-/

namespace LayeredConf

/-! ## Keys that carry the group's -/

theorem Switch.outputKey_injective (g : String) :
    Function.Injective (Switch.outputKey (some g)) := by
  have hlonger : ∀ k, g ++ "_" ++ k ≠ g := by
    intro k he
    rw [String.append_assoc] at he
    simp at he
  intro k k' he
  unfold Switch.outputKey at he
  dsimp only at he
  by_cases hk : k = Switch.valueKey
  · by_cases hk' : k' = Switch.valueKey
    · rw [hk, hk']
    · rw [if_pos hk, if_neg hk'] at he
      exact absurd he.symm (hlonger k')
  · by_cases hk' : k' = Switch.valueKey
    · rw [if_neg hk, if_pos hk'] at he
      exact absurd he (hlonger k)
    · rw [if_neg hk, if_neg hk'] at he
      exact (String.append_right_inj (g ++ "_")).mp he

namespace Forest

section

variable (f : Forest) (n : NodeId)

theorem groupPairs_named (g : NodeId) : f.groupPairs n true g =
    (f.groupPairs n false g).map fun e => (Switch.outputKey (some (f.key g)) e.1, e.2) := by
  rw [groupPairs, groupPairs, List.map_flatMap]
  simp only [List.map_map]
  rfl

/-- Group by group, what groups give under keys that carry the group's. -/
theorem addEach_groupPairs {m : Multimap} (h : m.keys.Nodup) (groups : List NodeId) :
    m.addEach ((groups.flatMap (f.groupPairs n true)).map fun e => (e.1, [e.2])) =
      groups.foldl (fun m g => m.addAll (.ofPairs (f.groupPairs n false g))
        (Switch.outputKey (some (f.key g)))) m := by
  induction groups generalizing m with
  | nil => rfl
  | cons g groups ih =>
    have hgroup : m.addEach ((f.groupPairs n true g).map fun e => (e.1, [e.2])) =
        m.addAll (.ofPairs (f.groupPairs n false g)) (Switch.outputKey (some (f.key g))) := by
      rw [groupPairs_named, List.map_map]
      exact Multimap.addEach_pairs h (Switch.outputKey_injective _) _
    rw [List.flatMap_cons, List.map_append, Multimap.addEach_append, List.foldl_cons, ← hgroup]
    exact ih (Multimap.nodup_keys_addEach _ h)

end

/-! ## Groups under a node -/

section

variable {f : Forest} {n s : NodeId} {path : List PathPart} (hscope : f.outer? n = none)
variable (hs : f.findAll (some n) (keyPath path) 0 = [s])

include hscope hs

/-- What is found behind the path to a node is found below that node. -/
theorem findAll_append_single (rest : List String) :
    f.findAll (some n) (keyPath path ++ rest) 0 = f.matchesBelow rest s := by
  rw [findAll_eq_matchesBelow hscope] at hs
  rw [findAll_eq_matchesBelow hscope, matchesBelow_flatMap, hs]
  exact List.flatMap_singleton ..

/-- One group under the node, evaluated alone. -/
theorem evalSwitches_single (hf : f.WellFormed)
    (hkeys : ∀ k ∈ f.keys s, k ≠ wildcard ∧ '.' ∉ k.toList) {g : NodeId} (hg : g ∈ f.childIds s) :
    f.evalSwitches (some n) (path ++ [.text (f.key g)]) = .ofPairs (f.groupPairs n false g) := by
  have hchild := hf.child_of_mem_childIds hg
  obtain ⟨hne, hdot⟩ := hkeys (f.key g) ((hf.mem_keys_iff s (f.key g)).mpr ⟨g, hchild⟩)
  have hpath : keyPath (path ++ [.text (f.key g)]) = keyPath path ++ [f.key g] := by
    rw [keyPath, List.flatMap_append, List.flatMap_singleton]
    exact congrArg _ (dottedKeys_eq_singleton hdot)
  have hnamed : endsInWildcard (keyPath path ++ [f.key g]) = false := by
    simp [endsInWildcard, hne]
  have hwildcard : f.child s wildcard = none := Option.eq_none_iff_forall_ne_some.mpr fun c hc =>
    (hkeys wildcard ((hf.mem_keys_iff s wildcard).mpr ⟨c, hc⟩)).1 rfl
  have hbelow : f.matchesBelow [f.key g] s = [g] := by
    rw [matchesBelow, branches, if_neg hne, hchild, hwildcard]
    rfl
  rw [evalSwitches_eq_ofPairs f n (List.append_ne_nil_of_right_ne_nil _ (List.cons_ne_nil _ _)),
    hpath, hnamed, findAll_append_single hscope hs, hbelow, List.flatMap_singleton]

end

/-- **Groups together are the groups one by one.**  In a tree that inherits from nothing, where the
path leads to one node and no child of it is under `*` or a key with a dot, evaluating all groups
under the node gives the multimap that the groups evaluated alone add up to, in the order of the
children, when each key carries the key of its group. -/
theorem evalSwitches_union {f : Forest} (hf : f.WellFormed) {n s : NodeId}
    (hscope : f.outer? n = none) {path parts : List PathPart}
    (hs : f.findAll (some n) (keyPath path) 0 = [s])
    (hparts : keyPath parts = keyPath path ++ ["*"])
    (hkeys : ∀ k ∈ f.keys s, k ≠ "*" ∧ '.' ∉ k.toList) :
    f.evalSwitches (some n) parts = (f.childIds s).foldl (fun m g =>
      m.addAll (f.evalSwitches (some n) (path ++ [.text (f.key g)])) fun k =>
        if k = "value" then f.key g else f.key g ++ "_" ++ k) .empty := by
  have hne : parts ≠ [] := by
    rintro rfl
    exact List.append_ne_nil_of_right_ne_nil _ (List.cons_ne_nil _ _) hparts.symm
  have hnamed : endsInWildcard (keyPath path ++ ["*"]) = true := by
    simp [endsInWildcard, wildcard]
  have hbelow : f.matchesBelow ["*"] s = f.childIds s := f.matchesBelow_wildcard s
  have hgroups := f.addEach_groupPairs n Multimap.nodup_keys_empty (f.childIds s)
  rw [evalSwitches_eq_ofPairs f n hne, hparts, hnamed, findAll_append_single hscope hs, hbelow,
    Multimap.ofPairs_eq, hgroups]
  refine List.foldl_ext _ _ _ fun m g hg => ?_
  rw [evalSwitches_single hscope hs hf hkeys hg]
  rfl

/-- The keys of two groups fall together in `a_b`, which the first group brings and the second
adds to. -/
theorem evalSwitches_union_colliding : ∃ steps f, Run steps f ∧ f.outer? 0 = none ∧
    f.findAll (some 0) (keyPath [.text "s"]) 0 = [1] ∧ f.childIds 1 = [2, 5] ∧
    f.evalSwitches (some 0) [.text "s", .text "a"] = ⟨[("b", ["1", "3"]), ("value", ["2"])]⟩ ∧
    f.evalSwitches (some 0) [.text "s", .text "a_b"] = ⟨[("value", ["4"])]⟩ ∧
    f.evalSwitches (some 0) [.text "s.*"] = ⟨[("a_b", ["1", "3", "4"]), ("a", ["2"])]⟩ := by
  obtain ⟨steps, f, hrun, hscope, hs, hgroups, hkeys, hfirst, hsecond, ha, hb⟩ :
      ∃ steps f, Run steps f ∧ f.outer? 0 = none ∧
      f.findAll (some 0) (keyPath [.text "s"]) 0 = [1] ∧ f.childIds 1 = [2, 5] ∧
      (∀ k ∈ f.keys 1, k ≠ "*" ∧ '.' ∉ k.toList) ∧
      f.key 2 = "a" ∧ f.key 5 = "a_b" ∧
      f.evalSwitches (some 0) [.text "s", .text "a"] =
        ⟨[("b", ["1", "3"]), ("value", ["2"])]⟩ ∧
      f.evalSwitches (some 0) [.text "s", .text "a_b"] = ⟨[("value", ["4"])]⟩ :=
    ⟨_, _, .step (.ofArgs [("s.a.1.default", .text "b:1,2,b:3"), ("s.a_b.1.default", .text "4")])
      .start (by decide), by decide, by decide, by decide, by decide, by decide, by decide,
      by decide +kernel, by decide +kernel⟩
  have hunion := evalSwitches_union hrun.wellFormed hscope hs
    (show keyPath [.text "s.*"] = keyPath [.text "s"] ++ ["*"] by decide) hkeys
  rw [hgroups] at hunion
  simp only [List.foldl_cons, List.foldl_nil, List.cons_append, List.nil_append, hfirst, hsecond,
    ha, hb] at hunion
  exact ⟨steps, f, hrun, hscope, hs, hgroups, ha, hb, hunion.trans (by decide)⟩

end Forest

end LayeredConf
