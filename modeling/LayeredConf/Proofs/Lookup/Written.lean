import LayeredConf.Proofs.Forest.Growth
import LayeredConf.Proofs.Lookup.Matches
import LayeredConf.Selection

/-!
# Reading what was written

A lookup tries the child under a key before one under the key `*`, and its own scope before those
outside.  So it finds first what a walk along the path leads to, whatever else matches; and a walk
along a path that was written leads to the node that holds the value.

    find?_of_walk      a lookup along a walk finds where it leads
    set_reads_back     a write is read back and leaves all else as it was
-/

namespace LayeredConf.Forest

section

variable {f : Forest} {n m : NodeId} {path : List String}

/-- A walk leads to the first of the matches in its scope. -/
theorem matchesBelow_of_walk (hplain : wildcard ∉ path) (h : f.walk n path = some m) :
    ∃ rest, f.matchesBelow path n = m :: rest := by
  induction path generalizing n with
  | nil =>
    cases h
    exact ⟨[], rfl⟩
  | cons k ks ih =>
    rw [List.mem_cons, not_or] at hplain
    obtain ⟨c, hc, hm⟩ := (f.walk_cons_eq_some_iff n m k ks).mp h
    obtain ⟨rest, hrest⟩ := ih hplain.2 hm
    have hbranches : f.branches k n = c :: (f.child n wildcard).toList := by
      rw [branches, if_neg (Ne.symm hplain.1), hc]
      rfl
    rw [matchesBelow, hbranches, List.flatMap_cons, hrest]
    exact ⟨_, List.cons_append⟩

/-- So a lookup for one node is full in the first scope. -/
theorem find?_of_walk (hne : path ≠ []) (hplain : wildcard ∉ path) (h : f.walk n path = some m) :
    f.find? (some n) path = some m := by
  obtain ⟨rest, hrest⟩ := matchesBelow_of_walk hplain h
  have hbelow : f.matchBelow 1 path n [] = [m] := by
    rw [f.matchBelow_eq 1 path n [] (isFull_nil 1), hrest]
    rfl
  have hscopes : ∀ scopes, f.matchScopes 1 scopes n path [] = [m] := by
    intro scopes
    cases scopes with
    | zero => exact hbelow
    | succ scopes =>
      rw [matchScopes, hbelow]
      rfl
  rw [find?, findAll, if_neg hne, hscopes]
  rfl

theorem set_eq (f : Forest) (n : NodeId) {parts : List PathPart} (h : keyPath parts ≠ [])
    (v : Value) : f.set n parts v =
      ((f.setPath n (keyPath parts) v).1, some (f.setPath n (keyPath parts) v).2) := by
  unfold set
  split
  · next hnil => exact absurd hnil h
  · rfl

theorem get_of_nodeAt? {parts : List PathPart} (h : f.nodeAt? (some n) parts = some m) :
    f.get (some n) parts = f.value m := by
  rw [get, getD, read, readNode, h]
  rfl

end

/-- **A write is read back.**  Along a path without `*` it leads to a node with the value, and then
a lookup finds that node, whatever is under `*` and in other scopes.  The nodes that were there keep
all they hold, but for the value of that one, and gain children at the end at most; the new nodes
lie on the path and have no value, but for that one. -/
theorem set_reads_back {f : Forest} (hf : f.WellFormed) {n : NodeId} (hn : n < f.size)
    {parts : List PathPart} (hparts : parts ≠ []) (hplain : wildcard ∉ keyPath parts) {v : Value}
    (hv : v.isUnset = false) :
    ∃ g m, f.set n parts v = (g, some m) ∧ g.WellFormed ∧ g.walk n (keyPath parts) = some m ∧
      g.nodeAt? (some n) parts = some m ∧ g.get (some n) parts = v ∧
      (∀ x < f.size, ∃ added, g.node x = { f.node x with
        toChildren := (f.children x).append added, value := if x = m then v else f.value x }) ∧
      ∀ x < g.size, f.size ≤ x → (∃ ks, ks <+: keyPath parts ∧ g.walk n ks = some x) ∧
        g.value x = if x = m then v else .unset := by
  have hpath : keyPath parts ≠ [] := keyPath_ne_nil hparts
  have hgrows := ensurePath_grows hf hn (keyPath parts)
  have hwalk := ensurePath_walk hf hn (keyPath parts)
  have hnew := fun x => ensurePath_new hf hn (keyPath parts) (x := x)
  obtain ⟨he, hm, -⟩ := f.setPath_writes n hf.region (keyPath parts) v hn trivial
  have hwf := he.wellFormed hf
  rw [set_eq f n hpath v]
  unfold setPath assign at hm hwf ⊢
  generalize f.ensurePath n (keyPath parts) = r at hgrows hwalk hnew hm hwf ⊢
  obtain ⟨h, m⟩ := r
  dsimp only at hgrows hwalk hnew hm hwf ⊢
  rw [if_neg (by rw [hv]; exact Bool.false_ne_true)] at hm hwf ⊢
  have hsize : (h.setValue m v).size = h.size := size_modify h m _
  rw [hsize] at hm
  have hnode (x : NodeId) : (h.setValue m v).node x =
      { h.node x with value := if x = m then v else h.value x } := by
    rw [setValue, node_modify]
    by_cases hx : x = m
    · rw [if_pos ⟨hx, hm⟩, if_pos hx, hx]
    · rw [if_neg fun hc => hx hc.1, if_neg hx]
      rfl
  have hsame : ∀ ks, (h.setValue m v).walk n ks = h.walk n ks :=
    walk_congr (fun x => children_setValue h m x v) n
  have hfound := find?_of_walk hpath hplain ((hsame _).trans hwalk)
  refine ⟨_, m, rfl, hwf, (hsame _).trans hwalk, hfound, ?_, fun x hx => ?_,
    fun x hx hle => ⟨?_, ?_⟩⟩
  · rw [get_of_nodeAt? hfound, value, hnode]
    exact if_pos rfl
  · obtain ⟨added, hadded⟩ := hgrows.kept x hx
    exact ⟨added, by rw [hnode, hgrows.value hx, hadded]⟩
  · obtain ⟨ks, hstart, hks⟩ := hnew x hle (hsize ▸ hx)
    exact ⟨ks, hstart, (hsame ks).trans hks⟩
  · rw [value, hnode, hgrows.unset x hle]

/-- The path matches under `*` and in the scope outside before it is written, and the node that is
new comes before both. -/
theorem set_reads_back_nearest : ∃ steps f g, Run steps f ∧
    f.findAll (some 3) ["a", "b"] 0 = [5, 2] ∧
    f.set 3 [.text "a.b"] (.text "new") = (g, some 7) ∧
    g.nodeAt? (some 3) [.text "a.b"] = some 7 ∧ g.get (some 3) [.text "a.b"] = .text "new" ∧
    g.value 5 = .text "any" ∧ g.value 6 = .unset := by
  obtain ⟨steps, f, hrun, hall, hsize, hvalue, hsize', hset⟩ : ∃ steps f, Run steps f ∧
      f.findAll (some 3) ["a", "b"] 0 = [5, 2] ∧ f.size = 6 ∧ f.value 5 = .text "any" ∧
      (f.set 3 [.text "a.b"] (.text "new")).1.size = 8 ∧
      (f.set 3 [.text "a.b"] (.text "new")).2 = some 7 :=
    ⟨_, _, .step (.stack 0 [[("*.b", .text "any")]])
      (.step (.ofArgs [("a.b", .text "outer")]) .start (by decide)) (by decide), by decide,
      by decide, rfl, by decide, by decide⟩
  obtain ⟨g, m, hg, -, -, hfound, hget, hkept, hnew⟩ :=
    set_reads_back hrun.wellFormed (show 3 < f.size by omega)
      (show [PathPart.text "a.b"] ≠ [] by decide) (by decide)
      (show (Value.text "new").isUnset = false from rfl)
  rw [hg] at hsize' hset
  obtain rfl : m = 7 := Option.some.inj hset
  refine ⟨steps, f, g, hrun, hall, hg, hfound, hget, ?_, ?_⟩
  · obtain ⟨added, hadded⟩ := hkept 5 (by omega)
    rw [value, hadded]
    exact hvalue
  · exact (hnew 6 (by dsimp only at hsize'; omega) (by omega)).2

end LayeredConf.Forest
