import LayeredConf.Proofs.Forest.Run
import LayeredConf.Proofs.Forest.Views
import LayeredConf.Proofs.Tree.Encoding

/-!
# The text of a tree makes the tree anew

Where the JSON text of a tree tells it, but for its flags, reading the text into a new scope writes
the leaves of the tree one by one, so the tree of this scope is the tree of the text.

    Tellable t            the text of `t` tells all of it but the flags
    leaves_asRead         the parts of the value that is read are the leaves of the tree
    readJson_jsonChars    the new scope has the keys, values and order of the tree
-/

namespace LayeredConf

/-! ## What text can tell -/

/-- A value that JSON text tells: no list, date or duration, and no number that it writes as another
one. -/
def Value.IsPlain : Value → Prop
  | .unset | .text _ | .bool _ => True
  | .number x => x.isFinite = true ∧ x ≠ .zero true
  | _ => False

namespace Tree

mutual

/-- Nodes with children are unset, an array has the keys from 1 on and an object those of a record,
without dots. -/
def Tellable : Tree → Prop
  | .node _ v flags children =>
    match encodingOf flags (keys children) with
    | .leaf => v.IsPlain
    | .array => children ≠ [] ∧ v = .unset ∧
      keys children = (List.range' 1 children.length).map toString ∧ TellableAll children
    | .object => children ≠ [] ∧ v = .unset ∧ Record.IndexesFirst (keys children) ∧
      (∀ k ∈ keys children, '.' ∉ k.toList ∧ k ≠ Record.inheritedName) ∧ TellableAll children

def TellableAll : List Tree → Prop
  | [] => True
  | t :: ts => Tellable t ∧ TellableAll ts

end

theorem children_of_leaf {flags : Int} {ts : List Tree} (h : encodingOf flags (keys ts) = .leaf) :
    ts = [] := by
  unfold encodingOf at h
  split at h
  · next hc => exact List.map_eq_nil_iff.mp hc.1
  · split at h <;> cases h

theorem dot_not_mem_toString (i : Nat) : '.' ∉ (toString i).toList := by
  have hlist : (toString i).toList = Nat.toDigits 10 i := by
    rw [← String.toList_ofList (l := Nat.toDigits 10 i), ← Nat.repr_eq_ofList_toDigits]
    rfl
  rw [hlist]
  exact fun hmem => absurd (Decimal.isDigit_of_mem_toDigits hmem) (by decide)

mutual

theorem Tellable.hollow (t : Tree) (h : t.Tellable) : t.Hollow := by
  obtain ⟨k, v, flags, children⟩ := t
  rw [Tellable] at h
  split at h
  · next henc =>
    rw [children_of_leaf henc]
    exact ⟨fun hne => absurd rfl hne, trivial⟩
  · exact ⟨fun _ => h.2.1, Tellable.hollowAll children h.2.2.2⟩
  · exact ⟨fun _ => h.2.1, Tellable.hollowAll children h.2.2.2.2⟩

theorem Tellable.hollowAll (ts : List Tree) (h : TellableAll ts) : HollowAll ts := by
  cases ts with
  | nil => trivial
  | cons t ts => exact ⟨Tellable.hollow t h.1, Tellable.hollowAll ts h.2⟩

end

mutual

theorem Tellable.dotless (t : Tree) (h : t.Tellable) : t.KeysBelow ('.' ∉ ·.toList) := by
  obtain ⟨k, v, flags, children⟩ := t
  rw [Tellable] at h
  split at h
  · next henc =>
    rw [children_of_leaf henc]
    trivial
  · refine Tellable.dotlessAll children h.2.2.2 fun k hk => ?_
    rw [h.2.2.1] at hk
    obtain ⟨i, -, rfl⟩ := List.mem_map.mp hk
    exact dot_not_mem_toString i
  · exact Tellable.dotlessAll children h.2.2.2.2 fun k hk => (h.2.2.2.1 k hk).1

theorem Tellable.dotlessAll (ts : List Tree) (h : TellableAll ts)
    (hkeys : ∀ k ∈ keys ts, '.' ∉ k.toList) : KeysBelowAll ('.' ∉ ·.toList) ts := by
  cases ts with
  | nil => trivial
  | cons t ts =>
    obtain ⟨hk, hkeys⟩ := List.forall_mem_cons.mp hkeys
    exact ⟨hk, Tellable.dotless t h.1, Tellable.dotlessAll ts h.2 hkeys⟩

end

/-! ## The parts of the value -/

theorem names_ordered (ts : List Tree) :
    (Json.asReadFields ((keys ts).zip (orderedItems ts))).map (·.1) = keys ts := by
  induction ts with
  | nil => rfl
  | cons t ts ih => exact congrArg (t.key :: ·) ih

theorem leaves_toJson {v : Value} (h : v.IsPlain) (path : List String) :
    Json.leaves path v.toJson.asRead = [(path, v)] := by
  cases v with
  | number x =>
    rw [Value.toJson, Json.ofNumber, if_pos h.1, Json.asRead, if_pos h.1, Json.leaves,
      Number.unsignZero_of_ne h.1 h.2]
  | unset => rfl
  | text s => rfl
  | bool b => rfl
  | _ => cases h

mutual

theorem leaves_asRead (t : Tree) (hd : t.Distinct) (h : t.Tellable) (path : List String) :
    Json.leaves path t.ordered.asRead = t.entries.map (within path) := by
  obtain ⟨k, v, flags, children⟩ := t
  rw [Tellable] at h
  rw [ordered]
  cases henc : encodingOf flags (keys children) with
  | leaf =>
    rw [henc] at h
    rw [children_of_leaf henc]
    refine (leaves_toJson h path).trans ?_
    rw [entries, List.map_singleton, within, List.append_nil]
  | array =>
    rw [henc] at h
    obtain ⟨hne, -, hkeys, hall⟩ := h
    rw [entries_of_ne_nil k v flags hne]
    exact itemLeaves_asRead children hd.2 hall hkeys path
  | object =>
    rw [henc] at h
    obtain ⟨hne, -, hfirst, -, hall⟩ := h
    have hnames := names_ordered children
    have hself := Record.ofPairs_eq_self (hnames.symm ▸ hd.1) (hnames.symm ▸ hfirst)
    rw [entries_of_ne_nil k v flags hne]
    simp only [Json.asRead, Json.leaves, hself]
    exact fieldLeaves_asRead children hd.2 hall path

theorem itemLeaves_asRead (ts : List Tree) (hd : DistinctAll ts) (h : TellableAll ts) {i : Nat}
    (hkeys : keys ts = (List.range' i ts.length).map toString) (path : List String) :
    Json.itemLeaves path i (Json.asReadItems (orderedItems ts)) =
      (entriesAll ts).map (within path) := by
  cases ts with
  | nil => rfl
  | cons t ts =>
    rw [List.length_cons, List.range'_succ, List.map_cons, keys, List.map_cons] at hkeys
    obtain ⟨hkey, hkeys⟩ := List.cons.inj hkeys
    rw [orderedItems, Json.asReadItems, Json.itemLeaves, leaves_asRead t hd.1 h.1,
      itemLeaves_asRead ts hd.2 h.2 hkeys, entriesAll, List.map_append, ← hkey, map_within_child]

theorem fieldLeaves_asRead (ts : List Tree) (hd : DistinctAll ts) (h : TellableAll ts)
    (path : List String) :
    Json.fieldLeaves path (Json.asReadFields ((keys ts).zip (orderedItems ts))) =
      (entriesAll ts).map (within path) := by
  cases ts with
  | nil => rfl
  | cons t ts =>
    rw [entriesAll, List.map_append, ← map_within_child, ← leaves_asRead t hd.1 h.1,
      ← fieldLeaves_asRead ts hd.2 h.2]
    rfl

end

end Tree

namespace Forest

open LayeredConf.Tree

/-- **Reading the text of a tree makes the tree anew.**  The tree of the scope that the text is read
into has the keys, values and order of the tree of the text, whose root is written as an object. -/
theorem readJson_jsonChars {f : Forest} (hf : f.WellFormed) {n : NodeId}
    (h : (f.view n).Tellable)
    (hroot : encodingOf (f.view n).flags (Tree.keys (f.view n).children) = .object) :
    ∃ g, f.newRoot.1.readJson f.newRoot.2 (String.ofList (f.view n).jsonChars) = .ok g ∧
      g.view f.newRoot.2 = .node "" (f.view n).value 0 (bareAll (f.view n).children) := by
  have hd := view_distinct hf n
  generalize f.view n = t at h hroot hd ⊢
  have hread := Json.read?_print t.ordered
  rw [Json.print, ← jsonChars_eq] at hread
  obtain ⟨fields, hfields⟩ : ∃ fields, t.ordered.asRead = .object fields := by
    obtain ⟨k, v, flags, children⟩ := t
    have hobject : encodingOf flags (Tree.keys children) = .object := hroot
    rw [ordered, hobject, Json.asRead]
    exact ⟨_, rfl⟩
  have hleaves : Json.fieldLeaves [] fields = t.entries := by
    have hall := leaves_asRead t hd h []
    rw [hfields, Json.leaves] at hall
    exact hall.trans (List.map_id _)
  have hinner : t.children ≠ [] := by
    obtain ⟨k, v, flags, children⟩ := t
    have hobject : encodingOf flags (Tree.keys children) = .object := hroot
    rw [Tellable, hobject] at h
    exact h.1
  rw [readJson, hread, hfields]
  refine ⟨_, rfl, ?_⟩
  rw [hleaves]
  exact view_writeLeaves_newRoot hf hd h.hollow h.dotless hinner

/-- An index without a value, and an array of two. -/
theorem readJson_jsonChars_nested : ∃ steps f g, Run steps f ∧
    f.newRoot.1.readJson f.newRoot.2 (String.ofList (f.view 0).jsonChars) = .ok g ∧
    g.view f.newRoot.2 = .node "" .unset 0
      [.node "7" .unset 0 [],
       .node "a" .unset 0 [.node "1" (.text "x\"y") 0 [], .node "2" (.bool true) 0 []]] := by
  obtain ⟨steps, f, hrun, hview⟩ : ∃ steps f, Run steps f ∧ f.view 0 = .node "" .unset 0
      [.node "7" .unset 0 [],
       .node "a" .unset 0 [.node "1" (.text "x\"y") 0 [], .node "2" (.bool true) 0 []]] :=
    ⟨_, _, .step (.ofArgs [("7", .unset), ("a.1", .text "x\"y"), ("a.2", .bool true)]) .start
      (by decide), rfl⟩
  have hobject : encodingOf 0 ["7", "a"] = .object := by decide
  have harray : encodingOf 0 ["1", "2"] = .array := by decide
  have hleaf : encodingOf 0 [] = .leaf := by decide
  have htellable : (f.view 0).Tellable := by
    rw [hview]
    simp only [Tellable, TellableAll, Tree.keys, Tree.key, List.map_cons, List.map_nil, hobject,
      harray, hleaf, Value.IsPlain, and_true, true_and]
    decide
  obtain ⟨g, hread, hg⟩ := readJson_jsonChars hrun.wellFormed htellable (by
    rw [hview]
    decide)
  rw [hview] at hg
  exact ⟨steps, f, g, hrun, hread, hg⟩

end Forest

end LayeredConf
