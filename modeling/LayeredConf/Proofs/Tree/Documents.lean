import LayeredConf.Proofs.Lookup.Stacking
import LayeredConf.Proofs.Tree.Parts

/-!
# Reading documents

A document is read into a scope by writing its leaves, each at its path.  The parts on the way to a
leaf get their nodes with it, and nothing is written for an array or object that is empty, so a part
has a node just when there is a leaf in it.

    valueAt?_newRoot      a new scope has no node but its root
    reaches_leafArgs_iff  a path is written at just when there is a leaf in the part there
    readJson_parts        the nodes of a document that is read into a new scope
    readJson_loses        an empty object that has no node
-/

namespace LayeredConf.Forest

open Json

theorem writeLeaves_eq_setAll (f : Forest) (n : NodeId) (es : List (List String × Value)) :
    f.writeLeaves n es = f.setAll n (es.map fun e => (dotted e.1, e.2)) := by
  rw [writeLeaves, setAll, List.foldl_map]

theorem valueAt?_newRoot (f : Forest) {p : List String} (hne : p ≠ []) :
    f.newRoot.1.valueAt? f.newRoot.2 p = none := by
  cases p with
  | nil => exact absurd rfl hne
  | cons k ks =>
    rw [valueAt?, walk, child, children, node_newRoot]
    rfl

/-! ## Leaves as assignments -/

/-- The leaves of a document, with their paths as keys. -/
def leafArgs (doc : Json) : Assignments := (leaves [] doc).map fun e => (dotted e.1, e.2)

section

variable {doc w : Json} {p : List String}
variable (hdoc : doc.IsContainer) (hnames : doc.PlainNames)

include hdoc hnames

/-- An argument for a leaf is written at the path of the leaf. -/
theorem mem_leafArgs_iff {v : Value} : (∃ e ∈ leafArgs doc, p = dottedKeys e.1 ∧ v = e.2) ↔
    ∃ w, PartAt doc p w ∧ ¬w.IsContainer ∧ v = w.own := by
  have hkeys : ∀ q u, PartAt doc q u → ¬u.IsContainer → dottedKeys (dotted q) = q := by
    refine fun q u hu hleaf => dottedKeys_dotted ?_ (hu.dotless hnames)
    rintro rfl
    rw [← partAt_nil_iff.mp hu] at hleaf
    exact hleaf hdoc
  constructor
  · rintro ⟨_, he, rfl, rfl⟩
    obtain ⟨⟨q, v⟩, hq, rfl⟩ := List.mem_map.mp he
    obtain ⟨u, hu, hleaf, rfl⟩ := mem_leaves_iff.mp hq
    exact ⟨u, by rwa [hkeys q u hu hleaf], hleaf, rfl⟩
  · rintro ⟨w, hw, hleaf, rfl⟩
    exact ⟨_, List.mem_map_of_mem (mem_leaves_iff.mpr ⟨w, hw, hleaf, rfl⟩),
      (hkeys p w hw hleaf).symm, rfl⟩

theorem reaches_leafArgs_iff : Reaches (leafArgs doc) p ↔ ∃ w, PartAt doc p w ∧ w.Tells := by
  constructor
  · rintro ⟨e, he, rest, hp⟩
    obtain ⟨u, hu, hleaf, -⟩ := (mem_leafArgs_iff hdoc hnames).mp ⟨e, he, hp, rfl⟩
    obtain ⟨w, hw, hrest⟩ := hu.of_append
    exact ⟨w, hw, rest, u, hrest, hleaf⟩
  · rintro ⟨w, hw, q, u, hu, hleaf⟩
    obtain ⟨e, he, hp, -⟩ := (mem_leafArgs_iff hdoc hnames).mpr ⟨u, hw.append hu, hleaf, rfl⟩
    exact ⟨e, he, q, hp⟩

/-- A part is given what it holds as its own. -/
theorem assigned?_leafArgs (hread : doc.Enumerated) (hw : PartAt doc p w) :
    assigned? (leafArgs doc) p = if w.own.isUnset then none else some w.own := by
  cases h : assigned? (leafArgs doc) p with
  | some v =>
    obtain ⟨e, he, hp, rfl, hset⟩ := mem_of_assigned h
    obtain ⟨u, hu, -, hv⟩ := (mem_leafArgs_iff hdoc hnames).mp ⟨e, he, hp, rfl⟩
    rw [← hw.unique hread hu] at hv
    rw [← hv, hset]
    rfl
  | none =>
    cases hset : w.own.isUnset with
    | true => rfl
    | false =>
      obtain ⟨e, he, rfl, hv⟩ := (mem_leafArgs_iff hdoc hnames).mpr
        ⟨w, hw, not_isContainer_of_own hset, rfl⟩
      exact absurd h (assigned?_ne_none he (hv ▸ hset))

/-- Below a new scope the parts with a leaf in them have nodes, and no other paths have. -/
theorem valueAt?_leafArgs {f : Forest} (hf : f.WellFormed) (hread : doc.Enumerated) (hne : p ≠ [])
    (v : Value) : (f.newRoot.1.setAll f.newRoot.2 (leafArgs doc)).valueAt? f.newRoot.2 p = some v ↔
      ∃ w, PartAt doc p w ∧ w.own = v ∧ w.Tells := by
  obtain ⟨hwrite, hn, -⟩ := f.newRoot_writes hf.region
  have hvalue := valueAt?_setAll (hwrite.wellFormed hf) hn (leafArgs doc) p
  rw [f.valueAt?_newRoot hne, Option.none_or] at hvalue
  have hpart : ∀ w, PartAt doc p w → w.Tells →
      (f.newRoot.1.setAll f.newRoot.2 (leafArgs doc)).valueAt? f.newRoot.2 p = some w.own := by
    intro w hw htells
    rw [hvalue, assigned?_leafArgs hdoc hnames hread hw,
      if_pos ((reaches_leafArgs_iff hdoc hnames).mpr ⟨w, hw, htells⟩)]
    cases w <;> rfl
  constructor
  · intro h
    have hreaches : Reaches (leafArgs doc) p := by
      rw [hvalue, Option.or_eq_some_iff] at h
      rcases h with h | ⟨-, h⟩
      · exact .of_assigned h
      · split at h
        · next hreaches => exact hreaches
        · cases h
    obtain ⟨w, hw, htells⟩ := (reaches_leafArgs_iff hdoc hnames).mp hreaches
    exact ⟨w, hw, Option.some.inj ((hpart w hw htells).symm.trans h), htells⟩
  · rintro ⟨w, hw, rfl, htells⟩
    exact hpart w hw htells

end

/-- **The nodes of a document.**  A document that is read into a new scope makes a node at the path
of every part that is no array or object, or has such a part in it; the node holds what the part
holds as its own, and there are no other nodes.  So every part has its node just when no array or
object in the document is empty. -/
theorem readJson_parts {f : Forest} (hf : f.WellFormed) {text : String}
    {fields : List (String × Json)} (hread : Json.read? text = some (.object fields))
    (hnames : (Json.object fields).PlainNames) :
    ∃ g, f.newRoot.1.readJson f.newRoot.2 text = .ok g ∧
      (∀ path v, path ≠ [] → (g.valueAt? f.newRoot.2 path = some v ↔
        ∃ w, PartAt (.object fields) path w ∧ w.own = v ∧ w.Tells)) ∧
      ((∀ path w, path ≠ [] → PartAt (.object fields) path w →
          g.valueAt? f.newRoot.2 path = some w.own) ↔
        ∀ path w, path ≠ [] → PartAt (.object fields) path w → w ≠ .array [] ∧ w ≠ .object []) := by
  have henum := enumerated_of_read? hread
  have hobject : (Json.object fields).IsContainer := trivial
  have hvalue (path : List String) (hne : path ≠ []) (v : Value) :=
    valueAt?_leafArgs hobject hnames hf henum hne v
  refine ⟨f.newRoot.1.setAll f.newRoot.2 (leafArgs (.object fields)), ?_,
    fun path v hne => hvalue path hne v, ?_, ?_⟩
  · rw [readJson, hread]
    exact congrArg _ (writeLeaves_eq_setAll _ _ _)
  · intro hall path w hne hw
    obtain ⟨w', hw', -, htells⟩ := (hvalue path hne _).mp (hall path w hne hw)
    rw [hw'.unique henum hw] at htells
    exact ⟨fun h => not_tells_of_empty (Or.inl h) htells,
      fun h => not_tells_of_empty (Or.inr h) htells⟩
  · intro hnone path w hne hw
    refine (hvalue path hne _).mpr ⟨w, hw, rfl, tells_of_no_empty w fun q u hu => ?_⟩
    exact hnone (path ++ q) u (List.append_ne_nil_of_left_ne_nil hne q) (hw.append hu)

/-- An object with an array of two and an object that is empty. -/
def sampleDocument : Json := .object [("a", .array [.text "x", .null]), ("b", .object [])]

theorem read?_sampleDocument :
    Json.read? "\x7b\"a\":[\"x\",null],\"b\":\x7b\x7d\x7d" = some sampleDocument := by
  have hprint := Json.read?_print sampleDocument
  simp only [sampleDocument, Json.asRead, Json.asReadItems, Json.asReadFields] at hprint
  rwa [Record.ofPairs_eq_self (by decide) (by decide),
    Record.ofPairs_eq_self (by decide) (by decide)] at hprint

theorem plainNames_sampleDocument : sampleDocument.PlainNames := by
  have htext : (Json.text "x").PlainNames := plainNames_of_leaf id
  have hnull : Json.null.PlainNames := plainNames_of_leaf id
  simp [sampleDocument, plainNames_object_iff, plainNames_array_iff, htext, hnull,
    Record.inheritedName]

theorem readJson_parts_sample : ∃ g,
    ({} : Forest).newRoot.1.readJson 0 "\x7b\"a\":[\"x\",null],\"b\":\x7b\x7d\x7d" = .ok g ∧
    g.valueAt? 0 ["a"] = some .unset ∧ g.valueAt? 0 ["a", "1"] = some (.text "x") ∧
    g.valueAt? 0 ["a", "2"] = some .unset ∧ g.valueAt? 0 ["b"] = none := by
  obtain ⟨g, hg, hnodes, -⟩ :=
    readJson_parts wellFormed_empty read?_sampleDocument plainNames_sampleDocument
  have harray : PartAt sampleDocument ["a"] (.array [.text "x", .null]) :=
    .field List.mem_cons_self (.self _)
  have hfirst : PartAt (.array [.text "x", .null]) ["1"] (.text "x") := .item (i := 0) rfl (.self _)
  have hsecond : PartAt (.array [.text "x", .null]) ["2"] .null := .item (i := 1) rfl (.self _)
  have hempty : PartAt sampleDocument ["b"] (.object []) :=
    .field (List.mem_cons_of_mem _ List.mem_cons_self) (.self _)
  refine ⟨g, hg, ?_, ?_, ?_, Option.eq_none_iff_forall_ne_some.mpr fun v hv => ?_⟩
  · exact (hnodes _ _ (by decide)).mpr ⟨_, harray, rfl, ["1"], _, hfirst, id⟩
  · exact (hnodes _ _ (by decide)).mpr ⟨_, harray.append hfirst, rfl, [], _, .self _, id⟩
  · exact (hnodes _ _ (by decide)).mpr ⟨_, harray.append hsecond, rfl, [], _, .self _, id⟩
  · obtain ⟨w, hw, -, htells⟩ := (hnodes _ v (by decide)).mp hv
    rw [hw.unique (enumerated_of_read? read?_sampleDocument) hempty] at htells
    exact not_tells_of_empty (Or.inr rfl) htells

/-- The null has a node, and the empty object has none. -/
theorem readJson_loses : ∃ g,
    Json.read? "\x7b\"a\":[\"x\",null],\"b\":\x7b\x7d\x7d" = some sampleDocument ∧
    sampleDocument.PlainNames ∧ PartAt sampleDocument ["a", "2"] .null ∧
    PartAt sampleDocument ["b"] (.object []) ∧
    ({} : Forest).newRoot.1.readJson 0 "\x7b\"a\":[\"x\",null],\"b\":\x7b\x7d\x7d" = .ok g ∧
    g.valueAt? 0 ["a", "2"] = some .unset ∧ g.valueAt? 0 ["b"] = none := by
  refine ⟨({} : Forest).newRoot.1.writeLeaves 0 (leaves [] sampleDocument), read?_sampleDocument,
    plainNames_sampleDocument, .field List.mem_cons_self (.item (i := 1) rfl (.self _)),
    .field (List.mem_cons_of_mem _ List.mem_cons_self) (.self _), ?_, rfl, rfl⟩
  rw [readJson, read?_sampleDocument]
  rfl

end LayeredConf.Forest
