import LayeredConf.Proofs.Tree.Decoding

/-!
# The parts of a document

A part of a document is a value in it, at the path of field names and item numbers that leads there.
The names in a document that is read are told apart, so no two parts have one path.  What is written
of a document are the parts that are no arrays or objects; so there is nothing of an array or object
in which there are none of these.

    PartAt v path w            `w` is the part of `v` at a path
    enumerated_of_read?        what is read has distinct names in every object
    PartAt.unique              there is one part at a path at most
    mem_leaves_iff             the leaves are the parts that are no arrays or objects
    tells_of_no_empty          a value has leaves if no array or object in it is empty
-/

namespace LayeredConf.Json

/-- The part of a value at a path: items are numbered from 1. -/
inductive PartAt : Json → List String → Json → Prop
  | self (v : Json) : PartAt v [] v
  | item {items : List Json} {i : Nat} {v w : Json} {path : List String} :
      items[i]? = some v → PartAt v path w → PartAt (.array items) (toString (i + 1) :: path) w
  | field {fields : List (String × Json)} {name : String} {v w : Json} {path : List String} :
      (name, v) ∈ fields → PartAt v path w → PartAt (.object fields) (name :: path) w

def IsContainer : Json → Prop
  | .array _ | .object _ => True
  | _ => False

/-- The value that a part holds as its own; an array or object has none. -/
def own : Json → Value
  | .bool b => .bool b
  | .number x => .number x
  | .text s => .text s
  | _ => .unset

/-- Is there a part that is no array or object? -/
def Tells (v : Json) : Prop := ∃ path w, PartAt v path w ∧ ¬w.IsContainer

/-- No field in it has a name with a dot, or the inherited name. -/
def PlainNames (v : Json) : Prop := ∀ path fields, PartAt v path (.object fields) →
  ∀ e ∈ fields, '.' ∉ e.1.toList ∧ e.1 ≠ Record.inheritedName

theorem not_isContainer_of_own {v : Json} (h : v.own.isUnset = false) : ¬v.IsContainer := by
  cases v with
  | array items => cases h
  | object fields => cases h
  | _ => exact id

theorem inductionOnParts {motive : Json → Prop} (leaf : ∀ v, ¬v.IsContainer → motive v)
    (array : ∀ items, (∀ v ∈ items, motive v) → motive (.array items))
    (object : ∀ fields, (∀ e ∈ fields, motive e.2) → motive (.object fields)) (v : Json) :
    motive v := by
  cases v with
  | array items =>
    refine array items fun v hv => ?_
    have hsize : sizeOf v < 1 + sizeOf items := Nat.lt_add_left 1 (List.sizeOf_lt_of_mem hv)
    exact inductionOnParts leaf array object v
  | object fields =>
    refine object fields fun e he => ?_
    obtain ⟨name, u⟩ := e
    have hsize : sizeOf u < 1 + sizeOf fields := by
      have hlt := List.sizeOf_lt_of_mem he
      rw [Prod.mk.sizeOf_spec] at hlt
      omega
    exact inductionOnParts leaf array object u
  | _ => exact leaf _ id
termination_by sizeOf v

/-! ## Parts of parts -/

section

variable {v w w' : Json} {k : String} {p q : List String}

theorem partAt_nil_iff : PartAt v [] w ↔ v = w :=
  ⟨fun h => by cases h; rfl, fun h => h ▸ .self v⟩

theorem partAt_array_iff {items : List Json} : PartAt (.array items) (k :: p) w ↔
    ∃ i u, items[i]? = some u ∧ k = toString (i + 1) ∧ PartAt u p w := by
  constructor
  · intro h
    cases h with
    | item hi hu => exact ⟨_, _, hi, rfl, hu⟩
  · rintro ⟨i, u, hi, rfl, hu⟩
    exact .item hi hu

theorem partAt_object_iff {fields : List (String × Json)} : PartAt (.object fields) (k :: p) w ↔
    ∃ u, (k, u) ∈ fields ∧ PartAt u p w := by
  constructor
  · intro h
    cases h with
    | field hk hu => exact ⟨_, hk, hu⟩
  · rintro ⟨u, hk, hu⟩
    exact .field hk hu

theorem PartAt.append {u : Json} (h : PartAt v p u) (hu : PartAt u q w) : PartAt v (p ++ q) w := by
  induction h with
  | self v => exact hu
  | item hi _ ih => exact .item hi (ih hu)
  | field hk _ ih => exact .field hk (ih hu)

theorem PartAt.of_append (h : PartAt v (p ++ q) w) : ∃ u, PartAt v p u ∧ PartAt u q w := by
  induction p generalizing v with
  | nil => exact ⟨v, .self v, h⟩
  | cons k p ih =>
    cases h with
    | item hi hw =>
      obtain ⟨u, hu, hw⟩ := ih hw
      exact ⟨u, .item hi hu, hw⟩
    | field hk hw =>
      obtain ⟨u, hu, hw⟩ := ih hw
      exact ⟨u, .field hk hu, hw⟩

theorem PlainNames.part (hv : v.PlainNames) (h : PartAt v p w) : w.PlainNames :=
  fun _ fields hfields => hv _ fields (h.append hfields)

theorem plainNames_of_leaf (hv : ¬v.IsContainer) : v.PlainNames := by
  intro path fields h
  cases h with
  | self => exact absurd trivial hv
  | item => exact absurd trivial hv
  | field => exact absurd trivial hv

theorem plainNames_array_iff {items : List Json} :
    (Json.array items).PlainNames ↔ ∀ v ∈ items, v.PlainNames := by
  constructor
  · intro hv u hu
    obtain ⟨i, hi⟩ := List.mem_iff_getElem?.mp hu
    exact hv.part (.item hi (.self u))
  · intro hall path fields h
    cases h with
    | item hi h => exact hall _ (List.mem_of_getElem? hi) _ fields h

theorem plainNames_object_iff {fields : List (String × Json)} : (Json.object fields).PlainNames ↔
    ∀ e ∈ fields, ('.' ∉ e.1.toList ∧ e.1 ≠ Record.inheritedName) ∧ e.2.PlainNames := by
  constructor
  · exact fun hv e he => ⟨hv [] fields (.self _) e he, hv.part (.field he (.self e.2))⟩
  · intro hall path inner h
    cases h with
    | self => exact fun e he => (hall e he).1
    | field hk h => exact (hall _ hk).2 _ inner h

theorem PartAt.dotless (h : PartAt v p w) (hv : v.PlainNames) : ∀ k ∈ p, '.' ∉ k.toList := by
  induction h with
  | self v => exact fun _ hk => nomatch hk
  | item hi _ ih =>
    exact List.forall_mem_cons.mpr
      ⟨Tree.dot_not_mem_toString _, ih (hv.part (.item hi (.self _)))⟩
  | field hk _ ih =>
    exact List.forall_mem_cons.mpr ⟨(hv _ _ (.self _) _ hk).1, ih (hv.part (.field hk (.self _)))⟩

/-- Names and numbers tell parts apart. -/
theorem PartAt.unique (hv : v.Enumerated) (h : PartAt v p w) (h' : PartAt v p w') : w = w' := by
  induction p generalizing v with
  | nil => exact (partAt_nil_iff.mp h).symm.trans (partAt_nil_iff.mp h')
  | cons k p ih =>
    cases v with
    | array items =>
      obtain ⟨i, u, hi, hk, hu⟩ := partAt_array_iff.mp h
      obtain ⟨j, u', hj, hk', hu'⟩ := partAt_array_iff.mp h'
      obtain rfl := Nat.succ.inj (eq_of_toString_eq (hk.symm.trans hk'))
      obtain rfl := Option.some.inj (hi.symm.trans hj)
      exact ih (enumeratedItems_iff.mp hv u (List.mem_of_getElem? hi)) hu hu'
    | object fields =>
      obtain ⟨u, hk, hu⟩ := partAt_object_iff.mp h
      obtain ⟨u', hk', hu'⟩ := partAt_object_iff.mp h'
      cases List.inj_on_of_nodup_map hv.1 hk hk' rfl
      exact ih (enumeratedFields_iff.mp hv.2.2 _ hk) hu hu'
    | _ => cases h

end

/-! ## What is read -/

theorem eq_of_readWord? {word s r : List Char} {u v : Json}
    (h : readWord? word u s = some (v, r)) : v = u := by
  unfold readWord? at h
  split at h
  · cases h
    rfl
  · cases h

theorem enumerated_of_readMagnitude? {negative : Bool} {s r : List Char} {v : Json}
    (h : readMagnitude? negative s = some (v, r)) : v.Enumerated := by
  unfold readMagnitude? at h
  dsimp only at h
  split at h
  · obtain ⟨part, -, h⟩ := Option.bind_eq_some_iff.mp h
    obtain ⟨power, -, h⟩ := Option.bind_eq_some_iff.mp h
    cases h
    trivial
  · cases h

theorem enumerated_of_readNumber? {s r : List Char} {v : Json}
    (h : readNumber? s = some (v, r)) : v.Enumerated := by
  unfold readNumber? at h
  split at h
  · exact enumerated_of_readMagnitude? h
  · exact enumerated_of_readMagnitude? h

mutual

theorem enumerated_of_readValue? (fuel : Nat) {s r : List Char} {v : Json}
    (h : readValue? fuel s = some (v, r)) : v.Enumerated := by
  cases fuel with
  | zero => cases h
  | succ fuel =>
    unfold readValue? at h
    split at h
    · obtain ⟨_, -, h⟩ := Option.map_eq_some_iff.mp h
      cases h
      trivial
    · split at h
      · cases h
        trivial
      · obtain ⟨⟨vs, _⟩, hvs, h⟩ := Option.map_eq_some_iff.mp h
        cases h
        exact enumeratedItems_iff.mpr (enumerated_of_readItems? fuel hvs)
    · split at h
      · cases h
        exact ⟨List.nodup_nil, List.Pairwise.nil, trivial⟩
      · obtain ⟨⟨fs, _⟩, hfs, h⟩ := Option.map_eq_some_iff.mp h
        cases h
        obtain ⟨hnodup, hfirst⟩ := Record.names_ofPairs fs
        refine ⟨hnodup, hfirst, enumeratedFields_iff.mpr fun e he => ?_⟩
        exact enumerated_of_readFields? fuel hfs e (Record.mem_of_mem_ofPairs he)
    · rw [eq_of_readWord? h]
      trivial
    · rw [eq_of_readWord? h]
      trivial
    · rw [eq_of_readWord? h]
      trivial
    · exact enumerated_of_readNumber? h

theorem enumerated_of_readItems? (fuel : Nat) {s r : List Char} {vs : List Json}
    (h : readItems? fuel s = some (vs, r)) : ∀ v ∈ vs, v.Enumerated := by
  cases fuel with
  | zero => cases h
  | succ fuel =>
    unfold readItems? at h
    split at h
    · cases h
    · next v r' hv =>
      have hfirst := enumerated_of_readValue? fuel hv
      split at h
      · obtain ⟨⟨vs, _⟩, hvs, h⟩ := Option.map_eq_some_iff.mp h
        cases h
        exact List.forall_mem_cons.mpr ⟨hfirst, enumerated_of_readItems? fuel hvs⟩
      · cases h
        exact List.forall_mem_singleton.mpr hfirst
      · cases h

theorem enumerated_of_readFields? (fuel : Nat) {s r : List Char} {fs : List (String × Json)}
    (h : readFields? fuel s = some (fs, r)) : ∀ e ∈ fs, e.2.Enumerated := by
  cases fuel with
  | zero => cases h
  | succ fuel =>
    unfold readFields? at h
    split at h
    · split at h
      · cases h
      · split at h
        · split at h
          · cases h
          · next v r' hv =>
            have hfirst := enumerated_of_readValue? fuel hv
            split at h
            · obtain ⟨⟨fs, _⟩, hfs, h⟩ := Option.map_eq_some_iff.mp h
              cases h
              exact List.forall_mem_cons.mpr ⟨hfirst, enumerated_of_readFields? fuel hfs⟩
            · cases h
              exact List.forall_mem_singleton.mpr hfirst
            · cases h
        · cases h
    · cases h

end

/-- In what is read, no object has two fields of one name. -/
theorem enumerated_of_read? {text : String} {v : Json} (h : read? text = some v) :
    v.Enumerated := by
  unfold read? at h
  dsimp only at h
  split at h
  · next u r hread =>
    split at h
    · cases h
      exact enumerated_of_readValue? _ hread
    · cases h
  · cases h

/-! ## Leaves -/

section

variable {path : List String} {e : List String × Value}

theorem mem_itemLeaves_iff {i : Nat} {vs : List Json} : e ∈ itemLeaves path i vs ↔
    ∃ j v, vs[j]? = some v ∧ e ∈ leaves (path ++ [toString (i + j)]) v := by
  induction vs generalizing i with
  | nil => simp [itemLeaves]
  | cons v vs ih =>
    rw [itemLeaves, List.mem_append, ih]
    constructor
    · rintro (he | ⟨j, u, hj, he⟩)
      · exact ⟨0, v, rfl, he⟩
      · exact ⟨j + 1, u, hj, by rwa [← Nat.add_assoc, Nat.add_right_comm]⟩
    · rintro ⟨_ | j, u, hj, he⟩
      · cases hj
        exact Or.inl he
      · exact Or.inr ⟨j, u, hj, by rwa [Nat.add_right_comm, Nat.add_assoc]⟩

theorem mem_fieldLeaves_iff {fs : List (String × Json)} : e ∈ fieldLeaves path fs ↔
    ∃ name v, (name, v) ∈ fs ∧ e ∈ leaves (path ++ [name]) v := by
  induction fs with
  | nil => simp [fieldLeaves]
  | cons f fs ih =>
    rw [fieldLeaves, List.mem_append, ih]
    constructor
    · rintro (he | ⟨name, v, hf, he⟩)
      · exact ⟨_, _, List.mem_cons_self, he⟩
      · exact ⟨name, v, List.mem_cons_of_mem _ hf, he⟩
    · rintro ⟨name, v, hf, he⟩
      rcases List.mem_cons.mp hf with rfl | hf
      · exact Or.inl he
      · exact Or.inr ⟨name, v, hf, he⟩

theorem PartAt.mem_leaves {v w : Json} {q : List String} (h : PartAt v q w) (hw : ¬w.IsContainer)
    (path : List String) : (path ++ q, w.own) ∈ leaves path v := by
  induction h generalizing path with
  | self v =>
    rw [List.append_nil]
    cases v with
    | array items => exact absurd trivial hw
    | object fields => exact absurd trivial hw
    | _ => exact List.mem_singleton_self _
  | @item items i _ _ _ hi _ ih =>
    rw [leaves, mem_itemLeaves_iff, List.append_cons]
    refine ⟨i, _, hi, ?_⟩
    rw [Nat.add_comm 1]
    exact ih hw _
  | field hk _ ih =>
    rw [leaves, mem_fieldLeaves_iff, List.append_cons]
    exact ⟨_, _, hk, ih hw _⟩

theorem exists_partAt_of_mem_leaves (v : Json) (path : List String) (he : e ∈ leaves path v) :
    ∃ q w, PartAt v q w ∧ ¬w.IsContainer ∧ e = (path ++ q, w.own) := by
  induction v using inductionOnParts generalizing path with
  | leaf v hv =>
    refine ⟨[], v, .self v, hv, ?_⟩
    rw [List.append_nil]
    cases v with
    | array items => exact absurd trivial hv
    | object fields => exact absurd trivial hv
    | _ => exact List.mem_singleton.mp he
  | array items ih =>
    obtain ⟨j, u, hj, he⟩ := mem_itemLeaves_iff.mp he
    obtain ⟨q, w, hw, hleaf, he⟩ := ih u (List.mem_of_getElem? hj) _ he
    exact ⟨_, w, .item hj hw, hleaf, by rw [he, List.append_assoc, Nat.add_comm 1]; rfl⟩
  | object fields ih =>
    obtain ⟨name, u, hk, he⟩ := mem_fieldLeaves_iff.mp he
    obtain ⟨q, w, hw, hleaf, he⟩ := ih (name, u) hk _ he
    exact ⟨_, w, .field hk hw, hleaf, by rw [he, List.append_assoc]; rfl⟩

end

/-- The leaves below a path are the parts that are no arrays or objects. -/
theorem mem_leaves_iff {v : Json} {p : List String} {x : Value} : (p, x) ∈ leaves [] v ↔
    ∃ w, PartAt v p w ∧ ¬w.IsContainer ∧ x = w.own := by
  constructor
  · intro he
    obtain ⟨q, w, hw, hleaf, he⟩ := exists_partAt_of_mem_leaves v [] he
    cases he
    exact ⟨w, hw, hleaf, rfl⟩
  · rintro ⟨w, hw, hleaf, rfl⟩
    exact hw.mem_leaves hleaf []

theorem not_tells_of_empty {v : Json} (h : v = .array [] ∨ v = .object []) : ¬v.Tells := by
  rintro ⟨path, w, hw, hleaf⟩
  rcases h with rfl | rfl
  · cases hw with
    | self => exact hleaf trivial
    | item hi _ => cases hi
  · cases hw with
    | self => exact hleaf trivial
    | field hk _ => cases hk

/-- The first item or field of each part leads to one that is no array or object. -/
theorem tells_of_no_empty (v : Json)
    (h : ∀ path w, PartAt v path w → w ≠ .array [] ∧ w ≠ .object []) : v.Tells := by
  induction v using inductionOnParts with
  | leaf v hv => exact ⟨[], v, .self v, hv⟩
  | array items ih =>
    cases items with
    | nil => exact absurd rfl (h [] _ (.self _)).1
    | cons u items =>
      have hfirst : (u :: items)[0]? = some u := rfl
      obtain ⟨path, w, hw, hleaf⟩ := ih u List.mem_cons_self fun _ _ hw => h _ _ (.item hfirst hw)
      exact ⟨_, w, .item hfirst hw, hleaf⟩
  | object fields ih =>
    cases fields with
    | nil => exact absurd rfl (h [] _ (.self _)).2
    | cons e fields =>
      have hfirst : (e.1, e.2) ∈ e :: fields := List.mem_cons_self
      obtain ⟨path, w, hw, hleaf⟩ := ih e hfirst fun _ _ hw => h _ _ (.field hfirst hw)
      exact ⟨_, w, .field hfirst hw, hleaf⟩

end LayeredConf.Json
