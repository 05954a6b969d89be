import LayeredConf.Forest.Structure
import LayeredConf.Proofs.Forest.Ordering
import LayeredConf.Proofs.Record

/-!
# Map and order

The map and the order of a node's children agree if they have the same keys, each once.  No change
checks this: an entry that is inserted under a key that is listed already would list it twice.  As
long as they agree, the children are the entries of the map in their order.

    Agrees c               map and order have the same keys, each once
    entries c              the children in order, each with its key
    append c added         more entries, listed last
    Agrees.insert          a key that is free can be inserted
    entries_append         the children after those that were there
-/

namespace LayeredConf

namespace Children

/-- The order lists the keys of the map, each once. -/
structure Agrees (c : Children) : Prop where
  distinct : c.childOrder.Nodup
  same : (c.childMap.map (·.1)).Perm c.childOrder

instance (c : Children) : Decidable c.Agrees :=
  decidable_of_iff (c.childOrder.Nodup ∧ (c.childMap.map (·.1)).Perm c.childOrder)
    ⟨fun h => ⟨h.1, h.2⟩, fun h => ⟨h.distinct, h.same⟩⟩

/-- The children in order, each with its key. -/
def entries (c : Children) : List (String × NodeId) :=
  c.childOrder.filterMap fun k => (c.get? k).map (k, ·)

/-- More children, behind those that are there. -/
def append (c : Children) (added : List (String × NodeId)) : Children :=
  { childMap := c.childMap ++ added
    childOrder := c.childOrder ++ added.map (·.1) }

theorem agrees_empty : Agrees {} := ⟨List.nodup_nil, .refl _⟩

theorem nodes_eq (c : Children) : c.nodes = c.entries.map (·.2) := by
  rw [nodes, entries, List.map_filterMap]
  congr 1
  funext k
  cases c.get? k <;> rfl

@[simp] theorem nodes_empty : nodes {} = [] := rfl

/-- The keys in order, each with the node that the map has for it, are all there is to know. -/
theorem entries_eq {c : Children} {l : List (String × NodeId)} (horder : c.childOrder = l.map (·.1))
    (hget : ∀ e ∈ l, c.get? e.1 = some e.2) : c.entries = l := by
  rw [entries, horder, List.filterMap_map]
  refine Eq.trans ?_ (List.filterMap_some (l := l))
  apply List.filterMap_congr
  intro e he
  rw [Function.comp_apply, hget e he]
  rfl

/-! ## What agreement gives -/

section

variable {c : Children} {k : String} {n : NodeId}

theorem get?_isSome_iff (c : Children) (k : String) :
    (c.get? k).isSome ↔ k ∈ c.childMap.map (·.1) := Record.lookup_isSome_iff c.childMap k

theorem get?_eq_none_iff (c : Children) (k : String) :
    c.get? k = none ↔ k ∉ c.childMap.map (·.1) := by
  rw [← get?_isSome_iff, Option.not_isSome_iff_eq_none]

namespace Agrees

variable (h : c.Agrees)

include h

theorem distinctMap : (c.childMap.map (·.1)).Nodup := h.same.nodup_iff.mpr h.distinct

theorem mem_order_iff : k ∈ c.childOrder ↔ ∃ n, c.get? k = some n := by
  rw [← h.same.mem_iff, ← get?_isSome_iff, Option.isSome_iff_exists]

theorem get?_eq_some_iff_mem : c.get? k = some n ↔ (k, n) ∈ c.childMap :=
  Record.lookup_eq_some_iff_mem _ h.distinctMap k n

theorem not_mem_order_iff : k ∉ c.childOrder ↔ c.get? k = none := by
  rw [h.mem_order_iff, ← Option.isSome_iff_exists, Option.not_isSome_iff_eq_none]

theorem map_fst_entries : c.entries.map (·.1) = c.childOrder := by
  rw [entries, List.map_filterMap]
  refine Eq.trans ?_ (List.filterMap_some (l := c.childOrder))
  apply List.filterMap_congr
  intro k hk
  obtain ⟨n, hn⟩ := h.mem_order_iff.mp hk
  rw [hn]
  rfl

theorem get?_eq_some_iff : c.get? k = some n ↔ (k, n) ∈ c.entries := by
  rw [entries, List.mem_filterMap]
  constructor
  · intro hn
    exact ⟨k, h.mem_order_iff.mpr ⟨n, hn⟩, by rw [hn]; rfl⟩
  · rintro ⟨k', -, he⟩
    obtain ⟨n', hn', heq⟩ := Option.map_eq_some_iff.mp he
    obtain ⟨rfl, rfl⟩ := Prod.mk.inj heq
    exact hn'

theorem nodup_entries : (c.entries.map (·.1)).Nodup := h.map_fst_entries ▸ h.distinct

theorem get?_eq_lookup (k : String) : c.get? k = c.entries.lookup k :=
  Option.ext fun _ =>
    h.get?_eq_some_iff.trans (Record.lookup_eq_some_iff_mem _ h.nodup_entries k _).symm

theorem mem_nodes_iff : n ∈ c.nodes ↔ ∃ k, c.get? k = some n := by
  rw [nodes_eq, List.mem_map]
  constructor
  · rintro ⟨e, he, rfl⟩
    exact ⟨e.1, h.get?_eq_some_iff.mpr he⟩
  · rintro ⟨k, hk⟩
    exact ⟨(k, n), h.get?_eq_some_iff.mp hk, rfl⟩

/-- The map has no other nodes than the order lists. -/
theorem mem_map_iff : n ∈ c.childMap.map (·.2) ↔ ∃ k, c.get? k = some n := by
  rw [List.mem_map]
  constructor
  · rintro ⟨e, he, rfl⟩
    exact ⟨e.1, h.get?_eq_some_iff_mem.mpr he⟩
  · rintro ⟨k, hk⟩
    exact ⟨(k, n), h.get?_eq_some_iff_mem.mp hk, rfl⟩

/-- Where no key is listed there is nothing in the map. -/
theorem eq_empty (hkeys : c.childOrder = []) : c = {} := by
  have hmap := h.same
  rw [hkeys] at hmap
  obtain ⟨entries, order⟩ := c
  obtain rfl : order = [] := hkeys
  obtain rfl : entries = [] := List.map_eq_nil_iff.mp hmap.eq_nil
  rfl

end Agrees

end

/-! ## Changes -/

section

variable {c : Children} {k k' : String} {n : NodeId} {added : List (String × NodeId)}

@[simp] theorem get?_erase (c : Children) (k k' : String) :
    (c.erase k).get? k' = if k' = k then none else c.get? k' :=
  Record.lookup_filter_ne c.childMap k k'

@[simp] theorem get?_insert (c : Children) (k k' : String) (n : NodeId) :
    (c.insert k n).get? k' = if k' = k then some n else c.get? k' :=
  Record.lookup_put c.childMap k k' n

@[simp] theorem get?_sort (c : Children) (k : String) : c.sort.get? k = c.get? k := rfl

theorem get?_append (c : Children) (added : List (String × NodeId)) (k : String) :
    (c.append added).get? k = (c.get? k).or (added.lookup k) := List.lookup_append

@[simp] theorem append_nil (c : Children) : c.append [] = c := by
  simp [append]

theorem append_append (c : Children) (more : List (String × NodeId)) :
    (c.append added).append more = c.append (added ++ more) := by
  simp [append]

/-- Nothing is under a free key that could be taken out of either. -/
theorem Agrees.erase_of_free (h : c.Agrees) (hk : c.get? k = none) : c.erase k = c := by
  have hmap : ∀ e ∈ c.childMap, e.1 ≠ k := by
    rintro e he rfl
    rw [h.get?_eq_some_iff_mem.mpr he] at hk
    cases hk
  have horder : k ∉ c.childOrder := h.not_mem_order_iff.mpr hk
  unfold erase
  rw [List.filter_eq_self.mpr (by simpa using hmap), List.erase_of_not_mem horder]

/-- Under a free key an entry comes last in the map, as its key does in the order. -/
theorem insert_of_free (hk : c.get? k = none) (n : NodeId) : c.insert k n = c.append [(k, n)] := by
  unfold insert append
  rw [Record.put_of_not_mem ((c.get?_eq_none_iff k).mp hk)]
  rfl

theorem Agrees.order_erase (h : c.Agrees) (k : String) :
    (c.erase k).childOrder = c.childOrder.filter (· ≠ k) := by
  show c.childOrder.erase k = _
  rw [h.distinct.erase_eq_filter]
  apply List.filter_congr
  intro a _
  by_cases ha : a = k <;> simp [ha]

theorem Agrees.erase (h : c.Agrees) (k : String) : (c.erase k).Agrees where
  distinct := h.distinct.erase k
  same := by
    have hmap : (c.erase k).childMap.map (·.1) = (c.childMap.map (·.1)).filter (· ≠ k) := by
      rw [List.filter_map]
      rfl
    rw [hmap, h.order_erase]
    exact h.same.filter _

/-- An entry is inserted where there is none. -/
theorem Agrees.insert (h : c.Agrees) (hk : c.get? k = none) (n : NodeId) :
    (c.insert k n).Agrees := by
  have hfree : k ∉ c.childOrder := h.not_mem_order_iff.mpr hk
  rw [insert_of_free hk]
  constructor
  · refine List.nodup_append.mpr ⟨h.distinct, by simp, ?_⟩
    rintro a ha b hb rfl
    rw [List.mem_singleton.mp hb] at ha
    exact hfree ha
  · show ((c.childMap ++ [(k, n)]).map (·.1)).Perm (c.childOrder ++ [k])
    rw [List.map_append]
    exact h.same.append_right [k]

/-- Under a key that is taken the map has the new node in place of the old one, and the order has
the key twice. -/
example : ¬(Children.insert ⟨[("a", 1)], ["a"]⟩ "a" 2).Agrees := by decide

theorem Agrees.sort (h : c.Agrees) : c.sort.Agrees where
  distinct := (sortKeys_perm _).nodup_iff.mpr h.distinct
  same := h.same.trans (sortKeys_perm _).symm

/-- What is added comes after the children that were there. -/
theorem Agrees.entries_append (h : c.Agrees) (hadded : (c.append added).Agrees) :
    (c.append added).entries = c.entries ++ added := by
  apply entries_eq
  · rw [List.map_append, h.map_fst_entries]
    rfl
  · intro e he
    rw [hadded.get?_eq_some_iff_mem]
    rcases List.mem_append.mp he with he | he
    · exact List.mem_append_left _ (h.get?_eq_some_iff_mem.mp (h.get?_eq_some_iff.mpr he))
    · exact List.mem_append_right _ he

theorem Agrees.nodes_append (h : c.Agrees) (hadded : (c.append added).Agrees) :
    (c.append added).nodes = c.nodes ++ added.map (·.2) := by
  rw [nodes_eq, h.entries_append hadded, List.map_append, ← nodes_eq]

end

end Children

end LayeredConf
