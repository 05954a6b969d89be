import LayeredConf.Record
import Mathlib.Data.List.Basic

/-!
# The order of records

A record gives each name once, those that are array indexes first and ascending.  Fields that are in
this order already are the record of themselves.

    IndexesFirst names      indexes come first, ascending
    names_ofPairs           a record's names are distinct, with indexes first
    ofPairs_eq_self         fields in order are a record
    ofPairs_map             a record of changed values
-/

namespace LayeredConf.Record

/-- May the name `a` stand before the name `b`: before an index only a smaller one may. -/
def MayPrecede (a b : String) : Prop := ∀ j ∈ arrayIndex? b, ∃ i ∈ arrayIndex? a, i < j

instance (a b : String) : Decidable (MayPrecede a b) :=
  inferInstanceAs (Decidable (∀ j ∈ arrayIndex? b, ∃ i ∈ arrayIndex? a, i < j))

/-- Indexes come first, ascending. -/
def IndexesFirst (names : List String) : Prop := names.Pairwise MayPrecede

instance (names : List String) : Decidable (IndexesFirst names) :=
  inferInstanceAs (Decidable (names.Pairwise MayPrecede))

variable {α β : Type}

/-! ## Fields under names -/

theorem lookup_filter_ne (l : List (String × α)) (k k' : String) :
    (l.filter (·.1 ≠ k)).lookup k' = if k' = k then none else l.lookup k' := by
  induction l with
  | nil => simp
  | cons e l ih =>
    rw [List.filter_cons, List.lookup_cons]
    grind

theorem lookup_isSome_iff (l : List (String × α)) (k : String) :
    (l.lookup k).isSome ↔ k ∈ l.map (·.1) := by
  induction l with
  | nil => simp
  | cons e l ih =>
    rw [List.lookup_cons, List.map_cons, List.mem_cons, ← ih]
    grind

theorem lookup_eq_some_iff_mem (l : List (String × α)) (h : (l.map (·.1)).Nodup)
    (k : String) (x : α) : l.lookup k = some x ↔ (k, x) ∈ l := by
  induction l with
  | nil => simp
  | cons e l ih =>
    rw [List.map_cons, List.nodup_cons] at h
    have hl := ih h.2
    have hn : k = e.1 → (k, x) ∉ l := by
      rintro rfl hm
      exact h.1 (List.mem_map.mpr ⟨_, hm, rfl⟩)
    rw [List.lookup_cons, List.mem_cons]
    grind

/-! ## Setting fields -/

theorem names_put (fields : List (String × α)) (name : String) (v : α) :
    (put fields name v).map (·.1) =
      if name ∈ fields.map (·.1) then fields.map (·.1) else fields.map (·.1) ++ [name] := by
  induction fields with
  | nil => rfl
  | cons e fields ih =>
    obtain ⟨n, w⟩ := e
    rw [put]
    split
    · next h => simp [h]
    · next h =>
      rw [List.map_cons, ih]
      split
      · next hm => simp_all
      · next hm => simp_all [eq_comm]

theorem lookup_put (fields : List (String × α)) (name k : String) (v : α) :
    (put fields name v).lookup k = if k = name then some v else fields.lookup k := by
  induction fields with
  | nil =>
    rw [put, List.lookup_cons]
    by_cases hk : k = name
    · simp [hk]
    · simp [hk, beq_false_of_ne hk]
  | cons e fields ih =>
    obtain ⟨n, w⟩ := e
    rw [put]
    by_cases hn : n = name
    · rw [if_pos hn, List.lookup_cons, List.lookup_cons, hn]
      by_cases hk : k = name
      · simp [hk]
      · simp [hk, beq_false_of_ne hk]
    · rw [if_neg hn, List.lookup_cons, List.lookup_cons, ih]
      by_cases hk : k = n
      · simp [hk, hn]
      · simp [beq_false_of_ne hk]

theorem put_of_not_mem {fields : List (String × α)} {name : String}
    (h : name ∉ fields.map (·.1)) (v : α) : put fields name v = fields ++ [(name, v)] := by
  induction fields with
  | nil => rfl
  | cons e fields ih =>
    obtain ⟨n, w⟩ := e
    rw [List.map_cons, List.mem_cons, not_or] at h
    rw [put, if_neg (Ne.symm h.1), ih h.2, List.cons_append]

theorem nodup_put {fields : List (String × α)} (h : (fields.map (·.1)).Nodup) (name : String)
    (v : α) : ((put fields name v).map (·.1)).Nodup := by
  rw [names_put]
  split
  · exact h
  · next hm => exact List.nodup_append.mpr ⟨h, by simp, fun a ha b hb hab => hm (by simp_all)⟩

theorem foldl_put {acc fields : List (String × α)} (h : ((acc ++ fields).map (·.1)).Nodup) :
    fields.foldl (fun r (name, v) => put r name v) acc = acc ++ fields := by
  induction fields generalizing acc with
  | nil => simp
  | cons e fields ih =>
    obtain ⟨n, v⟩ := e
    have hnew : n ∉ acc.map (·.1) := by
      rw [List.map_append, List.map_cons] at h
      exact fun hn => (List.nodup_append.mp h).2.2 n hn n List.mem_cons_self rfl
    have hput : put acc n v = acc ++ [(n, v)] := put_of_not_mem hnew v
    rw [List.foldl_cons]
    dsimp only
    rw [hput, ih, List.append_assoc, List.singleton_append]
    rwa [List.append_assoc, List.singleton_append]

theorem put_map (g : α → β) (fields : List (String × α)) (name : String) (v : α) :
    put (fields.map fun e => (e.1, g e.2)) name (g v) =
      (put fields name v).map fun e => (e.1, g e.2) := by
  induction fields with
  | nil => rfl
  | cons e fields ih =>
    obtain ⟨n, w⟩ := e
    rw [put, List.map_cons, put, ih]
    split <;> rfl

/-! ## Enumeration -/

/-- The fields whose names are indexes, with these. -/
def indexed (fields : List (String × α)) : List (Nat × String × α) :=
  fields.filterMap fun e => (arrayIndex? e.1).map (·, e)

theorem enumerate_eq (fields : List (String × α)) : enumerate fields =
    ((indexed fields).mergeSort fun a b => a.1 ≤ b.1).map (·.2) ++
      fields.filter fun e => (arrayIndex? e.1).isNone := rfl

theorem arrayIndex?_of_mem_indexed {fields : List (String × α)} {e : Nat × String × α}
    (h : e ∈ indexed fields) : arrayIndex? e.2.1 = some e.1 := by
  obtain ⟨x, -, hx⟩ := List.mem_filterMap.mp h
  obtain ⟨i, hi, rfl⟩ := Option.map_eq_some_iff.mp hx
  exact hi

theorem map_indexed (fields : List (String × α)) :
    (indexed fields).map (·.2) = fields.filter fun e => (arrayIndex? e.1).isSome := by
  induction fields with
  | nil => rfl
  | cons e fields ih =>
    unfold indexed at ih ⊢
    rw [List.filterMap_cons, List.filter_cons]
    cases arrayIndex? e.1 with
    | none => exact ih
    | some i => exact congrArg _ ih

theorem enumerate_perm (fields : List (String × α)) : (enumerate fields).Perm fields := by
  have hsort := ((indexed fields).mergeSort_perm fun a b => a.1 ≤ b.1).map (·.2)
  have hsplit := List.filter_append_perm (fun e => (arrayIndex? e.1).isSome) fields
  simp only [Option.not_isSome] at hsplit
  rw [map_indexed] at hsort
  rw [enumerate_eq]
  exact (hsort.append_right _).trans hsplit

/-- A name is the canonical text of its index. -/
theorem toList_of_arrayIndex? {name : String} {i : Nat} (h : arrayIndex? name = some i) :
    name.toList = Nat.toDigits 10 i := by
  unfold arrayIndex? at h
  dsimp only at h
  split at h
  · next hc =>
    cases h
    exact hc.2.2.1
  · cases h

theorem indexesFirst_enumerate {fields : List (String × α)} (h : (fields.map (·.1)).Nodup) :
    IndexesFirst ((enumerate fields).map (·.1)) := by
  have hnodup := ((enumerate_perm fields).map (·.1)).nodup_iff.mpr h
  rw [enumerate_eq, List.map_append, List.nodup_append, List.map_map] at hnodup
  rw [enumerate_eq, List.map_append, IndexesFirst, List.pairwise_append, List.map_map]
  have hplain : ∀ b ∈ (fields.filter fun e => (arrayIndex? e.1).isNone).map (·.1), ∀ a,
      MayPrecede a b := by
    intro b hb a j hj
    obtain ⟨e, he, rfl⟩ := List.mem_map.mp hb
    have hnone := (List.mem_filter.mp he).2
    rw [Option.isNone_iff_eq_none] at hnone
    rw [hnone] at hj
    cases hj
  refine ⟨?_, ?_, fun a _ b hb => hplain b hb a⟩
  · have hsorted : ((indexed fields).mergeSort fun a b => a.1 ≤ b.1).Pairwise
        fun a b => decide (a.1 ≤ b.1) = true :=
      List.pairwise_mergeSort (fun a b c => by simpa using Nat.le_trans)
        (fun a b => by simpa using Nat.le_total a.1 b.1) (indexed fields)
    rw [List.pairwise_map]
    refine (hsorted.and (List.pairwise_map.mp hnodup.1)).imp_of_mem ?_
    rintro a b ha hb ⟨hle, hne⟩ j hj
    have hia := arrayIndex?_of_mem_indexed (List.mem_mergeSort.mp ha)
    have hib := arrayIndex?_of_mem_indexed (List.mem_mergeSort.mp hb)
    obtain rfl : b.1 = j := Option.some.inj (hib.symm.trans hj)
    refine ⟨a.1, hia, Nat.lt_of_le_of_ne (of_decide_eq_true hle) fun heq => hne ?_⟩
    -- one index has one name
    rw [heq] at hia
    exact String.toList_inj.mp ((toList_of_arrayIndex? hia).trans (toList_of_arrayIndex? hib).symm)
  · exact List.pairwise_of_forall_mem_list fun a _ b hb => hplain b hb a

/-- Where indexes come first, the fields are those of indexes and then the others. -/
theorem filter_append_filter {fields : List (String × α)} (h : IndexesFirst (fields.map (·.1))) :
    (fields.filter fun e => (arrayIndex? e.1).isSome) ++
      (fields.filter fun e => (arrayIndex? e.1).isNone) = fields := by
  induction fields with
  | nil => rfl
  | cons e fields ih =>
    obtain ⟨hhead, htail⟩ := List.pairwise_cons.mp h
    cases he : arrayIndex? e.1 with
    | some i => simp [he, ih htail]
    | none =>
      have hnone : ∀ x ∈ fields, arrayIndex? x.1 = none := by
        refine fun x hx => Option.eq_none_iff_forall_ne_some.mpr fun j hj => ?_
        obtain ⟨i, hi, -⟩ := hhead x.1 (List.mem_map.mpr ⟨x, hx, rfl⟩) j hj
        rw [he] at hi
        cases hi
      have hsome : fields.filter (fun x => (arrayIndex? x.1).isSome) = [] :=
        List.filter_eq_nil_iff.mpr fun x hx => by simp [hnone x hx]
      have hall : fields.filter (fun x => (arrayIndex? x.1).isNone) = fields :=
        List.filter_eq_self.mpr fun x hx => by simp [hnone x hx]
      simp [he, hsome, hall]

theorem enumerate_eq_self {fields : List (String × α)} (h : IndexesFirst (fields.map (·.1))) :
    enumerate fields = fields := by
  have hsorted : (indexed fields).mergeSort (fun a b => a.1 ≤ b.1) = indexed fields := by
    have hsub : IndexesFirst (((indexed fields).map (·.2)).map (·.1)) := by
      rw [map_indexed]
      exact h.sublist (List.filter_sublist.map _)
    rw [IndexesFirst, List.map_map, List.pairwise_map] at hsub
    refine List.mergeSort_of_pairwise (hsub.imp_of_mem fun {a b} ha hb hab => ?_)
    obtain ⟨i, hi, hlt⟩ := hab b.1 (arrayIndex?_of_mem_indexed hb)
    obtain rfl : a.1 = i := Option.some.inj ((arrayIndex?_of_mem_indexed ha).symm.trans hi)
    exact decide_eq_true (Nat.le_of_lt hlt)
  rw [enumerate_eq, hsorted, map_indexed, filter_append_filter h]

theorem enumerate_map (g : α → β) (fields : List (String × α)) :
    enumerate (fields.map fun e => (e.1, g e.2)) =
      (enumerate fields).map fun e => (e.1, g e.2) := by
  have hindexed : indexed (fields.map fun e => (e.1, g e.2)) =
      (indexed fields).map fun e => (e.1, e.2.1, g e.2.2) := by
    simp [indexed, List.filterMap_map, List.map_filterMap, Function.comp_def]
  have hsort : ((indexed fields).map fun e => (e.1, e.2.1, g e.2.2)).mergeSort
        (fun a b => a.1 ≤ b.1) =
      ((indexed fields).mergeSort fun a b => a.1 ≤ b.1).map fun e => (e.1, e.2.1, g e.2.2) := by
    rw [List.map_mergeSort]
    exact fun _ _ _ _ => rfl
  rw [enumerate_eq, enumerate_eq, hindexed, hsort, List.map_append, List.filter_map, List.map_map,
    List.map_map]
  rfl

/-! ## Records -/

theorem mem_of_mem_put {fields : List (String × α)} {name : String} {v : α} {e : String × α}
    (h : e ∈ put fields name v) : e ∈ fields ∨ e = (name, v) := by
  induction fields with
  | nil => exact Or.inr (List.mem_singleton.mp h)
  | cons x fields ih =>
    obtain ⟨n, w⟩ := x
    rw [put] at h
    split at h
    · next hn =>
      rcases List.mem_cons.mp h with rfl | h
      · exact Or.inr (by rw [hn])
      · exact Or.inl (List.mem_cons_of_mem _ h)
    · rcases List.mem_cons.mp h with rfl | h
      · exact Or.inl List.mem_cons_self
      · exact (ih h).imp_left (List.mem_cons_of_mem _)

theorem mem_of_mem_foldl_put {acc fields : List (String × α)} {e : String × α}
    (h : e ∈ fields.foldl (fun r (name, v) => put r name v) acc) : e ∈ acc ∨ e ∈ fields := by
  induction fields generalizing acc with
  | nil => exact Or.inl h
  | cons x fields ih =>
    rcases ih h with h | h
    · refine (mem_of_mem_put h).imp_right fun he => ?_
      rw [he]
      exact List.mem_cons_self
    · exact Or.inr (List.mem_cons_of_mem _ h)

theorem mem_of_mem_ofPairs {fields : List (String × α)} {e : String × α}
    (h : e ∈ ofPairs fields) : e ∈ fields := by
  rcases mem_of_mem_foldl_put ((enumerate_perm _).mem_iff.mp h) with h | h
  · cases h
  · exact h

theorem nodup_foldl_put {acc : List (String × α)} (h : (acc.map (·.1)).Nodup)
    (fields : List (String × α)) :
    ((fields.foldl (fun r (name, v) => put r name v) acc).map (·.1)).Nodup := by
  induction fields generalizing acc with
  | nil => exact h
  | cons e fields ih => exact ih (nodup_put h e.1 e.2)

theorem names_ofPairs (fields : List (String × α)) :
    ((ofPairs fields).map (·.1)).Nodup ∧ IndexesFirst ((ofPairs fields).map (·.1)) := by
  have hnil : (([] : List (String × α)).map (·.1)).Nodup := List.nodup_nil
  have hnodup := nodup_foldl_put hnil fields
  exact ⟨((enumerate_perm _).map _).nodup_iff.mpr hnodup, indexesFirst_enumerate hnodup⟩

theorem ofPairs_eq_self {fields : List (String × α)} (hnodup : (fields.map (·.1)).Nodup)
    (horder : IndexesFirst (fields.map (·.1))) : ofPairs fields = fields := by
  unfold ofPairs
  rw [foldl_put hnodup, List.nil_append, enumerate_eq_self horder]

theorem foldl_put_map (g : α → β) (acc fields : List (String × α)) :
    (fields.map fun e => (e.1, g e.2)).foldl (fun r (name, v) => put r name v)
        (acc.map fun e => (e.1, g e.2)) =
      (fields.foldl (fun r (name, v) => put r name v) acc).map fun e => (e.1, g e.2) := by
  induction fields generalizing acc with
  | nil => rfl
  | cons e fields ih =>
    rw [List.map_cons, List.foldl_cons, List.foldl_cons, ← ih]
    congr 1
    exact put_map g acc e.1 e.2

theorem ofPairs_map (g : α → β) (fields : List (String × α)) :
    ofPairs (fields.map fun e => (e.1, g e.2)) = (ofPairs fields).map fun e => (e.1, g e.2) := by
  unfold ofPairs
  rw [← enumerate_map, ← foldl_put_map]
  rfl

end LayeredConf.Record
