import LayeredConf.Multimap
import LayeredConf.Proofs.Forest.Fields
import LayeredConf.Proofs.Record
import Mathlib.Data.List.Induction

/-!
# Multimaps by addition

A multimap that values were added to, field by field, has for each key the values it was given for
that key, in their order, and its keys come in the order in which the fields first bring them.  That
holds of the pairs it is collected from, and of another multimap that is added to it: there the
pairs are grouped by their keys, which makes no difference to what is there in the end.

    addEach           fields added one by one
    addAll            another multimap added, under new keys
    values_ofPairs    the values of the pairs with the key
    keys_ofPairs      the keys of the pairs without repetitions
    addEach_pairs     pairs under new keys are added as the multimap of the pairs is
-/

namespace LayeredConf

/-! ## Lists without repetitions -/

section

variable {α : Type} [DecidableEq α]

theorem eraseDups_concat (l : List α) (a : α) :
    (l ++ [a]).eraseDups = if a ∈ l then l.eraseDups else l.eraseDups ++ [a] := by
  rw [List.eraseDups_append]
  by_cases ha : a ∈ l <;> simp [List.removeAll, ha, List.eraseDups_cons]

theorem eraseDups_eq_self {l : List α} (h : l.Nodup) : l.eraseDups = l := by
  induction l using List.reverseRecOn with
  | nil => rfl
  | append_singleton l a ih =>
    rw [List.nodup_append] at h
    have ha : a ∉ l := fun hm => h.2.2 a hm a (List.mem_singleton_self a) rfl
    rw [eraseDups_concat, if_neg ha, ih h.1]

/-- What is left out early as a repetition would be left out later. -/
theorem eraseDups_append_map {β : Type} [DecidableEq β] (g : β → α) (l : List α) (m : List β) :
    (l ++ m.eraseDups.map g).eraseDups = (l ++ m.map g).eraseDups := by
  induction m using List.reverseRecOn with
  | nil => rfl
  | append_singleton m b ih =>
    have hmem : g b ∈ l ++ m.eraseDups.map g ↔ g b ∈ l ++ m.map g := by
      simp only [List.mem_append, List.mem_map, List.mem_eraseDups]
    rw [List.map_append, ← List.append_assoc, List.map_singleton, eraseDups_concat (l ++ m.map g),
      ← ih, ← if_congr hmem rfl rfl, eraseDups_concat]
    by_cases hb : b ∈ m
    · have hgb : g b ∈ l ++ m.eraseDups.map g :=
        hmem.mpr (List.mem_append_right _ (List.mem_map_of_mem hb))
      rw [if_pos hb, if_pos hgb]
    · rw [if_neg hb, List.map_append, ← List.append_assoc, List.map_singleton, eraseDups_concat]

end

namespace Multimap

/-! ## One field -/

section

variable (m : Multimap) (k k' : String) (vs : List String)

theorem values_add :
    (m.add k vs).values k' = m.values k' ++ if k = k' then vs else [] := by
  show ((Record.put m.entries k (m.values k ++ vs)).lookup k').getD [] = _
  rw [Record.lookup_put]
  by_cases hk : k = k'
  · rw [if_pos hk.symm, if_pos hk, ← hk]
    rfl
  · rw [if_neg (Ne.symm hk), if_neg hk, List.append_nil]
    rfl

theorem keys_add : (m.add k vs).keys = if k ∈ m.keys then m.keys else m.keys ++ [k] :=
  Record.names_put m.entries k (m.values k ++ vs)

end

/-! ## Field by field -/

/-- Adds the values of fields one by one. -/
def addEach (m : Multimap) (fields : List (String × List String)) : Multimap :=
  fields.foldl (fun m e => m.add e.1 e.2) m

/-- Adds all values of another multimap under new keys, in the order of its keys. -/
def addAll (m other : Multimap) (rename : String → String) : Multimap :=
  other.keys.foldl (fun m k => m.add (rename k) (other.values k)) m

section

variable (m : Multimap) (fields : List (String × List String))

theorem addEach_concat (e : String × List String) :
    m.addEach (fields ++ [e]) = (m.addEach fields).add e.1 e.2 := by
  rw [addEach, List.foldl_append]
  rfl

theorem addEach_append (more : List (String × List String)) :
    m.addEach (fields ++ more) = (m.addEach fields).addEach more := List.foldl_append

theorem addAll_eq (other : Multimap) (rename : String → String) :
    m.addAll other rename = m.addEach (other.keys.map fun k => (rename k, other.values k)) := by
  rw [addEach, List.foldl_map]
  rfl

theorem values_addEach (k : String) :
    (m.addEach fields).values k = m.values k ++ (fields.filter (·.1 = k)).flatMap (·.2) := by
  induction fields using List.reverseRecOn with
  | nil => exact (List.append_nil _).symm
  | append_singleton fields e ih =>
    rw [addEach_concat, values_add, ih, List.filter_append, List.flatMap_append, List.append_assoc]
    by_cases hk : e.1 = k <;> simp [hk]

variable {m} (h : m.keys.Nodup)

include h

theorem keys_addEach : (m.addEach fields).keys = (m.keys ++ fields.map (·.1)).eraseDups := by
  induction fields using List.reverseRecOn with
  | nil => rw [List.map_nil, List.append_nil, eraseDups_eq_self h, addEach, List.foldl_nil]
  | append_singleton fields e ih =>
    rw [addEach_concat, keys_add, ih, List.map_append, ← List.append_assoc, List.map_singleton,
      eraseDups_concat, if_congr List.mem_eraseDups rfl rfl]

theorem nodup_keys_addEach : (m.addEach fields).keys.Nodup := by
  induction fields generalizing m with
  | nil => exact h
  | cons e fields ih => exact ih (Record.nodup_put h e.1 _)

end

/-! ## Pairs -/

section

variable (pairs : List (String × String))

theorem nodup_keys_empty : empty.keys.Nodup := List.nodup_nil

theorem ofPairs_eq : ofPairs pairs = empty.addEach (pairs.map fun e => (e.1, [e.2])) := by
  rw [addEach, List.foldl_map]
  rfl

theorem values_ofPairs (k : String) :
    (ofPairs pairs).values k = (pairs.filter (·.1 = k)).map (·.2) := by
  rw [ofPairs_eq, values_addEach, List.filter_map, List.flatMap_map]
  exact List.flatMap_pure_eq_map ..

theorem keys_ofPairs : (ofPairs pairs).keys = (pairs.map (·.1)).eraseDups := by
  rw [ofPairs_eq, keys_addEach _ nodup_keys_empty, List.map_map]
  rfl

theorem nodup_keys_ofPairs : (ofPairs pairs).keys.Nodup := by
  rw [ofPairs_eq]
  exact nodup_keys_addEach _ nodup_keys_empty

end

/-! ## One multimap added to another -/

section

variable {m m' : Multimap} {k : String}

theorem values_of_mem (h : m.keys.Nodup) {e : String × List String} (he : e ∈ m.entries) :
    m.values e.1 = e.2 := by
  rw [values, (Record.lookup_eq_some_iff_mem m.entries h e.1 e.2).mpr he]
  rfl

theorem values_of_not_mem (h : k ∉ m.keys) : m.values k = [] := by
  rw [values, Option.not_isSome_iff_eq_none.mp (mt (Record.lookup_isSome_iff m.entries k).mp h)]
  rfl

theorem entries_eq (h : m.keys.Nodup) : m.entries = m.keys.map fun k => (k, m.values k) := by
  rw [keys, List.map_map]
  refine (List.map_id _).symm.trans (List.map_congr_left fun e he => ?_)
  exact Prod.ext rfl (values_of_mem h he).symm

/-- Two multimaps are the same if they have the same keys in the same order, and for each of them
the same values. -/
theorem eq_of_keys (h : m.keys.Nodup) (hkeys : m.keys = m'.keys)
    (hvalues : ∀ k, m.values k = m'.values k) : m = m' := by
  have hentries : m.entries = m'.entries := by
    rw [entries_eq h, entries_eq (hkeys ▸ h), hkeys]
    exact List.map_congr_left fun k _ => Prod.ext rfl (hvalues k)
  cases m
  cases m'
  exact congrArg mk hentries

/-- Under one key stand the values for that key alone. -/
theorem flatMap_values (h : m.keys.Nodup) (k : String) :
    (m.keys.filter (· = k)).flatMap m.values = m.values k := by
  rw [List.filter_eq, List.Nodup.count h]
  split
  · simp
  · next hk => simp [values_of_not_mem hk]

/-- Pairs under new keys are added as the multimap of the pairs is, if no two keys fall together. -/
theorem addEach_pairs (h : m.keys.Nodup) {rename : String → String}
    (hinj : Function.Injective rename) (pairs : List (String × String)) :
    m.addEach (pairs.map fun e => (rename e.1, [e.2])) = m.addAll (ofPairs pairs) rename := by
  rw [addAll_eq]
  refine eq_of_keys (nodup_keys_addEach _ h) ?_ fun k => ?_
  · have herase := eraseDups_append_map rename m.keys (pairs.map (·.1))
    rw [List.map_map] at herase
    rw [keys_addEach _ h, keys_addEach _ h, keys_ofPairs, List.map_map, List.map_map]
    exact herase.symm
  · rw [values_addEach, values_addEach, List.filter_map, List.filter_map, List.flatMap_map,
      List.flatMap_map]
    refine congrArg _ ?_
    by_cases hk : ∃ k', rename k' = k
    · obtain ⟨k', rfl⟩ := hk
      have hvalues := flatMap_values (nodup_keys_ofPairs pairs) k'
      rw [values_ofPairs] at hvalues
      simp only [Function.comp_def, hinj.eq_iff]
      rw [hvalues]
      exact List.flatMap_pure_eq_map ..
    · have hne : ∀ k', decide (rename k' = k) = false := fun k' =>
        decide_eq_false fun he => hk ⟨k', he⟩
      simp [Function.comp_def, hne]

end

end Multimap

end LayeredConf
