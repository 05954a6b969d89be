import LayeredConf.Tree.Basic
import Mathlib.Data.List.Basic

/-!
# Trees at paths

A path of keys leads through a list of trees: by its first key to one of them, by the next one to
one of its children, and so on.

    childrenAt ts path    the trees to go on with after a path
    valueAt? ts path      the value of the tree that a path leads to
-/

namespace LayeredConf.Tree

def childrenAt (ts : List Tree) : List String → List Tree
  | [] => ts
  | k :: ks =>
    match ts.find? (·.key = k) with
    | some t => childrenAt t.children ks
    | none => []

/-- The empty path leads to no tree. -/
def valueAt? (ts : List Tree) : List String → Option Value
  | [] => none
  | k :: ks =>
    match ts.find? (·.key = k) with
    | some t => if ks = [] then some t.value else valueAt? t.children ks
    | none => none

section

variable {t : Tree} {ts : List Tree} {k : String} (ks : List String)

theorem childrenAt_cons_self (ts : List Tree) :
    childrenAt (t :: ts) (t.key :: ks) = childrenAt t.children ks := by
  rw [childrenAt, List.find?_cons_of_pos (by simp)]

theorem childrenAt_cons_of_ne (h : t.key ≠ k) :
    childrenAt (t :: ts) (k :: ks) = childrenAt ts (k :: ks) := by
  rw [childrenAt, List.find?_cons_of_neg (by simpa using h), childrenAt]

theorem find?_eq_none (h : k ∉ ts.map key) : ts.find? (·.key = k) = none := by
  refine List.find?_eq_none.mpr fun t ht heq => h ?_
  rw [← of_decide_eq_true heq]
  exact List.mem_map_of_mem ht

theorem childrenAt_of_not_mem (h : k ∉ ts.map key) : childrenAt ts (k :: ks) = [] := by
  rw [childrenAt, find?_eq_none h]

theorem valueAt?_cons_self (ts : List Tree) : valueAt? (t :: ts) (t.key :: ks) =
    if ks = [] then some t.value else valueAt? t.children ks := by
  rw [valueAt?, List.find?_cons_of_pos (by simp)]

theorem valueAt?_cons_of_ne (h : t.key ≠ k) :
    valueAt? (t :: ts) (k :: ks) = valueAt? ts (k :: ks) := by
  rw [valueAt?, List.find?_cons_of_neg (by simpa using h), valueAt?]

theorem valueAt?_of_not_mem (h : k ∉ ts.map key) : valueAt? ts (k :: ks) = none := by
  rw [valueAt?, find?_eq_none h]

end

/-- A path has a value just when its last key is among the trees to go on with. -/
theorem valueAt?_concat_isSome (ts : List Tree) (ks : List String) (k : String) :
    (valueAt? ts (ks ++ [k])).isSome ↔ k ∈ (childrenAt ts ks).map key := by
  induction ks generalizing ts with
  | nil =>
    show (valueAt? ts [k]).isSome ↔ k ∈ ts.map key
    rw [valueAt?]
    cases ht : ts.find? (·.key = k) with
    | none =>
      have hnot : k ∉ ts.map key := fun hk => by
        obtain ⟨t, htm, htk⟩ := List.mem_map.mp hk
        exact List.find?_eq_none.mp ht t htm (by simp [htk])
      simp [hnot]
    | some t =>
      have hk : k ∈ ts.map key := List.mem_map.mpr
        ⟨t, List.mem_of_find?_eq_some ht, by simpa using List.find?_some ht⟩
      simp [hk]
  | cons k' ks ih =>
    rw [List.cons_append, valueAt?, childrenAt]
    cases ts.find? (·.key = k') with
    | none => simp
    | some t =>
      show (if ks ++ [k] = [] then some t.value else valueAt? t.children (ks ++ [k])).isSome ↔ _
      rw [if_neg (by simp)]
      exact ih t.children

/-- Where a path has a value, so has every path on the way. -/
theorem valueAt?_of_concat (ts : List Tree) (ks : List String) (k : String)
    (h : (valueAt? ts (ks ++ [k])).isSome) : ks = [] ∨ (valueAt? ts ks).isSome := by
  induction ks generalizing ts with
  | nil => exact Or.inl rfl
  | cons k' ks ih =>
    rw [List.cons_append, valueAt?] at h
    rw [valueAt?]
    cases ht : ts.find? (·.key = k') with
    | none => simp [ht] at h
    | some t =>
      rw [ht] at h
      dsimp only at h
      rw [if_neg (by simp)] at h
      refine Or.inr ?_
      show (if ks = [] then some t.value else valueAt? t.children ks).isSome
      by_cases hks : ks = []
      · rw [if_pos hks, Option.isSome_some]
      · rw [if_neg hks]
        exact (ih t.children h).resolve_left hks

end LayeredConf.Tree
