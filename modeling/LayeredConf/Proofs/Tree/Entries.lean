import LayeredConf.Tree.Basic
import Mathlib.Data.List.Basic

/-!
# Trees by their entries

A tree whose inner nodes are unset holds what its leaves hold, and the paths of the leaves give the
rest: putting the leaves into an empty tree, one by one and depth first, makes the tree anew.

    put v path t        the tree with a value at a path
    entries t           the leaves, each with its path and value
    putAll_entries      the leaves of a tree put into an empty one
-/

namespace LayeredConf.Tree

/-! ## Values at paths -/

/-- The trees with the one under a key changed, or with a changed new one at the end. -/
def upsert (k : String) (change : Tree → Tree) : List Tree → List Tree
  | [] => [change (.node k .unset 0 [])]
  | t :: ts => if t.key = k then change t :: ts else t :: upsert k change ts

def adjust (k : String) (change : Tree → Tree) : Tree → Tree
  | .node key v flags children => .node key v flags (upsert k change children)

/-- The tree with a value at a path; an unset value only makes sure of the path. -/
def put (v : Value) : List String → Tree → Tree
  | [], .node k w flags children => .node k (if v.isUnset then w else v) flags children
  | k :: ks, t => adjust k (put v ks) t

theorem key_put (v : Value) (path : List String) (t : Tree) : (put v path t).key = t.key := by
  obtain ⟨k, w, flags, children⟩ := t
  cases path <;> rfl

section

variable {k : String} {ts : List Tree}

theorem upsert_of_not_mem (change : Tree → Tree) (h : k ∉ ts.map key) :
    upsert k change ts = ts ++ [change (.node k .unset 0 [])] := by
  induction ts with
  | nil => rfl
  | cons t ts ih =>
    rw [List.map_cons, List.mem_cons, not_or] at h
    rw [upsert, if_neg (Ne.symm h.1), ih h.2, List.cons_append]

theorem upsert_id_of_mem (h : k ∈ ts.map key) : upsert k id ts = ts := by
  induction ts with
  | nil => cases h
  | cons t ts ih =>
    rw [upsert]
    split
    · rfl
    · next hne =>
      rcases List.mem_cons.mp h with he | h
      · exact absurd he.symm hne
      · rw [ih h]

theorem upsert_upsert {change change' : Tree → Tree} (hkey : ∀ t, (change t).key = t.key) :
    upsert k change' (upsert k change ts) = upsert k (change' ∘ change) ts := by
  induction ts with
  | nil => exact if_pos (hkey _)
  | cons t ts ih =>
    rw [upsert, upsert]
    split
    · next h => rw [upsert, if_pos ((hkey t).trans h), Function.comp_apply]
    · next h => rw [upsert, if_neg h, ih]

theorem adjust_adjust {change change' : Tree → Tree} (hkey : ∀ t, (change t).key = t.key)
    (t : Tree) : adjust k change' (adjust k change t) = adjust k (change' ∘ change) t := by
  obtain ⟨key, v, flags, children⟩ := t
  rw [adjust, adjust, adjust, upsert_upsert hkey]

/-- A change of the one tree that has the key. -/
theorem upsert_map {α : Type} [DecidableEq α] {l : List α} (hl : l.Nodup) {tree : α → Tree}
    (change : Tree → Tree) {c : α} (hc : c ∈ l) (hkey : ∀ a ∈ l, (tree a).key = k ↔ a = c) :
    upsert k change (l.map tree) = l.map fun a => if a = c then change (tree a) else tree a := by
  induction l with
  | nil => cases hc
  | cons a l ih =>
    obtain ⟨hnot, hl⟩ := List.nodup_cons.mp hl
    rw [List.map_cons, List.map_cons, upsert]
    by_cases ha : a = c
    · rw [if_pos ((hkey a List.mem_cons_self).mpr ha), if_pos ha]
      refine congrArg _ (List.map_congr_left fun b hb => (if_neg ?_).symm)
      rintro rfl
      exact hnot (ha ▸ hb)
    · rw [if_neg fun h => ha ((hkey a List.mem_cons_self).mp h), if_neg ha]
      have hc : c ∈ l := (List.mem_cons.mp hc).resolve_left (Ne.symm ha)
      exact congrArg _ (ih hl hc fun b hb => hkey b (List.mem_cons_of_mem _ hb))

end

/-! ## Shapes of trees -/

mutual

/-- No two children of a node have one key. -/
def Distinct : Tree → Prop
  | .node _ _ _ children => (children.map key).Nodup ∧ DistinctAll children

def DistinctAll : List Tree → Prop
  | [] => True
  | t :: ts => Distinct t ∧ DistinctAll ts

end

mutual

/-- Nodes with children are unset. -/
def Hollow : Tree → Prop
  | .node _ v _ children => (children ≠ [] → v = .unset) ∧ HollowAll children

def HollowAll : List Tree → Prop
  | [] => True
  | t :: ts => Hollow t ∧ HollowAll ts

end

mutual

/-- Each key below the top is such a key. -/
def KeysBelow (P : String → Prop) : Tree → Prop
  | .node _ _ _ children => KeysBelowAll P children

def KeysBelowAll (P : String → Prop) : List Tree → Prop
  | [] => True
  | t :: ts => P t.key ∧ KeysBelow P t ∧ KeysBelowAll P ts

end

mutual

/-- The key and the value of each leaf below the top are such ones. -/
def LeavesBelow (P : String → Value → Prop) : Tree → Prop
  | .node _ _ _ children => LeavesBelowAll P children

def LeavesBelowAll (P : String → Value → Prop) : List Tree → Prop
  | [] => True
  | t :: ts => (t.children = [] → P t.key t.value) ∧ LeavesBelow P t ∧ LeavesBelowAll P ts

end

mutual

/-- The tree without its flags. -/
def bare : Tree → Tree
  | .node k v _ children => .node k v 0 (bareAll children)

def bareAll : List Tree → List Tree
  | [] => []
  | t :: ts => bare t :: bareAll ts

end

theorem distinctAll_iff {ts : List Tree} : DistinctAll ts ↔ ∀ t ∈ ts, t.Distinct := by
  induction ts with
  | nil => simp [DistinctAll]
  | cons t ts ih => simp [DistinctAll, ih]

mutual

theorem KeysBelow.mono {P Q : String → Prop} (hpq : ∀ k, P k → Q k) {t : Tree}
    (h : t.KeysBelow P) : t.KeysBelow Q := by
  cases t with
  | node k v flags children => exact KeysBelow.monoAll hpq h

theorem KeysBelow.monoAll {P Q : String → Prop} (hpq : ∀ k, P k → Q k) {ts : List Tree}
    (h : KeysBelowAll P ts) : KeysBelowAll Q ts := by
  cases ts with
  | nil => trivial
  | cons t ts => exact ⟨hpq t.key h.1, KeysBelow.mono hpq h.2.1, KeysBelow.monoAll hpq h.2.2⟩

end

theorem bare_eq (t : Tree) : t.bare = .node t.key t.value 0 (bareAll t.children) := by
  cases t
  rfl

theorem key_bare (t : Tree) : t.bare.key = t.key := by
  cases t
  rfl

/-! ## Leaves -/

/-- An entry of a child, as one of its parent. -/
def under (k : String) (e : List String × Value) : List String × Value := (k :: e.1, e.2)

mutual

/-- The leaves, each with its path and value. -/
def entries : Tree → List (List String × Value)
  | .node _ v _ [] => [([], v)]
  | .node _ _ _ (t :: ts) => entriesAll (t :: ts)

def entriesAll : List Tree → List (List String × Value)
  | [] => []
  | t :: ts => (entries t).map (under t.key) ++ entriesAll ts

end

theorem entries_ne_nil (t : Tree) : t.entries ≠ [] := by
  obtain ⟨k, v, flags, _ | ⟨t, ts⟩⟩ := t
  · exact List.cons_ne_nil _ _
  · rw [entries, entriesAll]
    refine List.append_ne_nil_of_left_ne_nil ?_ _
    rw [ne_eq, List.map_eq_nil_iff]
    exact entries_ne_nil t

theorem entries_of_ne_nil (k : String) (v : Value) (flags : Int) {ts : List Tree} (h : ts ≠ []) :
    (Tree.node k v flags ts).entries = entriesAll ts := by
  cases ts with
  | nil => exact absurd rfl h
  | cons t ts => rfl

/-- An entry of the node at a path, as one of the root. -/
def within (path : List String) (e : List String × Value) : List String × Value :=
  (path ++ e.1, e.2)

theorem map_within_child (path : List String) (k : String) (es : List (List String × Value)) :
    es.map (within (path ++ [k])) = (es.map (under k)).map (within path) := by
  rw [List.map_map]
  refine List.map_congr_left fun e _ => ?_
  rw [Function.comp_apply, within, within, under, List.append_assoc, List.singleton_append]

theorem path_ne_nil_of_mem_entriesAll {ts : List Tree} {e : List String × Value}
    (he : e ∈ entriesAll ts) : e.1 ≠ [] := by
  induction ts with
  | nil => cases he
  | cons t ts ih =>
    rcases List.mem_append.mp he with he | he
    · obtain ⟨e', -, rfl⟩ := List.mem_map.mp he
      exact List.cons_ne_nil _ _
    · exact ih he

mutual

theorem keysBelow_path {P : String → Prop} (t : Tree) (h : t.KeysBelow P) :
    ∀ e ∈ t.entries, ∀ k ∈ e.1, P k := by
  obtain ⟨key, v, flags, _ | ⟨t, ts⟩⟩ := t
  · simp [entries]
  · exact keysBelowAll_path (t :: ts) h

theorem keysBelowAll_path {P : String → Prop} (ts : List Tree) (h : KeysBelowAll P ts) :
    ∀ e ∈ entriesAll ts, ∀ k ∈ e.1, P k := by
  cases ts with
  | nil => simp [entriesAll]
  | cons t ts =>
    intro e he
    rcases List.mem_append.mp he with he | he
    · obtain ⟨e', he', rfl⟩ := List.mem_map.mp he
      exact List.forall_mem_cons.mpr ⟨h.1, keysBelow_path t h.2.1 e' he'⟩
    · exact keysBelowAll_path ts h.2.2 e he

end

mutual

/-- An entry is the tree itself, if it has no children, or a leaf below it. -/
theorem leavesBelow_entries {P : String → Value → Prop} (t : Tree) (h : t.LeavesBelow P) :
    ∀ e ∈ t.entries, e.1 = [] ∧ t.children = [] ∧ e.2 = t.value ∨
      ∃ k, e.1.getLast? = some k ∧ P k e.2 := by
  obtain ⟨key, v, flags, _ | ⟨t, ts⟩⟩ := t
  · intro e he
    rw [entries, List.mem_singleton] at he
    subst he
    exact Or.inl ⟨rfl, rfl, rfl⟩
  · exact fun e he => Or.inr (leavesBelowAll_entries (t :: ts) h e he)

theorem leavesBelowAll_entries {P : String → Value → Prop} (ts : List Tree)
    (h : LeavesBelowAll P ts) : ∀ e ∈ entriesAll ts, ∃ k, e.1.getLast? = some k ∧ P k e.2 := by
  cases ts with
  | nil => simp [entriesAll]
  | cons t ts =>
    intro e he
    rcases List.mem_append.mp he with he | he
    · obtain ⟨e', he', rfl⟩ := List.mem_map.mp he
      rcases leavesBelow_entries t h.2.1 e' he' with ⟨hpath, hleaf, hv⟩ | ⟨k, hk, hp⟩
      · refine ⟨t.key, ?_, ?_⟩
        · rw [under, hpath]
          rfl
        · rw [under, hv]
          exact h.1 hleaf
      · refine ⟨k, ?_, hp⟩
        rw [under, List.getLast?_cons, hk]
        rfl
    · exact leavesBelowAll_entries ts h.2.2 e he

end

/-! ## Putting the leaves -/

def putAll (es : List (List String × Value)) (t : Tree) : Tree :=
  es.foldl (fun t e => put e.2 e.1 t) t

theorem putAll_append (es es' : List (List String × Value)) (t : Tree) :
    putAll (es ++ es') t = putAll es' (putAll es t) := List.foldl_append

/-- What is put below a key is put into the child. -/
theorem putAll_under {es : List (List String × Value)} (hes : es ≠ []) (k : String) (t : Tree) :
    putAll (es.map (under k)) t = adjust k (putAll es) t := by
  induction es generalizing t with
  | nil => exact absurd rfl hes
  | cons e es ih =>
    have hfirst : putAll ((e :: es).map (under k)) t =
        putAll (es.map (under k)) (adjust k (put e.2 e.1) t) := rfl
    rw [hfirst]
    cases es with
    | nil => rfl
    | cons e' es =>
      rw [ih (List.cons_ne_nil _ _), adjust_adjust (key_put e.2 e.1)]
      rfl

mutual

/-- **The leaves of a tree, put into an empty one, make the tree anew** but for its key and its
flags. -/
theorem putAll_entries (t : Tree) (hd : t.Distinct) (hh : t.Hollow) (k : String) :
    putAll t.entries (.node k .unset 0 []) = .node k t.value 0 (bareAll t.children) := by
  obtain ⟨key, v, flags, _ | ⟨t, ts⟩⟩ := t
  · cases v <;> rfl
  · have hv : v = .unset := hh.1 (List.cons_ne_nil _ _)
    rw [entries, value, hv]
    exact putAll_entriesAll (t :: ts) hd.2 hh.2 [] hd.1 k .unset 0

theorem putAll_entriesAll (ts : List Tree) (hd : DistinctAll ts) (hh : HollowAll ts)
    (done : List Tree) (hkeys : ((done ++ ts).map key).Nodup) (k : String) (v : Value)
    (flags : Int) :
    putAll (entriesAll ts) (.node k v flags done) = .node k v flags (done ++ bareAll ts) := by
  cases ts with
  | nil =>
    rw [bareAll, List.append_nil]
    rfl
  | cons t ts =>
    have hnew : t.key ∉ done.map key := by
      rw [List.map_append, List.map_cons] at hkeys
      exact fun hm => (List.nodup_append.mp hkeys).2.2 _ hm _ List.mem_cons_self rfl
    have hrest : ((done ++ [t.bare] ++ ts).map key).Nodup := by
      rwa [List.append_assoc, List.map_append, List.singleton_append, List.map_cons, key_bare,
        ← List.map_cons, ← List.map_append]
    rw [entriesAll, putAll_append, putAll_under (entries_ne_nil t), adjust,
      upsert_of_not_mem _ hnew, putAll_entries t hd.1 hh.1, ← bare_eq,
      putAll_entriesAll ts hd.2 hh.2 _ hrest, List.append_assoc, List.singleton_append, bareAll]

end

end LayeredConf.Tree
