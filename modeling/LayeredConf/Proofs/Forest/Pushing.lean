import LayeredConf.Proofs.Forest.Growth
import LayeredConf.Proofs.Forest.Run
import Mathlib.Data.List.Nodup
import Mathlib.Order.Bounds.Defs

/-!
# Pushed children

A push counts up, from one more than there are children, until it comes to a number whose text is no
child's key.  Distinct numbers have distinct texts, so of one number more than there are keys one is
free, and the count ends.

    nextIndex taken i     the number that is tried after `i`, if the text of `i` is taken
    ends_nextIndex        the count ends
    freeIndex_isLeast     it comes to the least number that is free
    push_appends          a push adds a last child under this number
-/

namespace LayeredConf.Forest

/-! ## Free numbers -/

/-- One step of the count: it goes on as long as the text of the number is taken. -/
def nextIndex (taken : List String) (i : Nat) : Option Nat :=
  if toString i ∈ taken then some (i + 1) else none

section

variable {taken : List String} {start k tries : Nat}

/-- There are not texts enough to take all of these numbers. -/
theorem exists_free (taken : List String) (start : Nat) :
    ∃ k, start ≤ k ∧ k ≤ start + taken.length ∧ toString k ∉ taken := by
  refine Classical.byContradiction fun hnone => ?_
  have htexts : (List.range' start (taken.length + 1)).map toString ⊆ taken := by
    intro s hs
    obtain ⟨i, hi, rfl⟩ := List.mem_map.mp hs
    obtain ⟨hle, hlt⟩ := List.mem_range'_1.mp hi
    exact Classical.byContradiction fun hfree => hnone ⟨i, hle, by omega, hfree⟩
  have hnodup : ((List.range' start (taken.length + 1)).map toString).Nodup :=
    List.Nodup.map (fun _ _ => eq_of_toString_eq) (List.nodup_range' 1)
  have hlength := hnodup.length_le_of_subset htexts
  rw [List.length_map, List.length_range'] at hlength
  omega

theorem ends_nextIndex (taken : List String) (start : Nat) : Ends (nextIndex taken) start := by
  obtain ⟨k, hle, -, hk⟩ := exists_free taken start
  obtain ⟨gap, rfl⟩ := Nat.exists_eq_add_of_le hle
  clear hle
  -- the count comes nearer to the free number and does not pass it
  induction gap generalizing start with
  | zero => exact .of_none (if_neg hk)
  | succ gap ih =>
    refine .of_next fun next hnext => ?_
    unfold nextIndex at hnext
    split at hnext
    · obtain rfl := Option.some.inj hnext
      exact ih (start + 1) (by rwa [Nat.add_right_comm, Nat.add_assoc])
    · cases hnext

theorem isLeast_of_not_mem (h : toString start ∉ taken) :
    IsLeast {i | start ≤ i ∧ toString i ∉ taken} start :=
  ⟨⟨Nat.le_refl _, h⟩, fun _ hi => hi.1⟩

theorem freeIndex_of_not_mem (h : toString start ∉ taken) (tries : Nat) :
    freeIndex taken tries start = start := by
  cases tries with
  | zero => rfl
  | succ tries => exact if_neg h

/-- The count comes to the least number that is free, if the tries suffice for some free number. -/
theorem freeIndex_isLeast (hle : start ≤ k) (hk : toString k ∉ taken) (htries : k ≤ start + tries) :
    IsLeast {i | start ≤ i ∧ toString i ∉ taken} (freeIndex taken tries start) := by
  induction tries generalizing start with
  | zero =>
    obtain rfl : start = k := Nat.le_antisymm hle htries
    exact isLeast_of_not_mem hk
  | succ tries ih =>
    by_cases htaken : toString start ∈ taken
    · have hne : ∀ i, toString i ∉ taken → start ≠ i := by
        rintro i hfree rfl
        exact hfree htaken
      rw [freeIndex, if_pos htaken]
      obtain ⟨hmem, hleast⟩ := ih (Nat.lt_of_le_of_ne hle (hne k hk)) (by omega)
      exact ⟨⟨Nat.le_of_succ_le hmem.1, hmem.2⟩,
        fun i hi => hleast ⟨Nat.lt_of_le_of_ne hi.1 (hne i hi.2), hi.2⟩⟩
    · rw [freeIndex_of_not_mem htaken]
      exact isLeast_of_not_mem htaken

end

/-! ## Pushing -/

section

variable (f : Forest) (n : NodeId)

theorem pushKey_eq_toString :
    ∃ k, IsLeast {i | (f.keys n).length < i ∧ f.child n (toString i) = none} k ∧
      f.pushKey n = toString k := by
  obtain ⟨k, hle, hbound, hfree⟩ :=
    exists_free ((f.children n).childMap.map (·.1)) ((f.keys n).length + 1)
  simp only [child, Children.get?_eq_none_iff]
  exact ⟨_, freeIndex_isLeast hle hfree hbound, rfl⟩

theorem child_pushKey : f.child n (f.pushKey n) = none := by
  obtain ⟨k, ⟨⟨-, hfree⟩, -⟩, hkey⟩ := f.pushKey_eq_toString n
  rw [hkey, hfree]

variable {n} (hn : n < f.size)

include hn

theorem node_push (m : NodeId) : (f.push n).1.node m =
    if m = f.size then { key := f.pushKey n, link := .child n }
    else if m = n then
      { f.node n with toChildren := (f.children n).append [(f.pushKey n, f.size)] }
    else f.node m := f.node_addChild n (f.pushKey n) hn (f.child_pushKey n) m

theorem push_grows : Grows f (f.push n).1 :=
  f.addChild_grows n (f.pushKey n) hn (f.child_pushKey n)

end

/-- **A push ends, and it takes no key that is taken.**  The count of numbers above the number of
children ends, whatever keys the map has; the new child comes last, under the least of these numbers
under which there is no child, and holds nothing.  All else is as it was: the children that were
there, their order, and every other node. -/
theorem push_appends {f : Forest} {n : NodeId} (hn : n < f.size) :
    Ends (nextIndex ((f.children n).childMap.map (·.1))) ((f.keys n).length + 1) ∧
    ∃ k, IsLeast {i | (f.keys n).length < i ∧ f.child n (toString i) = none} k ∧
    ∃ g, f.push n = (g, f.size) ∧ g.node f.size = { key := toString k, link := .child n } ∧
      g.node n = { f.node n with
        childMap := (f.children n).childMap ++ [(toString k, f.size)]
        childOrder := (f.children n).childOrder ++ [toString k] } ∧
      ∀ m < f.size, m ≠ n → g.node m = f.node m := by
  obtain ⟨k, hk, hkey⟩ := f.pushKey_eq_toString n
  have hnode := f.node_push hn
  refine ⟨ends_nextIndex _ _, k, hk, (f.push n).1, rfl, ?_, ?_, ?_⟩
  · rw [hnode, if_pos rfl, hkey]
  · rw [hnode, if_neg (Nat.ne_of_lt hn), if_pos rfl, hkey]
    rfl
  · intro m hm hmn
    rw [hnode, if_neg (Nat.ne_of_lt hm), if_neg hmn]

/-- A key was taken away and another one changed to the first number that was free; a sign and a
zero in front make other keys. -/
theorem push_appends_gap : ∃ steps f g, Run steps f ∧ f.keys 0 = ["5", "06", "+7", "6"] ∧
    f.push 0 = (g, 6) ∧ g.keys 0 = ["5", "06", "+7", "6", "7"] ∧ g.value 6 = .unset ∧
    g.node 2 = f.node 2 := by
  obtain ⟨steps, f, hrun, hsize, hkeys, hmap⟩ : ∃ steps f, Run steps f ∧ f.size = 6 ∧
      f.keys 0 = ["5", "06", "+7", "6"] ∧
      (f.children 0).childMap = [("5", 2), ("06", 4), ("+7", 5), ("6", 3)] :=
    ⟨_, _, .step (.rekey 3 "6") (.step (.erase 0 [.text "1"]) (.step (.ofArgs [("1", .unset),
      ("5", .text "e"), ("x", .text "f"), ("06", .unset), ("+7", .text "g")]) .start (by decide))
      (by decide)) (by decide), by decide, by decide, by decide⟩
  obtain ⟨-, k, hk, g, hpush, hnew, hnode, hrest⟩ := push_appends (show 0 < f.size by omega)
  rw [hsize] at hpush hnew hnode
  simp only [hkeys, child, Children.get?, hmap] at hk
  obtain rfl : k = 7 := by
    have hle : k ≤ 7 := hk.2 ⟨by decide, by decide⟩
    have hlt : 4 < k := hk.1.1
    have hfive : k ≠ 5 := fun h => absurd hk.1.2 (by rw [h]; decide)
    have hsix : k ≠ 6 := fun h => absurd hk.1.2 (by rw [h]; decide)
    omega
  refine ⟨steps, f, g, hrun, hkeys, hpush, ?_, ?_, hrest 2 (by omega) (by decide)⟩
  · rw [keys, children, hnode]
    exact congrArg (· ++ ["7"]) hkeys
  · rw [value, hnew]

end LayeredConf.Forest
