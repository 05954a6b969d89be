import LayeredConf.Proofs.Lookup.Absolute
import LayeredConf.Proofs.Switch.Evaluation

/-!
# Entries of a case

A case that lists one key has an entry for each value that the key may have, and one under `*` for
all others.  The value that is read becomes a key of the path to look up below the case, so it
selects its own entry, and the one under `*` if it has none that holds anything.  Only the value `*`
is not taken for what it is: as a key of a path it matches every child of the case, and the first
that holds anything is taken.

    held? f e                what an entry holds
    selected? f case v       what a value selects: its own entry's, or that of the entry under `*`
    payload?_selects         a case matches with what the value selects, or for `*` the first entry
    payload?_takes_other     so `*` takes the entry of another value
-/

namespace LayeredConf.Forest

/-- What an entry of a case holds is its child `value`, or its child under `*`. -/
def held? (f : Forest) (e : NodeId) : Option NodeId := (f.child e "value").or (f.child e "*")

/-- What a value selects in a case. -/
def selected? (f : Forest) (case : NodeId) (v : String) : Option NodeId :=
  ((f.child case v).bind f.held?).or ((f.child case "*").bind f.held?)

section

variable {f : Forest} {case : NodeId}

/-! ## Looking up an entry -/

theorem findSome?_toList {α β : Type} (g : α → Option β) (o : Option α) :
    o.toList.findSome? g = o.bind g := by
  cases o with
  | none => rfl
  | some a => exact List.findSome?_singleton

theorem findSome?_branches (g : NodeId → Option NodeId) (v : String) :
    (f.branches v case).findSome? g = if v = "*" then (f.childIds case).findSome? g
      else ((f.child case v).bind g).or ((f.child case "*").bind g) := by
  rw [branches, wildcard]
  split
  · rfl
  · rw [List.findSome?_append, findSome?_toList, findSome?_toList]

theorem head?_matchesBelow_value (e : NodeId) :
    (f.matchesBelow ["value"] e).head? = f.held? e := by
  rw [matchesBelow, List.head?_flatMap]
  exact (findSome?_branches some "value").trans (by simp [held?])

/-- In a tree that inherits from nothing, a value leads to what the first of its branches holds. -/
theorem find?_entry (hscope : f.outer? case = none) (v : String) :
    f.find? (some case) [v, "value"] = if v = "*" then (f.childIds case).findSome? f.held?
      else f.selected? case v := by
  rw [find?_eq_head? (.of_none hscope) (List.cons_ne_nil _ _), findAll_eq_matchesBelow hscope,
    matchesBelow, List.head?_flatMap, funext head?_matchesBelow_value]
  exact findSome?_branches f.held? v

end

/-- **A value selects an entry.**  In a tree that inherits from nothing, a case without a default
that lists one key without a question mark matches with what the value of that key selects, if it is
a text without dots.  The one exception is `*`, for which the first entry counts that holds
anything. -/
theorem payload?_selects {f : Forest} {n case list m : NodeId} {name v : String}
    (hscope : f.outer? case = none) (hdefault : f.child case "default" = none)
    (hkeys : f.child case "keys" = some list) (hone : f.childIds list = [m])
    (hname : (f.value m).asText = name) (hliteral : name.toList.head? ≠ some '?')
    (hv : (f.find? (some n) (dottedKeys name)).elim "" (fun o => (f.value o).asText) = v)
    (hdot : '.' ∉ v.toList) :
    (v ≠ "*" → f.payload? n case = (f.selected? case v).map fun o => (f.value o).asText) ∧
    (v = "*" → f.payload? n case =
      ((f.childIds case).findSome? f.held?).map fun o => (f.value o).asText) := by
  have hpath : f.probePath n list = [v, "value"] := by
    rw [probePath, hone, List.map_singleton, List.flatMap_singleton, hname, probe_value hliteral,
      hv, dottedKeys_eq_singleton hdot]
    rfl
  have hpayload : f.payload? n case =
      (f.find? (some case) [v, "value"]).map fun o => (f.value o).asText := by
    rw [payload?, hdefault, hkeys, ← hpath]
  rw [hpayload, find?_entry hscope]
  refine ⟨fun hne => ?_, fun he => ?_⟩
  · rw [if_neg hne]
  · rw [if_pos he]

/-- The entry of the value holds nothing, so the entry under `*` counts. -/
theorem payload?_selects_catchAll : ∃ steps f, Run steps f ∧ f.outer? 3 = none ∧
    f.child 3 "a" = some 6 ∧ f.held? 6 = none ∧ f.child 3 "*" = some 8 ∧
    f.payload? 0 3 = some "rest" := by
  obtain ⟨steps, f, hrun, hscope, hdefault, hkeys, hone, hname, hv, ha, hheld, hstar, hselected,
      hvalue⟩ : ∃ steps f, Run steps f ∧ f.outer? 3 = none ∧ f.child 3 "default" = none ∧
      f.child 3 "keys" = some 4 ∧ f.childIds 4 = [5] ∧ (f.value 5).asText = "x" ∧
      (f.find? (some 0) (dottedKeys "x")).elim "" (fun o => (f.value o).asText) = "a" ∧
      f.child 3 "a" = some 6 ∧ f.held? 6 = none ∧ f.child 3 "*" = some 8 ∧
      f.selected? 3 "a" = some 9 ∧ (f.value 9).asText = "rest" :=
    ⟨_, _, .step (.ofArgs [("x", .text "a"), ("s.1.keys.k", .text "x"), ("s.1.a.b", .text "c"),
        ("s.1.*.value", .text "rest")]) .start (by decide), by decide, by decide, by decide,
      by decide, by decide +kernel, by decide +kernel, by decide, by decide, by decide, by decide,
      by decide +kernel⟩
  have hpayload := (payload?_selects hscope hdefault hkeys hone hname (by decide) hv
    (by decide)).1 (by decide)
  rw [hselected, Option.map_some, hvalue] at hpayload
  exact ⟨steps, f, hrun, hscope, ha, hheld, hstar, hpayload⟩

/-- The value `*` has no entry, and there is none for all others; yet the case matches with the
entry of another value. -/
theorem payload?_takes_other : ∃ steps f, Run steps f ∧ f.outer? 3 = none ∧
    f.child 3 "default" = none ∧ f.child 3 "keys" = some 4 ∧ f.childIds 4 = [5] ∧
    (f.value 5).asText = "x" ∧
    (f.find? (some 0) (dottedKeys "x")).elim "" (fun o => (f.value o).asText) = "*" ∧
    f.selected? 3 "*" = none ∧ f.selected? 3 "a" = some 7 ∧ f.payload? 0 3 = some "other" :=
  ⟨_, _, .step (.ofArgs [("x", .text "*"), ("s.1.keys.k", .text "x"),
      ("s.1.a.value", .text "other")]) .start (by decide), by decide, by decide, by decide,
    by decide, by decide +kernel, by decide +kernel, by decide +kernel, by decide +kernel,
    by decide +kernel⟩

end LayeredConf.Forest
