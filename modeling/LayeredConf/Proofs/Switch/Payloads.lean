import LayeredConf.Proofs.Switch.Evaluation
import LayeredConf.Proofs.Text.Escaped

/-!
# Payloads for any pairs

Pairs are written as a payload in two layers: in each pair the colons of key and text are escaped
before a colon joins them, and in what comes of it the commas are escaped before commas join the
pairs.  Reading takes the layers off in the other order, so that the pairs come back with every
comma, colon and backslash in place; only a backslash before a separator of its own layer would be
lost.

    payloadText pairs           the payload of a list of pairs
    pairsOf_payloadText         it is read back as these pairs
    evalSwitches_payloadText    a default that holds it adds these pairs
-/

namespace LayeredConf

namespace Switch

/-! ## The text of pairs -/

def pairText (e : String × String) : List Char := Text.join [':'] ['\\'] [e.1.toList, e.2.toList]

def payloadText (pairs : List (String × String)) : String :=
  String.ofList (Text.join [','] ['\\'] (pairs.map pairText))

theorem pairText_eq (e : String × String) : pairText e =
    Text.escape ':' '\\' e.1.toList ++ ':' :: Text.escape ':' '\\' e.2.toList := by
  rw [pairText, Text.join_cons _ (List.cons_ne_nil _ _), Text.join_singleton]

theorem pairOf_pairText {e : String × String} (h : ¬ ['\\'] <:+ e.1.toList) :
    pairOf (pairText e) = e := by
  have hcolon : ':' ≠ '\\' := by decide
  have hsplit : Text.splitN [':'] ['\\'] (pairText e) 2 = [e.1.toList, e.2.toList] := by
    show Text.splitAtMost [':'] ['\\'] 1 (pairText e) = _
    rw [pairText_eq, Text.splitAtMost_append hcolon (mt Text.singleton_suffix_iff.mpr h),
      Text.splitAtMost_escape hcolon]
  rw [pairOf, hsplit]
  exact Prod.ext (String.ofList_toList ..) (String.ofList_toList ..)

/-- A pair ends in a backslash only if its text does. -/
theorem suffix_of_pairText {e : String × String} (h : ['\\'] <:+ pairText e) :
    ['\\'] <:+ e.2.toList := by
  rw [Text.singleton_suffix_iff, pairText_eq, List.getLast?_append, List.getLast?_cons,
    Text.getLast?_escape] at h
  rw [Text.singleton_suffix_iff]
  cases hlast : e.2.toList.getLast? with
  | none => simp [hlast] at h
  | some c => simpa [hlast] using h

theorem pairsOf_payloadText {pairs : List (String × String)} (hne : pairs ≠ [])
    (hkeys : ∀ e ∈ pairs, ¬ ['\\'] <:+ e.1.toList)
    (htexts : ∀ e ∈ pairs.dropLast, ¬ ['\\'] <:+ e.2.toList) :
    pairsOf (payloadText pairs) = pairs := by
  have hparts : ∀ p ∈ (pairs.map pairText).dropLast, ¬ ['\\'] <:+ p := by
    rw [← List.map_dropLast, List.forall_mem_map]
    exact fun e he => mt suffix_of_pairText (htexts e he)
  rw [pairsOf, payloadText, String.toList_ofList,
    Text.split_join (by decide) (mt List.map_eq_nil_iff.mp hne) hparts, List.map_map]
  exact (List.map_congr_left fun e he => pairOf_pairText (hkeys e he)).trans (List.map_id _)

end Switch

namespace Forest

section

variable {f : Forest} {n case : NodeId} {earlier later : List NodeId}

/-! ## A case that is come to -/

theorem groupPairs_unnamed (f : Forest) (n group : NodeId) :
    f.groupPairs n false group = (f.payloads n (f.childIds group)).flatMap Switch.pairsOf :=
  List.flatMap_congr fun _ _ => List.map_id _

/-- The loop comes to a case if those before it that match go on. -/
theorem payloads_append {p : String}
    (hreached : ∀ c ∈ earlier, (f.payload? n c).isSome → f.continues c = true)
    (hp : f.payload? n case = some p) : f.payloads n (earlier ++ case :: later) =
      f.payloads n earlier ++ p :: if f.continues case then f.payloads n later else [] := by
  induction earlier with
  | nil =>
    rw [List.nil_append, payloads, payloads, hp]
    rfl
  | cons c earlier ih =>
    obtain ⟨hc, hearlier⟩ := List.forall_mem_cons.mp hreached
    rw [List.cons_append, payloads, payloads, ih hearlier]
    cases hq : f.payload? n c with
    | none => rfl
    | some q =>
      rw [hq] at hc
      simp [hc rfl]

end

/-- **A default can give any pairs.**  Where no key ends in a backslash, and no text but the last
does, evaluating groups under their own keys comes to a default that holds the payload of some pairs
and adds these pairs, in their order, between what came before and what comes after. -/
theorem evalSwitches_payloadText {f : Forest} {n : NodeId} {parts : List PathPart}
    (hparts : parts ≠ []) (hplain : (keyPath parts).getLast? ≠ some "*")
    {before after : List NodeId} {group : NodeId}
    (hgroups : f.findAll (some n) (keyPath parts) 0 = before ++ group :: after)
    {earlier later : List NodeId} {case m : NodeId}
    (hcases : f.childIds group = earlier ++ case :: later)
    (hreached : ∀ c ∈ earlier, (f.payload? n c).isSome → f.continues c = true)
    (hdefault : f.child case "default" = some m) {pairs : List (String × String)}
    (hne : pairs ≠ []) (hkeys : ∀ e ∈ pairs, ¬ ['\\'] <:+ e.1.toList)
    (htexts : ∀ e ∈ pairs.dropLast, ¬ ['\\'] <:+ e.2.toList)
    (hvalue : (f.value m).asText = Switch.payloadText pairs) :
    f.evalSwitches (some n) parts = .ofPairs (
      before.flatMap (f.groupPairs n false) ++ (f.payloads n earlier).flatMap Switch.pairsOf ++
      pairs ++
      (if f.continues case then f.payloads n later else []).flatMap Switch.pairsOf ++
      after.flatMap (f.groupPairs n false)) := by
  have hpayload : f.payload? n case = some (Switch.payloadText pairs) := by
    rw [payload?, hdefault]
    exact congrArg some hvalue
  have hunnamed : endsInWildcard (keyPath parts) = false := decide_eq_false hplain
  have hgroup : f.groupPairs n false group =
      (f.payloads n earlier).flatMap Switch.pairsOf ++ (pairs ++
        (if f.continues case then f.payloads n later else []).flatMap Switch.pairsOf) := by
    rw [groupPairs_unnamed, hcases, payloads_append hreached hpayload, List.flatMap_append,
      List.flatMap_cons, Switch.pairsOf_payloadText hne hkeys htexts]
  rw [evalSwitches_eq_ofPairs f n hparts, hunnamed, hgroups, List.flatMap_append,
    List.flatMap_cons, hgroup]
  simp only [List.append_assoc]

/-- Separators and backslashes in keys and texts, an empty key and a backslash at the end; a
default before goes on, and one behind is not come to. -/
theorem evalSwitches_payloadText_mixed : ∃ steps f, Run steps f ∧
    f.value 6 = .text "a\\:b:1\\,2,k\\\\,:x\\\\:y,:c\\" ∧
    f.findAll (some 0) (keyPath [.text "s"]) 0 = [1] ∧ f.childIds 1 = [2, 5, 7] ∧
    f.evalSwitches (some 0) [.text "s"] =
      ⟨[("value", ["first"]), ("a:b", ["1,2"]), ("k\\,", ["x\\:y"]), ("", ["c\\"])]⟩ := by
  obtain ⟨steps, f, hrun, hvalue, hgroups, hcases, hreached, hstops, hdefault, hfirst⟩ :
      ∃ steps f, Run steps f ∧
      f.value 6 = .text "a\\:b:1\\,2,k\\\\,:x\\\\:y,:c\\" ∧
      f.findAll (some 0) (keyPath [.text "s"]) 0 = [1] ∧ f.childIds 1 = [2, 5, 7] ∧
      (∀ c ∈ [2], (f.payload? 0 c).isSome → f.continues c = true) ∧ f.continues 5 = false ∧
      f.child 5 "default" = some 6 ∧ f.payloads 0 [2] = ["first"] :=
    ⟨_, _, .step (.ofArgs [("s.1.default", .text "first"), ("s.1.continue", .text "1"),
        ("s.2.default", .text "a\\:b:1\\,2,k\\\\,:x\\\\:y,:c\\"), ("s.3.default", .text "last")])
      .start (by decide), rfl, by decide, by decide, by decide, by decide, by decide, by decide⟩
  have hadded := evalSwitches_payloadText (show [PathPart.text "s"] ≠ [] by decide) (by decide)
    (show f.findAll (some 0) (keyPath [.text "s"]) 0 = [] ++ 1 :: [] from hgroups)
    (show f.childIds 1 = [2] ++ 5 :: [7] from hcases) hreached hdefault
    (show [("a:b", "1,2"), ("k\\,", "x\\:y"), ("", "c\\")] ≠ [] by decide) (by decide) (by decide)
    (by rw [hvalue]; decide +kernel)
  rw [hfirst, hstops, if_neg Bool.false_ne_true] at hadded
  simp only [List.flatMap_nil] at hadded
  exact ⟨steps, f, hrun, hvalue, hgroups, hcases, hadded.trans (by decide +kernel)⟩

end Forest

end LayeredConf
